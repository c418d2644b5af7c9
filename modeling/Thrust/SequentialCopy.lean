import Thrust.Memory
import Mathlib.Logic.Function.Iterate
import Mathlib.Logic.Nontrivial.Defs
import Mathlib.Data.Nat.Defs

/-!
# `sequential_copy` and `sequential_copy_backward`

`thrust/detail/overlapped_copy.h` opens with two hand-written copy loops,

```cpp
for (; first != last; ++first, ++result) *result = *first;   // sequential_copy
while (first != last) *--result = *--last;                     // sequential_copy_backward
```

and `overlapped_copy` runs them inside one buffer, so whether they copy at all is a question
about where the destination sits relative to `[first, last)`.  This file answers it exactly.

* `copyLoop` and `copyBackwardLoop` are the loops as written: a `!=` test and a body,
  `copyStep` or `copyBackwardStep`.  `copyLoop_eq_iterate` says the loop runs its body exactly
  `last - first` times.
* `iterate_copyStep_mem` is the loop invariant, and it is exact.  After `k` iterations the
  destination `d + i` holds the source element at offset `forwardSource first d i`.  That is `i`
  unless the destination starts strictly after `first`: then the loop reads back what it has
  just written, and the first `d - first` elements repeat through the rest of the destination.
* `sequentialCopy_apply` is the whole buffer after the loop, and `sequentialCopy_spec_iff` the
  characterisation: the loop copies, whatever the buffer holds, exactly when `d` is not strictly
  inside `(first, last)`.

The backward loop is the mirror image; its destination `e` is the end of the range it writes, so
it copies exactly when `e` is not strictly inside `(first, last)`, and otherwise repeats the last
`last - e` elements (`sequentialCopyBackward_overlap_repeats`).  `sequentialCopies_spec_iff`
states the two characterisations together.
-/

set_option autoImplicit false

namespace Thrust
namespace Detail

open Memory

variable {α : Type}

/-! ## The two loops -/

/-- The state of either copy loop: the buffer, the iterator it reads through and the iterator it
writes through. -/
structure CopyState (α : Type) where
  /-- The buffer. -/
  mem : Memory α
  /-- `first` in `sequential_copy`, `last` in `sequential_copy_backward`. -/
  src : Nat
  /-- `result`. -/
  dst : Nat

/-- One iteration of `sequential_copy`: `*result = *first; ++first, ++result`. -/
def copyStep (s : CopyState α) : CopyState α :=
  ⟨Function.update s.mem s.dst (s.mem s.src), s.src + 1, s.dst + 1⟩

/-- `for (; first != last; ...)`, from a state whose `first` has not passed `last`. -/
def copyLoop (last : Nat) (s : CopyState α) (h : s.src ≤ last) : CopyState α :=
  if hne : s.src = last then s else copyLoop last (copyStep s) (by simp only [copyStep]; omega)
termination_by last - s.src
decreasing_by simp only [copyStep]; omega

/-- `sequential_copy(first, last, result)`: the buffer it leaves and the iterator it returns. -/
def sequentialCopy (m : Memory α) (r : IterRange) (result : Nat) : Memory α × Nat :=
  let s := copyLoop r.last ⟨m, r.first, result⟩ r.valid
  (s.mem, s.dst)

/-- One iteration of `sequential_copy_backward`: `*--result = *--last`. -/
def copyBackwardStep (s : CopyState α) : CopyState α :=
  ⟨Function.update s.mem (s.dst - 1) (s.mem (s.src - 1)), s.src - 1, s.dst - 1⟩

/-- `while (first != last)`, from a state whose `last` has not passed `first`. -/
def copyBackwardLoop (first : Nat) (s : CopyState α) (h : first ≤ s.src) : CopyState α :=
  if hne : first = s.src then s
  else copyBackwardLoop first (copyBackwardStep s) (by simp only [copyBackwardStep]; omega)
termination_by s.src - first
decreasing_by simp only [copyBackwardStep]; omega

/-- `sequential_copy_backward(first, last, result)`: the buffer it leaves and the iterator it
returns. -/
def sequentialCopyBackward (m : Memory α) (r : IterRange) (result : Nat) : Memory α × Nat :=
  let s := copyBackwardLoop r.first ⟨m, r.last, result⟩ r.valid
  (s.mem, s.dst)

/-- The forward loop runs its body exactly `last - first` times. -/
theorem copyLoop_eq_iterate (last : Nat) (s : CopyState α) (h : s.src ≤ last) :
    copyLoop last s h = copyStep^[last - s.src] s := by
  induction s, h using copyLoop.induct last with
  | case1 s h hne => rw [copyLoop, dif_pos hne, hne, Nat.sub_self]; rfl
  | case2 s h hne ih =>
    rw [copyLoop, dif_neg hne, ih, show last - s.src = last - (copyStep s).src + 1 by
      simp only [copyStep]; omega]
    rfl

/-- The backward loop runs its body exactly `last - first` times. -/
theorem copyBackwardLoop_eq_iterate (first : Nat) (s : CopyState α) (h : first ≤ s.src) :
    copyBackwardLoop first s h = copyBackwardStep^[s.src - first] s := by
  induction s, h using copyBackwardLoop.induct first with
  | case1 s h hne => rw [copyBackwardLoop, dif_pos hne, hne, Nat.sub_self]; rfl
  | case2 s h hne ih =>
    rw [copyBackwardLoop, dif_neg hne, ih, show s.src - first = (copyBackwardStep s).src - first + 1
      by simp only [copyBackwardStep]; omega]
    rfl

/-! ## The forward loop's invariant -/

/-- The offset, within the source, of the element the forward loop leaves at `d + i`.  When the
destination starts strictly after `first`, the loop re-reads its own writes, and the offsets
cycle with period `d - first`. -/
def forwardSource (first d i : Nat) : Nat := if first < d then i % (d - first) else i

@[simp] theorem iterate_copyStep_src (s : CopyState α) (k : Nat) :
    (copyStep^[k] s).src = s.src + k := by
  induction k generalizing s with
  | zero => rfl
  | succ k ih => rw [Function.iterate_succ_apply, ih]; simp only [copyStep]; omega

@[simp] theorem iterate_copyStep_dst (s : CopyState α) (k : Nat) :
    (copyStep^[k] s).dst = s.dst + k := by
  induction k generalizing s with
  | zero => rfl
  | succ k ih => rw [Function.iterate_succ_apply, ih]; simp only [copyStep]; omega

/-- What iteration `k` reads, `first + k`, is the source element at offset
`forwardSource first d k`: the original, or one the loop wrote `d - first` iterations before. -/
theorem forwardSource_read (a : Memory α) (f d k : Nat) :
    (if d ≤ f + k ∧ f + k < d + k then a (f + forwardSource f d (f + k - d)) else a (f + k)) =
      a (f + forwardSource f d k) := by
  unfold forwardSource
  by_cases hfd : f < d
  · by_cases hk : d ≤ f + k
    · rw [if_pos ⟨hk, by omega⟩, if_pos hfd, if_pos hfd, Nat.mod_eq_sub_mod (a := k) (by omega),
        show k - (d - f) = f + k - d by omega]
    · rw [if_neg (by omega), if_pos hfd, Nat.mod_eq_of_lt (by omega)]
  · rw [if_neg (by omega), if_neg hfd]

/-- **The forward loop's invariant.**  After `k` iterations from `⟨a, f, d⟩`, the destination
`[d, d + k)` holds the source elements at the offsets `forwardSource f d`, and every other
address holds what it held before. -/
theorem iterate_copyStep_mem (a : Memory α) (f d k p : Nat) :
    (copyStep^[k] ⟨a, f, d⟩).mem p =
      if d ≤ p ∧ p < d + k then a (f + forwardSource f d (p - d)) else a p := by
  induction k generalizing p with
  | zero => rw [if_neg (by omega)]; rfl
  | succ k ih =>
    rw [Function.iterate_succ_apply']
    simp only [copyStep, iterate_copyStep_src, iterate_copyStep_dst, Function.update_apply]
    by_cases hp : p = d + k
    · rw [if_pos hp, ih, forwardSource_read, if_pos ⟨by omega, by omega⟩, hp,
        Nat.add_sub_cancel_left]
    · rw [if_neg hp, ih]
      by_cases hin : d ≤ p ∧ p < d + k
      · rw [if_pos hin, if_pos ⟨hin.1, by omega⟩]
      · rw [if_neg hin, if_neg (by omega)]

/-- The buffer after `sequential_copy`, at every address. -/
theorem sequentialCopy_apply (a : Memory α) (r : IterRange) (d p : Nat) :
    (sequentialCopy a r d).1 p =
      if d ≤ p ∧ p < d + r.size then a (r.first + forwardSource r.first d (p - d)) else a p := by
  simp only [sequentialCopy, copyLoop_eq_iterate]
  exact iterate_copyStep_mem a _ _ _ p

theorem sequentialCopy_snd (a : Memory α) (r : IterRange) (d : Nat) :
    (sequentialCopy a r d).2 = d + r.size := by
  simp only [sequentialCopy, copyLoop_eq_iterate, iterate_copyStep_dst]; rfl

/-- **An overlapping forward copy repeats its head.**  When the destination starts strictly after
`first`, `sequential_copy` leaves at `d + i` the source element at offset `i % (d - first)`: the
first `d - first` elements, over and over. -/
theorem sequentialCopy_overlap_repeats (a : Memory α) (r : IterRange) {d i : Nat}
    (hd : r.first < d) (hi : i < r.size) :
    (sequentialCopy a r d).1 (d + i) = a (r.first + i % (d - r.first)) := by
  rw [sequentialCopy_apply, if_pos ⟨by omega, by omega⟩, Nat.add_sub_cancel_left, forwardSource,
    if_pos hd]

theorem sequentialCopy_overlap_repeats_at :
    0 < 2 ∧ 4 < (⟨0, 5, by decide⟩ : IterRange).size ∧
      (sequentialCopy (fun p ↦ p) ⟨0, 5, by decide⟩ 2).1 (2 + 4) = 0 + 4 % (2 - 0) :=
  ⟨by decide, by decide, sequentialCopy_overlap_repeats _ _ (by decide) (by decide)⟩

/-- The offsets are the identity below `n` exactly when they do not cycle there: the destination
does not start strictly after `f`, or it starts at least `n` past it. -/
theorem forwardSource_eq_self_iff (f d n : Nat) :
    (∀ i < n, forwardSource f d i = i) ↔ ¬(f < d ∧ d - f < n) := by
  unfold forwardSource
  constructor
  · rintro h ⟨hfd, hn⟩
    have := h (d - f) hn
    rw [if_pos hfd, Nat.mod_self] at this
    omega
  · intro h i hi
    split_ifs with hfd
    · exact Nat.mod_eq_of_lt (by omega)
    · rfl

/-- `sequential_copy(first, last, d)` copies, whatever the buffer holds: it runs its body exactly
`last - first` times, returns `d + (last - first)`, leaves `[first, last)` at `d` and every other
address as it was. -/
def ForwardCopies (α : Type) (r : IterRange) (d : Nat) : Prop :=
  ∀ a : Memory α,
    copyLoop r.last ⟨a, r.first, d⟩ r.valid = copyStep^[r.size] ⟨a, r.first, d⟩ ∧
    (sequentialCopy a r d).2 = d + r.size ∧
    (∀ i < r.size, (sequentialCopy a r d).1 (d + i) = a (r.first + i)) ∧
    ∀ p, p < d ∨ d + r.size ≤ p → (sequentialCopy a r d).1 p = a p

/-- The forward loop copies whenever `d` is not strictly inside `(first, last)`. -/
theorem forwardCopies_of_not_inside {r : IterRange} {d : Nat} (h : ¬(r.first < d ∧ d < r.last)) :
    ForwardCopies α r d := by
  replace h := (forwardSource_eq_self_iff r.first d r.size).2 (by have := r.last_eq; omega)
  intro a
  refine ⟨copyLoop_eq_iterate _ _ _, sequentialCopy_snd a r d, fun i hi ↦ ?_, fun p hp ↦ ?_⟩
  · rw [sequentialCopy_apply, if_pos ⟨by omega, by omega⟩, Nat.add_sub_cancel_left, h i hi]
  · rw [sequentialCopy_apply, if_neg (by omega)]

/-- **When the forward loop copies**: exactly when `d` is not strictly inside `(first, last)`.
(A buffer of one possible value is never wrong, hence `Nontrivial`.) -/
theorem sequentialCopy_spec_iff [Nontrivial α] (r : IterRange) (d : Nat) :
    ForwardCopies α r d ↔ ¬(r.first < d ∧ d < r.last) := by
  refine ⟨fun h ↦ ?_, forwardCopies_of_not_inside⟩
  suffices ¬(r.first < d ∧ d - r.first < r.size) by have := r.last_eq; omega
  rw [← forwardSource_eq_self_iff]
  intro i hi
  by_contra hne
  obtain ⟨x, y, hxy⟩ := exists_pair_ne α
  have hcopy := (h fun q ↦ if q = r.first + i then y else x).2.2.1 i hi
  rw [sequentialCopy_apply, if_pos ⟨by omega, by omega⟩, Nat.add_sub_cancel_left, if_pos rfl,
    if_neg (by omega)] at hcopy
  exact hxy hcopy

/-! ## The backward loop's invariant -/

/-- How far before `last - 1` lies the source element the backward loop leaves at `e - 1 - i`.
When `e` is strictly before `last`, the loop re-reads its own writes, and the offsets cycle with
period `last - e`. -/
def backwardSource (last e i : Nat) : Nat := if e < last then i % (last - e) else i

theorem backwardSource_le (last e i : Nat) : backwardSource last e i ≤ i := by
  unfold backwardSource; split_ifs
  · exact Nat.mod_le _ _
  · exact Nat.le_refl _

@[simp] theorem iterate_copyBackwardStep_src (s : CopyState α) (k : Nat) :
    (copyBackwardStep^[k] s).src = s.src - k := by
  induction k generalizing s with
  | zero => rfl
  | succ k ih => rw [Function.iterate_succ_apply, ih]; simp only [copyBackwardStep]; omega

@[simp] theorem iterate_copyBackwardStep_dst (s : CopyState α) (k : Nat) :
    (copyBackwardStep^[k] s).dst = s.dst - k := by
  induction k generalizing s with
  | zero => rfl
  | succ k ih => rw [Function.iterate_succ_apply, ih]; simp only [copyBackwardStep]; omega

/-- What iteration `k` reads, `l - k - 1`, is the source element `backwardSource l e k` before
`l - 1`. -/
theorem backwardSource_read (a : Memory α) (l e k : Nat) (hl : k < l) (he : k < e) :
    (if e - k ≤ l - k - 1 ∧ l - k - 1 < e then
        a (l - 1 - backwardSource l e (e - 1 - (l - k - 1))) else a (l - k - 1)) =
      a (l - 1 - backwardSource l e k) := by
  unfold backwardSource
  by_cases hel : e < l
  · by_cases hk : l - e ≤ k
    · rw [if_pos ⟨by omega, by omega⟩, if_pos hel, if_pos hel, Nat.mod_eq_sub_mod (a := k) hk,
        show k - (l - e) = e - 1 - (l - k - 1) by omega]
    · rw [if_neg (by omega), if_pos hel, Nat.mod_eq_of_lt (by omega)]; congr 1; omega
  · rw [if_neg (by omega), if_neg hel]; congr 1; omega

/-- **The backward loop's invariant.**  After `k` iterations from `⟨a, l, e⟩`, the destination
`[e - k, e)` holds, at `e - 1 - i`, the source element `backwardSource l e i` before `l - 1`,
and every other address holds what it held before. -/
theorem iterate_copyBackwardStep_mem (a : Memory α) (l e k p : Nat) (hl : k ≤ l) (he : k ≤ e) :
    (copyBackwardStep^[k] ⟨a, l, e⟩).mem p =
      if e - k ≤ p ∧ p < e then a (l - 1 - backwardSource l e (e - 1 - p)) else a p := by
  induction k generalizing p with
  | zero => rw [if_neg (by omega)]; rfl
  | succ k ih =>
    rw [Function.iterate_succ_apply']
    simp only [copyBackwardStep, iterate_copyBackwardStep_src, iterate_copyBackwardStep_dst,
      Function.update_apply]
    by_cases hp : p = e - k - 1
    · rw [if_pos hp, ih _ (by omega) (by omega), backwardSource_read a l e k (by omega) (by omega),
        if_pos ⟨by omega, by omega⟩, show e - 1 - p = k by omega]
    · rw [if_neg hp, ih _ (by omega) (by omega)]
      by_cases hin : e - k ≤ p ∧ p < e
      · rw [if_pos hin, if_pos ⟨by omega, hin.2⟩]
      · rw [if_neg hin, if_neg (by omega)]

/-- The buffer after `sequential_copy_backward`, at every address, for a destination end `e`
that leaves room for the range before it. -/
theorem sequentialCopyBackward_apply (a : Memory α) (r : IterRange) {e : Nat} (he : r.size ≤ e)
    (p : Nat) : (sequentialCopyBackward a r e).1 p =
      if e - r.size ≤ p ∧ p < e then a (r.last - 1 - backwardSource r.last e (e - 1 - p))
      else a p := by
  simp only [sequentialCopyBackward, copyBackwardLoop_eq_iterate]
  exact iterate_copyBackwardStep_mem a _ _ _ p (Nat.sub_le _ _) he

theorem sequentialCopyBackward_snd (a : Memory α) (r : IterRange) (e : Nat) :
    (sequentialCopyBackward a r e).2 = e - r.size := by
  simp only [sequentialCopyBackward, copyBackwardLoop_eq_iterate, iterate_copyBackwardStep_dst]
  rfl

/-- **An overlapping backward copy repeats its tail.**  When the destination ends strictly before
`last`, `sequential_copy_backward` leaves at `e - 1 - i` the element `i % (last - e)` before
`last - 1`: the last `last - e` elements of the source, over and over. -/
theorem sequentialCopyBackward_overlap_repeats (a : Memory α) (r : IterRange) {e i : Nat}
    (he : r.size ≤ e) (hel : e < r.last) (hi : i < r.size) :
    (sequentialCopyBackward a r e).1 (e - 1 - i) = a (r.last - 1 - i % (r.last - e)) := by
  rw [sequentialCopyBackward_apply a r he, if_pos ⟨by omega, by omega⟩,
    show e - 1 - (e - 1 - i) = i by omega, backwardSource, if_pos hel]

theorem sequentialCopyBackward_overlap_repeats_at :
    (⟨3, 8, by decide⟩ : IterRange).size ≤ 6 ∧ 6 < (⟨3, 8, by decide⟩ : IterRange).last ∧
      4 < (⟨3, 8, by decide⟩ : IterRange).size ∧
      (sequentialCopyBackward (fun p ↦ p) ⟨3, 8, by decide⟩ 6).1 (6 - 1 - 4) =
        (⟨3, 8, by decide⟩ : IterRange).last - 1 - 4 % ((⟨3, 8, by decide⟩ : IterRange).last - 6) :=
  ⟨by decide, by decide, by decide,
    sequentialCopyBackward_overlap_repeats _ _ (by decide) (by decide) (by decide)⟩

/-- The backward offsets are the forward ones with the roles of the two ends exchanged. -/
theorem backwardSource_eq_forwardSource (l e : Nat) : backwardSource l e = forwardSource e l :=
  rfl

/-- `sequential_copy_backward(first, last, e)` copies, whatever the buffer holds: it runs its
body exactly `last - first` times, returns `e - (last - first)`, leaves `[first, last)` ending at
`e` and every other address as it was. -/
def BackwardCopies (α : Type) (r : IterRange) (e : Nat) : Prop :=
  ∀ a : Memory α,
    copyBackwardLoop r.first ⟨a, r.last, e⟩ r.valid = copyBackwardStep^[r.size] ⟨a, r.last, e⟩ ∧
    (sequentialCopyBackward a r e).2 = e - r.size ∧
    (∀ i < r.size, (sequentialCopyBackward a r e).1 (e - r.size + i) = a (r.first + i)) ∧
    ∀ p, p < e - r.size ∨ e ≤ p → (sequentialCopyBackward a r e).1 p = a p

/-- The backward loop copies whenever `e` leaves room for the range before it and is not strictly
inside `(first, last)`. -/
theorem backwardCopies_of_not_inside {r : IterRange} {e : Nat} (he : r.size ≤ e)
    (h : ¬(r.first < e ∧ e < r.last)) : BackwardCopies α r e := by
  have hl := r.last_eq
  replace h := (forwardSource_eq_self_iff e r.last r.size).2 (by omega)
  rw [← backwardSource_eq_forwardSource] at h
  intro a
  refine ⟨copyBackwardLoop_eq_iterate _ _ _, sequentialCopyBackward_snd a r e, fun i hi ↦ ?_,
    fun p hp ↦ ?_⟩
  · rw [sequentialCopyBackward_apply _ _ he, if_pos ⟨by omega, by omega⟩,
      show e - 1 - (e - r.size + i) = r.size - 1 - i by omega, h _ (by omega)]
    congr 1; omega
  · rw [sequentialCopyBackward_apply _ _ he, if_neg (by omega)]

/-- **When the backward loop copies**: for a destination end `e` with room for the range before
it, exactly when `e` is not strictly inside `(first, last)`. -/
theorem sequentialCopyBackward_spec_iff [Nontrivial α] (r : IterRange) {e : Nat}
    (he : r.size ≤ e) : BackwardCopies α r e ↔ ¬(r.first < e ∧ e < r.last) := by
  refine ⟨fun h ↦ ?_, backwardCopies_of_not_inside he⟩
  have hl := r.last_eq
  suffices ¬(e < r.last ∧ r.last - e < r.size) by omega
  rw [← forwardSource_eq_self_iff, ← backwardSource_eq_forwardSource]
  intro i hi
  by_contra hne
  have hle := backwardSource_le r.last e i
  obtain ⟨x, y, hxy⟩ := exists_pair_ne α
  have hcopy := (h fun q ↦ if q = r.last - 1 - i then y else x).2.2.1 (r.size - 1 - i) (by omega)
  rw [sequentialCopyBackward_apply _ _ he, if_pos ⟨by omega, by omega⟩,
    show e - 1 - (e - r.size + (r.size - 1 - i)) = i by omega, if_neg (by omega),
    if_pos (by omega)] at hcopy
  exact hxy hcopy

/-- **The two loops of `overlapped_copy.h`.**  Each copies, for every content of the buffer,
exactly when its destination iterator is not strictly inside `(first, last)`. -/
theorem sequentialCopies_spec_iff [Nontrivial α] (r : IterRange) (d : Nat) {e : Nat}
    (he : r.size ≤ e) :
    (ForwardCopies α r d ↔ ¬(r.first < d ∧ d < r.last)) ∧
      (BackwardCopies α r e ↔ ¬(r.first < e ∧ e < r.last)) :=
  ⟨sequentialCopy_spec_iff r d, sequentialCopyBackward_spec_iff r he⟩

theorem sequentialCopies_spec_iff_nat :
    (⟨0, 4, by decide⟩ : IterRange).size ≤ 6 ∧
      ((ForwardCopies Nat ⟨0, 4, by decide⟩ 2 ↔ ¬((0 : Nat) < 2 ∧ 2 < 4)) ∧
        (BackwardCopies Nat ⟨0, 4, by decide⟩ 6 ↔ ¬((0 : Nat) < 6 ∧ 6 < 4))) :=
  ⟨by decide, sequentialCopies_spec_iff ⟨0, 4, by decide⟩ 2 (by decide)⟩

end Detail
end Thrust
