import Mathlib.Logic.Function.Basic
import Mathlib.Order.Basic

/-!
# Memory, ranges and what a copy leaves behind

Every algorithm modelled here works through random-access iterators, and a random-access iterator
into a buffer is, for all the algorithms look at, an address.  So a buffer is `Memory α`, the
element stored at every address, and an iterator is a `Nat`.  Advancing an iterator is addition;
`*p = v` is `Function.update m p v`.

Two readings of memory recur in every specification below:

* `Memory.readRange m p n` is the list of the `n` elements from `p` on — what a
  `temporary_array` built from `[p, p + n)` holds, and what a specification compares against;
* `Memory.writeRange m p vs` is `m` with `vs` stored from `p` on, first to last — what
  `thrust::copy` leaves when its source does not overlap its destination.

The two lemmas about `writeRange` that everything else uses are `writeRange_apply_of_lt` (inside
the destination, the copied element) and `writeRange_apply_of_not_mem` (outside it, the old one).

A pair of iterators `[first, last)` is an `IterRange`, which carries `first ≤ last` with it: that
is the standard's "valid range", the precondition of every algorithm here, and what makes the
`first != last` loops of the source terminate.
-/

set_option autoImplicit false

namespace Thrust

/-- The elements of a buffer, by address.  An iterator into it is an address. -/
abbrev Memory (α : Type) := Nat → α

namespace Memory

variable {α : Type}

/-- The `n` elements stored from `p` on, in order. -/
def readRange (m : Memory α) (p : Nat) : Nat → List α
  | 0 => []
  | n + 1 => m p :: readRange m (p + 1) n

/-- `m` with `vs` stored from `p` on, first element first. -/
def writeRange (m : Memory α) (p : Nat) : List α → Memory α
  | [] => m
  | v :: vs => writeRange (Function.update m p v) (p + 1) vs

@[simp] theorem readRange_zero (m : Memory α) (p : Nat) : readRange m p 0 = [] := rfl

@[simp] theorem readRange_succ (m : Memory α) (p n : Nat) :
    readRange m p (n + 1) = m p :: readRange m (p + 1) n := rfl

@[simp] theorem length_readRange (m : Memory α) (p n : Nat) : (readRange m p n).length = n := by
  induction n generalizing p with
  | zero => rfl
  | succ n ih => simp [ih]

@[simp] theorem getElem_readRange (m : Memory α) (p n i : Nat) (h : i < (readRange m p n).length) :
    (readRange m p n)[i] = m (p + i) := by
  induction n generalizing p i with
  | zero => simp at h
  | succ n ih =>
    cases i with
    | zero => rfl
    | succ i => simp only [readRange_succ, List.getElem_cons_succ, ih]; congr 1; omega

/-- The first `k` elements of a range are the range of `k` elements. -/
theorem take_readRange (m : Memory α) (p : Nat) {k n : Nat} (h : k ≤ n) :
    (readRange m p n).take k = readRange m p k :=
  List.ext_getElem (by simpa using Nat.min_eq_left h) fun i _ _ ↦ by simp

/-- A range reads the same from two memories that agree on it. -/
theorem readRange_congr {m m' : Memory α} {p n : Nat} (h : ∀ i < n, m (p + i) = m' (p + i)) :
    readRange m p n = readRange m' p n :=
  List.ext_getElem (by simp) fun i hi _ ↦ by simpa using h i (by simpa using hi)

@[simp] theorem writeRange_nil (m : Memory α) (p : Nat) : writeRange m p [] = m := rfl

@[simp] theorem writeRange_cons (m : Memory α) (p : Nat) (v : α) (vs : List α) :
    writeRange m p (v :: vs) = writeRange (Function.update m p v) (p + 1) vs := rfl

/-- Outside the destination, `writeRange` leaves memory as it was. -/
theorem writeRange_apply_of_not_mem (m : Memory α) (p : Nat) (vs : List α) {q : Nat}
    (hq : q < p ∨ p + vs.length ≤ q) : writeRange m p vs q = m q := by
  induction vs generalizing m p with
  | nil => rfl
  | cons v vs ih =>
    simp only [List.length_cons] at hq
    rw [writeRange_cons, ih _ _ (by omega), Function.update_noteq (by omega)]

/-- Inside the destination, `writeRange` leaves the copied element. -/
theorem writeRange_apply_of_lt (m : Memory α) (p : Nat) (vs : List α) {i : Nat}
    (hi : i < vs.length) : writeRange m p vs (p + i) = vs[i] := by
  induction vs generalizing m p i with
  | nil => simp at hi
  | cons v vs ih =>
    rw [writeRange_cons]
    cases i with
    | zero =>
      rw [writeRange_apply_of_not_mem _ _ _ (by omega), Nat.add_zero, Function.update_same]; rfl
    | succ i =>
      rw [show p + (i + 1) = p + 1 + i by omega, ih _ _ (by simpa using hi)]
      rfl

/-- Writing back what a range already holds changes nothing. -/
theorem writeRange_readRange (m : Memory α) (p n : Nat) : writeRange m p (readRange m p n) = m := by
  induction n generalizing p with
  | zero => rfl
  | succ n ih => rw [readRange_succ, writeRange_cons, Function.update_eq_self, ih]

/-- What `writeRange` stored reads back. -/
theorem readRange_writeRange (m : Memory α) (p : Nat) (vs : List α) :
    readRange (writeRange m p vs) p vs.length = vs := by
  refine List.ext_getElem (by simp) fun i _ h ↦ ?_
  rw [getElem_readRange, writeRange_apply_of_lt _ _ _ h]

end Memory

/-- A valid range `[first, last)` of iterators: `last` is reachable from `first`. -/
structure IterRange where
  /-- The first iterator of the range. -/
  first : Nat
  /-- The iterator one past the end. -/
  last : Nat
  /-- `last` is reachable from `first` by incrementing. -/
  valid : first ≤ last
  deriving DecidableEq, Repr

/-- `last - first`, the number of elements of the range. -/
def IterRange.size (r : IterRange) : Nat := r.last - r.first

theorem IterRange.last_eq (r : IterRange) : r.last = r.first + r.size := by
  have := r.valid; unfold size; omega

/-- A range of `r.size` elements from `p ≠ first` that overlaps `r` starts `d` away from it, for
some `0 < d < r.size`. -/
theorem IterRange.exists_offset_of_overlap (r : IterRange) {p : Nat} (hne : p ≠ r.first)
    (hlt : p < r.last) (hgt : r.first < p + r.size) :
    ∃ d, 0 < d ∧ d < r.size ∧ (p = r.first + d ∨ r.first = p + d) := by
  have := r.last_eq
  rcases Nat.lt_or_ge r.first p with h | h
  · exact ⟨p - r.first, by omega, by omega, .inl (by omega)⟩
  · exact ⟨r.first - p, by omega, by omega, .inr (by omega)⟩

end Thrust
