import Thrust.Memory

/-!
# The `remove` family on the CUDA backend

`thrust/system/cuda/detail/remove.h` builds every member of the family on a selection:

* `remove_if(first, last[, stencil], pred)` dispatches through `THRUST_CDP_DISPATCH` either to
  `detail::copy_if<SelectPotentiallyInPlace>(first, last[, stencil], first, not_fn(pred))`, which
  writes the kept elements back over the input, or to the sequential `remove_if`;
* `remove(first, last, value)` is `remove_if` with `_1 == value`;
* `remove_copy_if` is `copy_if` with `not_fn(pred)` into a separate result, and `remove_copy` is
  `remove_copy_if` with `equal_to_value(value)`.

`copy_if` and the sequential `remove_if` are not under src/.  `select` models the first as the
one pass the standard describes, storing each kept element at the next output position; that the
pass may run in place is then a theorem rather than an assumption, `select_eq`: as long as the
output starts at or before the input, or past its end, what the pass reads has not been
overwritten yet.  The sequential `remove_if` is modelled as the standard's two phases, a scan to
the first removed element and then a compaction behind it; `removeIfSeq_eq_select` shows it
leaves exactly what the in-place selection leaves, so the two dispatch branches agree.

`remove_spec` collects the family: in place or copied, with or without a stencil, on either
branch, the kept elements come out in their original order, and the returned iterator is just
past them.  `removeIf_removeIf` shows that `remove_if` is idempotent: run again over the range it
returned, it changes nothing.
-/

set_option autoImplicit false

namespace Thrust
namespace CudaCub

open Memory

variable {α β : Type}

/-! ## Selection -/

/-- Modelled from the spec: `cuda_cub::copy_if` (and `detail::copy_if`) is not under src/.  It
visits the `n` elements from `first` in order, with the stencil from `stencil`, and stores each
element whose stencil entry and value pass `keep` at the next output position from `result`;
it returns the end of the output. -/
def select (keep : β → α → Bool) (stencilMem : Memory β) (m : Memory α) :
    Nat → Nat → Nat → Nat → Memory α × Nat
  | 0, _, _, result => (m, result)
  | n + 1, first, stencil, result =>
    if keep (stencilMem stencil) (m first) then
      select keep stencilMem (Function.update m result (m first)) n (first + 1) (stencil + 1)
        (result + 1)
    else select keep stencilMem m n (first + 1) (stencil + 1) result

/-- The elements of `xs` whose stencil entry in `ts` passes `keep` together with them, in
order. -/
def keptElements (keep : β → α → Bool) (xs : List α) (ts : List β) : List α :=
  ((xs.zip ts).filter fun p ↦ keep p.2 p.1).map Prod.fst

@[simp] theorem keptElements_nil (keep : β → α → Bool) (ts : List β) :
    keptElements keep [] ts = [] := rfl

@[simp] theorem keptElements_cons (keep : β → α → Bool) (x : α) (xs : List α) (t : β)
    (ts : List β) : keptElements keep (x :: xs) (t :: ts) =
      if keep t x then x :: keptElements keep xs ts else keptElements keep xs ts := by
  simp only [keptElements, List.zip_cons_cons, List.filter_cons]
  split <;> rfl

theorem length_keptElements_le (keep : β → α → Bool) (xs : List α) (ts : List β) :
    (keptElements keep xs ts).length ≤ xs.length := by
  simp only [keptElements, List.length_map]
  exact Nat.le_trans (List.length_filter_le _ _)
    (by rw [List.length_zip]; exact Nat.min_le_left _ _)

/-- Without a stencil, the kept elements are a filter of the input. -/
theorem keptElements_unit (p : α → Bool) (xs : List α) (ts : List Unit)
    (h : xs.length ≤ ts.length) : keptElements (fun _ x ↦ p x) xs ts = xs.filter p := by
  induction xs generalizing ts with
  | nil => rfl
  | cons x xs ih =>
    cases ts with
    | nil => simp at h
    | cons t ts =>
      simp only [keptElements_cons, List.filter_cons, ih ts (by simpa using h)]

/-- **The selection pass, possibly in place.**  When the output starts at or before the input,
or at or past its end, the pass stores the kept elements of the input, in order, from `result`
and returns the end of them. -/
theorem select_eq (keep : β → α → Bool) (stencilMem : Memory β) (m : Memory α)
    (n first stencil result : Nat) (h : result ≤ first ∨ first + n ≤ result) :
    select keep stencilMem m n first stencil result =
      let kept := keptElements keep (readRange m first n) (readRange stencilMem stencil n)
      (writeRange m result kept, result + kept.length) := by
  induction n generalizing m first stencil result with
  | zero => rfl
  | succ n ih =>
    simp only [select, readRange_succ, keptElements_cons]
    split_ifs with hk
    · -- the element just read is the only address this step writes that the rest could read
      rw [ih _ _ _ _ (by omega), readRange_congr (m := Function.update m result (m first))
        fun i _ ↦ Function.update_noteq (by omega) _ _]
      simp only [writeRange_cons, List.length_cons]
      congr 1; omega
    · exact ih _ _ _ _ (by omega)

/-! ## The algorithms -/

/-- Modelled from the spec: `::cuda::std::not_fn` is not under src/.  `not_fn(pred)` returns the
negation of `pred`. -/
def notFn {γ : Type} (pred : γ → Bool) : γ → Bool := fun x ↦ !pred x

/-- Modelled from the spec: `thrust::detail::equal_to_value` is not under src/.
`equal_to_value<T>{value}` tests `lhs == value`. -/
def equalToValue [BEq α] (value : α) : α → Bool := fun x ↦ x == value

/-- `cuda_cub::copy_if(policy, first, last, stencil, result, pred)`. -/
def copyIfStencil (m : Memory α) (r : IterRange) (stencilMem : Memory β) (stencil result : Nat)
    (pred : β → Bool) : Memory α × Nat :=
  select (fun t _ ↦ pred t) stencilMem m r.size r.first stencil result

/-- `cuda_cub::copy_if(policy, first, last, result, pred)`: the stencil is a `cub::NullType*`,
and `pred` is applied to the elements themselves. -/
def copyIf (m : Memory α) (r : IterRange) (result : Nat) (pred : α → Bool) : Memory α × Nat :=
  select (fun (_ : Unit) x ↦ pred x) (fun _ ↦ ()) m r.size r.first 0 result

/-- Modelled from the spec: the sequential `remove_if` is not under src/.  As the standard gives
it: skip the elements that stay (`while (first != last && !pred(*stencil))`), return `last` if
none is removed, and otherwise compact the rest behind the first removed element. -/
def removeIfSeq (removed : β → α → Bool) (stencilMem : Memory β) (m : Memory α) :
    Nat → Nat → Nat → Memory α × Nat
  | 0, first, _ => (m, first)
  | n + 1, first, stencil =>
    if removed (stencilMem stencil) (m first) then
      select (fun t x ↦ !removed t x) stencilMem m n (first + 1) (stencil + 1) first
    else removeIfSeq removed stencilMem m n (first + 1) (stencil + 1)

/-- Modelled from the spec: the macro `THRUST_CDP_DISPATCH` is not under src/.  Its two branches:
the device selection, or the sequential code. -/
inductive CdpBranch
  | parallel
  | sequential
  deriving DecidableEq, Repr

/-- `cuda_cub::remove_if(policy, first, last, stencil, predicate)`. -/
def removeIfStencil (branch : CdpBranch) (m : Memory α) (r : IterRange) (stencilMem : Memory β)
    (stencil : Nat) (pred : β → Bool) : Memory α × Nat :=
  match branch with
  | .parallel => copyIfStencil m r stencilMem stencil r.first (notFn pred)
  | .sequential => removeIfSeq (fun t _ ↦ pred t) stencilMem m r.size r.first stencil

/-- `cuda_cub::remove_if(policy, first, last, predicate)`. -/
def removeIf (branch : CdpBranch) (m : Memory α) (r : IterRange) (pred : α → Bool) :
    Memory α × Nat :=
  match branch with
  | .parallel => copyIf m r r.first (notFn pred)
  | .sequential => removeIfSeq (fun (_ : Unit) x ↦ pred x) (fun _ ↦ ()) m r.size r.first 0

/-- `cuda_cub::remove(policy, first, last, value)`: `remove_if` with `_1 == value`. -/
def remove [BEq α] (branch : CdpBranch) (m : Memory α) (r : IterRange) (value : α) :
    Memory α × Nat :=
  removeIf branch m r fun x ↦ x == value

/-- `cuda_cub::remove_copy_if(policy, first, last, stencil, result, predicate)`. -/
def removeCopyIfStencil (m : Memory α) (r : IterRange) (stencilMem : Memory β)
    (stencil result : Nat) (pred : β → Bool) : Memory α × Nat :=
  copyIfStencil m r stencilMem stencil result (notFn pred)

/-- `cuda_cub::remove_copy_if(policy, first, last, result, predicate)`. -/
def removeCopyIf (m : Memory α) (r : IterRange) (result : Nat) (pred : α → Bool) :
    Memory α × Nat :=
  copyIf m r result (notFn pred)

/-- `cuda_cub::remove_copy(policy, first, last, result, value)`. -/
def removeCopy [BEq α] (m : Memory α) (r : IterRange) (result : Nat) (value : α) :
    Memory α × Nat :=
  removeCopyIf m r result (equalToValue value)

/-! ## What the family leaves -/

/-- `out` holds `kept` from `dst` on and returns the iterator just past it. -/
def StoresKept (kept : List α) (dst : Nat) (out : Memory α × Nat) : Prop :=
  out.2 = dst + kept.length ∧ readRange out.1 dst kept.length = kept

theorem select_storesKept (keep : β → α → Bool) (stencilMem : Memory β) (m : Memory α)
    (n first stencil result : Nat) (h : result ≤ first ∨ first + n ≤ result) :
    StoresKept (keptElements keep (readRange m first n) (readRange stencilMem stencil n)) result
      (select keep stencilMem m n first stencil result) := by
  rw [select_eq _ _ _ _ _ _ _ h]
  exact ⟨rfl, readRange_writeRange _ _ _⟩

/-- A selection into a destination disjoint from `[first, first + n)` leaves the input as it
was. -/
theorem select_input (keep : β → α → Bool) (stencilMem : Memory β) (m : Memory α)
    (n first stencil result : Nat) (h : result + n ≤ first ∨ first + n ≤ result) :
    readRange (select keep stencilMem m n first stencil result).1 first n =
      readRange m first n := by
  rw [select_eq _ _ _ _ _ _ _ (by omega)]
  have := length_keptElements_le keep (readRange m first n) (readRange stencilMem stencil n)
  rw [length_readRange] at this
  exact readRange_congr fun i hi ↦ writeRange_apply_of_not_mem _ _ _ (by omega)

/-- The sequential `remove_if` leaves exactly what the in-place selection leaves: its first phase
skips what the selection would store onto itself. -/
theorem removeIfSeq_eq_select (removed : β → α → Bool) (stencilMem : Memory β) (m : Memory α)
    (n first stencil : Nat) :
    removeIfSeq removed stencilMem m n first stencil =
      select (fun t x ↦ !removed t x) stencilMem m n first stencil first := by
  induction n generalizing first stencil with
  | zero => rfl
  | succ n ih =>
    simp only [removeIfSeq, select]
    split_ifs with hr hk hk
    · simp [hr] at hk
    · rfl
    · rw [ih, Function.update_eq_self]
    · simp [hr] at hk

/-- Whichever branch is taken, `remove_if` leaves the buffer and returns the iterator of the
device selection. -/
theorem removeIf_eq_parallel (branch : CdpBranch) (m : Memory α) (r : IterRange)
    (pred : α → Bool) : removeIf branch m r pred = removeIf .parallel m r pred := by
  cases branch
  · rfl
  · exact removeIfSeq_eq_select _ _ _ _ _ _

/-- Whichever branch is taken, `remove_if` with a stencil leaves the buffer and returns the
iterator of the device selection. -/
theorem removeIfStencil_eq_parallel (branch : CdpBranch) (m : Memory α) (r : IterRange)
    (stencilMem : Memory β) (stencil : Nat) (pred : β → Bool) :
    removeIfStencil branch m r stencilMem stencil pred =
      removeIfStencil .parallel m r stencilMem stencil pred := by
  cases branch
  · rfl
  · exact removeIfSeq_eq_select _ _ _ _ _ _

/-- **Both dispatch branches agree.**  The device selection and the sequential fallback of
`remove_if`, with or without a stencil, leave the same buffer and return the same iterator. -/
theorem removeIf_branches_agree (m : Memory α) (r : IterRange) (pred : α → Bool)
    (stencilMem : Memory β) (stencil : Nat) (spred : β → Bool) :
    removeIf .sequential m r pred = removeIf .parallel m r pred ∧
      removeIfStencil .sequential m r stencilMem stencil spred =
        removeIfStencil .parallel m r stencilMem stencil spred :=
  ⟨removeIf_eq_parallel .sequential m r pred,
    removeIfStencil_eq_parallel .sequential m r stencilMem stencil spred⟩

theorem removeIfStencil_storesKept (branch : CdpBranch) (m : Memory α) (r : IterRange)
    (stencilMem : Memory β) (stencil : Nat) (pred : β → Bool) :
    StoresKept (keptElements (fun t _ ↦ !pred t) (readRange m r.first r.size)
        (readRange stencilMem stencil r.size)) r.first
      (removeIfStencil branch m r stencilMem stencil pred) := by
  rw [removeIfStencil_eq_parallel]
  exact select_storesKept _ _ _ _ _ _ _ (.inl (Nat.le_refl _))

theorem removeIf_storesKept (branch : CdpBranch) (m : Memory α) (r : IterRange)
    (pred : α → Bool) :
    StoresKept ((readRange m r.first r.size).filter fun x ↦ !pred x) r.first
      (removeIf branch m r pred) := by
  rw [← keptElements_unit _ _ (readRange (fun _ ↦ ()) 0 r.size) (by simp)]
  rw [removeIf_eq_parallel]
  exact select_storesKept _ _ _ _ _ _ _ (.inl (Nat.le_refl _))

/-- `remove_if` over a range from which it removes nothing leaves the buffer as it is and returns
`last`. -/
theorem removeIf_of_forall_keep (branch : CdpBranch) (m : Memory α) (r : IterRange)
    (pred : α → Bool) (h : ∀ i < r.size, pred (m (r.first + i)) = false) :
    removeIf branch m r pred = (m, r.last) := by
  have hkeep : ((readRange m r.first r.size).filter fun x ↦ notFn pred x) =
      readRange m r.first r.size :=
    List.filter_eq_self.2 fun x hx ↦ by
      obtain ⟨i, hi, rfl⟩ := List.getElem_of_mem hx
      simp [notFn, h i (by simpa using hi)]
  rw [removeIf_eq_parallel, removeIf, copyIf, select_eq _ _ _ _ _ _ _ (.inl (Nat.le_refl _))]
  dsimp only
  rw [keptElements_unit _ _ _ (by simp), hkeep, writeRange_readRange, length_readRange,
    ← IterRange.last_eq]

theorem removeIf_snd (branch : CdpBranch) (m : Memory α) (r : IterRange) (pred : α → Bool) :
    (removeIf branch m r pred).2 =
      r.first + ((readRange m r.first r.size).filter fun x ↦ !pred x).length :=
  (removeIf_storesKept branch m r pred).1

theorem le_removeIf_snd (branch : CdpBranch) (m : Memory α) (r : IterRange) (pred : α → Bool) :
    r.first ≤ (removeIf branch m r pred).2 := by
  rw [removeIf_snd]; exact Nat.le_add_right _ _

/-- **`remove_if` is idempotent.**  Running `remove_if` again, on either branch, over the range it
returned changes nothing: the buffer stays as it is and the same iterator comes back. -/
theorem removeIf_removeIf (branch branch' : CdpBranch) (m : Memory α) (r : IterRange)
    (pred : α → Bool) :
    removeIf branch' (removeIf branch m r pred).1
        ⟨r.first, (removeIf branch m r pred).2, le_removeIf_snd branch m r pred⟩ pred =
      removeIf branch m r pred := by
  obtain ⟨hend, hkept⟩ := removeIf_storesKept branch m r pred
  rw [removeIf_of_forall_keep]
  intro i hi
  change i < (removeIf branch m r pred).2 - r.first at hi
  replace hi : i < ((readRange m r.first r.size).filter fun x ↦ !pred x).length := by omega
  -- the range holds the kept elements, none of which `pred` removes
  have hget := List.getElem_of_eq hkept (by simpa using hi)
  rw [getElem_readRange] at hget
  dsimp only
  rw [hget]
  simpa using (List.mem_filter.1 (List.getElem_mem hi)).2

theorem removeCopyIfStencil_spec (m : Memory α) (r : IterRange) (stencilMem : Memory β)
    (stencil result : Nat) (pred : β → Bool) (h : result + r.size ≤ r.first ∨ r.last ≤ result) :
    StoresKept (keptElements (fun t _ ↦ !pred t) (readRange m r.first r.size)
        (readRange stencilMem stencil r.size)) result
      (removeCopyIfStencil m r stencilMem stencil result pred) ∧
    readRange (removeCopyIfStencil m r stencilMem stencil result pred).1 r.first r.size =
      readRange m r.first r.size := by
  have hl := r.last_eq
  exact ⟨select_storesKept _ _ _ _ _ _ _ (by omega), select_input _ _ _ _ _ _ _ (by omega)⟩

theorem removeCopyIf_spec (m : Memory α) (r : IterRange) (result : Nat) (pred : α → Bool)
    (h : result + r.size ≤ r.first ∨ r.last ≤ result) :
    StoresKept ((readRange m r.first r.size).filter fun x ↦ !pred x) result
      (removeCopyIf m r result pred) ∧
    readRange (removeCopyIf m r result pred).1 r.first r.size = readRange m r.first r.size := by
  have hl := r.last_eq
  rw [← keptElements_unit _ _ (readRange (fun _ ↦ ()) 0 r.size) (by simp)]
  exact ⟨select_storesKept _ _ _ _ _ _ _ (by omega), select_input _ _ _ _ _ _ _ (by omega)⟩

/-- **The `remove` family.**  On either `THRUST_CDP_DISPATCH` branch, `remove_if` leaves from
`first` the elements `x[i]` with `!pred(x[i])` (with a stencil, `!pred(s[i])`), in their order,
and returns the iterator just past them; `remove` is `remove_if` with `x == value`; and into a
result that does not overlap the input, `remove_copy_if` and `remove_copy` write the same kept
elements, return the iterator just past them and leave the input as it was. -/
theorem remove_spec [BEq α] (branch : CdpBranch) (m : Memory α) (r : IterRange)
    (stencilMem : Memory β) (stencil result : Nat) (pred : α → Bool) (spred : β → Bool)
    (value : α) :
    let xs := readRange m r.first r.size
    let ts := readRange stencilMem stencil r.size
    StoresKept (xs.filter fun x ↦ !pred x) r.first (removeIf branch m r pred) ∧
    StoresKept (keptElements (fun t _ ↦ !spred t) xs ts) r.first
      (removeIfStencil branch m r stencilMem stencil spred) ∧
    remove branch m r value = removeIf branch m r (fun x ↦ x == value) ∧
    (result + r.size ≤ r.first ∨ r.last ≤ result →
      (StoresKept (xs.filter fun x ↦ !pred x) result (removeCopyIf m r result pred) ∧
        readRange (removeCopyIf m r result pred).1 r.first r.size = xs) ∧
      (StoresKept (keptElements (fun t _ ↦ !spred t) xs ts) result
          (removeCopyIfStencil m r stencilMem stencil result spred) ∧
        readRange (removeCopyIfStencil m r stencilMem stencil result spred).1 r.first r.size =
          xs) ∧
      (StoresKept (xs.filter fun x ↦ !(x == value)) result (removeCopy m r result value) ∧
        readRange (removeCopy m r result value).1 r.first r.size = xs)) :=
  ⟨removeIf_storesKept branch m r pred,
    removeIfStencil_storesKept branch m r stencilMem stencil spred, rfl,
    fun h ↦ ⟨removeCopyIf_spec m r result pred h,
      removeCopyIfStencil_spec m r stencilMem stencil result spred h,
      removeCopyIf_spec m r result (equalToValue value) h⟩⟩

end CudaCub
end Thrust
