import Thrust.OverlappedCopy
import Thrust.Parallel

/-!
# `copy` and `copy_n` on the TBB backend

`thrust/system/tbb/detail/copy.inl` makes one decision.  It takes the `minimum_type` of the two
iterators' traversal tags and, when that converts to `random_access_traversal_tag`, hands the
copy to the generic implementation, which runs one `*(result + i) = *(first + i)` per index in
an order the backend chooses; otherwise it runs the sequential loop.

## What is here

* `Traversal`, with `Traversal.isConvertible` and `Traversal.minimumType`: the five traversal
  tags, each derived from the one before, and the two type computations the test makes.
  `Tbb.takesGenericPath_iff`: the parallel path is taken exactly when both iterators are random
  access.
* `Generic.copyN` and `Generic.copy`, modelled from the spec: the parallel copy, each body
  reading the buffer as it is when the body runs.  `Sequential.copy` and `Sequential.copyN` are
  the loop of `sequential_copy`.
* `Tbb.copy_spec`: whichever path the tags select and whatever the order of the parallel bodies,
  `copy` and `copy_n` copy when the source and the destination do not overlap.
* `Tbb.copy_order_independent_iff`: on random-access iterators, `copy` leaves the same buffer
  under every order exactly when the two ranges are disjoint or the same.  Any other overlap is a
  race between a body that writes an element and the body that reads it, including a destination
  before `first`, which the sequential loop copies correctly.
-/

set_option autoImplicit false

namespace Thrust

variable {α : Type}

/-! ## Traversal tags -/

/-- Modelled from the spec: the traversal tags are not under src/.  Thrust's iterator traversal
tags, from the weakest to the strongest; each is derived from the one before. -/
inductive Traversal
  | incrementable
  | singlePass
  | forward
  | bidirectional
  | randomAccess
  deriving DecidableEq, Repr

namespace Traversal

/-- How many derivations separate a tag from `incrementable_traversal_tag`. -/
def rank : Traversal → Nat
  | incrementable => 0
  | singlePass => 1
  | forward => 2
  | bidirectional => 3
  | randomAccess => 4

/-- Modelled from the spec: `::cuda::std::is_convertible_v<T, U>` for two tags, true when `T` is
`U` or derived from it. -/
def isConvertible (t u : Traversal) : Bool := decide (u.rank ≤ t.rank)

/-- Modelled from the spec: `thrust::detail::minimum_type<T1, T2>` (not under src/), the one of
the two tags that the other converts to. -/
def minimumType (t1 t2 : Traversal) : Traversal := if t1.isConvertible t2 then t2 else t1

end Traversal

/-! ## The two paths -/

namespace Generic

/-- Modelled from the spec: the generic copy is not under src/.  The body it runs at index `i`,
`*(result + i) = *(first + i)`, reading the buffer as it is when the body runs. -/
def copyBody (first result : Nat) (m : Memory α) (i : Nat) : Memory α :=
  Function.update m (result + i) (m (first + i))

/-- Modelled from the spec: generic `copy_n(exec, first, n, result)` is not under src/.  It runs
`copyBody` for every `i < n` in the order the backend chooses and returns `result + n`. -/
def copyN (m : Memory α) (first n result : Nat) (s : Schedule n) : Memory α × Nat :=
  (s.order.foldl (copyBody first result) m, result + n)

/-- Modelled from the spec: generic `copy(exec, first, last, result)`, `copy_n` over the
`last - first` elements of the range. -/
def copy (m : Memory α) (r : IterRange) (result : Nat) (s : Schedule r.size) : Memory α × Nat :=
  copyN m r.first r.size result s

end Generic

namespace Sequential

/-- Modelled from the spec: `sequential::copy` is not under src/.  On iterators that are not
random access it is the loop of `sequential_copy`, `for (; first != last; ++first, ++result)
*result = *first;`. -/
def copy (m : Memory α) (r : IterRange) (result : Nat) : Memory α × Nat :=
  Detail.sequentialCopy m r result

/-- Modelled from the spec: `sequential::copy_n`, the same loop over `n` elements. -/
def copyN (m : Memory α) (first n result : Nat) : Memory α × Nat :=
  Detail.sequentialCopy m ⟨first, first + n, Nat.le_add_right first n⟩ result

end Sequential

namespace Tbb

/-- The test of `tbb::detail::copy` and `copy_n`:
`is_convertible_v<minimum_type<traversal1, traversal2>, random_access_traversal_tag>`. -/
def takesGenericPath (traversal1 traversal2 : Traversal) : Bool :=
  (Traversal.minimumType traversal1 traversal2).isConvertible .randomAccess

/-- The `if constexpr` both functions make: the generic path's result when `takesGenericPath`,
the sequential one's otherwise. -/
def dispatch {β : Type} (traversal1 traversal2 : Traversal) (generic sequential : β) : β :=
  if takesGenericPath traversal1 traversal2 then generic else sequential

/-- `tbb::detail::copy(exec, first, last, result)`. -/
def copy (traversal1 traversal2 : Traversal) (m : Memory α) (r : IterRange) (result : Nat)
    (s : Schedule r.size) : Memory α × Nat :=
  dispatch traversal1 traversal2 (Generic.copy m r result s) (Sequential.copy m r result)

/-- `tbb::detail::copy_n(exec, first, n, result)`. -/
def copyN (traversal1 traversal2 : Traversal) (m : Memory α) (first n result : Nat)
    (s : Schedule n) : Memory α × Nat :=
  dispatch traversal1 traversal2 (Generic.copyN m first n result s)
    (Sequential.copyN m first n result)

/-- The parallel path is taken exactly when both iterators are random access. -/
theorem takesGenericPath_iff (traversal1 traversal2 : Traversal) :
    takesGenericPath traversal1 traversal2 = true ↔
      traversal1 = .randomAccess ∧ traversal2 = .randomAccess := by
  cases traversal1 <;> cases traversal2 <;> decide

/-- What holds of both paths holds of the dispatch. -/
theorem dispatch_of_both {β : Type} {P : β → Prop} (traversal1 traversal2 : Traversal)
    {generic sequential : β} (hg : P generic) (hs : P sequential) :
    P (dispatch traversal1 traversal2 generic sequential) := by
  unfold dispatch; split
  · exact hg
  · exact hs

theorem copy_randomAccess (m : Memory α) (r : IterRange) (result : Nat) (s : Schedule r.size) :
    copy .randomAccess .randomAccess m r result s = Generic.copy m r result s :=
  rfl

end Tbb

/-! ## Runs of the parallel copy -/

namespace Generic

/-- A run of copy bodies leaves every address that none of its indices writes. -/
theorem foldl_copyBody_frame (first result : Nat) {σ : List Nat} {q : Nat}
    (hq : ∀ i ∈ σ, result + i ≠ q) (m : Memory α) :
    σ.foldl (copyBody first result) m q = m q := by
  induction σ generalizing m with
  | nil => rfl
  | cons j σ ih =>
    rw [List.foldl_cons, ih (fun i hi ↦ hq i (.tail _ hi)), copyBody,
      Function.update_noteq (hq j (.head _)).symm]

/-- **The run of copy bodies.**  Over distinct indices below `n`, with `[first, first + n)` and
`[result, result + n)` disjoint, every visited index has its element copied. -/
theorem foldl_copyBody (first result n : Nat) (hdisj : result + n ≤ first ∨ first + n ≤ result)
    {σ : List Nat} (hσ : σ.Nodup) (hlt : ∀ i ∈ σ, i < n) (m : Memory α) :
    ∀ i ∈ σ, σ.foldl (copyBody first result) m (result + i) = m (first + i) := by
  induction σ generalizing m with
  | nil => simp
  | cons j σ ih =>
    obtain ⟨hj, hσ'⟩ := List.nodup_cons.1 hσ
    have hjn := hlt j (.head _)
    intro i hi
    rw [List.foldl_cons]
    rcases List.mem_cons.1 hi with rfl | hi
    · rw [foldl_copyBody_frame (q := result + i) _ _ fun k hk h ↦ hj (Nat.add_left_cancel h ▸ hk),
        copyBody, Function.update_same]
    · have hin := hlt i (.tail _ hi)
      rw [ih hσ' (fun k hk ↦ hlt k (.tail _ hk)) _ i hi, copyBody,
        Function.update_noteq (by omega)]

/-- The generic `copy_n`, for every order of its bodies, copies when the two ranges do not
overlap. -/
theorem copyN_spec (m : Memory α) (first n result : Nat)
    (hdisj : result + n ≤ first ∨ first + n ≤ result) (s : Schedule n) :
    (∀ i < n, (copyN m first n result s).1 (result + i) = m (first + i)) ∧
      (∀ q, q < result ∨ result + n ≤ q → (copyN m first n result s).1 q = m q) ∧
      (copyN m first n result s).2 = result + n :=
  ⟨fun i hi ↦ foldl_copyBody first result n hdisj s.nodup (fun k hk ↦ s.mem_order.1 hk) m i
      (s.mem_order.2 hi),
    fun q hq ↦ foldl_copyBody_frame first result
      (fun i hi ↦ by have := s.mem_order.1 hi; omega) m, rfl⟩

theorem copyN_copiesTo (m : Memory α) (first n result : Nat)
    (hdisj : result + n ≤ first ∨ first + n ≤ result) (s : Schedule n) :
    Detail.CopiesTo m ⟨first, first + n, Nat.le_add_right first n⟩ result
      (copyN m first n result s) := by
  have hsz : (⟨first, first + n, Nat.le_add_right first n⟩ : IterRange).size = n :=
    Nat.add_sub_cancel_left first n
  unfold Detail.CopiesTo
  rw [hsz]
  exact copyN_spec m first n result hdisj s

theorem copy_copiesTo (m : Memory α) (r : IterRange) (result : Nat)
    (hdisj : result + r.size ≤ r.first ∨ r.last ≤ result) (s : Schedule r.size) :
    Detail.CopiesTo m r result (copy m r result s) :=
  copyN_spec m r.first r.size result (by have := r.last_eq; omega) s

end Generic

/-- The sequential loop copies whenever the destination does not start strictly inside
`(first, last)`. -/
theorem Sequential.copy_copiesTo (m : Memory α) (r : IterRange) (result : Nat)
    (h : ¬(r.first < result ∧ result < r.last)) :
    Detail.CopiesTo m r result (Sequential.copy m r result) := by
  obtain ⟨-, hret, hi, ho⟩ := Detail.forwardCopies_of_not_inside h m
  exact ⟨hi, ho, hret⟩

namespace Tbb

/-- **TBB `copy` and `copy_n` copy disjoint ranges.**  For every pair of traversal tags, so on
either path, and for every order of the parallel bodies, `copy` and `copy_n` leave the source's
elements from `result` on, every other address as it was, and return `result + n`, when the
source and the destination do not overlap. -/
theorem copy_spec (traversal1 traversal2 : Traversal) (m : Memory α) (r : IterRange)
    (first n result : Nat) (s : Schedule r.size) (s' : Schedule n) :
    (result + r.size ≤ r.first ∨ r.last ≤ result →
      Detail.CopiesTo m r result (copy traversal1 traversal2 m r result s)) ∧
    (result + n ≤ first ∨ first + n ≤ result →
      Detail.CopiesTo m ⟨first, first + n, Nat.le_add_right first n⟩ result
        (copyN traversal1 traversal2 m first n result s')) := by
  have hl := r.last_eq
  exact ⟨fun hdisj ↦ dispatch_of_both traversal1 traversal2
      (Generic.copy_copiesTo m r result hdisj s) (Sequential.copy_copiesTo m r result (by omega)),
    fun hdisj ↦ dispatch_of_both traversal1 traversal2
      (Generic.copyN_copiesTo m first n result hdisj s')
      (Sequential.copy_copiesTo m _ result (by dsimp only; omega))⟩

/-- Distinct overlapping ranges, `d` apart: running body `0` and then body `d` and running them
the other way round leave different buffers when `first` and `first + d` hold different
elements. -/
theorem copy_leading_ne (r : IterRange) (result : Nat) {d : Nat} (hd : 0 < d) (hdn : d < r.size)
    (hfd : result = r.first + d ∨ r.first = result + d) (m : Memory α)
    (hm : m r.first ≠ m (r.first + d)) :
    copy .randomAccess .randomAccess m r result (.leading 0 d (by omega) hdn (by omega)) ≠
      copy .randomAccess .randomAccess m r result (.leading d 0 hdn (by omega) (by omega)) := by
  intro h
  have hfold := congrArg Prod.fst h
  simp only [copy_randomAccess, Generic.copy, Generic.copyN, Schedule.leading, List.foldl_cons,
    Schedule.others_comm r.size d 0] at hfold
  -- the bodies after the first two write neither `result` nor `result + d`
  have hfr : ∀ k ∈ Schedule.others r.size 0 d, result + k ≠ result ∧ result + k ≠ result + d :=
    fun k hk ↦ by rw [Schedule.mem_others] at hk; omega
  rcases hfd with rfl | hfd
  · -- body `d` reads `first + d`, which body `0` writes
    have := congrFun hfold (r.first + d + d)
    rw [Generic.foldl_copyBody_frame _ _ fun k hk ↦ (hfr k hk).2,
      Generic.foldl_copyBody_frame _ _ fun k hk ↦ (hfr k hk).2] at this
    simp (disch := omega) only [Generic.copyBody, Nat.add_zero, Function.update_same,
      Function.update_noteq] at this
    exact hm this
  · -- body `0` reads `first`, which body `d` writes
    have := congrFun hfold result
    rw [Generic.foldl_copyBody_frame _ _ fun k hk ↦ (hfr k hk).1,
      Generic.foldl_copyBody_frame _ _ fun k hk ↦ (hfr k hk).1, hfd] at this
    rw [hfd] at hm
    simp (disch := omega) only [Generic.copyBody, Nat.add_zero, Function.update_same,
      Function.update_noteq] at this
    exact hm this

/-- **When the order of the parallel copy cannot matter.**  On random-access iterators, `copy`
leaves the same buffer under every order of its bodies, for every buffer, exactly when
`[first, last)` and `[result, result + n)` are disjoint or the same range. -/
theorem copy_order_independent_iff [Nontrivial α] (r : IterRange) (result : Nat) :
    (∀ (m : Memory α) (s s' : Schedule r.size),
        copy .randomAccess .randomAccess m r result s =
          copy .randomAccess .randomAccess m r result s') ↔
      result + r.size ≤ r.first ∨ r.last ≤ result ∨ result = r.first := by
  have hl := r.last_eq
  constructor
  · intro h
    by_contra hov
    obtain ⟨x, y, hxy⟩ := exists_pair_ne α
    obtain ⟨d, hd, hdn, hfd⟩ := r.exists_offset_of_overlap (p := result) (by omega) (by omega)
      (by omega)
    exact copy_leading_ne r result hd hdn hfd (fun p ↦ if p = r.first then x else y)
      (by simpa [show r.first + d ≠ r.first by omega] using hxy) (h _ _ _)
  · rintro (hdisj | hdisj | rfl) m s s'
    · exact (Generic.copy_copiesTo m r result (.inl hdisj) s).unique
        (Generic.copy_copiesTo m r result (.inl hdisj) s')
    · exact (Generic.copy_copiesTo m r result (.inr hdisj) s).unique
        (Generic.copy_copiesTo m r result (.inr hdisj) s')
    · -- every body stores what it has just read
      have hid (i : Nat) : Generic.copyBody r.first r.first m i = m := Function.update_eq_self _ _
      simp only [copy_randomAccess, Generic.copy, Generic.copyN, List.foldl_fixed' hid]

theorem copy_order_independent_iff_nat :
    (∀ (m : Memory Nat) (s s' : Schedule (⟨0, 2, by decide⟩ : IterRange).size),
        copy .randomAccess .randomAccess m ⟨0, 2, by decide⟩ 1 s =
          copy .randomAccess .randomAccess m ⟨0, 2, by decide⟩ 1 s') ↔
      1 + (⟨0, 2, by decide⟩ : IterRange).size ≤ 0 ∨ (⟨0, 2, by decide⟩ : IterRange).last ≤ 1 ∨
        1 = (⟨0, 2, by decide⟩ : IterRange).first :=
  copy_order_independent_iff ⟨0, 2, by decide⟩ 1

end Tbb

end Thrust
