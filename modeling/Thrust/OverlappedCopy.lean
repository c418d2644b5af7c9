import Thrust.SequentialCopy

/-!
# `overlapped_copy`

`thrust::detail::overlapped_copy(first, last, result)` copies `[first, last)` to `result` in a
buffer where the two ranges may overlap, the way `memmove` does.  It dispatches on the system of
its iterators to one of two overloads of `dispatch::overlapped_copy`:

* the `cpp` one copies in place, backwards when `result` lies in `[first, last)` and forwards
  otherwise (`overlappedCopyCpp`);
* the generic one copies `[first, last)` into a `temporary_array` and copies that out
  (`overlappedCopyGeneric`).

`overlappedCopy_spec` says that whichever overload is selected copies correctly, for every
placement of the destination, and that the two overloads leave the same buffer and return the
same iterator.  For the `cpp` overload this rests on `SequentialCopy`: its test sends every
destination to the loop that cannot clobber its own source, which is
`sequentialCopies_spec_iff` read in the sufficient direction.

The overload is chosen from `iterator_system<RandomAccessIterator2>` alone (both `System1` and
`System2` are that type), which is why it appears here as a parameter of the model rather than
being computed from two iterator systems.
-/

set_option autoImplicit false

namespace Thrust
namespace Detail

open Memory

variable {α : Type}

/-! ## The two overloads -/

/-- Modelled from the spec: `thrust::copy` is not under src/.  From a source that overlaps
nothing it stores the elements at `result, result + 1, ...` and returns the end of what it
wrote. -/
def copy (m : Memory α) (src : List α) (result : Nat) : Memory α × Nat :=
  (writeRange m result src, result + src.length)

/-- Modelled from the spec: `temporary_array` is not under src/.  Built from `[first, last)`, it
holds a copy of those elements in storage of its own. -/
def temporaryArray (m : Memory α) (r : IterRange) : List α := readRange m r.first r.size

/-- `dispatch::overlapped_copy` for a `cpp::execution_policy`.  The comment on its `else` branch
says that `result + (last - first)` lies in `[first, last)`; that holds only when the destination
overlaps from the left, but the forward loop is also right for `result ≥ last`
(`overlappedCopyCpp_spec`). -/
def overlappedCopyCpp (a : Memory α) (r : IterRange) (result : Nat) : Memory α × Nat :=
  if r.first < r.last ∧ r.first ≤ result ∧ result < r.last then
    ((sequentialCopyBackward a r (result + r.size)).1, result + r.size)
  else sequentialCopy a r result

/-- `dispatch::overlapped_copy` for any other `execution_policy`: copy into a temporary array,
then copy that out. -/
def overlappedCopyGeneric (a : Memory α) (r : IterRange) (result : Nat) : Memory α × Nat :=
  copy a (temporaryArray a r) result

/-- The two overloads of `dispatch::overlapped_copy`. -/
inductive Overload
  | cpp
  | generic
  deriving DecidableEq, Repr

/-- `detail::overlapped_copy`, through the overload its system selects. -/
def overlappedCopy : Overload → Memory α → IterRange → Nat → Memory α × Nat
  | .cpp => overlappedCopyCpp
  | .generic => overlappedCopyGeneric

/-! ## What a copy leaves -/

/-- `out` is what a copy of `[first, last)` to `result` must leave: the source elements from
`result` on, every other address as it was, and `result + (last - first)` returned. -/
def CopiesTo (a : Memory α) (r : IterRange) (result : Nat) (out : Memory α × Nat) : Prop :=
  (∀ i < r.size, out.1 (result + i) = a (r.first + i)) ∧
    (∀ j, j < result ∨ result + r.size ≤ j → out.1 j = a j) ∧ out.2 = result + r.size

/-- A copy's outcome is determined: two outcomes that both copy are the same. -/
theorem CopiesTo.unique {a : Memory α} {r : IterRange} {result : Nat} {x y : Memory α × Nat}
    (hx : CopiesTo a r result x) (hy : CopiesTo a r result y) : x = y := by
  obtain ⟨x, xr⟩ := x
  obtain ⟨y, yr⟩ := y
  obtain ⟨hxi, hxo, rfl⟩ := hx
  obtain ⟨hyi, hyo, rfl⟩ := hy
  dsimp only at hxi hxo hyi hyo
  congr 1
  funext j
  by_cases hj : j < result ∨ result + r.size ≤ j
  · rw [hxo j hj, hyo j hj]
  · obtain ⟨i, hi, rfl⟩ : ∃ i < r.size, j = result + i := ⟨j - result, by omega, by omega⟩
    rw [hxi i hi, hyi i hi]

theorem overlappedCopyGeneric_spec (a : Memory α) (r : IterRange) (result : Nat) :
    CopiesTo a r result (overlappedCopyGeneric a r result) := by
  refine ⟨fun i hi ↦ ?_, fun j hj ↦ ?_, ?_⟩
  · dsimp only [overlappedCopyGeneric, copy]
    rw [writeRange_apply_of_lt _ _ _ (by simpa [temporaryArray] using hi)]
    simp only [temporaryArray, getElem_readRange]
  · exact writeRange_apply_of_not_mem _ _ _ (by simpa [temporaryArray] using hj)
  · simp [overlappedCopyGeneric, copy, temporaryArray]

/-- The `cpp` overload's test sends every destination to a loop that does not clobber its source:
backwards when `result` is in `[first, last)`, so that the end `result + (last - first)` is at or
past `last`; forwards otherwise. -/
theorem overlappedCopyCpp_spec (a : Memory α) (r : IterRange) (result : Nat) :
    CopiesTo a r result (overlappedCopyCpp a r result) := by
  have hl := r.last_eq
  unfold overlappedCopyCpp
  split_ifs with hin
  · obtain ⟨-, -, hi, ho⟩ :=
      backwardCopies_of_not_inside (α := α) (r := r) (e := result + r.size) (by omega) (by omega) a
    refine ⟨fun i hi' ↦ ?_, fun j hj ↦ ho j (by omega), rfl⟩
    simpa using hi i hi'
  · obtain ⟨-, hret, hi, ho⟩ :=
      forwardCopies_of_not_inside (α := α) (r := r) (d := result) (by omega) a
    exact ⟨hi, ho, hret⟩

/-- **`overlapped_copy` is a `memmove`.**  Through whichever overload is selected, it copies
`[first, last)` to `result` for every relative placement of the two ranges, leaves every other
address alone and returns `result + (last - first)`; and the in-place `cpp` overload and the
temporary-buffer overload leave the same buffer and return the same iterator. -/
theorem overlappedCopy_spec (o : Overload) (a : Memory α) (r : IterRange) (result : Nat) :
    CopiesTo a r result (overlappedCopy o a r result) ∧
      overlappedCopyCpp a r result = overlappedCopyGeneric a r result := by
  refine ⟨?_, (overlappedCopyCpp_spec a r result).unique (overlappedCopyGeneric_spec a r result)⟩
  cases o
  · exact overlappedCopyCpp_spec a r result
  · exact overlappedCopyGeneric_spec a r result

end Detail
end Thrust
