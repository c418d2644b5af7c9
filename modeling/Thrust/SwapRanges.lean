import Thrust.Parallel

/-!
# Generic `swap_ranges`

`thrust/system/detail/generic/swap_ranges.inl` swaps `[first1, last1)` with the range from
`first2` by one `for_each` over a zip range:

```cpp
for_each(exec, make_zip_iterator(first1, first2), make_zip_iterator(last1, first2),
         swap_pair_elements());
return get<1>(result.get_iterator_tuple());
```

The end of the zip range pairs `last1` with `first2`, not with `first2 + n`: that is correct only
because a `zip_iterator` measures distance by its first iterator (`ZipIterator.distance`), so the
loop runs `last1 - first1` times and the returned zip iterator has advanced both iterators by that
much.

`swapRanges_spec` is the result for every order in which `for_each` applies the swaps: when the
two ranges do not overlap, the elements at `first1 + i` and `first2 + i` are exchanged for each
`i < n`, nothing else changes, and `first2 + n` is returned.  The swaps touch disjoint pairs of
addresses, so the order cannot matter; `foldl_swapPairElements` is the run over any duplicate-free
list of offsets, and the schedules are such lists.  Applied twice, `swap_ranges` gives back the
buffer it started from (`swapRanges_swapRanges`).

The precondition is exact: `swapRanges_order_independent_iff` shows that for overlapping ranges
that are not the same range, two orders of the swaps leave different buffers.
-/

set_option autoImplicit false

namespace Thrust
namespace Generic

variable {α : Type}

/-! ## Zip iterators and `for_each` -/

/-- Modelled from the spec: `thrust::zip_iterator` is not under src/.  A `zip_iterator` over two
iterators into memory. -/
structure ZipIterator where
  /-- `get<0>` of the iterator tuple. -/
  first : Nat
  /-- `get<1>` of the iterator tuple. -/
  second : Nat
  deriving DecidableEq, Repr

/-- Modelled from the spec: `thrust::make_zip_iterator(a, b)`, not under src/. -/
def makeZipIterator (a b : Nat) : ZipIterator := ⟨a, b⟩

/-- Modelled from the spec: `z + i` on a `zip_iterator` advances both iterators. -/
def ZipIterator.advance (z : ZipIterator) (i : Nat) : ZipIterator := ⟨z.first + i, z.second + i⟩

/-- Modelled from the spec: `zip_iterator` is not under src/.  The distance between two zip
iterators, like their equality, is that of their first iterators. -/
def ZipIterator.distance (z z' : ZipIterator) : Nat := z'.first - z.first

/-- Modelled from the spec: `thrust::for_each` is not under src/.  It applies `f` to
`*(first + i)` for every `i < distance(first, last)`, in the order the backend chooses, and
returns `first + distance(first, last)`. -/
def forEach (first last : ZipIterator) (s : Schedule (first.distance last))
    (f : ZipIterator → Memory α → Memory α) (m : Memory α) : Memory α × ZipIterator :=
  (s.order.foldl (fun m i ↦ f (first.advance i) m) m, first.advance (first.distance last))

/-- `swap_pair_elements` applied to `*z`, the tuple of references: `swap(get<0>(t), get<1>(t))`. -/
def swapPairElements (z : ZipIterator) (m : Memory α) : Memory α :=
  Function.update (Function.update m z.first (m z.second)) z.second (m z.first)

/-- Generic `swap_ranges(exec, first1, last1, first2)`. -/
def swapRanges (r : IterRange) (first2 : Nat) (s : Schedule r.size) (m : Memory α) :
    Memory α × Nat :=
  let result := forEach (makeZipIterator r.first first2) (makeZipIterator r.last first2) s
    swapPairElements m
  (result.1, result.2.second)

theorem swapPairElements_first (a b : Nat) (m : Memory α) :
    swapPairElements ⟨a, b⟩ m a = m b := by
  by_cases h : a = b
  · rw [h, swapPairElements, Function.update_same]
  · rw [swapPairElements, Function.update_noteq h, Function.update_same]

theorem swapPairElements_second (a b : Nat) (m : Memory α) :
    swapPairElements ⟨a, b⟩ m b = m a :=
  Function.update_same _ _ _

/-- The frame of one swap: every address other than the pair keeps its element. -/
theorem swapPairElements_of_ne {a b q : Nat} (ha : q ≠ a) (hb : q ≠ b) (m : Memory α) :
    swapPairElements ⟨a, b⟩ m q = m q := by
  rw [swapPairElements, Function.update_noteq hb, Function.update_noteq ha]

/-! ## Swapping -/

/-- **The run of swaps.**  Over distinct offsets below `n`, with `[f1, f1 + n)` and
`[f2, f2 + n)` disjoint, each visited pair is exchanged and every other address is untouched. -/
theorem foldl_swapPairElements (f1 f2 : Nat) {n : Nat} (hdisj : f1 + n ≤ f2 ∨ f2 + n ≤ f1)
    {σ : List Nat} (hσ : σ.Nodup) (hlt : ∀ i ∈ σ, i < n) (m : Memory α) :
    (∀ i ∈ σ, σ.foldl (fun m i ↦ swapPairElements ⟨f1 + i, f2 + i⟩ m) m (f1 + i) = m (f2 + i) ∧
      σ.foldl (fun m i ↦ swapPairElements ⟨f1 + i, f2 + i⟩ m) m (f2 + i) = m (f1 + i)) ∧
    ∀ q, (∀ i ∈ σ, q ≠ f1 + i ∧ q ≠ f2 + i) →
      σ.foldl (fun m i ↦ swapPairElements ⟨f1 + i, f2 + i⟩ m) m q = m q := by
  induction σ generalizing m with
  | nil => simp
  | cons j σ ih =>
    obtain ⟨hj, hσ'⟩ := List.nodup_cons.1 hσ
    have hjn := hlt j (.head _)
    have hne : ∀ i ∈ σ, i ≠ j ∧ i < n := fun i hi ↦ ⟨fun h ↦ hj (h ▸ hi), hlt i (.tail _ hi)⟩
    obtain ⟨hsw, hfr⟩ :=
      ih hσ' (fun i hi ↦ (hne i hi).2) (swapPairElements ⟨f1 + j, f2 + j⟩ m)
    simp only [List.foldl_cons, List.mem_cons, forall_eq_or_imp]
    refine ⟨⟨⟨?_, ?_⟩, fun i hi ↦ ?_⟩, fun q ⟨hq, hqs⟩ ↦ ?_⟩
    · rw [hfr _ fun i hi ↦ by have := hne i hi; omega, swapPairElements_first]
    · rw [hfr _ fun i hi ↦ by have := hne i hi; omega, swapPairElements_second]
    · have := hne i hi
      rw [(hsw i hi).1, (hsw i hi).2, swapPairElements_of_ne (by omega) (by omega),
        swapPairElements_of_ne (by omega) (by omega)]
      exact ⟨rfl, rfl⟩
    · rw [hfr q hqs, swapPairElements_of_ne hq.1 hq.2]

/-- `b` is `m` with the elements of `[f1, f1 + n)` and `[f2, f2 + n)` exchanged position by
position. -/
def Swapped (f1 f2 n : Nat) (m b : Memory α) : Prop :=
  (∀ i < n, b (f1 + i) = m (f2 + i) ∧ b (f2 + i) = m (f1 + i)) ∧
    ∀ q, q < f1 ∨ f1 + n ≤ q → q < f2 ∨ f2 + n ≤ q → b q = m q

/-- An exchange is determined: two memories that both exchange the ranges are the same. -/
theorem Swapped.unique {f1 f2 n : Nat} {m b b' : Memory α} (h : Swapped f1 f2 n m b)
    (h' : Swapped f1 f2 n m b') : b = b' := by
  funext q
  by_cases h1 : f1 ≤ q ∧ q < f1 + n
  · obtain ⟨i, hi, rfl⟩ : ∃ i < n, q = f1 + i := ⟨q - f1, by omega, by omega⟩
    rw [(h.1 i hi).1, (h'.1 i hi).1]
  by_cases h2 : f2 ≤ q ∧ q < f2 + n
  · obtain ⟨i, hi, rfl⟩ : ∃ i < n, q = f2 + i := ⟨q - f2, by omega, by omega⟩
    rw [(h.1 i hi).2, (h'.1 i hi).2]
  rw [h.2 q (by omega) (by omega), h'.2 q (by omega) (by omega)]

/-- Exchanging is symmetric: `m` is `b` with the ranges exchanged back. -/
theorem Swapped.symm {f1 f2 n : Nat} {m b : Memory α} (h : Swapped f1 f2 n m b) :
    Swapped f1 f2 n b m :=
  ⟨fun i hi ↦ ⟨(h.1 i hi).2.symm, (h.1 i hi).1.symm⟩, fun q h1 h2 ↦ (h.2 q h1 h2).symm⟩

theorem swapRanges_swapped (r : IterRange) (first2 : Nat)
    (hdisj : r.last ≤ first2 ∨ first2 + r.size ≤ r.first) (s : Schedule r.size) (m : Memory α) :
    Swapped r.first first2 r.size m (swapRanges r first2 s m).1 := by
  have hl := r.last_eq
  obtain ⟨hsw, hfr⟩ := foldl_swapPairElements r.first first2 (by omega) s.nodup
    (fun i hi ↦ s.mem_order.1 hi) m
  exact ⟨fun i hi ↦ hsw i (s.mem_order.2 hi),
    fun q h1 h2 ↦ hfr q fun i hi ↦ by have := s.mem_order.1 hi; omega⟩

/-- **Generic `swap_ranges`, for every order of the swaps.**  For non-overlapping
`[first1, last1)` and `[first2, first2 + n)`, `n = last1 - first1`, the elements at `first1 + i`
and `first2 + i` are exchanged for every `i < n`, every other address keeps its value, and
`first2 + n` is returned, the same for every order in which `for_each` applies the swaps. -/
theorem swapRanges_spec (r : IterRange) (first2 : Nat)
    (hdisj : r.last ≤ first2 ∨ first2 + r.size ≤ r.first) (m : Memory α) :
    ∃ b, (∀ s : Schedule r.size, swapRanges r first2 s m = (b, first2 + r.size)) ∧
      Swapped r.first first2 r.size m b := by
  refine ⟨_, fun s ↦ ?_, swapRanges_swapped r first2 hdisj (Schedule.seq _) m⟩
  rw [← (swapRanges_swapped r first2 hdisj s m).unique
    (swapRanges_swapped r first2 hdisj (Schedule.seq _) m)]
  rfl

theorem swapRanges_spec_at :
    ((⟨0, 2, by decide⟩ : IterRange).last ≤ 3 ∨ 3 + (⟨0, 2, by decide⟩ : IterRange).size ≤ 0) ∧
      ∃ b, (∀ s : Schedule 2, swapRanges ⟨0, 2, by decide⟩ 3 s (fun i ↦ i) = (b, 3 + 2)) ∧
        Swapped 0 3 2 (fun i ↦ i) b :=
  ⟨by decide, swapRanges_spec ⟨0, 2, by decide⟩ 3 (by decide) (fun i ↦ i)⟩

/-- **Swapping twice restores the buffer.**  For disjoint ranges, `swap_ranges` applied to its
own result, under any two orders of the swaps, gives back the original buffer and again returns
`first2 + n`. -/
theorem swapRanges_swapRanges (r : IterRange) (first2 : Nat)
    (hdisj : r.last ≤ first2 ∨ first2 + r.size ≤ r.first) (s s' : Schedule r.size)
    (m : Memory α) :
    swapRanges r first2 s' (swapRanges r first2 s m).1 = (m, first2 + r.size) :=
  Prod.ext ((swapRanges_swapped r first2 hdisj s' _).unique
    (swapRanges_swapped r first2 hdisj s m).symm) rfl

theorem swapRanges_swapRanges_at :
    ((⟨0, 2, by decide⟩ : IterRange).last ≤ 3 ∨ 3 + (⟨0, 2, by decide⟩ : IterRange).size ≤ 0) ∧
      swapRanges ⟨0, 2, by decide⟩ 3 (Schedule.seq 2)
          (swapRanges ⟨0, 2, by decide⟩ 3 (Schedule.seq 2) (fun i ↦ i)).1 =
        (fun i ↦ i, 3 + (⟨0, 2, by decide⟩ : IterRange).size) :=
  ⟨by decide, swapRanges_swapRanges ⟨0, 2, by decide⟩ 3 (by decide) _ _ _⟩

/-! ## Overlapping ranges

With overlapping ranges two swaps can touch one address, and then the order `for_each` picks
matters.  Each swap is an involution, so what the other swaps do afterwards cannot make two
different buffers equal again: the first two swaps decide. -/

theorem swapPairElements_involutive (z : ZipIterator) :
    Function.Involutive (swapPairElements (α := α) z) := by
  intro m
  obtain ⟨a, b⟩ := z
  funext q
  by_cases ha : q = a
  · rw [ha, swapPairElements_first, swapPairElements_second]
  by_cases hb : q = b
  · rw [hb, swapPairElements_second, swapPairElements_first]
  rw [swapPairElements_of_ne ha hb, swapPairElements_of_ne ha hb]

theorem swapPairElements_self (a : Nat) (m : Memory α) : swapPairElements ⟨a, a⟩ m = m := by
  simp [swapPairElements]

/-- Running the same swaps after two different buffers leaves two different buffers. -/
theorem foldl_swapPairElements_injective (f1 f2 : Nat) (σ : List Nat) :
    Function.Injective fun m : Memory α ↦
      σ.foldl (fun m i ↦ swapPairElements ⟨f1 + i, f2 + i⟩ m) m := by
  induction σ with
  | nil => exact fun _ _ h ↦ h
  | cons j σ ih => exact ih.comp (swapPairElements_involutive _).injective

theorem swapRanges_fst (r : IterRange) (first2 : Nat) (s : Schedule r.size) (m : Memory α) :
    (swapRanges r first2 s m).1 =
      s.order.foldl (fun m i ↦ swapPairElements ⟨r.first + i, first2 + i⟩ m) m :=
  rfl

/-- Distinct overlapping ranges, `d` apart: swapping pair `0` and then pair `d` and swapping them
the other way round leave different buffers when `first1` and `first2` hold different elements.
(Pairs `0` and `d` share an address, `max(first1, first2)`.) -/
theorem swapRanges_leading_ne (r : IterRange) (first2 : Nat) {d : Nat} (hd : 0 < d)
    (hdn : d < r.size) (hfd : first2 = r.first + d ∨ r.first = first2 + d) (m : Memory α)
    (hm : m r.first ≠ m first2) :
    swapRanges r first2 (.leading 0 d (by omega) hdn (by omega)) m ≠
      swapRanges r first2 (.leading d 0 hdn (by omega) (by omega)) m := by
  intro h
  have hfold := congrArg Prod.fst h
  simp only [swapRanges_fst, Schedule.leading, List.foldl_cons, Schedule.others_comm r.size d 0,
    Nat.add_zero] at hfold
  have h2 := foldl_swapPairElements_injective _ _ _ hfold
  rcases hfd with rfl | hfd
  · have := congrFun h2 (r.first + d + d)
    simp (disch := omega) only [swapPairElements_second, swapPairElements_of_ne] at this
    exact hm this
  · rw [hfd] at h2 hm
    have := congrFun h2 (first2 + d + d)
    simp (disch := omega) only [swapPairElements_first, swapPairElements_of_ne] at this
    exact hm this.symm

/-- **When the order of the swaps cannot matter.**  `swap_ranges` leaves the same buffer under
every order of the swaps, for every buffer, exactly when `[first1, last1)` and
`[first2, first2 + n)` are disjoint or the same range. -/
theorem swapRanges_order_independent_iff [Nontrivial α] (r : IterRange) (first2 : Nat) :
    (∀ (m : Memory α) (s s' : Schedule r.size),
        swapRanges r first2 s m = swapRanges r first2 s' m) ↔
      r.last ≤ first2 ∨ first2 + r.size ≤ r.first ∨ first2 = r.first := by
  have hl := r.last_eq
  constructor
  · intro h
    by_contra hov
    obtain ⟨x, y, hxy⟩ := exists_pair_ne α
    obtain ⟨d, hd, hdn, hfd⟩ := r.exists_offset_of_overlap (p := first2) (by omega) (by omega)
      (by omega)
    exact swapRanges_leading_ne r first2 hd hdn hfd (fun p ↦ if p = r.first then x else y)
      (by simpa [show first2 ≠ r.first by omega] using hxy) (h _ _ _)
  · rintro (hdisj | hdisj | rfl) m s s'
    · exact Prod.ext ((swapRanges_swapped r first2 (.inl hdisj) s m).unique
        (swapRanges_swapped r first2 (.inl hdisj) s' m)) rfl
    · exact Prod.ext ((swapRanges_swapped r first2 (.inr hdisj) s m).unique
        (swapRanges_swapped r first2 (.inr hdisj) s' m)) rfl
    · refine Prod.ext ?_ rfl
      simp only [swapRanges_fst, swapPairElements_self]
      exact (List.foldl_fixed' (fun _ ↦ rfl) _).trans (List.foldl_fixed' (fun _ ↦ rfl) _).symm

theorem swapRanges_order_independent_iff_nat :
    (∀ (m : Memory Nat) (s s' : Schedule (⟨0, 2, by decide⟩ : IterRange).size),
        swapRanges ⟨0, 2, by decide⟩ 1 s m = swapRanges ⟨0, 2, by decide⟩ 1 s' m) ↔
      (⟨0, 2, by decide⟩ : IterRange).last ≤ 1 ∨ 1 + (⟨0, 2, by decide⟩ : IterRange).size ≤ 0 ∨
        1 = (⟨0, 2, by decide⟩ : IterRange).first :=
  swapRanges_order_independent_iff ⟨0, 2, by decide⟩ 1

end Generic
end Thrust
