import Thrust.Parallel

/-!
# `scatter` and `gather` on the CUDA backend

`thrust/system/cuda/detail/scatter.h` and `gather.h` are each one call:

* `scatter(first, last, map, result)` is `transform` from `[first, last)` into
  `make_permutation_iterator(result, map)`, so index `i` stores `items[i]` at `result[map[i]]`;
* `gather(map_first, map_last, items, result)` is `transform` from
  `make_permutation_iterator(items, map_first)` into `result`, so index `i` stores
  `items[map[i]]` at `result[i]`;
* the `_if` forms are the same through `transform_if`, with `pred`, or with `identity` applied
  to a stencil of flags.

What they do therefore follows from `transformIf_spec`, once the permutation iterator's
addresses are seen to be distinct: for `scatter` that is the caller's promise that the map is
injective on what is written, for `gather` it is automatic.  `scatter_spec` and `gather_spec`
state the result for every schedule of the parallel writes.  `gatherIf_eq_none_iff` makes the
point of `gather_if` exact: the run fails precisely when a *selected* map entry is out of range,
so an entry the stencil masks out is never read.

Without the promise, `scatter_last_writer` says what every schedule leaves: each address holds
the item of the last index written to it.  `scatter_order_independent_iff` turns that into the
exact condition: the output is the same under every schedule, for all inputs, precisely when the
map has no repeated entry on the range.  `gather_scatter` composes the two algorithms: gathering
through the map undoes a scatter through it.
-/

set_option autoImplicit false

namespace Thrust
namespace CudaCub

open Memory

variable {α β : Type}

/-! ## The algorithms -/

/-- `cuda_cub::scatter(policy, first, last, map, result)`: `transform` through
`make_permutation_iterator(result, map)` with `identity`. -/
def scatter (items : Memory α) (r : IterRange) (mapMem : Memory Nat) (map result : Nat)
    (s : Schedule r.size) (out : Memory α) : Option (Memory α) :=
  (transform s (memoryIter items r.first) (permutationOut result mapMem map) id out).map Prod.fst

/-- `cuda_cub::scatter_if(policy, first, last, map, stencil, result, pred)`: `transform_if`
through `make_permutation_iterator(result, map)` with `identity` and `pred`. -/
def scatterIf (items : Memory α) (r : IterRange) (mapMem : Memory Nat) (map : Nat)
    (stencilMem : Memory β) (stencil result : Nat) (pred : β → Bool) (s : Schedule r.size)
    (out : Memory α) : Option (Memory α) :=
  (transformIf s (memoryIter items r.first) (fun i ↦ stencilMem (stencil + i))
    (permutationOut result mapMem map) id pred out).map Prod.fst

/-- `cuda_cub::scatter_if(policy, first, last, map, stencil, result)`: `scatter_if` with
`identity` as the predicate, on a stencil of flags.  This is the overload's body.  As declared at
scatter.h:70-75 the overload also has a template parameter `Predicate` that no argument deduces
and that has no default, so a six-argument call never selects it. -/
def scatterIfIdentity (items : Memory α) (r : IterRange) (mapMem : Memory Nat) (map : Nat)
    (stencilMem : Memory Bool) (stencil result : Nat) (s : Schedule r.size) (out : Memory α) :
    Option (Memory α) :=
  scatterIf items r mapMem map stencilMem stencil result id s out

/-- `cuda_cub::gather(policy, map_first, map_last, items, result)`: `transform` from
`make_permutation_iterator(items, map_first)` into `result` with `identity`. -/
def gather (mapMem : Memory Nat) (mapR : IterRange) (items : List α) (result : Nat)
    (s : Schedule mapR.size) (out : Memory α) : Option (Memory α × OutputIt) :=
  transform s (permutationIter (bufferIter items) mapMem mapR.first) (ptr result) id out

/-- `cuda_cub::gather_if(policy, map_first, map_last, stencil, items, result, pred)`:
`transform_if` from `make_permutation_iterator(items, map_first)` into `result` with `identity`
and `pred`. -/
def gatherIf (mapMem : Memory Nat) (mapR : IterRange) (stencilMem : Memory β) (stencil : Nat)
    (items : List α) (result : Nat) (pred : β → Bool) (s : Schedule mapR.size) (out : Memory α) :
    Option (Memory α × OutputIt) :=
  transformIf s (permutationIter (bufferIter items) mapMem mapR.first)
    (fun i ↦ stencilMem (stencil + i)) (ptr result) id pred out

/-- `cuda_cub::gather_if(policy, map_first, map_last, stencil, items, result)`: `gather_if` with
`identity` as the predicate, on a stencil of flags. -/
def gatherIfIdentity (mapMem : Memory Nat) (mapR : IterRange) (stencilMem : Memory Bool)
    (stencil : Nat) (items : List α) (result : Nat) (s : Schedule mapR.size) (out : Memory α) :
    Option (Memory α × OutputIt) :=
  gatherIf mapMem mapR stencilMem stencil items result id s out

/-! ## Scatter -/

/-- `b` is what a scatter of `[first, first + n)` through `map` into `result` leaves when it writes
the indices `sel` selects: `items[i]` at `result[map[i]]` for those, every other address of
`out` as it was. -/
def Scattered (items : Memory α) (first n : Nat) (mapMem : Memory Nat) (map result : Nat)
    (sel : Nat → Bool) (out b : Memory α) : Prop :=
  (∀ i < n, sel i → b (result + mapMem (map + i)) = items (first + i)) ∧
    ∀ q, (∀ i < n, sel i → result + mapMem (map + i) ≠ q) → b q = out q

theorem scatterIf_spec (items : Memory α) (r : IterRange) (mapMem : Memory Nat) (map : Nat)
    (stencilMem : Memory β) (stencil result : Nat) (pred : β → Bool) (out : Memory α)
    (hinj : ∀ i < r.size, ∀ j < r.size, pred (stencilMem (stencil + i)) →
      pred (stencilMem (stencil + j)) → mapMem (map + i) = mapMem (map + j) → i = j) :
    ∃ b, (∀ s, scatterIf items r mapMem map stencilMem stencil result pred s out = some b) ∧
      Scattered items r.first r.size mapMem map result (fun i ↦ pred (stencilMem (stencil + i)))
        out b := by
  obtain ⟨b, hrun, hwr, hfr⟩ := transformIf_spec (memoryIter items r.first) _
    (permutationOut result mapMem map) id pred (by simp [memoryIter])
    (fun i hi j hj hpi hpj h ↦ hinj i hi j hj hpi hpj (by simpa [permutationOut] using h)) out
  exact ⟨b, fun s ↦ by rw [scatterIf, hrun]; rfl,
    fun i hi hp ↦ hwr i hi hp _ rfl, fun q hq ↦ hfr q hq⟩

/-- **`scatter` and `scatter_if`, for every order of the parallel writes.**  When the map entries
that are written are distinct, `scatter` leaves `items[i]` at `result[map[i]]` for every `i`,
`scatter_if` for exactly the `i` its stencil selects (through `pred`, or as flags), every other
address of the result keeps its value, and the final result is the same for every order in
which the device runs the writes. -/
theorem scatter_spec (items : Memory α) (r : IterRange) (mapMem : Memory Nat)
    (map stencil result : Nat) (stencilMem : Memory β) (pred : β → Bool)
    (flags : Memory Bool) (out : Memory α) :
    ((∀ i < r.size, ∀ j < r.size, mapMem (map + i) = mapMem (map + j) → i = j) →
      ∃ b, (∀ s, scatter items r mapMem map result s out = some b) ∧
        Scattered items r.first r.size mapMem map result (fun _ ↦ true) out b) ∧
    ((∀ i < r.size, ∀ j < r.size, pred (stencilMem (stencil + i)) →
        pred (stencilMem (stencil + j)) → mapMem (map + i) = mapMem (map + j) → i = j) →
      ∃ b, (∀ s, scatterIf items r mapMem map stencilMem stencil result pred s out = some b) ∧
        Scattered items r.first r.size mapMem map result
          (fun i ↦ pred (stencilMem (stencil + i))) out b) ∧
    ((∀ i < r.size, ∀ j < r.size, flags (stencil + i) → flags (stencil + j) →
        mapMem (map + i) = mapMem (map + j) → i = j) →
      ∃ b, (∀ s, scatterIfIdentity items r mapMem map flags stencil result s out = some b) ∧
        Scattered items r.first r.size mapMem map result (fun i ↦ flags (stencil + i)) out b) := by
  refine ⟨fun hinj ↦ ?_, scatterIf_spec items r mapMem map stencilMem stencil result pred out,
    scatterIf_spec items r mapMem map flags stencil result id out⟩
  obtain ⟨b, hrun, hsc⟩ := scatterIf_spec items r mapMem map (fun _ ↦ ()) 0 result
    (fun _ ↦ true) out fun i hi j hj _ _ ↦ hinj i hi j hj
  exact ⟨b, fun s ↦ by rw [scatter, transform_eq_transformIf, ← hrun s]; rfl, hsc⟩

/-! ## Repeated map entries

`scatter_spec` needs a map that sends distinct indices to distinct addresses.  Without it the
device's writes collide, and what `scatter` leaves depends on the order they run in: each colliding
address holds the item of whichever index wrote it last.  That makes the precondition exact. -/

theorem scatterIf_eq_foldlM (items : Memory α) (r : IterRange) (mapMem : Memory Nat) (map : Nat)
    (stencilMem : Memory β) (stencil result : Nat) (pred : β → Bool) (s : Schedule r.size)
    (out : Memory α) :
    scatterIf items r mapMem map stencilMem stencil result pred s out =
      s.order.foldlM (transformIfBody (memoryIter items r.first) (fun i ↦ stencilMem (stencil + i))
        (permutationOut result mapMem map) id pred) out := by
  simp only [scatterIf, transformIf, Option.map_map]
  exact Option.map_id'

theorem scatter_eq_scatterIf (items : Memory α) (r : IterRange) (mapMem : Memory Nat)
    (map result : Nat) (s : Schedule r.size) (out : Memory α) :
    scatter items r mapMem map result s out =
      scatterIf items r mapMem map (fun _ ↦ ()) 0 result (fun _ ↦ true) s out := by
  rw [scatter, transform_eq_transformIf]; rfl

/-- `scatter_if` under one schedule, whatever the map holds: it succeeds; an address that a
selected index `i` is mapped to, and no selected index running after `i`, holds `items[i]`;
every address no selected index is mapped to keeps its value. -/
theorem scatterIf_lastWriter (items : Memory α) (r : IterRange) (mapMem : Memory Nat) (map : Nat)
    (stencilMem : Memory β) (stencil result : Nat) (pred : β → Bool) (s : Schedule r.size)
    (out : Memory α) :
    ∃ b, scatterIf items r mapMem map stencilMem stencil result pred s out = some b ∧
      (∀ σ₁ i σ₂, s.order = σ₁ ++ i :: σ₂ → pred (stencilMem (stencil + i)) →
        (∀ j ∈ σ₂, pred (stencilMem (stencil + j)) → mapMem (map + j) ≠ mapMem (map + i)) →
        b (result + mapMem (map + i)) = items (r.first + i)) ∧
      ∀ q, (∀ i < r.size, pred (stencilMem (stencil + i)) → result + mapMem (map + i) ≠ q) →
        b q = out q := by
  rw [scatterIf_eq_foldlM]
  obtain ⟨b, hb⟩ := foldlM_transformIfBody_isSome (memoryIter items r.first)
    (fun i ↦ stencilMem (stencil + i)) (permutationOut result mapMem map) id pred (σ := s.order)
    (fun _ _ _ ↦ Option.some_ne_none _) out
  refine ⟨b, hb, fun σ₁ i σ₂ hs hp hlast ↦ ?_,
    fun q hq ↦ foldlM_transformIfBody_frame hb fun i hi hp ↦ hq i (s.mem_order.1 hi) hp⟩
  rw [hs] at hb
  exact (foldlM_transformIfBody_last hb hp rfl fun j hj hpj h ↦
    hlast j hj hpj (Nat.add_left_cancel h) :)

/-- **Colliding writes: the last writer wins.**  For every schedule and whatever the map holds,
`scatter` and `scatter_if` succeed; an address that index `i` (a selected one, for `scatter_if`)
is mapped to holds `items[i]` when no index mapped there (no selected one) runs after `i`; and every
address nothing is mapped to keeps its value. -/
theorem scatter_last_writer (items : Memory α) (r : IterRange) (mapMem : Memory Nat)
    (map : Nat) (stencilMem : Memory β) (stencil result : Nat) (pred : β → Bool)
    (s : Schedule r.size) (out : Memory α) :
    (∃ b, scatter items r mapMem map result s out = some b ∧
      (∀ σ₁ i σ₂, s.order = σ₁ ++ i :: σ₂ → (∀ j ∈ σ₂, mapMem (map + j) ≠ mapMem (map + i)) →
        b (result + mapMem (map + i)) = items (r.first + i)) ∧
      ∀ q, (∀ i < r.size, result + mapMem (map + i) ≠ q) → b q = out q) ∧
    ∃ b, scatterIf items r mapMem map stencilMem stencil result pred s out = some b ∧
      (∀ σ₁ i σ₂, s.order = σ₁ ++ i :: σ₂ → pred (stencilMem (stencil + i)) →
        (∀ j ∈ σ₂, pred (stencilMem (stencil + j)) → mapMem (map + j) ≠ mapMem (map + i)) →
        b (result + mapMem (map + i)) = items (r.first + i)) ∧
      ∀ q, (∀ i < r.size, pred (stencilMem (stencil + i)) → result + mapMem (map + i) ≠ q) →
        b q = out q := by
  refine ⟨?_, scatterIf_lastWriter items r mapMem map stencilMem stencil result pred s out⟩
  obtain ⟨b, hrun, hlast, hfr⟩ :=
    scatterIf_lastWriter items r mapMem map (fun _ ↦ ()) 0 result (fun _ ↦ true) s out
  exact ⟨b, by rw [scatter_eq_scatterIf, hrun], fun σ₁ i σ₂ hs h ↦ hlast σ₁ i σ₂ hs rfl
    fun j hj _ ↦ h j hj, fun q hq ↦ hfr q fun i hi _ ↦ hq i hi⟩

/-- Under the schedule that runs `i` last, `scatter` leaves `items[i]` at `result[map[i]]`. -/
theorem scatter_trailing (items : Memory α) (r : IterRange) (mapMem : Memory Nat)
    (map result : Nat) (out : Memory α) {i j : Nat} (hi : i < r.size) (hj : j < r.size)
    (hij : i ≠ j) :
    ∃ b, scatter items r mapMem map result (.trailing i j hi hj hij) out = some b ∧
      b (result + mapMem (map + i)) = items (r.first + i) := by
  obtain ⟨b, hb, hlast, -⟩ := scatterIf_lastWriter items r mapMem map (fun _ ↦ ()) 0 result
    (fun _ ↦ true) (.trailing i j hi hj hij) out
  exact ⟨b, by rw [scatter_eq_scatterIf, hb],
    hlast (Schedule.others r.size i j ++ [j]) i [] (List.append_assoc _ [j] [i]).symm rfl
      fun _ h ↦ absurd h (List.not_mem_nil _)⟩

/-- Two indices mapped to one address with different items: the schedule that runs `i` last and
the one that runs `j` last leave different outputs. -/
theorem scatter_trailing_ne (items : Memory α) (r : IterRange) (mapMem : Memory Nat)
    (map result : Nat) (out : Memory α) {i j : Nat} (hi : i < r.size) (hj : j < r.size)
    (hij : i ≠ j) (hmap : mapMem (map + i) = mapMem (map + j))
    (hitems : items (r.first + i) ≠ items (r.first + j)) :
    scatter items r mapMem map result (.trailing i j hi hj hij) out ≠
      scatter items r mapMem map result (.trailing j i hj hi hij.symm) out := by
  obtain ⟨b, hb, hbi⟩ := scatter_trailing items r mapMem map result out hi hj hij
  obtain ⟨b', hb', hbj⟩ := scatter_trailing items r mapMem map result out hj hi hij.symm
  rw [hb, hb', Ne, Option.some_inj]
  rintro rfl
  exact hitems (hbi.symm.trans (hmap ▸ hbj))

/-- **When the order of the writes cannot matter.**  `scatter` leaves the same output under every
schedule, for all items and every initial output, exactly when the map sends distinct indices of
the range to distinct addresses. -/
theorem scatter_order_independent_iff [Nontrivial α] (r : IterRange) (mapMem : Memory Nat)
    (map result : Nat) :
    (∀ (items out : Memory α) (s s' : Schedule r.size),
        scatter items r mapMem map result s out = scatter items r mapMem map result s' out) ↔
      ∀ i < r.size, ∀ j < r.size, mapMem (map + i) = mapMem (map + j) → i = j := by
  constructor
  · intro h i hi j hj hmap
    by_contra hij
    obtain ⟨x, y, hxy⟩ := exists_pair_ne α
    exact scatter_trailing_ne (fun p ↦ if p = r.first + i then x else y) r mapMem map result
      (fun _ ↦ x) hi hj hij hmap (by simpa [Ne.symm hij] using hxy) (h _ _ _ _)
  · intro hinj items out s s'
    obtain ⟨b, hrun, -⟩ := scatterIf_spec items r mapMem map (fun _ ↦ ()) 0 result
      (fun _ ↦ true) out fun i hi j hj _ _ ↦ hinj i hi j hj
    rw [scatter_eq_scatterIf, scatter_eq_scatterIf, hrun, hrun]

theorem scatter_order_independent_iff_nat :
    ((∀ (items out : Memory Nat) (s s' : Schedule (⟨0, 2, by decide⟩ : IterRange).size),
        scatter items ⟨0, 2, by decide⟩ (fun _ ↦ 0) 0 0 s out =
          scatter items ⟨0, 2, by decide⟩ (fun _ ↦ 0) 0 0 s' out) ↔
      ∀ i < (⟨0, 2, by decide⟩ : IterRange).size, ∀ j < (⟨0, 2, by decide⟩ : IterRange).size,
        (fun _ ↦ 0 : Memory Nat) (0 + i) = (fun _ ↦ 0 : Memory Nat) (0 + j) → i = j) :=
  scatter_order_independent_iff ⟨0, 2, by decide⟩ (fun _ ↦ 0) 0 0

/-! ## Gather -/

/-- `b` is what a gather of `map` over `items` into `[result, result + n)` leaves when it writes
the indices `sel` selects: `items[map[i]]` at `result[i]` for those, every other address of
`out` as it was. -/
def Gathered (mapMem : Memory Nat) (map n : Nat) (items : List α) (result : Nat)
    (sel : Nat → Bool) (out b : Memory α) : Prop :=
  (∀ i < n, sel i → items[mapMem (map + i)]? = some (b (result + i))) ∧
    (∀ i < n, sel i = false → b (result + i) = out (result + i)) ∧
    ∀ q, q < result ∨ result + n ≤ q → b q = out q

theorem gatherIf_spec (mapMem : Memory Nat) (mapR : IterRange) (stencilMem : Memory β)
    (stencil : Nat) (items : List α) (result : Nat) (pred : β → Bool) (out : Memory α)
    (hvalid : ∀ i < mapR.size, pred (stencilMem (stencil + i)) →
      mapMem (mapR.first + i) < items.length) :
    ∃ b, (∀ s, gatherIf mapMem mapR stencilMem stencil items result pred s out =
        some (b, ptr (result + mapR.size))) ∧
      Gathered mapMem mapR.first mapR.size items result
        (fun i ↦ pred (stencilMem (stencil + i))) out b := by
  obtain ⟨b, hrun, hwr, hfr⟩ := transformIf_spec
    (permutationIter (bufferIter items) mapMem mapR.first) _ (ptr result) id pred
    (fun i hi hp ↦ by simpa [permutationIter, bufferIter] using hvalid i hi hp)
    (fun i _ j _ _ _ h ↦ by simpa [ptr] using h) out
  refine ⟨b, fun s ↦ by rw [gatherIf, hrun, advance_ptr], fun i hi hp ↦ ?_, fun i hi hp ↦ ?_,
    fun q hq ↦ hfr q fun i hi _ ↦ by simp only [ptr]; omega⟩
  · have hv := List.getElem?_eq_getElem (hvalid i hi hp)
    exact hv.trans (congrArg some (hwr i hi hp _ hv).symm)
  · exact hfr _ fun j _ hpj h ↦ by
      simp only [ptr, Nat.add_left_cancel_iff] at h; subst h; simp [hp] at hpj

/-- **`gather` and `gather_if`.**  `gather` with every map entry a valid index of `items` leaves
`items[map[i]]` at `result[i]` for every `i < n`; `gather_if` does so exactly for the `i` its
stencil selects (through `pred`, or as flags), needing valid map entries only there, and leaves
`result[i]` as it was for the others.  Each returns `result + n`, writes nothing outside
`[result, result + n)`, and leaves the same result for every order of the parallel writes. -/
theorem gather_spec (mapMem : Memory Nat) (mapR : IterRange) (stencilMem : Memory β)
    (stencil : Nat) (items : List α) (result : Nat) (pred : β → Bool) (flags : Memory Bool)
    (out : Memory α) :
    ((∀ i < mapR.size, mapMem (mapR.first + i) < items.length) →
      ∃ b, (∀ s, gather mapMem mapR items result s out = some (b, ptr (result + mapR.size))) ∧
        Gathered mapMem mapR.first mapR.size items result (fun _ ↦ true) out b) ∧
    ((∀ i < mapR.size, pred (stencilMem (stencil + i)) → mapMem (mapR.first + i) < items.length) →
      ∃ b, (∀ s, gatherIf mapMem mapR stencilMem stencil items result pred s out =
          some (b, ptr (result + mapR.size))) ∧
        Gathered mapMem mapR.first mapR.size items result
          (fun i ↦ pred (stencilMem (stencil + i))) out b) ∧
    ((∀ i < mapR.size, flags (stencil + i) → mapMem (mapR.first + i) < items.length) →
      ∃ b, (∀ s, gatherIfIdentity mapMem mapR flags stencil items result s out =
          some (b, ptr (result + mapR.size))) ∧
        Gathered mapMem mapR.first mapR.size items result (fun i ↦ flags (stencil + i)) out b) := by
  refine ⟨fun hvalid ↦ ?_, gatherIf_spec mapMem mapR stencilMem stencil items result pred out,
    gatherIf_spec mapMem mapR flags stencil items result id out⟩
  obtain ⟨b, hrun, hga⟩ := gatherIf_spec mapMem mapR (fun _ ↦ ()) 0 items result
    (fun _ ↦ true) out fun i hi _ ↦ hvalid i hi
  exact ⟨b, fun s ↦ by rw [gather, transform_eq_transformIf, ← hrun s]; rfl, hga⟩

theorem gather_eq_gatherIf (mapMem : Memory Nat) (mapR : IterRange) (items : List α)
    (result : Nat) (s : Schedule mapR.size) (out : Memory α) :
    gather mapMem mapR items result s out =
      gatherIf mapMem mapR (fun _ ↦ ()) 0 items result (fun _ ↦ true) s out := by
  rw [gather, transform_eq_transformIf]; rfl

/-- **Gathering through the map undoes a scatter.**  When the map sends distinct indices to
distinct entries below `N`, gathering through the same map from the `N` elements at `result`
that `scatter` wrote gives back the items, in order, whatever the order of either pass. -/
theorem gather_scatter (items : Memory α) (r : IterRange) (mapMem : Memory Nat)
    (map result N : Nat) (hlt : ∀ i < r.size, mapMem (map + i) < N)
    (hinj : ∀ i < r.size, ∀ j < r.size, mapMem (map + i) = mapMem (map + j) → i = j)
    (out : Memory α) (s : Schedule r.size) (result2 : Nat)
    (s' : Schedule (⟨map, map + r.size, Nat.le_add_right map r.size⟩ : IterRange).size)
    (out2 : Memory α) :
    ∃ b b2, scatter items r mapMem map result s out = some b ∧
      gather mapMem ⟨map, map + r.size, Nat.le_add_right map r.size⟩ (readRange b result N)
          result2 s' out2 = some (b2, ptr (result2 + r.size)) ∧
      ∀ i < r.size, b2 (result2 + i) = items (r.first + i) := by
  have hsz : (⟨map, map + r.size, Nat.le_add_right map r.size⟩ : IterRange).size = r.size :=
    Nat.add_sub_cancel_left map r.size
  obtain ⟨b, hrun, hwr, -⟩ := scatterIf_spec items r mapMem map (fun _ ↦ ()) 0 result
    (fun _ ↦ true) out fun i hi j hj _ _ ↦ hinj i hi j hj
  obtain ⟨b2, hrun2, hga, -⟩ := gatherIf_spec mapMem
    ⟨map, map + r.size, Nat.le_add_right map r.size⟩ (fun _ ↦ ()) 0 (readRange b result N) result2
    (fun _ ↦ true) out2
    fun i hi _ ↦ by rw [length_readRange]; exact hlt i (by omega)
  refine ⟨b, b2, by rw [scatter_eq_scatterIf, hrun s], by rw [gather_eq_gatherIf, hrun2 s', hsz],
    fun i hi ↦ ?_⟩
  have hget := hga i (by omega) rfl
  dsimp only at hget
  rw [List.getElem?_eq_getElem (by rw [length_readRange]; exact hlt i hi), getElem_readRange,
    hwr i hi rfl] at hget
  exact (Option.some_inj.1 hget).symm

theorem gather_scatter_swap :
    (∀ i < (⟨0, 2, by decide⟩ : IterRange).size, (fun p ↦ 1 - p : Memory Nat) (0 + i) < 2) ∧
      (∀ i < (⟨0, 2, by decide⟩ : IterRange).size, ∀ j < (⟨0, 2, by decide⟩ : IterRange).size,
        (fun p ↦ 1 - p : Memory Nat) (0 + i) = (fun p ↦ 1 - p : Memory Nat) (0 + j) → i = j) ∧
      ∃ b b2, scatter (fun p ↦ p + 10) ⟨0, 2, by decide⟩ (fun p ↦ 1 - p) 0 0 (Schedule.seq 2)
          (fun _ ↦ 0) = some b ∧
        gather (fun p ↦ 1 - p) ⟨0, 0 + 2, Nat.le_add_right 0 2⟩ (readRange b 0 2) 5
            (Schedule.seq 2) (fun _ ↦ 0) = some (b2, ptr (5 + 2)) ∧
        ∀ i < (⟨0, 2, by decide⟩ : IterRange).size, b2 (5 + i) = 0 + i + 10 :=
  ⟨by decide, by decide, gather_scatter (fun p ↦ p + 10) ⟨0, 2, by decide⟩ (fun p ↦ 1 - p) 0 0 2
    (by decide) (by decide) (fun _ ↦ 0) (Schedule.seq 2) 5 (Schedule.seq 2) (fun _ ↦ 0)⟩

/-- `gather_if` reads exactly the map entries its stencil selects: it fails precisely when one of
those is out of range, whatever the masked entries hold. -/
theorem gatherIf_eq_none_iff (mapMem : Memory Nat) (mapR : IterRange) (stencilMem : Memory β)
    (stencil : Nat) (items : List α) (result : Nat) (pred : β → Bool) (s : Schedule mapR.size)
    (out : Memory α) :
    gatherIf mapMem mapR stencilMem stencil items result pred s out = none ↔
      ∃ i < mapR.size, pred (stencilMem (stencil + i)) ∧
        items.length ≤ mapMem (mapR.first + i) := by
  rw [gatherIf, transformIf_eq_none_iff s (fun i _ j _ _ _ h ↦ by simpa [ptr] using h)]
  simp [permutationIter, bufferIter]

end CudaCub
end Thrust
