import Thrust.Memory
import Mathlib.Data.List.Perm.Basic

/-!
# The CUDA backend's parallel primitives

`cuda_cub::scatter`, `gather` and their `_if` forms are each one call to `cuda_cub::transform`
or `cuda_cub::transform_if` through a `permutation_iterator`, and generic `swap_ranges` is one
call to `for_each`.  None of those three is under src/, so they are modelled from what the
standard and the execution model say they do (`transform` and `transform_if` here, `for_each` with
`swap_ranges`):

* the device runs one body per index `i < n`, each exactly once, in an order it chooses.  A
  `Schedule n` is such an order, a permutation of `[0, n)`; every result below holds for every
  schedule, and so for every interleaving that is equivalent to running the bodies one at a time;
* the body of `transform_if` is `if (pred(stencil[i])) result[i] = op(first[i])`, of `transform`
  the same without the test, and each returns `result + n`.

An input iterator is modelled by what it reads at each offset, `InputIt α`, with `none` for a read
outside the buffer it points into.  That is how `gather_if` is seen to read only the entries its
stencil selects.  An output iterator is the address it stores to at each offset, `OutputIt`.  A
`permutation_iterator` composes the two: reading or writing at offset `i` goes to `map[i]` of
the underlying iterator.

`foldlM_transformIfBody` is the run of `transform_if` bodies over any duplicate-free order: when
every selected index reads a valid element and stores to an address of its own, the run succeeds,
each selected address holds `op` of what was read there, and every other address is untouched.
`transformIf_spec` lifts it to schedules, where it also shows that every schedule leaves the same
memory; it is the one theorem the four algorithms use when their writes go to distinct addresses.

For runs whose writes may collide, three facts hold in every order: a run succeeds when every
selected read is valid (`foldlM_transformIfBody_isSome`), it leaves every address no selected
index stores to (`foldlM_transformIfBody_frame`), and an address ends with the value of the last
selected index that stores to it (`foldlM_transformIfBody_last`).  `Schedule.leading` and
`Schedule.trailing` are the orders that run two chosen bodies first or last, with which the
collisions are exhibited.
-/

set_option autoImplicit false

namespace Thrust

variable {α β γ : Type}

/-! ## Schedules and iterators -/

/-- Modelled from the spec: the execution model, not code under src/.  The order in which the
device runs the bodies of an `n`-element algorithm: every index of `[0, n)` once. -/
structure Schedule (n : Nat) where
  /-- The indices, in the order their bodies run. -/
  order : List Nat
  /-- Every index of `[0, n)` runs exactly once. -/
  perm : order.Perm (List.range n)

namespace Schedule

variable {n : Nat}

theorem nodup (s : Schedule n) : s.order.Nodup := s.perm.nodup_iff.2 (List.nodup_range n)

@[simp] theorem mem_order (s : Schedule n) {i : Nat} : i ∈ s.order ↔ i < n := by
  rw [s.perm.mem_iff, List.mem_range]

/-- The bodies run one after another, in index order. -/
def seq (n : Nat) : Schedule n := ⟨List.range n, List.Perm.refl _⟩

/-- The indices of `[0, n)` other than `i` and `j`, in index order. -/
def others (n i j : Nat) : List Nat := ((List.range n).erase i).erase j

theorem others_comm (n i j : Nat) : others n i j = others n j i :=
  List.erase_comm _ _ _

theorem mem_others {n i j k : Nat} : k ∈ others n i j ↔ k ≠ j ∧ k ≠ i ∧ k < n := by
  rw [others, ((List.nodup_range n).erase i).mem_erase_iff,
    (List.nodup_range n).mem_erase_iff, List.mem_range]

theorem perm_leading {i j : Nat} (hi : i < n) (hj : j < n) (hij : i ≠ j) :
    (i :: j :: others n i j).Perm (List.range n) :=
  ((List.perm_cons_erase (List.mem_range.2 hi)).trans
    ((List.perm_cons_erase ((List.mem_erase_of_ne hij.symm).2 (List.mem_range.2 hj))).cons i)).symm

/-- The order that runs `i`, then `j`, then every other index in index order. -/
def leading (i j : Nat) (hi : i < n) (hj : j < n) (hij : i ≠ j) : Schedule n :=
  ⟨i :: j :: others n i j, perm_leading hi hj hij⟩

/-- The order that runs every index other than `i` and `j` in index order, then `j`, then `i`. -/
def trailing (i j : Nat) (hi : i < n) (hj : j < n) (hij : i ≠ j) : Schedule n :=
  ⟨others n i j ++ [j, i],
    List.perm_append_comm.trans ((List.Perm.swap i j _).trans (perm_leading hi hj hij))⟩

end Schedule

/-- A random-access input iterator, by what it reads `i` elements on; `none` is a read outside the
buffer it points into. -/
abbrev InputIt (α : Type) := Nat → Option α

/-- A random-access output iterator, by the address it stores to `i` elements on. -/
abbrev OutputIt := Nat → Nat

/-- An iterator at address `p` of memory. -/
def memoryIter (m : Memory α) (p : Nat) : InputIt α := fun i ↦ some (m (p + i))

/-- An iterator to the start of a buffer of known extent. -/
def bufferIter (xs : List α) : InputIt α := fun i ↦ xs[i]?

/-- An output pointer to address `p`. -/
def ptr (p : Nat) : OutputIt := fun i ↦ p + i

/-- `it + n`. -/
def advance (it : OutputIt) (n : Nat) : OutputIt := fun i ↦ it (n + i)

theorem advance_ptr (p n : Nat) : advance (ptr p) n = ptr (p + n) := by
  funext i; simp only [advance, ptr]; omega

/-- Modelled from the spec: `thrust::permutation_iterator` is not under src/.
`make_permutation_iterator(elements, map)` read as an input iterator, with `map` at address `p`:
offset `i` reads `elements[map[i]]`. -/
def permutationIter (elements : InputIt α) (mapMem : Memory Nat) (p : Nat) : InputIt α :=
  fun i ↦ elements (mapMem (p + i))

/-- Modelled from the spec: `thrust::permutation_iterator` is not under src/.
`make_permutation_iterator(result, map)` written through as an output iterator, with `map` at
address `p`: offset `i` stores to `result + map[i]`. -/
def permutationOut (result : Nat) (mapMem : Memory Nat) (p : Nat) : OutputIt :=
  fun i ↦ result + mapMem (p + i)

/-! ## `transform` and `transform_if` -/

namespace CudaCub

/-- Modelled from the spec: `cuda_cub::transform_if` is not under src/.  The body it runs at
index `i`, `if (pred(stencil[i])) result[i] = op(first[i])`; the element is read only when the
stencil selects it. -/
def transformIfBody (first : InputIt α) (stencil : Nat → β) (result : OutputIt) (op : α → γ)
    (pred : β → Bool) (m : Memory γ) (i : Nat) : Option (Memory γ) :=
  if pred (stencil i) then (first i).map fun v ↦ Function.update m (result i) (op v) else some m

/-- Modelled from the spec: `cuda_cub::transform_if` is not under src/.  It runs
`transformIfBody` for every `i < n` in the device's order and returns `result + n`. -/
def transformIf {n : Nat} (s : Schedule n) (first : InputIt α) (stencil : Nat → β)
    (result : OutputIt) (op : α → γ) (pred : β → Bool) (m : Memory γ) :
    Option (Memory γ × OutputIt) :=
  (s.order.foldlM (transformIfBody first stencil result op pred) m).map (·, advance result n)

/-- Modelled from the spec: `cuda_cub::transform` is not under src/.  The body it runs at index
`i`, `result[i] = op(first[i])`. -/
def transformBody (first : InputIt α) (result : OutputIt) (op : α → γ) (m : Memory γ) (i : Nat) :
    Option (Memory γ) :=
  (first i).map fun v ↦ Function.update m (result i) (op v)

/-- Modelled from the spec: `cuda_cub::transform` is not under src/.  It runs `transformBody` for
every `i < n` in the device's order and returns `result + n`. -/
def transform {n : Nat} (s : Schedule n) (first : InputIt α) (result : OutputIt) (op : α → γ)
    (m : Memory γ) : Option (Memory γ × OutputIt) :=
  (s.order.foldlM (transformBody first result op) m).map (·, advance result n)

/-- `transform` is `transform_if` with a stencil that selects every index. -/
theorem transform_eq_transformIf {n : Nat} (s : Schedule n) (first : InputIt α)
    (result : OutputIt) (op : α → γ) (m : Memory γ) :
    transform s first result op m =
      transformIf s first (fun _ ↦ ()) result op (fun _ ↦ true) m := by
  have : transformBody first result op =
      transformIfBody first (fun _ ↦ ()) result op fun _ ↦ true := by
    funext m i; simp [transformBody, transformIfBody]
  rw [transform, transformIf, this]

/-- **A run of `transform_if` bodies.**  Over distinct indices, when every selected index reads a
valid element and no two selected indices store to one address, the run succeeds; each selected
address holds `op` of the element read for it, and every other address is untouched. -/
theorem foldlM_transformIfBody (first : InputIt α) (stencil : Nat → β) (result : OutputIt)
    (op : α → γ) (pred : β → Bool) {σ : List Nat} (hσ : σ.Nodup)
    (hread : ∀ i ∈ σ, pred (stencil i) → first i ≠ none)
    (hinj : ∀ i ∈ σ, ∀ j ∈ σ, pred (stencil i) → pred (stencil j) → result i = result j → i = j)
    (m : Memory γ) :
    ∃ b, σ.foldlM (transformIfBody first stencil result op pred) m = some b ∧
      (∀ i ∈ σ, pred (stencil i) → ∀ v, first i = some v → b (result i) = op v) ∧
      ∀ q, (∀ i ∈ σ, pred (stencil i) → result i ≠ q) → b q = m q := by
  induction σ generalizing m with
  | nil => exact ⟨m, rfl, by simp, fun _ _ ↦ rfl⟩
  | cons j σ ih =>
    obtain ⟨hj, hσ'⟩ := List.nodup_cons.1 hσ
    have ih' := ih hσ' (fun i hi ↦ hread i (.tail _ hi))
      (fun i hi k hk ↦ hinj i (.tail _ hi) k (.tail _ hk))
    by_cases hp : pred (stencil j)
    · obtain ⟨v, hv⟩ := Option.ne_none_iff_exists'.1 (hread j (.head _) hp)
      obtain ⟨b, hb, hwr, hfr⟩ := ih' (Function.update m (result j) (op v))
      -- no later selected index stores to `result j`
      have hfree : ∀ i ∈ σ, pred (stencil i) → result i ≠ result j := fun i hi hpi heq ↦
        hj (hinj i (.tail _ hi) j (.head _) hpi hp heq ▸ hi)
      refine ⟨b, by simp [transformIfBody, hp, hv, hb], fun i hi hpi w hw ↦ ?_, fun q hq ↦ ?_⟩
      · rcases List.mem_cons.1 hi with rfl | hi
        · rw [hfr _ hfree, Function.update_same, Option.some_inj.1 (hv.symm.trans hw)]
        · exact hwr i hi hpi w hw
      · rw [hfr q fun i hi hpi ↦ hq i (.tail _ hi) hpi,
          Function.update_noteq (hq j (.head _) hp).symm]
    · obtain ⟨b, hb, hwr, hfr⟩ := ih' m
      refine ⟨b, by simp [transformIfBody, hp, hb], fun i hi hpi w hw ↦ ?_,
        fun q hq ↦ hfr q fun i hi hpi ↦ hq i (.tail _ hi) hpi⟩
      rcases List.mem_cons.1 hi with rfl | hi
      · exact absurd hpi hp
      · exact hwr i hi hpi w hw

/-- A run of `transform_if` bodies fails as soon as one selected index reads outside its buffer,
whatever the others do. -/
theorem foldlM_transformIfBody_eq_none {first : InputIt α} {stencil : Nat → β}
    {result : OutputIt} {op : α → γ} {pred : β → Bool} {σ : List Nat} {i : Nat} (hi : i ∈ σ)
    (hp : pred (stencil i)) (hnone : first i = none) (m : Memory γ) :
    σ.foldlM (transformIfBody first stencil result op pred) m = none := by
  induction σ generalizing m with
  | nil => simp at hi
  | cons j σ ih =>
    rw [List.foldlM_cons]
    cases hb : transformIfBody first stencil result op pred m j with
    | none => rfl
    | some m' =>
      rcases List.mem_cons.1 hi with rfl | hi
      · simp [transformIfBody, hp, hnone] at hb
      · exact ih hi m'

/-- **`transform_if`, for every schedule.**  When every selected index reads a valid element and
selected indices store to distinct addresses, `transform_if` succeeds, returns `result + n`, and
leaves one and the same memory whatever the device's order: `op(first[i])` at each selected
`result[i]` and every other address as it was. -/
theorem transformIf_spec {n : Nat} (first : InputIt α) (stencil : Nat → β) (result : OutputIt)
    (op : α → γ) (pred : β → Bool) (hread : ∀ i < n, pred (stencil i) → first i ≠ none)
    (hinj : ∀ i < n, ∀ j < n, pred (stencil i) → pred (stencil j) → result i = result j → i = j)
    (m : Memory γ) :
    ∃ b, (∀ s : Schedule n,
        transformIf s first stencil result op pred m = some (b, advance result n)) ∧
      (∀ i < n, pred (stencil i) → ∀ v, first i = some v → b (result i) = op v) ∧
      ∀ q, (∀ i < n, pred (stencil i) → result i ≠ q) → b q = m q := by
  have run (s : Schedule n) := foldlM_transformIfBody first stencil result op pred s.nodup
    (fun i hi ↦ hread i (s.mem_order.1 hi))
    (fun i hi j hj ↦ hinj i (s.mem_order.1 hi) j (s.mem_order.1 hj)) m
  obtain ⟨b, -, hwr, hfr⟩ := run (Schedule.seq n)
  simp only [Schedule.mem_order] at hwr hfr
  refine ⟨b, fun s ↦ ?_, hwr, hfr⟩
  obtain ⟨b', hb', hwr', hfr'⟩ := run s
  simp only [Schedule.mem_order] at hwr' hfr'
  -- both runs leave the same element at every address
  suffices b' = b by rw [transformIf, hb', this]; rfl
  funext q
  by_cases hq : ∃ i < n, pred (stencil i) ∧ result i = q
  · obtain ⟨i, hi, hp, rfl⟩ := hq
    obtain ⟨v, hv⟩ := Option.ne_none_iff_exists'.1 (hread i hi hp)
    rw [hwr' i hi hp v hv, hwr i hi hp v hv]
  · push_neg at hq
    rw [hfr' q hq, hfr q hq]

/-- `transform_if` fails exactly when some selected index reads outside its buffer. -/
theorem transformIf_eq_none_iff {n : Nat} (s : Schedule n) {first : InputIt α}
    {stencil : Nat → β} {result : OutputIt} {op : α → γ} {pred : β → Bool}
    (hinj : ∀ i < n, ∀ j < n, pred (stencil i) → pred (stencil j) → result i = result j → i = j)
    (m : Memory γ) :
    transformIf s first stencil result op pred m = none ↔
      ∃ i < n, pred (stencil i) ∧ first i = none := by
  refine ⟨fun h ↦ ?_, fun ⟨i, hi, hp, hnone⟩ ↦ ?_⟩
  · by_contra! hall
    obtain ⟨b, hb, -⟩ := transformIf_spec first stencil result op pred hall hinj m
    simp [hb s] at h
  · rw [transformIf, foldlM_transformIfBody_eq_none (s.mem_order.2 hi) hp hnone]
    rfl

/-! ## Runs in any order

Nothing below assumes distinct indices or distinct addresses: these are the facts about a run that
hold for every order, including the ones in which two bodies store to one address. -/

/-- What one body can do: when selected and its read is valid, store `op` of what it read at its
address; when not selected, nothing. -/
theorem transformIfBody_eq_some {first : InputIt α} {stencil : Nat → β} {result : OutputIt}
    {op : α → γ} {pred : β → Bool} {m m' : Memory γ} {i : Nat} :
    transformIfBody first stencil result op pred m i = some m' ↔
      (pred (stencil i) ∧ ∃ v, first i = some v ∧ m' = Function.update m (result i) (op v)) ∨
        (pred (stencil i) = false ∧ m' = m) := by
  unfold transformIfBody
  cases pred (stencil i) <;> cases first i <;> simp [eq_comm]

section Runs

variable {first : InputIt α} {stencil : Nat → β} {result : OutputIt} {op : α → γ}
  {pred : β → Bool}

theorem foldlM_transformIfBody_cons_eq_some {j : Nat} {σ : List Nat} {m b : Memory γ} :
    (j :: σ).foldlM (transformIfBody first stencil result op pred) m = some b ↔
      ∃ m', transformIfBody first stencil result op pred m j = some m' ∧
        σ.foldlM (transformIfBody first stencil result op pred) m' = some b := by
  simp [List.foldlM_cons, Option.bind_eq_some]

/-- **The frame of a run.**  A run of `transform_if` bodies in any order leaves every address that
no selected index stores to. -/
theorem foldlM_transformIfBody_frame {σ : List Nat} {m b : Memory γ} {q : Nat}
    (hrun : σ.foldlM (transformIfBody first stencil result op pred) m = some b)
    (hq : ∀ i ∈ σ, pred (stencil i) → result i ≠ q) : b q = m q := by
  induction σ generalizing m with
  | nil => cases Option.some_inj.1 hrun; rfl
  | cons j σ ih =>
    obtain ⟨m', hm', hrest⟩ := foldlM_transformIfBody_cons_eq_some.1 hrun
    rw [ih hrest fun i hi ↦ hq i (.tail _ hi)]
    obtain ⟨hp, v, -, rfl⟩ | ⟨-, rfl⟩ := transformIfBody_eq_some.1 hm'
    · exact Function.update_noteq (hq j (.head _) hp).symm _ _
    · rfl

/-- **The last writer wins.**  In a run over `σ₁ ++ i :: σ₂`, when `i` is selected and reads `v`
and no selected index after it stores to its address, that address ends with `op v`, whatever
ran before. -/
theorem foldlM_transformIfBody_last {σ₁ σ₂ : List Nat} {i : Nat} {v : α} {m b : Memory γ}
    (hrun : (σ₁ ++ i :: σ₂).foldlM (transformIfBody first stencil result op pred) m = some b)
    (hp : pred (stencil i)) (hv : first i = some v)
    (hlast : ∀ j ∈ σ₂, pred (stencil j) → result j ≠ result i) : b (result i) = op v := by
  simp only [List.foldlM_append, bind, Option.bind_eq_some] at hrun
  obtain ⟨m₁, -, hrun⟩ := hrun
  obtain ⟨m₂, hm₂, hrest⟩ := foldlM_transformIfBody_cons_eq_some.1 hrun
  rw [foldlM_transformIfBody_frame hrest hlast]
  obtain ⟨-, w, hw, rfl⟩ | ⟨hp', -⟩ := transformIfBody_eq_some.1 hm₂
  · rw [Function.update_same, Option.some_inj.1 (hv.symm.trans hw)]
  · simp [hp] at hp'

end Runs

/-- A run in any order succeeds when every selected index reads a valid element. -/
theorem foldlM_transformIfBody_isSome (first : InputIt α) (stencil : Nat → β) (result : OutputIt)
    (op : α → γ) (pred : β → Bool) {σ : List Nat}
    (hread : ∀ i ∈ σ, pred (stencil i) → first i ≠ none) (m : Memory γ) :
    ∃ b, σ.foldlM (transformIfBody first stencil result op pred) m = some b := by
  induction σ generalizing m with
  | nil => exact ⟨m, rfl⟩
  | cons j σ ih =>
    obtain ⟨m', hm'⟩ : ∃ m', transformIfBody first stencil result op pred m j = some m' := by
      by_cases hp : pred (stencil j)
      · obtain ⟨v, hv⟩ := Option.ne_none_iff_exists'.1 (hread j (.head _) hp)
        exact ⟨_, transformIfBody_eq_some.2 (.inl ⟨hp, v, hv, rfl⟩)⟩
      · exact ⟨m, transformIfBody_eq_some.2 (.inr ⟨by simpa using hp, rfl⟩)⟩
    obtain ⟨b, hb⟩ := ih (fun i hi ↦ hread i (.tail _ hi)) m'
    exact ⟨b, foldlM_transformIfBody_cons_eq_some.2 ⟨m', hm', hb⟩⟩

end CudaCub

end Thrust
