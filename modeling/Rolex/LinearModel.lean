import Rolex.Foundations.Widths

/-! `LinearRegressionModel` of `submodel.hpp`, over a floating-point type that is
given by its values and its rounding. -/

namespace Rolex

abbrev Key := Fin (2 ^ 64)

/-- The operations on `double`: every result is rounded by `round`, a result of `long double`
arithmetic by `extended`. `bits` is the representation in memory. -/
structure DoubleFormat (F : Type) where
  value : F → ℚ
  round : ℚ → F
  extended : ℚ → ℚ
  bits : F → Fin (2 ^ 64)
  ofBits : Fin (2 ^ 64) → F

structure DoubleFormat.Exact {F : Type} (fmt : DoubleFormat F) : Prop where
  value_round : ∀ q, fmt.value (fmt.round q) = q
  extended : ∀ q, fmt.extended q = q

/-! ### Conversions to integers -/

def truncate (q : ℚ) : ℤ := q.num.tdiv q.den

/-- `int64_t(q)`; out of range the language leaves it open, and x86-64 gives the least value. -/
def toInt64 (q : ℚ) : ℤ :=
  if -2 ^ 63 ≤ truncate q ∧ truncate q < 2 ^ 63 then truncate q else -2 ^ 63

def toSizeT (q : ℚ) : ℕ := (truncate q % 2 ^ 64).toNat

def toInt32 (n : ℕ) : ℤ := ((n : ℤ) + 2 ^ 31) % 2 ^ 32 - 2 ^ 31

theorem truncate_of_nonneg {q : ℚ} (h : 0 ≤ q) : truncate q = ⌊q⌋ := by
  rw [truncate, Int.tdiv_eq_ediv_of_nonneg (Rat.num_nonneg.mpr h)]
  exact (Rat.floor_def q).symm

theorem toInt64_of_nonneg {q : ℚ} (h : 0 ≤ q) (hlt : q < 2 ^ 63) : toInt64 q = ⌊q⌋ := by
  have hf : ⌊q⌋ < 2 ^ 63 := Int.floor_lt.mpr (by exact_mod_cast hlt)
  have h0 : 0 ≤ ⌊q⌋ := Int.floor_nonneg.mpr h
  rw [toInt64, truncate_of_nonneg h, if_pos ⟨by omega, hf⟩]

theorem toInt32_of_lt {n : ℕ} (h : n < 2 ^ 31) : toInt32 n = n := by
  rw [toInt32, Int.emod_eq_of_lt (by omega) (by omega)]
  omega

/-! ### predict -/

structure LinearRegressionModel (F : Type) where
  slope : F
  intercept : F
  deriving DecidableEq

structure ApproxPos where
  pos : ℕ
  lo : ℕ
  hi : ℕ
  deriving DecidableEq

namespace LinearRegressionModel

variable {F : Type} (fmt : DoubleFormat F)

def subEps (x : ℚ) (epsilon : ℕ) : ℚ :=
  let eps := fmt.value (fmt.round epsilon)
  if x ≤ eps then 0 else fmt.value (fmt.round (x - eps))

def addEps (x : ℚ) (epsilon size : ℕ) : ℚ :=
  let eps := fmt.value (fmt.round epsilon)
  let y := fmt.value (fmt.round (fmt.value (fmt.round (x + eps)) + 2))
  if y ≥ fmt.value (fmt.round size) then fmt.value (fmt.round (size - 1 : ℕ)) else y

def predict (epsilon : ℕ) (model : LinearRegressionModel F) (k : Key) (size : ℕ) : ApproxPos :=
  let prod := fmt.round (fmt.value model.slope * fmt.value (fmt.round (k.val : ℚ)))
  let pos := fmt.value (fmt.round
    (fmt.value (fmt.round (toInt64 (fmt.value prod))) + fmt.value model.intercept))
  let lo := subEps fmt pos epsilon
  let hi := addEps fmt pos epsilon size
  let lo := if lo > hi then hi else lo
  ⟨toSizeT pos, toSizeT lo, toSizeT hi⟩

end LinearRegressionModel
end Rolex
