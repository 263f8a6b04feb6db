import Rolex.SubModel
import Rolex.SegmentLines

/-! The window of leaves that a prediction leads to, in exact arithmetic. -/

namespace Rolex

/-! ### Conversions -/

theorem truncate_of_gt {q : ℚ} (h : -1 < q) : truncate q = max ⌊q⌋ 0 := by
  rcases le_or_gt 0 q with h0 | h0
  · rw [truncate_of_nonneg h0, max_eq_left (Int.floor_nonneg.mpr h0)]
  · have hnum : q.num < 0 := Rat.num_neg.mpr h0
    have hden : (0 : ℤ) < q.den := Int.natCast_pos.mpr q.pos
    have hfloor : ⌊q⌋ = -1 :=
      Int.floor_eq_iff.mpr ⟨by push_cast; exact h.le, by push_cast; linarith⟩
    have hlt : -q.num < q.den := by
      have hq : q = q.num / q.den := (Rat.num_div_den q).symm
      rw [hq, lt_div_iff₀ (by exact_mod_cast q.pos)] at h
      have hz : (-q.num : ℚ) < q.den := by linarith
      exact_mod_cast hz
    rw [hfloor, truncate, max_eq_right (by decide)]
    have hneg : q.num.tdiv q.den = -((-q.num).tdiv q.den) := by rw [Int.neg_tdiv, neg_neg]
    rw [hneg, Int.tdiv_eq_zero_of_lt (by omega) hlt, neg_zero]

theorem toSizeT_of_gt {q : ℚ} (h : -1 < q) (hlt : q < 2 ^ 64) : toSizeT q = ⌊q⌋.toNat := by
  have hf : ⌊q⌋ < 2 ^ 64 := Int.floor_lt.mpr (by exact_mod_cast hlt)
  rw [toSizeT, truncate_of_gt h, Int.emod_eq_of_lt (le_max_right _ _) (max_lt hf (by norm_num))]
  omega

/-! ### The two ends -/

namespace LinearRegressionModel

variable {F : Type} (fmt : DoubleFormat F)

def exactPos (model : LinearRegressionModel F) (k : Key) : ℚ :=
  toInt64 (fmt.value model.slope * (k.val : ℚ)) + fmt.value model.intercept

end LinearRegressionModel

def hiEnd (pos : ℚ) (epsilon size : ℕ) : ℚ :=
  if pos + epsilon + 2 ≥ size then (size - 1 : ℕ) else pos + epsilon + 2

def loEnd (pos : ℚ) (epsilon size : ℕ) : ℚ :=
  min (if pos ≤ epsilon then 0 else pos - epsilon) (hiEnd pos epsilon size)

section Ends

variable {pos pos' : ℚ} {epsilon size : ℕ}

theorem loEnd_le : loEnd pos epsilon size ≤ hiEnd pos epsilon size := min_le_right _ _

theorem hiEnd_lt (pos : ℚ) (epsilon : ℕ) (hsize : 0 < size) : hiEnd pos epsilon size < size := by
  rw [hiEnd]
  split
  · exact Nat.cast_lt.mpr (Nat.sub_lt hsize Nat.one_pos)
  · exact not_le.mp ‹_›

theorem neg_one_lt_hiEnd (size : ℕ) : -1 < hiEnd pos epsilon size ↔ -1 < pos + epsilon + 2 := by
  rw [hiEnd]
  split
  · rename_i h
    have h1 : (0 : ℚ) ≤ (size - 1 : ℕ) := Nat.cast_nonneg _
    have h2 : (0 : ℚ) ≤ size := Nat.cast_nonneg _
    constructor <;> intro _ <;> linarith
  · rfl

theorem neg_one_lt_loEnd (h : -1 < hiEnd pos epsilon size) : -1 < loEnd pos epsilon size := by
  refine lt_min ?_ h
  split
  · norm_num
  · rename_i h0
    have h1 : (0 : ℚ) ≤ epsilon := Nat.cast_nonneg _
    linarith

theorem floor_hiEnd_le (pos : ℚ) (epsilon : ℕ) (hsize : 0 < size) :
    ⌊hiEnd pos epsilon size⌋ ≤ (size - 1 : ℕ) := by
  have hlt : ⌊hiEnd pos epsilon size⌋ < (size : ℤ) :=
    Int.floor_lt.mpr (by exact_mod_cast hiEnd_lt pos epsilon hsize)
  omega

theorem floor_hiEnd_mono (hsize : 0 < size) (hpos : pos ≤ pos') :
    ⌊hiEnd pos epsilon size⌋ ≤ ⌊hiEnd pos' epsilon size⌋ := by
  by_cases h' : pos' + epsilon + 2 ≥ size
  · have heq : hiEnd pos' epsilon size = ((size - 1 : ℕ) : ℤ) := by
      rw [hiEnd, if_pos h']; push_cast; rfl
    rw [heq, Int.floor_intCast]
    exact floor_hiEnd_le pos epsilon hsize
  · have h : ¬pos + epsilon + 2 ≥ size := by
      rw [ge_iff_le, not_le] at h' ⊢
      linarith
    rw [hiEnd, hiEnd, if_neg h, if_neg h']
    exact Int.floor_mono (by linarith)

theorem floor_loEnd_mono (hsize : 0 < size) (hpos : pos ≤ pos') :
    ⌊loEnd pos epsilon size⌋ ≤ ⌊loEnd pos' epsilon size⌋ := by
  have hmin : ∀ a b : ℚ, ⌊min a b⌋ = min ⌊a⌋ ⌊b⌋ := fun a b => Int.floor_mono.map_min
  rw [loEnd, loEnd, hmin, hmin]
  refine min_le_min (Int.floor_mono ?_) (floor_hiEnd_mono hsize hpos)
  split <;> split <;> linarith

end Ends

/-! ### predict -/

section Predict

variable {V F : Type} {N : ℕ} {fmt : DoubleFormat F} {model : LinearRegressionModel F}
  {epsilon size : ℕ} {k k' : Key}

theorem predict_eq (hfmt : fmt.Exact) (model : LinearRegressionModel F) (epsilon : ℕ) (k : Key)
    (size : ℕ) : model.predict fmt epsilon k size = ⟨toSizeT (model.exactPos fmt k),
      toSizeT (loEnd (model.exactPos fmt k) epsilon size),
      toSizeT (hiEnd (model.exactPos fmt k) epsilon size)⟩ := by
  have hlo : ∀ a b : ℚ, (if a > b then b else a) = min a b := fun a b => by
    rw [min_def]
    split <;> split <;> linarith
  rw [LinearRegressionModel.predict]
  simp only [hfmt.value_round, LinearRegressionModel.subEps, LinearRegressionModel.addEps, hlo,
    loEnd, hiEnd, LinearRegressionModel.exactPos]
  rfl

/-- `slope * k` fits `int64_t`, and the upper end is above -1. -/
structure InRange (fmt : DoubleFormat F) (model : LinearRegressionModel F) (epsilon : ℕ)
    (k : Key) : Prop where
  product : fmt.value model.slope * (k.val : ℚ) < 2 ^ 63
  upper : -1 < model.exactPos fmt k + epsilon + 2

theorem exactPos_eq (hslope : 0 ≤ fmt.value model.slope)
    (h : fmt.value model.slope * (k.val : ℚ) < 2 ^ 63) :
    model.exactPos fmt k = ⌊fmt.value model.slope * (k.val : ℚ)⌋ + fmt.value model.intercept := by
  rw [LinearRegressionModel.exactPos, toInt64_of_nonneg (mul_nonneg hslope (Nat.cast_nonneg _)) h]

theorem exactPos_le (hslope : 0 ≤ fmt.value model.slope)
    (h : fmt.value model.slope * (k.val : ℚ) < 2 ^ 63) :
    model.exactPos fmt k ≤ fmt.value model.slope * (k.val : ℚ) + fmt.value model.intercept := by
  rw [exactPos_eq hslope h]
  exact add_le_add_left (Int.floor_le _) _

theorem lt_exactPos (hslope : 0 ≤ fmt.value model.slope)
    (h : fmt.value model.slope * (k.val : ℚ) < 2 ^ 63) :
    fmt.value model.slope * (k.val : ℚ) + fmt.value model.intercept - 1 < model.exactPos fmt k := by
  rw [exactPos_eq hslope h]
  have := Int.sub_one_lt_floor (fmt.value model.slope * (k.val : ℚ))
  linarith

theorem product_mono (model : LinearRegressionModel F) (hslope : 0 ≤ fmt.value model.slope)
    (hk : k ≤ k') : fmt.value model.slope * (k.val : ℚ) ≤ fmt.value model.slope * (k'.val : ℚ) :=
  mul_le_mul_of_nonneg_left (Nat.cast_le.mpr hk) hslope

theorem exactPos_mono (hslope : 0 ≤ fmt.value model.slope)
    (h' : fmt.value model.slope * (k'.val : ℚ) < 2 ^ 63) (hk : k ≤ k') :
    model.exactPos fmt k ≤ model.exactPos fmt k' := by
  have hle := product_mono model hslope hk
  rw [exactPos_eq hslope h', exactPos_eq hslope (hle.trans_lt h')]
  exact add_le_add_left (Int.cast_le.mpr (Int.floor_mono hle)) _

theorem predict_of_inRange (hfmt : fmt.Exact) (h : InRange fmt model epsilon k) (hsize : 0 < size)
    (hsize' : size ≤ 2 ^ 64) :
    (model.predict fmt epsilon k size).lo = ⌊loEnd (model.exactPos fmt k) epsilon size⌋.toNat ∧
      (model.predict fmt epsilon k size).hi =
      ⌊hiEnd (model.exactPos fmt k) epsilon size⌋.toNat := by
  have hhi := (neg_one_lt_hiEnd size).mpr h.upper
  have hlt : hiEnd (model.exactPos fmt k) epsilon size < 2 ^ 64 :=
    (hiEnd_lt _ _ hsize).trans_le (by exact_mod_cast hsize')
  rw [predict_eq hfmt]
  exact ⟨toSizeT_of_gt (neg_one_lt_loEnd hhi) (loEnd_le.trans_lt hlt), toSizeT_of_gt hhi hlt⟩

/-! ### The window -/

/-- The line of the model passes the position of every key within `epsilon - 1`. -/
def FitsKeys (fmt : DoubleFormat F) (model : LinearRegressionModel F) (epsilon : ℕ)
    (keys : List Key) : Prop :=
  ∀ (j : ℕ) (hj : j < keys.length),
    |fmt.value model.slope * (keys[j].val : ℚ) + fmt.value model.intercept - j| ≤ (epsilon : ℚ) - 1

/-- `p` is the position of the last key at or below `k`, and 0 if there is none. -/
structure IsPosition (keys : List Key) (k : Key) (p : ℕ) : Prop where
  lt : p < keys.length
  above : ∀ (j : ℕ) (hj : j < keys.length), p < j → k < keys[j]
  atMost : p = 0 ∨ keys[p] ≤ k

variable {keys : List Key} {p : ℕ}

theorem floor_loEnd_le (hslope : 0 ≤ fmt.value model.slope) (hfit : FitsKeys fmt model epsilon keys)
    (h : InRange fmt model epsilon k) (hp : IsPosition keys k p) :
    ⌊loEnd (model.exactPos fmt k) epsilon keys.length⌋ ≤ p := by
  have hlt : loEnd (model.exactPos fmt k) epsilon keys.length < (p + 1 : ℕ) := by
    by_cases hnext : p + 1 < keys.length
    · have hle := product_mono model hslope (hp.above (p + 1) hnext (Nat.lt_succ_self p)).le
      have hpos := exactPos_le hslope h.product
      have habs := (abs_le.mp (hfit (p + 1) hnext)).2
      refine (min_le_left _ _).trans_lt ?_
      push_cast at habs ⊢
      split
      · positivity
      · linarith
    · have heq : p + 1 = keys.length := le_antisymm hp.lt (not_lt.mp hnext)
      rw [heq]
      exact loEnd_le.trans_lt (hiEnd_lt _ _ (by omega))
  have hf : ⌊loEnd (model.exactPos fmt k) epsilon keys.length⌋ < ((p + 1 : ℕ) : ℤ) :=
    Int.floor_lt.mpr (by exact_mod_cast hlt)
  omega

theorem le_floor_hiEnd (hslope : 0 ≤ fmt.value model.slope) (hfit : FitsKeys fmt model epsilon keys)
    (h : InRange fmt model epsilon k) (hp : IsPosition keys k p) :
    p ≤ ⌊hiEnd (model.exactPos fmt k) epsilon keys.length⌋.toNat := by
  rcases hp.atMost with rfl | hle
  · exact Nat.zero_le _
  · have hlt := hp.lt
    have hend : ((p : ℤ) : ℚ) ≤ hiEnd (model.exactPos fmt k) epsilon keys.length := by
      rw [hiEnd]
      split
      · exact_mod_cast Nat.le_sub_one_of_lt hlt
      · have hmono := product_mono model hslope hle
        have hpos := lt_exactPos hslope h.product
        have habs := (abs_le.mp (hfit p hlt)).1
        push_cast
        linarith
    have hf := Int.le_floor.mpr hend
    omega

theorem exists_isPosition (hne : keys ≠ []) (k : Key) : ∃ p, IsPosition keys k p := by
  let q := Nat.findGreatest (fun j => ∃ hj : j < keys.length, keys[j] ≤ k) (keys.length - 1)
  have hlen : 0 < keys.length := List.length_pos_iff.mpr hne
  have hq : q ≤ keys.length - 1 := Nat.findGreatest_le _
  refine ⟨q, by omega, fun j hj hlt => ?_, ?_⟩
  · have hnot := Nat.findGreatest_is_greatest hlt (by omega)
    exact not_le.mp fun hle => hnot ⟨hj, hle⟩
  · rcases Nat.eq_zero_or_pos q with h0 | hpos
    · exact Or.inl h0
    · obtain ⟨_, hle⟩ := Nat.findGreatest_of_ne_zero (rfl : q = q) hpos.ne'
      exact Or.inr hle

theorem length_le_of_ascending (hasc : keys.Pairwise (· < ·)) : keys.length ≤ 2 ^ 64 := by
  have hnodup : keys.Nodup := hasc.imp fun h => h.ne
  simpa using hnodup.length_le_card

theorem toInt32_window {n : ℕ} (h : n < 2 ^ 31) : (max (toInt32 n) 0).toNat = n := by
  rw [toInt32_of_lt h]
  omega

variable {m : SubModel F}

theorem window_eq (hcap : m.capacity = size)
    (h : (m.model.predict fmt epsilon k size).lo / N < 2 ^ 31)
    (h' : (m.model.predict fmt epsilon k size).hi / N < 2 ^ 31) :
    m.window fmt epsilon N k = ((m.model.predict fmt epsilon k size).lo / N,
      (m.model.predict fmt epsilon k size).hi / N) := by
  rw [SubModel.window, hcap, toInt32_window h, toInt32_window h']

/-- The window of a key is inside the table, contains the leaf of its position, and moves up with
the key. -/
theorem predictWindow_ok (hfmt : fmt.Exact) (hne : keys ≠ []) (hasc : keys.Pairwise (· < ·))
    (hcap : m.capacity = keys.length) (hslope : 0 ≤ fmt.value m.model.slope)
    (hfit : FitsKeys fmt m.model epsilon keys) :
    (∀ k, InRange fmt m.model epsilon k →
      (m.model.predict fmt epsilon k m.capacity).lo / N ≤
      (m.model.predict fmt epsilon k m.capacity).hi / N ∧
      (m.model.predict fmt epsilon k m.capacity).hi / N ≤ (keys.length - 1) / N ∧
      (∃ p, IsPosition keys k p ∧ (m.model.predict fmt epsilon k m.capacity).lo / N ≤ p / N ∧
        p / N ≤ (m.model.predict fmt epsilon k m.capacity).hi / N) ∧
      ((keys.length - 1) / N < 2 ^ 31 →
        m.window fmt epsilon N k = ((m.model.predict fmt epsilon k m.capacity).lo / N,
          (m.model.predict fmt epsilon k m.capacity).hi / N))) ∧
    ∀ k k', k ≤ k' → InRange fmt m.model epsilon k → InRange fmt m.model epsilon k' →
      (m.model.predict fmt epsilon k m.capacity).lo / N ≤
      (m.model.predict fmt epsilon k' m.capacity).lo / N ∧
      (m.model.predict fmt epsilon k m.capacity).hi / N ≤
      (m.model.predict fmt epsilon k' m.capacity).hi / N := by
  have hsize : 0 < keys.length := List.length_pos_iff.mpr hne
  have hsize' := length_le_of_ascending hasc
  rw [hcap]
  constructor
  · intro k h
    obtain ⟨hlo, hhi⟩ := predict_of_inRange hfmt h hsize hsize'
    have hle : (m.model.predict fmt epsilon k keys.length).lo ≤
        (m.model.predict fmt epsilon k keys.length).hi := by
      rw [hlo, hhi]
      exact Int.toNat_le_toNat (Int.floor_mono loEnd_le)
    have hlast : (m.model.predict fmt epsilon k keys.length).hi ≤ keys.length - 1 := by
      have := floor_hiEnd_le (m.model.exactPos fmt k) epsilon hsize
      omega
    refine ⟨Nat.div_le_div_right hle, Nat.div_le_div_right hlast, ?_, fun hint => ?_⟩
    · obtain ⟨p, hp⟩ := exists_isPosition hne k
      have hbelow := floor_loEnd_le hslope hfit h hp
      refine ⟨p, hp, Nat.div_le_div_right (by omega), Nat.div_le_div_right ?_⟩
      rw [hhi]
      exact le_floor_hiEnd hslope hfit h hp
    · have hd := Nat.div_le_div_right (c := N) hlast
      have hd' := Nat.div_le_div_right (c := N) hle
      exact window_eq hcap (by omega) (by omega)
  · intro k k' hk h h'
    obtain ⟨hlo, hhi⟩ := predict_of_inRange hfmt h hsize hsize'
    obtain ⟨hlo', hhi'⟩ := predict_of_inRange hfmt h' hsize hsize'
    have hpos := exactPos_mono hslope h'.product hk
    rw [hlo, hhi, hlo', hhi']
    exact ⟨Nat.div_le_div_right (Int.toNat_le_toNat (floor_loEnd_mono hsize hpos)),
      Nat.div_le_div_right (Int.toNat_le_toNat (floor_hiEnd_mono hsize hpos))⟩

end Predict

def tenths : SubModel ℚ := ⟨⟨1 / 10, -1⟩, ⟨[], fun _ => ⟨0, 0, 0, 0⟩, []⟩, 3⟩

theorem predictWindow_ok_three : ∃ p, IsPosition [10, 20, 30] 25 p ∧
    (tenths.model.predict exactFormat 1 25 3).lo / 2 ≤ p / 2 ∧
    p / 2 ≤ (tenths.model.predict exactFormat 1 25 3).hi / 2 := by
  have hfit : FitsKeys exactFormat tenths.model 1 [10, 20, 30] := by
    intro j hj
    simp only [List.length_cons, List.length_nil] at hj
    interval_cases j <;> norm_num [tenths, exactFormat]
  have hrange : InRange exactFormat tenths.model 1 25 := by
    refine ⟨by norm_num [tenths, exactFormat], ?_⟩
    rw [exactPos_eq (by norm_num [tenths, exactFormat]) (by norm_num [tenths, exactFormat])]
    norm_num [tenths, exactFormat]
  have hok := predictWindow_ok (N := 2) exactFormat_exact (by simp) (by decide)
    (show tenths.capacity = _ from rfl) (by norm_num [tenths, exactFormat]) hfit
  exact (hok.1 25 hrange).2.2.1

end Rolex
