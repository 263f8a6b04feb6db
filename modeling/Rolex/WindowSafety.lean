import Rolex.IndexLayout
import Rolex.MapRefinement

/-! When the window of a key is sound: for every key that is routed to a trained submodel, exactly
when its predicted position is not too far below 0. Memory nodes and compute nodes read the window
with different integers, and agree in these cases and where the wrapped number happens to be a
leaf. -/

namespace Rolex
open AscendingMap

variable {F V : Type} {N : ℕ} {fmt : DoubleFormat F} {epsilon : ℕ}
  {raw : ℕ → Fin kSynonymMax → TableEntry}

/-! ### Conversions in range -/

theorem truncate_nonneg_iff {q : ℚ} : 0 ≤ truncate q ↔ -1 < q := by
  constructor
  · intro h
    by_contra hle
    have hneg : truncate (-q) = -truncate q := by
      rw [truncate, truncate, Rat.neg_num, Rat.neg_den, Int.neg_tdiv]
    have hpos : 1 ≤ -q := by linarith
    rw [truncate_of_nonneg (by linarith)] at hneg
    have hfloor : 1 ≤ ⌊-q⌋ := Int.le_floor.mpr (by exact_mod_cast hpos)
    omega
  · intro h
    rw [truncate_of_gt h]
    exact le_max_right _ _

/-- The conversions of `predict` that the window depends on are in the range of their types. -/
structure ConversionsInRange (fmt : DoubleFormat F) (model : LinearRegressionModel F) (epsilon : ℕ)
    (k : Key) (size : ℕ) : Prop where
  product : -2 ^ 63 ≤ truncate (fmt.value model.slope * (k.val : ℚ)) ∧
    truncate (fmt.value model.slope * (k.val : ℚ)) < 2 ^ 63
  lo : 0 ≤ truncate (loEnd (model.exactPos fmt k) epsilon size) ∧
    truncate (loEnd (model.exactPos fmt k) epsilon size) < 2 ^ 64
  hi : 0 ≤ truncate (hiEnd (model.exactPos fmt k) epsilon size) ∧
    truncate (hiEnd (model.exactPos fmt k) epsilon size) < 2 ^ 64

theorem truncate_lt_of_lt {q : ℚ} {n : ℕ} (hn : 0 < n) (h : q < n) : truncate q < n := by
  rcases lt_or_ge (-1) q with hq | hq
  · have hf : ⌊q⌋ < (n : ℤ) := Int.floor_lt.mpr (by exact_mod_cast h)
    rw [truncate_of_gt hq]
    omega
  · have := truncate_nonneg_iff.not.mpr (not_lt.mpr hq)
    omega

theorem conversionsInRange_iff {model : LinearRegressionModel F} {k : Key} {size : ℕ}
    (hslope : 0 ≤ fmt.value model.slope) (hsize : 0 < size) (hsize' : size < 2 ^ 64) :
    ConversionsInRange fmt model epsilon k size ↔ InRange fmt model epsilon k := by
  have hprod : 0 ≤ fmt.value model.slope * (k.val : ℚ) := mul_nonneg hslope (Nat.cast_nonneg _)
  have hlt : hiEnd (model.exactPos fmt k) epsilon size < (2 ^ 64 : ℕ) :=
    (hiEnd_lt _ _ hsize).trans (Nat.cast_lt.mpr hsize')
  constructor
  · intro h
    refine ⟨?_, (neg_one_lt_hiEnd size).mp (truncate_nonneg_iff.mp h.hi.1)⟩
    have h63 := h.product.2
    rw [truncate_of_nonneg hprod] at h63
    exact_mod_cast Int.floor_lt.mp h63
  · intro h
    have hhi := (neg_one_lt_hiEnd size).mpr h.upper
    have hlo := neg_one_lt_loEnd hhi
    refine ⟨⟨?_, ?_⟩, ⟨truncate_nonneg_iff.mpr hlo, ?_⟩, ⟨truncate_nonneg_iff.mpr hhi, ?_⟩⟩
    · have := truncate_nonneg_iff.mpr (by linarith : -1 < fmt.value model.slope * (k.val : ℚ))
      omega
    · exact_mod_cast truncate_lt_of_lt (n := 2 ^ 63) (by norm_num) (by exact_mod_cast h.product)
    · exact_mod_cast truncate_lt_of_lt (n := 2 ^ 64) (by norm_num) (loEnd_le.trans_lt hlt)
    · exact_mod_cast truncate_lt_of_lt (n := 2 ^ 64) (by norm_num) hlt

/-! ### Trained submodels -/

/-- What is known of a submodel that `train` built. -/
structure TrainedModel (fmt : DoubleFormat F) (epsilon N : ℕ) (m : SubModel F) : Prop where
  slope : 0 ≤ fmt.value m.model.slope
  capacityPos : 0 < m.capacity
  capacityLt : m.capacity < 2 ^ 31
  size : m.ltable.size = SubModel.leafCount N m.capacity

theorem trainedModel_of_train (hfmt : fmt.Exact) (hE : 1 ≤ epsilon) (hN : 0 < N)
    {r r' : RolexIndex F V N} (hfresh : r.RM.leafAllocator.Fresh) (hmodels : r.models = [])
    (hkeys : r.modelKeys = []) {data : List (Key × V)} (hasc : Ascending data)
    (hok : r.train fmt epsilon raw data = .ok r') {i : ℕ} {m : SubModel F}
    (hm : r'.models[i]? = some m) : TrainedModel fmt epsilon N m := by
  by_cases hne : data = []
  · subst hne
    obtain rfl := RolexIndex.eq_of_train_nil hok
    simp [hmodels] at hm
  obtain ⟨hlen, segs, r₁, alloc, happ, rfl, _, rfl⟩ := RolexIndex.train_appended hne hok
  have hi := (happ.built hmodels).1
  have hil := (List.getElem?_eq_some_iff.mp hm).1
  have hseg : segs[i]? = some segs[i] := List.getElem?_eq_getElem (by rw [← hi]; exact hil)
  obtain ⟨hslope, _, hcap, hne'⟩ := happ.lines hfmt hE hmodels (by omega) hm hseg
  have hsize := happ.sizes hN hfresh hmodels hkeys hasc hm hseg
  have hle := (List.sublist_flatten_of_mem (List.mem_of_getElem? hseg)).length_le
  have hpos := List.length_pos_iff.mpr hne'
  exact ⟨hslope, by omega, by omega, by rw [hsize, hcap]⟩

namespace TrainedModel

variable {m : SubModel F} {key : Key}

theorem lt_size (h : TrainedModel fmt epsilon N m) {n : ℕ} (hn : n ≤ m.capacity - 1) :
    n / N < m.ltable.size := by
  have := Nat.div_le_div_right (c := N) hn
  rw [h.size, SubModel.leafCount]
  omega

theorem size_lt (h : TrainedModel fmt epsilon N m) : m.ltable.size < 2 ^ 31 := by
  have hdiv := Nat.div_le_self (m.capacity - 1) N
  have h1 := h.capacityPos
  have h2 := h.capacityLt
  rw [h.size, SubModel.leafCount]
  omega

theorem hi_le (h : TrainedModel fmt epsilon N m) (hfmt : fmt.Exact)
    (hpos : -1 < hiEnd (m.model.exactPos fmt key) epsilon m.capacity) :
    (m.model.predict fmt epsilon key m.capacity).lo ≤
    (m.model.predict fmt epsilon key m.capacity).hi ∧
      (m.model.predict fmt epsilon key m.capacity).hi ≤ m.capacity - 1 := by
  have hlt := hiEnd_lt (m.model.exactPos fmt key) epsilon h.capacityPos
  have hcap : (m.capacity : ℚ) < 2 ^ 64 := by exact_mod_cast h.capacityLt.trans (by norm_num)
  rw [predict_eq hfmt, toSizeT_of_gt hpos (hlt.trans hcap),
    toSizeT_of_gt (neg_one_lt_loEnd hpos) (loEnd_le.trans_lt (hlt.trans hcap))]
  have hfloor := floor_hiEnd_le (m.model.exactPos fmt key) epsilon h.capacityPos
  exact ⟨Int.toNat_le_toNat (Int.floor_mono loEnd_le), by dsimp only; omega⟩

theorem window_of_gt (h : TrainedModel fmt epsilon N m) (hfmt : fmt.Exact)
    (hpos : -1 < hiEnd (m.model.exactPos fmt key) epsilon m.capacity) :
    m.window fmt epsilon N key = ((m.model.predict fmt epsilon key m.capacity).lo / N,
      (m.model.predict fmt epsilon key m.capacity).hi / N) := by
  obtain ⟨hle, hhi⟩ := h.hi_le hfmt hpos
  have h1 := h.lt_size hhi
  have h2 := h.lt_size (hle.trans hhi)
  have h3 := h.size_lt
  exact window_eq rfl (by omega) (by omega)

end TrainedModel

/-- The conversions of a routed key are in range and its window is in the table, exactly when
`slope * k` fits and the position is above `-(Epsilon + 3)`. -/
theorem windowSafe_iff (hfmt : fmt.Exact) (hE : 1 ≤ epsilon) (hN : 0 < N) {r r' : RolexIndex F V N}
    (hfresh : r.RM.leafAllocator.Fresh) (hmodels : r.models = []) (hkeys : r.modelKeys = [])
    {data : List (Key × V)} (hasc : Ascending data) (hok : r.train fmt epsilon raw data = .ok r')
    {key : Key} {m : SubModel F} (hm : r'.model key = .ok m) :
    (ConversionsInRange fmt m.model epsilon key m.capacity ∧
      (m.window fmt epsilon N key).1 ≤ (m.window fmt epsilon N key).2 ∧
      (m.window fmt epsilon N key).2 < m.ltable.size) ↔ InRange fmt m.model epsilon key := by
  have ht := trainedModel_of_train hfmt hE hN hfresh hmodels hkeys hasc hok (model_ok hm)
  rw [conversionsInRange_iff ht.slope ht.capacityPos (ht.capacityLt.trans (by norm_num))]
  refine and_iff_left_of_imp fun h => ?_
  have hpos := (neg_one_lt_hiEnd m.capacity).mpr h.upper
  obtain ⟨hle, hhi⟩ := ht.hi_le hfmt hpos
  rw [ht.window_of_gt hfmt hpos]
  exact ⟨Nat.div_le_div_right hle, ht.lt_size hhi⟩

/-! ### Keys in a gap -/

theorem two_hundred_le : 200 ≤ 2 ^ 48 := by norm_num

def emptyIndex : RolexIndex ℚ ℕ 2 :=
  ⟨⟨LeafAllocator.prealloc (fun _ => zeroLeaf 2) 200 two_hundred_le,
    ⟨fun _ => 0, 2 ^ 26, kUpperModel, 0, 2 ^ 21 - 1⟩⟩, [], []⟩

theorem emptyIndex_fresh : emptyIndex.RM.leafAllocator.Fresh := LeafAllocator.prealloc_fresh _ _ _

def noEntries : ℕ → Fin kSynonymMax → TableEntry := fun _ _ => ⟨0, 0, 0, 0⟩

def gapData : List (Key × ℕ) := [(0, 0), (1, 10), (10, 100), (11, 110)]

/-- The second segment is the line `k - 10`, and the keys of the gap are routed to it. -/
theorem gap_trained :
    ∃ r m, emptyIndex.train exactFormat 1 noEntries gapData = .ok r ∧ r.model 2 = .ok m ∧
    r.model 11 = .ok m ∧ m.model = ⟨1, -10⟩ ∧ m.capacity = 2 ∧ m.ltable.size = 1 := by
  obtain ⟨r, hr, hp⟩ :=
    exists_ok (p := fun r => (r.model 2).toOption.any fun m => (r.model 11).toOption.any fun m' =>
    decide (m.model = ⟨1, -10⟩ ∧ m'.model = ⟨1, -10⟩ ∧ m.capacity = 2 ∧ m.ltable.size = 1 ∧
      r.modelForKey 11 = r.modelForKey 2))
    (by decide +kernel : (emptyIndex.train exactFormat 1 noEntries gapData).toOption.any _ = true)
  obtain ⟨m, hm, hp⟩ := exists_ok hp
  obtain ⟨m', hm', hp⟩ := exists_ok hp
  obtain ⟨h1, _, h3, h4, h5⟩ := of_decide_eq_true hp
  refine ⟨r, m, hr, hm, ?_, h1, h3, h4⟩
  rw [RolexIndex.model, h5]
  exact hm

theorem windowSafe_iff_eleven :
    ∃ r m, emptyIndex.train exactFormat 1 noEntries gapData = .ok r ∧ r.model 11 = .ok m ∧
    ((ConversionsInRange exactFormat m.model 1 11 m.capacity ∧
      (m.window exactFormat 1 2 11).1 ≤ (m.window exactFormat 1 2 11).2 ∧
      (m.window exactFormat 1 2 11).2 < m.ltable.size) ↔ InRange exactFormat m.model 1 11) := by
  obtain ⟨r, m, hr, _, hm, _⟩ := gap_trained
  exact ⟨r, m, hr, hm,
    windowSafe_iff exactFormat_exact le_rfl (by norm_num) emptyIndex_fresh rfl rfl
    (by decide) hr hm⟩

theorem gap_key_out_of_range :
    ∃ r m, emptyIndex.train exactFormat 1 noEntries gapData = .ok r ∧ r.model 2 = .ok m ∧
    ¬ConversionsInRange exactFormat m.model 1 2 m.capacity := by
  obtain ⟨r, m, hr, hm, _, hmodel, hcap, _⟩ := gap_trained
  refine ⟨r, m, hr, hm, fun h => ?_⟩
  rw [hmodel, hcap, conversionsInRange_iff (by norm_num [exactFormat]) (by norm_num)
    (by norm_num)] at h
  have hup := h.upper
  rw [exactPos_eq (by norm_num [exactFormat]) h.product] at hup
  norm_num [exactFormat] at hup

end Rolex
