import Rolex.WindowSafety

/-! A trained index finds every pair it was trained on. -/

namespace Rolex
open AscendingMap BlockChain

variable {F V : Type} {N : ℕ} {fmt : DoubleFormat F} {epsilon : ℕ}
  {raw : ℕ → Fin kSynonymMax → TableEntry}

/-! ### Routing -/

theorem firstNotBelow_eq_iff {keys : List Key} {k : Key} {i : ℕ} (hi : i < keys.length) :
    firstNotBelow keys k = i ↔ k ≤ keys[i] ∧ ∀ (j : ℕ) (hj : j < keys.length), j < i →
    keys[j] < k := by
  rw [firstNotBelow, List.findIdx_eq hi]
  simp only [decide_eq_true_eq, decide_eq_false_iff_not, not_le]
  exact and_congr_right fun _ => ⟨fun h j _ hj => h j hj, fun h j hj => h j (hj.trans hi) hj⟩

theorem lastKey_of_ne_nil {seg : List (Key × V)} (hne : seg ≠ []) :
    lastKey seg = (seg.getLast hne).1 := by
  rw [lastKey, List.getLast?_eq_some_getLast hne]
  rfl

theorem le_lastKey {seg : List (Key × V)} (hasc : Ascending seg) {e : Key × V} (he : e ∈ seg) :
    e.1 ≤ lastKey seg := by
  have hne := List.ne_nil_of_mem he
  rw [lastKey_of_ne_nil hne]
  rw [← List.dropLast_append_getLast hne] at he hasc
  rcases List.mem_append.mp he with he | he
  · exact ((ascending_append.mp hasc).2.2 e he _ (List.mem_singleton_self _)).le
  · rw [List.mem_singleton.mp he]

theorem lt_of_segments {segs : List (List (Key × V))} (hasc : Ascending segs.flatten) {i j : ℕ}
    (hij : i < j) {a b : List (Key × V)} (ha : segs[i]? = some a) (hb : segs[j]? = some b)
    {x y : Key × V} (hx : x ∈ a) (hy : y ∈ b) : x.1 < y.1 := by
  have hpw : segs.Pairwise fun a b => ∀ x ∈ a, ∀ y ∈ b, x.1 < y.1 :=
    (List.pairwise_flatten.mp hasc).2
  obtain ⟨hi, rfl⟩ := List.getElem?_eq_some_iff.mp ha
  obtain ⟨hj, rfl⟩ := List.getElem?_eq_some_iff.mp hb
  exact List.pairwise_iff_getElem.mp hpw i j hi hj hij x hx y hy

theorem modelForKey_of_segment {segs : List (List (Key × V))} {r : RolexIndex F V N}
    (hkeys : r.modelKeys = segs.map lastKey) (hmodels : r.models.length = segs.length)
    (hasc : Ascending segs.flatten) (hne : ∀ seg ∈ segs, seg ≠ []) {i : ℕ} {seg : List (Key × V)}
    (hseg : segs[i]? = some seg) {e : Key × V} (he : e ∈ seg) : r.modelForKey e.1 = i := by
  obtain ⟨hi, hseg'⟩ := List.getElem?_eq_some_iff.mp hseg
  have hlen : i < r.modelKeys.length := by rw [hkeys, List.length_map]; exact hi
  have hkey : ∀ (j : ℕ) (hj : j < r.modelKeys.length) (hj' : j < segs.length),
      r.modelKeys[j] = lastKey segs[j] := by
    intro j hj hj'
    simp only [hkeys, List.getElem_map]
  have hfirst : firstNotBelow r.modelKeys e.1 = i := by
    refine (firstNotBelow_eq_iff hlen).mpr ⟨?_, fun j hjl hj => ?_⟩
    · rw [hkey i hlen hi, hseg']
      exact le_lastKey ((List.pairwise_flatten.mp hasc).1 seg (List.mem_of_getElem? hseg)) he
    · have hj' : j < segs.length := hj.trans hi
      have hne' := hne _ (List.getElem_mem hj')
      rw [hkey j hjl hj', lastKey_of_ne_nil hne']
      exact lt_of_segments hasc hj (List.getElem?_eq_getElem hj') hseg (List.getLast_mem hne') he
  rw [RolexIndex.modelForKey, modelForKey, hfirst]
  exact if_pos (by rw [hmodels]; exact hi)

/-! ### Search -/

theorem isPosition_of_getElem {seg : List (Key × V)} (hasc : Ascending seg) {j : ℕ}
    (hj : j < seg.length) : IsPosition (seg.map Prod.fst) seg[j].1 j where
  lt := by rwa [List.length_map]
  above := fun i hi hji => by
    rw [List.length_map] at hi
    rw [List.getElem_map]
    exact List.pairwise_iff_getElem.mp hasc j i hj hi hji
  atMost := Or.inr (by rw [List.getElem_map])

theorem inRange_of_getElem {model : LinearRegressionModel F} {seg : List (Key × V)}
    (hslope : 0 ≤ fmt.value model.slope) (hfit : FitsKeys fmt model epsilon (seg.map Prod.fst))
    {j : ℕ} (hj : j < seg.length) (hprod : fmt.value model.slope * (seg[j].1.val : ℚ) < 2 ^ 63) :
    InRange fmt model epsilon seg[j].1 where
  product := hprod
  upper := by
    have hlt := lt_exactPos hslope hprod
    have hj0 : (0 : ℚ) ≤ j := Nat.cast_nonneg _
    have habs := (abs_le.mp (hfit j (by rwa [List.length_map]))).1
    rw [List.getElem_map] at habs
    linarith

/-- What the window of a key does: it is in the table, and contains the leaf of its position. -/
theorem TrainedModel.window_ok {m : SubModel F} (h : TrainedModel fmt epsilon N m)
    (hfmt : fmt.Exact) {keys : List Key} (hcap : m.capacity = keys.length)
    (hfit : FitsKeys fmt m.model epsilon keys) {k : Key} (hrange : InRange fmt m.model epsilon k)
    {p : ℕ} (hp : IsPosition keys k p) :
    (m.window fmt epsilon N k).1 ≤ p / N ∧ p / N ≤ (m.window fmt epsilon N k).2 ∧
      (m.window fmt epsilon N k).2 < m.ltable.size := by
  have hpos := (neg_one_lt_hiEnd m.capacity).mpr hrange.upper
  obtain ⟨_, hhi⟩ := h.hi_le hfmt hpos
  have hcap64 : m.capacity ≤ 2 ^ 64 := h.capacityLt.le.trans (by norm_num)
  obtain ⟨hlo', hhi'⟩ := predict_of_inRange hfmt hrange h.capacityPos hcap64
  have hbelow := floor_loEnd_le h.slope hfit hrange hp
  have habove := le_floor_hiEnd h.slope hfit hrange hp
  rw [← hcap] at hbelow habove
  rw [h.window_of_gt hfmt hpos]
  refine ⟨Nat.div_le_div_right ?_, Nat.div_le_div_right ?_, h.lt_size hhi⟩
  · rw [hlo']
    omega
  · rw [hhi']
    exact habove

theorem Laid.search_ok {alloc : LeafAllocator Key V N} {seg : List (Key × V)} {m : SubModel F}
    (h : Laid alloc seg m) (hN : 0 < N) (hasc : Ascending seg) {j : ℕ} (hj : j < seg.length)
    (hk : seg[j].1 < ⊤) {lo hi : ℕ} (hlo : lo ≤ j / N) (hhi : j / N ≤ hi)
    (hsize : hi < m.ltable.size) : m.ltable.search alloc seg[j].1 lo hi = .ok (some seg[j].2) := by
  have hblock : Ascending (SubModel.block N seg (j / N)) :=
    (hasc.sublist (List.drop_sublist ..)).sublist (List.take_sublist ..)
  have hmem := SubModel.getElem_mem_block hN seg hj
  have htarget : target (fun i => [SubModel.block N seg i]) seg[j].1 lo hi = j / N :=
    (target_eq_iff (hlo.trans hhi)).mpr ⟨hlo, hhi, Or.inr (opens_of_mem hblock hmem le_rfl),
      fun i hi' _ => SubModel.not_opens_block hasc hj hi'⟩
  rw [h.sound.search_ok hk (hlo.trans hhi) hsize, htarget, List.flatten_singleton]
  exact congrArg _ ((lookup_eq_some hblock _ _).mpr hmem)

/-! ### Training returns -/

def RegionFault (f : Fault) : Prop :=
  f = .submodelsTooLarge ∨ f = .upperModelsTooMany ∨ f = .outOfBounds

theorem put_error {a : ModelAllocator} {off : ℕ} {bs : List Bytes.Byte} {f : Fault}
    (h : a.put off bs = .error f) : RegionFault f := by
  rw [ModelAllocator.put] at h
  split at h
  · cases h
  · exact Or.inr (Or.inr (Except.error.inj h).symm)

theorem storeModel_error {a : ModelAllocator} {bs : List Bytes.Byte} {key : Key} {f : Fault}
    (h : a.storeModel bs key = .error f) : RegionFault f := by
  rcases bind_eq_error h with h | ⟨_, _, h⟩
  · rw [ModelAllocator.allocSubmodel] at h
    split at h
    · exact Or.inl (Except.error.inj h).symm
    · cases h
  rcases bind_eq_error h with h | ⟨_, _, h⟩
  · exact put_error h
  rcases bind_eq_error h with h | ⟨_, _, h⟩
  · exact put_error h
  rcases bind_eq_error h with h | ⟨_, _, h⟩
  · rw [ModelAllocator.allocUpper] at h
    split at h
    · exact Or.inr (Or.inl (Except.error.inj h).symm)
    · cases h
  rcases bind_eq_error h with h | ⟨_, _, h⟩
  · exact put_error h
  · exact put_error h

/-- With a leaf for every key a training stops at a key that is out of order, or at the model
region. -/
theorem train_error (hN : 0 < N) {r : RolexIndex F V N} (hfresh : r.RM.leafAllocator.Fresh)
    (hmodels : r.models = []) (hkeys : r.modelKeys = []) {data : List (Key × V)}
    (hbelow : ∀ e ∈ data, e.1 < ⊤) (hlen : data.length < 2 ^ 31)
    (henough : r.RM.leafAllocator.used + data.length ≤ r.RM.leafAllocator.allocated) {f : Fault}
    (herr : r.train fmt epsilon raw data = .error f) :
    RolexIndex.OrderFault f ∧ ¬Ascending data ∨ RegionFault f := by
  cases data with
  | nil => cases herr
  | cons e rest =>
    obtain ⟨opt₀, _, h₀, htrain⟩ := RolexIndex.train_cons fmt raw r hlen
    rw [htrain] at herr
    rcases bind_eq_error herr with hloop | ⟨r₁, _, hput⟩
    · rcases RolexIndex.trainLoop_error .none h₀ hloop with
        hdis | ⟨segs, seg, r₃, opt, happ, hne, hend, hpre, hasc', herr⟩
      · exact Or.inl hdis
      rw [List.nil_append] at happ
      have hpre' : segs.flatten ++ seg <+: e :: rest := hpre
      have hbelow' : ∀ x ∈ segs.flatten ++ seg, x.1 < ⊤ := fun x hx => hbelow x (hpre'.mem hx)
      have hlen' := hpre'.length_le
      obtain ⟨h₁, h₂, _⟩ := ascending_append.mp hasc'
      have hlay := happ.layout hN hfresh hmodels hkeys h₁ fun x hx =>
        hbelow' x (List.mem_append_left _ hx)
      have hpos := List.length_pos_iff.mpr hne
      have hcount := leafCount_le (N := N) hpos
      have hused := hlay.used
      rw [List.length_append] at hlen'
      obtain ⟨built, hbuilt⟩ := (SubModel.construct_ok hN hlay.fresh h₂
        (fun x hx => hbelow' x (List.mem_append_right _ hx)) (raw r₃.models.length)
        (fmt.round (opt.getSegment.getSlopeIntercept fmt).1)
        (fmt.round (opt.getSegment.getSlopeIntercept fmt).2)).1 (by rw [hlay.allocated]; omega)
      rw [RolexIndex.appendSegment, RolexIndex.appendModel,
        List.getLast?_eq_some_getLast hne] at herr
      simp only [hbuilt, ok_bind] at herr
      rcases bind_eq_error herr with herr | ⟨_, _, herr⟩
      · exact Or.inr (storeModel_error herr)
      · cases herr
    · rcases bind_eq_error hput with hput | ⟨_, _, hput⟩
      · exact Or.inr (put_error hput)
      · cases hput

theorem train_returns (hN : 0 < N) {r : RolexIndex F V N} (hfresh : r.RM.leafAllocator.Fresh)
    (hmodels : r.models = []) (hkeys : r.modelKeys = []) {data : List (Key × V)}
    (hasc : Ascending data) (hbelow : ∀ e ∈ data, e.1 < ⊤) (hlen : data.length < 2 ^ 31)
    (henough : r.RM.leafAllocator.used + data.length ≤ r.RM.leafAllocator.allocated) :
    (∃ r', r.train fmt epsilon raw data = .ok r') ∨ ∃ f, RegionFault f ∧
    r.train fmt epsilon raw data = .error f := by
  cases htrain : r.train fmt epsilon raw data with
  | ok r' => exact Or.inl ⟨r', rfl⟩
  | error f =>
    rcases train_error hN hfresh hmodels hkeys hbelow hlen henough htrain with ⟨_, hdis⟩ | hregion
    · exact absurd hasc hdis
    · exact Or.inr ⟨f, hregion, rfl⟩

theorem ascending_of_train {r r' : RolexIndex F V N} {data : List (Key × V)}
    (hok : r.train fmt epsilon raw data = .ok r') : Ascending data := by
  cases data with
  | nil => exact List.Pairwise.nil
  | cons e rest =>
    obtain ⟨_, opt₀, r₁, _, _, h₀, hloop, _⟩ := RolexIndex.train_eq_ok hok
    exact RolexIndex.trainLoop_ascending h₀ hloop

/-- Training returns if the model region does not stop it, and then every pair is found. -/
theorem train_search (hfmt : fmt.Exact) (hE : 1 ≤ epsilon) (hN : 0 < N) {r : RolexIndex F V N}
    (hfresh : r.RM.leafAllocator.Fresh) (hmodels : r.models = []) (hkeys : r.modelKeys = [])
    {data : List (Key × V)} (hasc : Ascending data) (hbelow : ∀ e ∈ data, e.1 < ⊤)
    (hlen : data.length < 2 ^ 31)
    (henough : r.RM.leafAllocator.used + data.length ≤ r.RM.leafAllocator.allocated) :
    ((∃ r', r.train fmt epsilon raw data = .ok r') ∨
      ∃ f, RegionFault f ∧ r.train fmt epsilon raw data = .error f) ∧
    ∀ r', r.train fmt epsilon raw data = .ok r' →
      (∀ e ∈ data, ∀ m, r'.model e.1 = .ok m → fmt.value m.model.slope * (e.1.val : ℚ) < 2 ^ 63) →
      ∀ e ∈ data, r'.search fmt epsilon e.1 = .ok (some e.2) := by
  refine ⟨train_returns hN hfresh hmodels hkeys hasc hbelow hlen henough,
    fun r' hok hprod e he => ?_⟩
  obtain ⟨_, segs, r₁, alloc, happ, rfl, _, rfl⟩ :=
    RolexIndex.train_appended (List.ne_nil_of_mem he) hok
  have hlay := happ.layout hN hfresh hmodels hkeys hasc hbelow
  obtain ⟨hlen₁, hbuilt⟩ := happ.built hmodels
  obtain ⟨seg, hmem, hes⟩ := List.mem_flatten.mp he
  obtain ⟨i, hi, hseg⟩ := List.mem_iff_getElem.mp hmem
  have hseg : segs[i]? = some seg := by rw [List.getElem?_eq_getElem hi, hseg]
  have hi₁ : i < r₁.models.length := by omega
  have hm : r₁.models[i]? = some r₁.models[i] := List.getElem?_eq_getElem _
  set m := r₁.models[i]
  have hne : ∀ seg ∈ segs, seg ≠ [] := by
    intro seg' hseg'
    obtain ⟨i', hi', rfl⟩ := List.mem_iff_getElem.mp hseg'
    exact (hbuilt i' _ _ (List.getElem?_eq_getElem (by omega)) (List.getElem?_eq_getElem hi')).1
  have hroute := modelForKey_of_segment hlay.keys hlay.length hasc hne hseg hes
  have hasc' : Ascending seg := (List.pairwise_flatten.mp hasc).1 seg hmem
  obtain ⟨j, hj, rfl⟩ := List.mem_iff_getElem.mp hes
  have hmodel : RolexIndex.model { r₁ with RM := { r₁.RM with modelAllocator := alloc } } seg[j].1 =
      .ok m := by
    rw [RolexIndex.model]
    have hroute' : RolexIndex.modelForKey { r₁ with RM := { r₁.RM with modelAllocator := alloc } }
      seg[j].1 = i := hroute
    rw [hroute']
    simp only [hm]
  obtain ⟨hslope, hfit, hcap, _⟩ := happ.lines hfmt hE hmodels (hlen.trans (by norm_num)) hm hseg
  have ht := trainedModel_of_train hfmt hE hN hfresh hmodels hkeys hasc hok hm
  have hrange := inRange_of_getElem hslope hfit hj (hprod _ he m hmodel)
  have hcap' : m.capacity = (seg.map Prod.fst).length := by rw [List.length_map, hcap]
  obtain ⟨hlo, hhi, hsize⟩ := ht.window_ok hfmt hcap' hfit hrange (isPosition_of_getElem hasc' hj)
  rw [RolexIndex.search, hmodel, ok_bind]
  exact (hlay.laid i m seg hm hseg).search_ok hN hasc' hj (hbelow _ he) hlo hhi hsize

theorem train_search_four : ∃ r', emptyIndex.train exactFormat 1 noEntries gapData = .ok r' ∧
    ∀ e ∈ gapData, r'.search exactFormat 1 e.1 = .ok (some e.2) := by
  obtain ⟨r', hr, hp⟩ := exists_ok (p := fun r => r.models.all fun m => decide (m.model.slope = 1))
    (by decide +kernel : (emptyIndex.train exactFormat 1 noEntries gapData).toOption.any _ = true)
  refine ⟨r', hr, (train_search exactFormat_exact le_rfl (by norm_num) emptyIndex_fresh rfl rfl
    (by decide : Ascending gapData) (by decide) (by decide) (by decide)).2 r' hr fun e he m hm =>
    ?_⟩
  have hslope := of_decide_eq_true (List.all_eq_true.mp hp m (List.mem_of_getElem? (model_ok hm)))
  rw [hslope]
  simp only [gapData, List.mem_cons, List.not_mem_nil, or_false] at he
  rcases he with rfl | rfl | rfl | rfl <;> norm_num [exactFormat]

end Rolex
