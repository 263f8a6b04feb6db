import Rolex.IndexRange
import Rolex.TrainedSearch

/-!
The pairs of a trained index and the entries that lead to them, also when its last key is the
sentinel.
-/

namespace Rolex
open AscendingMap BlockChain

section Index

variable {F V : Type} {N : ℕ} {fmt : DoubleFormat F} {epsilon : ℕ}
  {raw : ℕ → Fin kSynonymMax → TableEntry} {r r' : RolexIndex F V N} {segs : List (List (Key × V))}

def trainedChains (N : ℕ) (segs : List (List (Key × V))) (i a : ℕ) : List (List (Key × V)) :=
  [SubModel.block N (storable (segment segs i)) a]

theorem Appended.keys (h : Appended fmt epsilon raw r segs r') (hkeys : r.modelKeys = []) :
    r'.modelKeys = segs.map lastKey := by
  induction h with
  | none => rw [hkeys, List.map_nil]
  | append h hne hend hok ih =>
    obtain ⟨m, _, _, _, hkeys'⟩ := appendSegment_ok hok
    rw [hkeys', ih, List.map_append, List.map_singleton]

theorem segment_append_left {seg : List (Key × V)} {i : ℕ} (hi : i < segs.length) :
    segment (segs ++ [seg]) i = segment segs i := by
  rw [segment, segment, List.getD_append _ _ _ _ hi]

theorem segment_append_last (seg : List (Key × V)) : segment (segs ++ [seg]) segs.length = seg := by
  rw [segment, List.getD_eq_getElem?_getD, List.getElem?_concat_length, Option.getD_some]

theorem storable_segment (hbelow : ∀ e ∈ segs.flatten, e.1 < ⊤) (i : ℕ) :
    storable (segment segs i) = segment segs i := by
  refine storable_of_below fun e he => hbelow e ?_
  rw [segment, List.getD_eq_getElem?_getD] at he
  cases hseg : segs[i]? with
  | none =>
    rw [hseg] at he
    exact (List.not_mem_nil he).elim
  | some seg =>
    rw [hseg] at he
    exact List.mem_flatten.mpr ⟨seg, List.mem_of_getElem? hseg, he⟩

theorem Appended.indexSound (h : Appended fmt epsilon raw r segs r') (hN : 0 < N)
    (hfresh : r.RM.leafAllocator.Fresh) (hmodels : r.models = []) (hkeys : r.modelKeys = [])
    (hasc : Ascending segs.flatten) : IndexSound r' (fun _ _ => []) (trainedChains N segs) := by
  cases h with
  | none => exact ⟨fun i m hm => by simp [hmodels] at hm,
      fun i j m m' _ hm => by simp [hmodels] at hm⟩
  | @append segs last r₁ _ opt h hne hend hok =>
    rw [List.flatten_append, List.flatten_singleton] at hasc
    obtain ⟨h₁, h₂, hlt⟩ := ascending_append.mp hasc
    have hbelow : ∀ e ∈ segs.flatten, e.1 < ⊤ := fun e he =>
      (hlt e he _ (List.head_mem hne)).trans_le le_top
    have hlay := h.layout hN hfresh hmodels hkeys h₁ hbelow
    obtain ⟨m, hm, _, hmodels', _⟩ := appendSegment_ok hok
    have hkept : SubModel.Kept r₁.RM.leafAllocator last m.ltable r'.RM.leafAllocator :=
      SubModel.construct_kept hN hlay.fresh h₂ hm
    have hused : r₁.RM.leafAllocator.used ≤ r'.RM.leafAllocator.used := by
      rw [hkept.used]
      exact Nat.le_add_right _ _
    -- an old submodel, or the new one
    have hcases : ∀ (i : ℕ) (m' : SubModel F), r'.models[i]? = some m' →
        r₁.models[i]? = some m' ∧ i < segs.length ∨ i = segs.length ∧ m' = m := by
      intro i m' hi
      rw [hmodels'] at hi
      rcases getElem?_concat hi with hi | ⟨rfl, rfl⟩
      · exact Or.inl ⟨hi, hlay.length ▸ (List.getElem?_eq_some_iff.mp hi).1⟩
      · exact Or.inr ⟨hlay.length, rfl⟩
    have hold : ∀ (i : ℕ) (m' : SubModel F), r₁.models[i]? = some m' → i < segs.length →
        Laid r'.RM.leafAllocator (segment segs i) m' := by
      intro i m' hi hlen
      rw [segment, List.getD_eq_getElem _ _ hlen]
      exact (hlay.laid i m' _ hi (List.getElem?_eq_getElem hlen)).congr hused hkept.leaves
        hkept.fresh
    have hnew : ∀ (i : ℕ) (m' : SubModel F), r₁.models[i]? = some m' →
      ∀ a < m'.ltable.size, ∀ b < m.ltable.size,
        m'.ltable.entryNum a < m.ltable.entryNum b := by
      intro i m' hi a ha b hb
      have hlt := (hlay.indexSound.sound i m' hi).numsUsed a ha _ List.mem_cons_self
      rw [hkept.nums b hb]
      omega
    refine IndexSound.of_lt (fun i m' hi => ?_) fun i j m₁ m₂ hij hi hj a ha b hb => ?_
    · rcases hcases i m' hi with ⟨hi, hlen⟩ | ⟨rfl, rfl⟩
      · have hseg : trainedChains N (segs ++ [last]) i = fun a =>
            [SubModel.block N (segment segs i) a] := by
          funext a
          rw [trainedChains, segment_append_left hlen, storable_segment hbelow]
        rw [hseg]
        exact (hold i m' hi hlen).sound
      · have hseg : trainedChains N (segs ++ [last]) segs.length = fun a =>
            [SubModel.block N (storable last) a] := by
          funext a
          rw [trainedChains, segment_append_last]
        rw [hseg]
        exact hkept.sound h₂
    · rcases hcases i m₁ hi with ⟨hi, _⟩ | ⟨rfl, rfl⟩
      · rcases hcases j m₂ hj with ⟨hj, _⟩ | ⟨rfl, rfl⟩
        · exact hlay.apart i j m₁ m₂ hij hi hj a ha b hb
        · exact hnew i m₁ hi a ha b hb
      · rcases hcases j m₂ hj with ⟨_, hlen⟩ | ⟨rfl, rfl⟩ <;> omega

theorem entryFor_of_mem_block {data : List (Key × V)} (hasc : Ascending data) {size a : ℕ}
    (ha : a < size) {e : Key × V} (he : e ∈ SubModel.block N data a) :
    entryFor (fun a => [SubModel.block N data a]) size e.1 = a := by
  obtain ⟨j, hj, rfl, rfl⟩ := SubModel.exists_of_mem_block he
  have hblock : Ascending (SubModel.block N data (j / N)) :=
    (hasc.sublist (List.drop_sublist ..)).sublist (List.take_sublist ..)
  rw [entryFor, Nat.findGreatest_eq_iff]
  exact ⟨by omega, fun _ => opens_of_mem hblock he le_rfl,
    fun i hi _ => Bool.eq_false_iff.mp (SubModel.not_opens_block hasc hj hi)⟩

theorem Appended.homes (h : Appended fmt epsilon raw r segs r') (hmodels : r.models = [])
    (hkeys : r.modelKeys = []) (hasc : Ascending segs.flatten) :
    Homes r' (trainedChains N segs) (trainedChains N segs) where
  opens := fun _ _ _ _ _ => rfl
  home := fun i hi a ha e he => by
    obtain ⟨hlen, hbuilt⟩ := h.built hmodels
    have hi' : i < segs.length := hlen ▸ hi
    have hseg := List.getElem?_eq_getElem hi'
    have hseg' : segment segs i = segs[i] := by rw [segment, List.getD_eq_getElem _ _ hi']
    rw [trainedChains, List.flatten_singleton] at he
    have hmem : e ∈ storable (segment segs i) := List.mem_of_mem_drop (List.mem_of_mem_take he)
    have hmem' := List.mem_filter.mp hmem
    have hasc' : Ascending (storable (segment segs i)) := by
      rw [hseg']
      exact ((List.pairwise_flatten.mp hasc).1 _ (List.getElem_mem hi')).sublist List.filter_sublist
    have hne : ∀ seg ∈ segs, seg ≠ [] := by
      intro seg hs
      obtain ⟨j, hj, rfl⟩ := List.mem_iff_getElem.mp hs
      exact (hbuilt j _ _ (List.getElem?_eq_getElem (hlen.symm ▸ hj))
        (List.getElem?_eq_getElem hj)).1
    refine ⟨lt_top_iff_ne_top.mpr (of_decide_eq_true hmem'.2), ?_,
      entryFor_of_mem_block hasc' ha he⟩
    exact modelForKey_of_segment (h.keys hkeys) hlen hasc hne hseg (hseg' ▸ hmem'.1)

theorem Appended.pairs_eq (h : Appended fmt epsilon raw r segs r') (hN : 0 < N)
    (hfresh : r.RM.leafAllocator.Fresh) (hmodels : r.models = []) (hkeys : r.modelKeys = [])
    (hasc : Ascending segs.flatten) : pairs r' (trainedChains N segs) = storable segs.flatten := by
  have hlen := (h.built hmodels).1
  have htable : ∀ i ∈ List.range r'.models.length,
      tablePairs r' (trainedChains N segs) i = storable (segment segs i) := by
    intro i hi
    have hi := List.mem_range.mp hi
    have hm := List.getElem?_eq_getElem hi
    have hi' : i < segs.length := hlen ▸ hi
    have hsize := h.sizes hN hfresh hmodels hkeys hasc hm (List.getElem?_eq_getElem hi')
    have hseg : segment segs i = segs[i] := by rw [segment, List.getD_eq_getElem _ _ hi']
    have hcount : (storable (segment segs i)).length ≤ r'.tableSize i * N := by
      have hle : (storable (segment segs i)).length ≤ (segment segs i).length :=
        List.length_filter_le ..
      have hlt := Nat.lt_div_mul_add hN (a := segs[i].length - 1)
      rw [r'.tableSize_eq hm, hsize, SubModel.leafCount, Nat.succ_mul]
      rw [hseg] at hle ⊢
      omega
    rw [tablePairs, List.flatMap_def]
    simp only [trainedChains, List.flatten_singleton]
    exact SubModel.flatten_blocks _ hcount
  have hsegs : (List.range r'.models.length).map (fun i => storable (segment segs i)) =
      segs.map storable := by
    refine List.ext_getElem (by simp [hlen]) fun i hi hi' => ?_
    rw [List.length_map] at hi'
    rw [List.getElem_map, List.getElem_map, List.getElem_range, segment,
      List.getD_eq_getElem _ _ hi']
  rw [pairs, List.flatMap_congr htable, List.flatMap_def, hsegs]
  exact List.filter_flatten.symm

/-! ### range -/

/-- The last entry whose leaf starts at or below the key, entry 0 if there is none. -/
def SubModel.lastStart {F : Type} (m : SubModel F) (alloc : LeafAllocator Key V N)
    (key : Key) : ℕ :=
  Nat.findGreatest (fun a => (alloc.leaves (m.ltable.entryNum a)).insertHere key = true)
    (m.ltable.size - 1)

/-- Every window is in its table and contains that entry. -/
def WindowsLead (fmt : DoubleFormat F) (epsilon : ℕ) (r : RolexIndex F V N) : Prop :=
  ∀ m ∈ r.models, ∀ key < ⊤, (m.window fmt epsilon N key).1 ≤ m.lastStart r.RM.leafAllocator key ∧
    m.lastStart r.RM.leafAllocator key ≤ (m.window fmt epsilon N key).2 ∧
    (m.window fmt epsilon N key).2 < m.ltable.size

theorem findGreatest_congr {p q : ℕ → Prop} [DecidablePred p] [DecidablePred q] {n : ℕ}
    (h : ∀ a ≤ n, (p a ↔ q a)) : Nat.findGreatest p n = Nat.findGreatest q n := by
  induction n with
  | zero => rfl
  | succ n ih =>
    have hrest := ih fun a ha => h a (ha.trans (Nat.le_succ n))
    by_cases hp : p (n + 1)
    · rw [Nat.findGreatest_eq hp, Nat.findGreatest_eq ((h _ le_rfl).mp hp)]
    · rw [Nat.findGreatest_of_not hp, Nat.findGreatest_of_not fun hq => hp ((h _ le_rfl).mpr hq),
        hrest]

theorem Sound.lastStart_eq {m : SubModel F} {alloc : LeafAllocator Key V N} {slots : ℕ → List ℕ}
    {chains : ℕ → List (List (Key × V))} (h : Sound m.ltable alloc slots chains)
    (hsize : 0 < m.ltable.size) {key : Key} (hk : key < ⊤) :
    m.lastStart alloc key = entryFor chains m.ltable.size key :=
  findGreatest_congr fun a ha => by rw [h.toRepresents.insertHere_entry (by omega) hk]

theorem WindowsLead.guided {slots : ℕ → ℕ → List ℕ} {chains : ℕ → ℕ → List (List (Key × V))}
    (h : WindowsLead fmt epsilon r) (hs : IndexSound r slots chains) :
    Guided fmt epsilon r chains := by
  intro i m hm key hk
  have hwin := h m (List.mem_of_getElem? hm) key hk
  rwa [(hs.sound i m hm).lastStart_eq (by omega) hk] at hwin

/-- After inserts and updates of a trained index `range` scans what its leaves store: the trained
pairs with the effects of the calls. -/
theorem range_of_run (hN : Even N) (hN0 : 0 < N) {r₀ r₁ r₂ : RolexIndex F V N}
    (hfresh : r₀.RM.leafAllocator.Fresh) (hmodels : r₀.models = []) (hkeys : r₀.modelKeys = [])
    {data : List (Key × V)} (hne : data ≠ []) (htrain : r₀.train fmt epsilon raw data = .ok r₁)
    (hwin : WindowsLead fmt epsilon r₁) {ops : List (TableOp Key V)}
    (hops : ∀ op ∈ ops, op.Stores ∧ op.key < ⊤) {answers : List (Answer V)}
    (hrun : r₁.run fmt epsilon ops = .ok (answers, r₂)) :
    ∃ es, r₂.stored = .ok es ∧ es = TableOp.effects ops answers (storable data) ∧ Ascending es ∧
      ∀ key < ⊤, ∀ n, r₂.range fmt epsilon key n [] = .ok (scan key n es) := by
  have hasc := ascending_of_train htrain
  obtain ⟨_, segs, r, alloc, happ, rfl, _, rfl⟩ := RolexIndex.train_appended hne htrain
  have hsound := happ.indexSound hN0 hfresh hmodels hkeys hasc
  have hhomes := happ.homes hmodels hkeys hasc
  -- the count word at the start of the model region is no part of what the calls read
  have hs₁ : IndexSound { r with RM := { r.RM with modelAllocator := alloc } } (fun _ _ => [])
      (trainedChains N segs) := ⟨hsound.sound, hsound.apart⟩
  have hh₁ : Homes { r with RM := { r.RM with modelAllocator := alloc } } (trainedChains N segs)
      (trainedChains N segs) := ⟨hhomes.opens, hhomes.home⟩
  have hg₁ := hwin.guided hs₁
  obtain ⟨hshape, slots, chains, hs₂, hh₂, hpairs⟩ := hh₁.run hN hN0 hops hs₁ hg₁ hrun
  have hne₂ : r₂.models ≠ [] := by
    have hlen := hshape.length.trans (happ.built hmodels).1
    intro hnil
    rw [hnil, List.length_nil] at hlen
    exact hne (by rw [List.length_eq_zero_iff.mp hlen.symm, List.flatten_nil])
  refine ⟨pairs r₂ chains, hs₂.stored_ok, ?_, hh₂.ascending hs₂, fun key hk n => ?_⟩
  · rw [hpairs]
    exact congrArg _ (happ.pairs_eq hN0 hfresh hmodels hkeys hasc)
  · rw [hh₂.range_ok hs₂ (hg₁.congr hshape) hne₂ hk]
    rfl

end Index

/-! ### Two submodels of two leaves -/

def twoLines : List (Key × ℕ) := [(0, 5), (2, 20), (4, 40), (6, 60), (7, 70), (15, 150), (23, 230)]

theorem exactPos_of_slope {model : LinearRegressionModel ℚ} {n : ℕ} (hn : 2 ≤ n)
    (h : model.slope = 1 / n) (key : Key) :
    model.exactPos exactFormat key = ((key.val / n : ℕ) : ℚ) + model.intercept := by
  have hdiv : exactFormat.value model.slope * (key.val : ℚ) = (key.val : ℚ) / n := by
    rw [show exactFormat.value model.slope = 1 / (n : ℚ) from h, one_div, inv_mul_eq_div]
  have hlt : (key.val : ℚ) / n < 2 ^ 63 := by
    have hkey : (key.val : ℚ) < 2 ^ 64 := by exact_mod_cast key.isLt
    have hn : (2 : ℚ) ≤ n := by exact_mod_cast hn
    rw [div_lt_iff₀ (by linarith)]
    linarith
  rw [LinearRegressionModel.exactPos, hdiv, toInt64_of_nonneg (by positivity) hlt,
    Rat.floor_natCast_div_natCast]
  rfl

theorem two_leaves_lead {m : SubModel ℚ} {alloc : LeafAllocator Key ℕ 2}
    (ht : TrainedModel exactFormat 1 2 m) {n : ℕ} (hn : 2 ≤ n) (hslope : m.model.slope = 1 / n)
    (hlow : -1 ≤ m.model.intercept) (hhigh : m.model.intercept ≤ 0) (hcap : 3 ≤ m.capacity)
    (hsize : m.ltable.size = 2) (hsecond : ((alloc.leaves (m.ltable.entryNum 1)).key 0).val < 3 * n)
    (key : Key) : (m.window exactFormat 1 2 key).1 ≤ m.lastStart alloc key ∧
      m.lastStart alloc key ≤ (m.window exactFormat 1 2 key).2 ∧
      (m.window exactFormat 1 2 key).2 < m.ltable.size := by
  have hpos := exactPos_of_slope hn hslope key
  have hquot : (0 : ℚ) ≤ ((key.val / n : ℕ) : ℚ) := Nat.cast_nonneg _
  have hgt : -1 < hiEnd (m.model.exactPos exactFormat key) 1 m.capacity := by
    rw [neg_one_lt_hiEnd, hpos]
    push_cast
    linarith
  have hcapq : (3 : ℚ) ≤ m.capacity := by exact_mod_cast hcap
  -- the upper end is in the second leaf
  have htwo : 2 ≤ hiEnd (m.model.exactPos exactFormat key) 1 m.capacity := by
    rw [hiEnd]
    split
    · exact_mod_cast (by omega : 2 ≤ m.capacity - 1)
    · rw [hpos]
      push_cast
      linarith
  obtain ⟨hle, hhi⟩ := ht.hi_le exactFormat_exact hgt
  have hlt := ht.lt_size hhi
  have hcaplt : (m.capacity : ℚ) < 2 ^ 64 := by exact_mod_cast ht.capacityLt.trans (by norm_num)
  have hhiend := (hiEnd_lt (m.model.exactPos exactFormat key) 1 ht.capacityPos).trans hcaplt
  have hhi2 : 2 ≤ (m.model.predict exactFormat 1 key m.capacity).hi := by
    rw [predict_eq exactFormat_exact, toSizeT_of_gt hgt hhiend]
    have : (2 : ℤ) ≤ ⌊hiEnd (m.model.exactPos exactFormat key) 1 m.capacity⌋ :=
      Int.le_floor.mpr (by exact_mod_cast htwo)
    dsimp only
    omega
  rw [ht.window_of_gt exactFormat_exact hgt]
  have hlast : m.lastStart alloc key =
      if (alloc.leaves (m.ltable.entryNum 1)).insertHere key = true then 1 else 0 := by
    rw [SubModel.lastStart, hsize]
    exact Nat.findGreatest_succ 0
  rw [hlast]
  dsimp only
  split
  · exact ⟨by omega, by omega, hlt⟩
  · rename_i hhere
    -- a key of the first leaf is below position 3
    rw [Leaf.insertHere, decide_eq_true_iff, not_le, Fin.lt_def] at hhere
    have hthree : key.val / n < 3 := Nat.div_lt_of_lt_mul (by omega)
    have hthreeq : ((key.val / n : ℕ) : ℚ) ≤ 2 := by exact_mod_cast Nat.lt_succ_iff.mp hthree
    have hlo : (m.model.predict exactFormat 1 key m.capacity).lo < 2 := by
      have hend : loEnd (m.model.exactPos exactFormat key) 1 m.capacity < 2 := by
        refine min_lt_of_left_lt ?_
        rw [hpos]
        split
        · norm_num
        · push_cast
          linarith
      rw [predict_eq exactFormat_exact,
        toSizeT_of_gt (neg_one_lt_loEnd hgt) (loEnd_le.trans_lt hhiend)]
      have : ⌊loEnd (m.model.exactPos exactFormat key) 1 m.capacity⌋ < 2 :=
        Int.floor_lt.mpr (by exact_mod_cast hend)
      dsimp only
      omega
    exact ⟨by omega, by omega, hlt⟩

theorem range_of_run_two :
    ∃ r₁ answers r₂ es, emptyIndex.train exactFormat 1 noEntries twoLines = .ok r₁ ∧
    r₁.models.length = 2 ∧
    r₁.run exactFormat 1 [.insert 1 10, .insert 16 160, .update 15 155] = .ok (answers, r₂) ∧
    r₂.stored = .ok es ∧ ∀ key < ⊤, ∀ n, r₂.range exactFormat 1 key n [] = .ok (scan key n es) := by
  obtain ⟨r₁, htrain, hp⟩ := exists_ok (p := fun r : RolexIndex ℚ ℕ 2 =>
      decide (r.models.length = 2 ∧ ∀ m ∈ r.models, m.ltable.size = 2 ∧ -1 ≤ m.model.intercept ∧
        m.model.intercept ≤ 0 ∧ 3 ≤ m.capacity ∧
        (m.model.slope = 1 / 2 ∧
        ((r.RM.leafAllocator.leaves (m.ltable.entryNum 1)).key 0).val < 3 * 2 ∨
          m.model.slope = 1 / 8 ∧
          ((r.RM.leafAllocator.leaves (m.ltable.entryNum 1)).key 0).val < 3 * 8)) &&
        (r.run exactFormat 1 [.insert 1 10, .insert 16 160, .update 15 155]).toOption.any fun _ =>
        true)
    (by decide +kernel : (emptyIndex.train exactFormat 1 noEntries twoLines).toOption.any _ = true)
  obtain ⟨hall, hrun⟩ := Bool.and_eq_true_iff.mp hp
  obtain ⟨hlen, hall⟩ := of_decide_eq_true hall
  obtain ⟨⟨answers, r₂⟩, hrun, -⟩ := exists_ok hrun
  have hwin : WindowsLead exactFormat 1 r₁ := fun m hm key _ => by
    obtain ⟨hsize, hlow, hhigh, hcap, hline⟩ := hall m hm
    obtain ⟨i, hi, hget⟩ := List.mem_iff_getElem.mp hm
    have ht := trainedModel_of_train exactFormat_exact le_rfl (by norm_num) emptyIndex_fresh rfl rfl
      (by decide) htrain (List.getElem?_eq_some_iff.mpr ⟨hi, hget⟩)
    rcases hline with ⟨hslope, hsecond⟩ | ⟨hslope, hsecond⟩
    · exact two_leaves_lead ht (by norm_num)
        (by exact_mod_cast hslope) hlow hhigh hcap hsize hsecond key
    · exact two_leaves_lead ht (by norm_num)
        (by exact_mod_cast hslope) hlow hhigh hcap hsize hsecond key
  have hops : ∀ op ∈ ([.insert 1 10, .insert 16 160, .update 15 155] : List (TableOp Key ℕ)),
      op.Stores ∧ op.key < ⊤ := by
    intro op hop
    simp only [List.mem_cons, List.not_mem_nil, or_false] at hop
    rcases hop with rfl | rfl | rfl <;> exact ⟨trivial, by decide⟩
  obtain ⟨es, hes, _, _, hrange⟩ :=
    range_of_run (by decide) (by norm_num) emptyIndex_fresh rfl rfl (by decide) htrain
    hwin hops hrun
  exact ⟨r₁, answers, r₂, es, htrain, hlen, hrun, hes, hrange⟩

end Rolex
