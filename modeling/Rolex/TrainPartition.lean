import Rolex.TrainedSearch
import Rolex.ModelRegion
import Rolex.IndexContents

/-! What `train` accepts, and how it cuts it: every submodel holds the next pairs, every table entry
the next `N` of them. -/

namespace Rolex
open AscendingMap BlockChain Bytes

variable {F V : Type} {N : ℕ} {fmt : DoubleFormat F} {epsilon : ℕ}
  {raw : ℕ → Fin kSynonymMax → TableEntry}

/-- The table of a submodel that holds `seg`: its entries have one leaf each, all but the last
full. -/
structure Cut (alloc : LeafAllocator Key V N) (seg : List (Key × V)) (m : SubModel F) : Prop where
  capacity : m.capacity = seg.length
  size : m.ltable.size = (seg.length + N - 1) / N
  leaf : ∀ a < m.ltable.size, ∃ p, m.ltable.chainLeaves alloc a = .ok [p] ∧
    (a + 1 < m.ltable.size → (alloc.leaves p).isfull = true)
  stored : (⟨m.ltable, alloc⟩ : TableState Key V N).stored = .ok seg

/-- The submodels of `r` hold the segments `segs` of `data`. -/
structure Partition (data : List (Key × V)) (segs : List (List (Key × V)))
    (r : RolexIndex F V N) : Prop where
  flatten : segs.flatten = data
  nonempty : ∀ seg ∈ segs, seg ≠ []
  length : r.models.length = segs.length
  keys : r.modelKeys = segs.map lastKey
  ascending : r.modelKeys.Pairwise (· < ·)
  cut : ∀ (i : ℕ) (m : SubModel F) (seg : List (Key × V)), r.models[i]? = some m →
    segs[i]? = some seg →
    Cut r.RM.leafAllocator seg m
  stored : r.stored = .ok data
  count : r.RM.modelAllocator.get 0 8 = .ok (toBytes 8 r.models.length)

theorem leafCount_eq (hN : 0 < N) {n : ℕ} (hn : 0 < n) :
    SubModel.leafCount N n = (n + N - 1) / N := by
  rw [SubModel.leafCount, show n + N - 1 = (n - 1) + N by omega, Nat.add_div_right _ hN]

theorem length_block {K : Type} (data : List (K × V)) {a : ℕ} (h : (a + 1) * N ≤ data.length) :
    (SubModel.block N data a).length = N := by
  rw [Nat.succ_mul] at h
  rw [SubModel.block, List.length_take, List.length_drop]
  omega

theorem Laid.cut {alloc : LeafAllocator Key V N} {seg : List (Key × V)} {m : SubModel F}
    (h : Laid alloc seg m) (hN : 0 < N) (hne : seg ≠ []) : Cut alloc seg m where
  capacity := h.capacity
  size := h.size.trans (leafCount_eq hN (List.length_pos_iff.mpr hne))
  leaf := fun a ha => by
    refine ⟨m.ltable.entryNum a, h.sound.toRepresents.chainLeaves_ok ha, fun hlast => ?_⟩
    have hholds : (alloc.leaves (m.ltable.entryNum a)).Holds (SubModel.block N seg a) :=
      h.sound.holds_entry ha
    refine (hholds.isfull_iff hN).mpr (length_block seg ?_)
    rw [h.size, SubModel.leafCount, Nat.add_lt_add_iff_right] at hlast
    have hle : (a + 1) * N ≤ seg.length - 1 :=
      (Nat.mul_le_mul_right N hlast).trans (Nat.div_mul_le_self (seg.length - 1) N)
    omega
  stored := by
    rw [h.sound.toRepresents.stored_ok (s := ⟨m.ltable, alloc⟩)]
    congr 1
    have hcount : seg.length ≤ m.ltable.size * N := by
      have hlt := Nat.lt_div_mul_add hN (a := seg.length - 1)
      rw [h.size, SubModel.leafCount, Nat.succ_mul]
      omega
    simpa using SubModel.flatten_blocks seg hcount

theorem ascending_lastKeys {segs : List (List (Key × V))} (hasc : Ascending segs.flatten)
    (hne : ∀ seg ∈ segs, seg ≠ []) : (segs.map lastKey).Pairwise (· < ·) := by
  rw [List.pairwise_map]
  refine (List.pairwise_flatten.mp hasc).2.imp_of_mem fun {a b} ha hb hlt => ?_
  rw [lastKey_of_ne_nil (hne a ha), lastKey_of_ne_nil (hne b hb)]
  exact hlt _ (List.getLast_mem (hne a ha)) _ (List.getLast_mem (hne b hb))

theorem stored_of_cut {segs : List (List (Key × V))} {r : RolexIndex F V N}
    (hlen : r.models.length = segs.length)
    (h : ∀ (i : ℕ) (m : SubModel F) (seg : List (Key × V)), r.models[i]? = some m →
      segs[i]? = some seg →
      Cut r.RM.leafAllocator seg m) : r.stored = .ok segs.flatten := by
  have htable : ∀ i m, r.models[i]? = some m →
      (⟨m.ltable, r.RM.leafAllocator⟩ : TableState Key V N).stored = .ok (segment segs i) :=
      fun i m hm => by
    have hi : i < segs.length := by
      rw [← hlen]
      exact (List.getElem?_eq_some_iff.mp hm).1
    rw [(h i m _ hm (List.getElem?_eq_getElem hi)).stored, segment, List.getD_eq_getElem _ _ hi]
  have hsegs : (List.range r.models.length).map (segment segs) = segs := by
    refine List.ext_getElem (by rw [List.length_map, List.length_range, hlen]) fun i hi hi' => ?_
    rw [List.getElem_map, List.getElem_range, segment, List.getD_eq_getElem _ _ hi']
  rw [RolexIndex.stored, mapM_getElem_ok htable, ok_bind, hsegs]

theorem get_of_put {a a' : ModelAllocator} {off : ℕ} {bs : List Byte} (h : a.put off bs = .ok a') :
    a'.get off bs.length = .ok bs := by
  have hsize : off + bs.length ≤ a.totalSz := by
    by_contra hsize
    rw [ModelAllocator.put, if_neg hsize] at h
    cases h
  obtain rfl := put_ok h
  rw [get_ok (by exact hsize), Memory.read_write_self]

theorem partition_of_train (hN : 0 < N) {r r' : RolexIndex F V N}
    (hfresh : r.RM.leafAllocator.Fresh) (hmodels : r.models = []) (hkeys : r.modelKeys = [])
    {data : List (Key × V)} (hne : data ≠ []) (hbelow : ∀ e ∈ data, e.1 < ⊤)
    (hok : r.train fmt epsilon raw data = .ok r') : ∃ segs, Partition data segs r' := by
  have hasc := ascending_of_train hok
  obtain ⟨_, segs, r₁, alloc, happ, rfl, hput, rfl⟩ := RolexIndex.train_appended hne hok
  have hlay := happ.layout hN hfresh hmodels hkeys hasc hbelow
  obtain ⟨hlen, hbuilt⟩ := happ.built hmodels
  have hnonempty : ∀ seg ∈ segs, seg ≠ [] := by
    intro seg hseg
    obtain ⟨i, hi, rfl⟩ := List.mem_iff_getElem.mp hseg
    exact (hbuilt i _ _ (List.getElem?_eq_getElem (by omega)) (List.getElem?_eq_getElem hi)).1
  have hcut : ∀ (i : ℕ) (m : SubModel F) (seg : List (Key × V)), r₁.models[i]? = some m →
    segs[i]? = some seg →
      Cut r₁.RM.leafAllocator seg m := fun i m seg hm hseg =>
    (hlay.laid i m seg hm hseg).cut hN (hnonempty seg (List.mem_of_getElem? hseg))
  refine ⟨segs, rfl, hnonempty, hlen, hlay.keys, ?_, hcut, stored_of_cut hlen hcut, ?_⟩
  · rw [hlay.keys]
    exact ascending_lastKeys hasc hnonempty
  · have hget := get_of_put hput
    rwa [length_toBytes] at hget

/-- Training returns exactly for ascending keys, and partitions them. -/
theorem train_partition (hN : 0 < N) {r : RolexIndex F V N} (hfresh : r.RM.leafAllocator.Fresh)
    (hmodels : r.models = []) (hkeys : r.modelKeys = []) {data : List (Key × V)} (hne : data ≠ [])
    (hbelow : ∀ e ∈ data, e.1 < ⊤) (hlen : data.length < 2 ^ 31)
    (henough : r.RM.leafAllocator.used + data.length ≤ r.RM.leafAllocator.allocated)
    (hspace : ∀ f, r.train fmt epsilon raw data = .error f → ¬RegionFault f) :
    ((∃ r', r.train fmt epsilon raw data = .ok r') ↔ Ascending data) ∧
    (¬Ascending data → ∃ f, r.train fmt epsilon raw data = .error f ∧ RolexIndex.OrderFault f) ∧
    ∀ r', r.train fmt epsilon raw data = .ok r' → ∃ segs, Partition data segs r' := by
  refine ⟨⟨fun ⟨r', hok⟩ => ascending_of_train hok, fun hasc => ?_⟩, fun hdis => ?_,
    fun r' hok => partition_of_train hN hfresh hmodels hkeys hne hbelow hok⟩
  · rcases train_returns hN hfresh hmodels hkeys hasc hbelow hlen henough with hok | ⟨f, hf, herr⟩
    · exact hok
    · exact absurd hf (hspace f herr)
  · cases htrain : r.train fmt epsilon raw data with
    | ok r' => exact absurd (ascending_of_train htrain) hdis
    | error f =>
      rcases train_error hN hfresh hmodels hkeys hbelow hlen henough htrain with ⟨horder,
        _⟩ | hregion
      · exact ⟨f, rfl, horder⟩
      · exact absurd hregion (hspace f htrain)

theorem train_partition_four :
    ((∃ r', emptyIndex.train exactFormat 1 noEntries gapData = .ok r') ↔ Ascending gapData) ∧
    (¬Ascending gapData →
      ∃ f, emptyIndex.train exactFormat 1 noEntries gapData = .error f ∧ RolexIndex.OrderFault f) ∧
    ∀ r', emptyIndex.train exactFormat 1 noEntries gapData = .ok r' →
      ∃ segs, Partition gapData segs r' := by
  obtain ⟨r', hr, _⟩ := exists_ok (p := fun _ => true)
    (by decide +kernel : (emptyIndex.train exactFormat 1 noEntries gapData).toOption.any _ = true)
  exact train_partition (by decide) emptyIndex_fresh rfl rfl (by decide) (by decide) (by decide)
    (by decide) fun f herr => by rw [hr] at herr; cases herr

end Rolex
