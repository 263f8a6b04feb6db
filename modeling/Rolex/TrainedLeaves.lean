import Rolex.SubModel

/-!
What training leaves in a leaf table, also when the last key is the sentinel: `insert_not_full`
takes an empty slot for that key and writes nothing, so the pair is in no leaf.
-/

namespace Rolex
open AscendingMap

variable {K V : Type} {N : ℕ} [LinearOrder K] [OrderTop K]

theorem Leaf.Holds.insertNotFull_top {leaf : Leaf K V N} {es : List (K × V)} (h : leaf.Holds es)
    (hlt : es.length < N) (v : V) : leaf.insertNotFull ⊤ v = (0, leaf) := by
  have hlen : es.length < leaf.keys.length := by rwa [leaf.keysLength]
  have hidx : leaf.keys.findIdx (fun k => k = ⊤ ∨ k > ⊤) = es.length := by
    refine findIdx_of_below h (List.append_nil es).symm h.below fun z hz => Or.inl ?_
    exact (List.mem_replicate.mp (List.mem_of_mem_head? hz)).2
  have hget : leaf.keys[es.length]? = some ⊤ := by
    have hkey : leaf.key es.length = leaf.keys[es.length] := List.getD_eq_getElem _ _ hlen
    rw [List.getElem?_eq_getElem hlen, ← hkey, h.key_unused le_rfl]
  rw [← hidx] at hget
  rw [insertNotFull]
  exact if_pos hget

/-- The pairs that a leaf can hold. -/
def storable (data : List (K × V)) : List (K × V) := data.filter fun e => e.1 ≠ ⊤

theorem storable_of_below {data : List (K × V)} (h : ∀ e ∈ data, e.1 < ⊤) : storable data = data :=
  List.filter_eq_self.mpr fun e he => decide_eq_true (h e he).ne

theorem nil_of_top {e : K × V} {data : List (K × V)} (h : Ascending (e :: data)) (htop : e.1 = ⊤) :
    data = [] :=
  List.eq_nil_iff_forall_not_mem.mpr fun _ hx =>
    not_top_lt (htop ▸ List.rel_of_pairwise_cons h hx)

theorem length_storable {data : List (K × V)} (h : Ascending data) :
    data.length ≤ (storable data).length + 1 := by
  induction data with
  | nil => exact Nat.zero_le _
  | cons e data ih =>
    by_cases htop : e.1 = ⊤
    · rw [nil_of_top h htop]
      exact Nat.le_add_left ..
    · have hcons : storable (e :: data) = e :: storable data :=
        List.filter_cons_of_pos (decide_eq_true htop)
      rw [hcons]
      exact Nat.succ_le_succ (ih (List.Pairwise.of_cons h))

theorem storable_isPrefix {data : List (K × V)} (h : Ascending data) : storable data <+: data := by
  induction data with
  | nil => exact List.nil_prefix
  | cons e data ih =>
    by_cases htop : e.1 = ⊤
    · rw [nil_of_top h htop, storable, List.filter_cons_of_neg (by simp [htop])]
      exact List.nil_prefix
    · have hcons : storable (e :: data) = e :: storable data :=
        List.filter_cons_of_pos (decide_eq_true htop)
      rw [hcons, List.prefix_cons_inj]
      exact ih (List.Pairwise.of_cons h)

theorem mem_storable {data : List (K × V)} {e : K × V} :
    e ∈ storable data ↔ e ∈ data ∧ e.1 < ⊤ := by
  rw [storable, List.mem_filter, decide_eq_true_iff, lt_top_iff_ne_top]

theorem storable_ascending {data : List (K × V)} (h : Ascending data) : Ascending (storable data) :=
  h.sublist List.filter_sublist

theorem storable_append (xs ys : List (K × V)) : storable (xs ++ ys) = storable xs ++ storable ys :=
  List.filter_append ..

namespace SubModel

variable {base alloc : LeafAllocator K V N} {done : List (K × V)} {t : LeafTable}

/-- `Filled`, with a sentinel as the last key or without. -/
structure Kept (base : LeafAllocator K V N) (done : List (K × V)) (t : LeafTable)
    (alloc : LeafAllocator K V N) : Prop where
  represents : Represents t alloc (fun _ => []) (fun i => [block N (storable done) i])
  size : t.size = leafCount N done.length
  nums : ∀ i < t.size, t.entryNum i = base.used + i
  used : alloc.used = base.used + t.size
  available : t.available = 1
  allocated : alloc.allocated = base.allocated
  leaves : ∀ p < base.used, alloc.leaves p = base.leaves p
  fresh : alloc.Fresh
  idle : t.Idle

theorem Filled.kept (h : Filled base done t alloc) (hbelow : ∀ e ∈ done, e.1 < ⊤) :
    Kept base done t alloc where
  represents := by
    rw [storable_of_below hbelow]
    exact h.represents
  size := h.size
  nums := h.nums
  used := h.used
  available := h.available
  allocated := h.allocated
  leaves := h.leaves
  fresh := h.fresh
  idle := h.idle

theorem storable_concat_top (hbelow : ∀ e ∈ done, e.1 < ⊤) (v : V) :
    storable (done ++ [(⊤, v)]) = done := by
  rw [storable_append, storable_of_below hbelow]
  simp [storable]

theorem Filled.put_top (h : Filled base done t alloc) (hN : 0 < N) (hbelow : ∀ e ∈ done, e.1 < ⊤)
    (v : V) (hroom : done.length = 0 ∨ done.length % N ≠ 0) :
    Kept base (done ++ [(⊤, v)]) t (alloc.write (curLeaf N base done)
      ((alloc.leaves (curLeaf N base done)).insertNotFull ⊤ v).2) := by
  rw [h.cur_holds.insertNotFull_top (h.last_room hN hroom), alloc.write_self]
  refine ⟨?_, ?_, h.nums, h.used, h.available, h.allocated, h.leaves, h.fresh, h.idle⟩
  · rw [storable_concat_top hbelow]
    exact h.represents
  · rw [h.size, List.length_append, List.length_singleton, (leafCount_succ_of_room hN hroom).1]

theorem Filled.fetch_top (h : Filled base done t alloc) (hN : 0 < N) (hbelow : ∀ e ∈ done, e.1 < ⊤)
    (v : V) (hfull : 0 < done.length ∧ done.length % N = 0) (hleaf : alloc.used < alloc.allocated) :
    Kept base (done ++ [(⊤, v)]) (t.trainEmplaceBack alloc.used)
      (({ alloc with used := alloc.used + 1 } : LeafAllocator K V N).write alloc.used
        ((alloc.leaves alloc.used).insertNotFull ⊤ v).2) := by
  obtain ⟨hcount, hlast⟩ := leafCount_succ_of_full hN hfull.1 hfull.2
  have hsize : t.size = done.length / N := by rw [h.size, leafCount, hlast]
  have hnil : block N done t.size = [] :=
    block_eq_nil (by rw [hsize, Nat.div_mul_cancel (Nat.dvd_of_mod_eq_zero hfull.2)])
  have hwrite : ({ alloc with used := alloc.used + 1 } : LeafAllocator K V N).write alloc.used
      ((alloc.leaves alloc.used).insertNotFull ⊤ v).2 = { alloc with used := alloc.used + 1 } := by
    rw [(h.represents.blank _ le_rfl hleaf).insertNotFull_top hN]
    exact LeafAllocator.write_self { alloc with used := alloc.used + 1 } alloc.used
  rw [hwrite]
  refine ⟨?_, ?_, h.fetch_nums hleaf, ?_, ?_, h.allocated, h.leaves,
    ⟨hleaf, fun p hp hlt => h.fresh.blank p (Nat.le_of_succ_le hp) hlt⟩,
    idle_trainEmplaceBack h.idle _⟩
  · rw [storable_concat_top hbelow]
    exact h.represents.append rfl (by rw [hnil]) hleaf
  · rw [t.trainEmplaceBack_size, h.size, List.length_append, List.length_singleton, hcount]
  · rw [t.trainEmplaceBack_size, h.used]
    rfl
  · exact h.available

theorem fill_kept (hN : 0 < N) {data : List (K × V)} :
    ∀ {done : List (K × V)} {t : LeafTable} {alloc : LeafAllocator K V N},
      Filled base done t alloc → (∀ e ∈ done, e.1 < ⊤) → Ascending (done ++ data) →
      ∀ r, fill data t alloc (curLeaf N base done) = .ok r → Kept base (done ++ data) r.1 r.2 := by
  induction data with
  | nil =>
    intro done t alloc h hbelow _ r hr
    obtain rfl := Except.ok.inj hr
    rw [List.append_nil]
    exact h.kept hbelow
  | cons e data ih =>
    intro done t alloc h hbelow hasc r hr
    have hcut : done ++ e :: data = (done ++ [e]) ++ data := by simp
    have hlt : ∀ x ∈ done, x.1 < e.1 := fun x hx =>
      (ascending_append.mp hasc).2.2 x hx e List.mem_cons_self
    by_cases htop : e.1 = ⊤
    · -- the sentinel is the last key
      obtain rfl : data = [] := nil_of_top (ascending_append.mp hasc).2.1 htop
      obtain ⟨k, v⟩ := e
      obtain rfl : k = ⊤ := htop
      rw [fill] at hr
      by_cases hfull : 0 < done.length ∧ done.length % N = 0
      · rw [if_pos ((h.isfull_iff hN).mpr hfull)] at hr
        obtain ⟨res, hfetch, hr⟩ := bind_eq_ok hr
        obtain ⟨hleaf, rfl⟩ := LeafAllocator.fetchNewLeaf_eq_ok hfetch
        obtain rfl := Except.ok.inj hr
        exact h.fetch_top hN hbelow v hfull hleaf
      · rw [if_neg (fun hf => hfull ((h.isfull_iff hN).mp hf))] at hr
        obtain rfl := Except.ok.inj hr
        exact h.put_top hN hbelow v (by omega)
    · have hk := lt_top_iff_ne_top.mpr htop
      have hbelow' : ∀ x ∈ done ++ [e], x.1 < ⊤ := fun x hx => by
        rcases List.mem_append.mp hx with hx | hx
        · exact hbelow x hx
        · rwa [List.mem_singleton.mp hx]
      rw [hcut] at hasc ⊢
      rw [fill] at hr
      by_cases hfull : 0 < done.length ∧ done.length % N = 0
      · obtain ⟨hcount, _⟩ := leafCount_succ_of_full hN hfull.1 hfull.2
        rw [if_pos ((h.isfull_iff hN).mpr hfull)] at hr
        obtain ⟨res, hfetch, hr⟩ := bind_eq_ok hr
        obtain ⟨hleaf, rfl⟩ := LeafAllocator.fetchNewLeaf_eq_ok hfetch
        have hcur : alloc.used = curLeaf N base (done ++ [e]) := by
          rw [curLeaf, List.length_append, List.length_singleton, hcount, h.used, h.size,
            Nat.add_sub_cancel]
        refine ih (h.fetch hN hfull hleaf hk) hbelow' hasc r ?_
        rw [← hcur]
        exact hr
      · have hroom : done.length = 0 ∨ done.length % N ≠ 0 := by omega
        obtain ⟨hcount, _⟩ := leafCount_succ_of_room hN hroom
        rw [if_neg (fun hf => hfull ((h.isfull_iff hN).mp hf))] at hr
        have hcur : curLeaf N base done = curLeaf N base (done ++ [e]) := by
          rw [curLeaf, curLeaf, List.length_append, List.length_singleton, hcount]
        refine ih (h.put hN hk hlt hroom) hbelow' hasc r ?_
        rw [← hcur]
        exact hr

theorem construct_kept {F : Type} (hN : 0 < N) (hfresh : base.Fresh) {data : List (K × V)}
    (hasc : Ascending data) {raw : Fin kSynonymMax → TableEntry} {slope intercept : F}
    {r : SubModel F × LeafAllocator K V N} (hr : construct raw slope intercept data base = .ok r) :
    Kept base data r.1.ltable r.2 := by
  obtain ⟨res, hfetch, hr⟩ := bind_eq_ok hr
  obtain ⟨filled, hfill, hr⟩ := bind_eq_ok hr
  obtain rfl := Except.ok.inj hr
  obtain ⟨hleaf, rfl⟩ := LeafAllocator.fetchNewLeaf_eq_ok hfetch
  have hcur : base.used = curLeaf N base ([] : List (K × V)) := by simp [curLeaf, leafCount]
  refine fill_kept hN (Filled.start hfresh hleaf raw) (by simp)
    (show Ascending ([] ++ data) from hasc) filled ?_
  rw [← hcur]
  exact hfill

theorem Kept.sound (h : Kept base done t alloc) (hasc : Ascending done) :
    Sound t alloc (fun _ => []) (fun i => [block N (storable done) i]) where
  toRepresents := h.represents
  ordered := fun i _ => by
    refine ⟨by simp, ?_, by simp⟩
    rw [List.flatten_singleton, block]
    exact ((hasc.sublist List.filter_sublist).sublist (List.drop_sublist ..)).sublist
      (List.take_sublist ..)
  idle := h.idle

end SubModel

end Rolex
