import Rolex.Represents

/-! The writes of the operations, seen from the chains: a new content for one
leaf, a new slot behind a leaf, a slot taken out of its chain. -/

namespace Rolex
open AscendingMap BlockChain LinkedSlots

variable {K V : Type} {N : ℕ} [LinearOrder K] [OrderTop K]

namespace Represents

variable {t : LeafTable} {alloc : LeafAllocator K V N} {slots : ℕ → List ℕ}
  {chains : ℕ → List (List (K × V))}

theorem forall₂_of_mem {α β : Type} {R S : α → β → Prop} {l : List α} {m : List β}
    (h : ∀ a ∈ l, ∀ b, R a b → S a b) (hr : List.Forall₂ R l m) : List.Forall₂ S l m := by
  induction hr with
  | nil => exact List.Forall₂.nil
  | cons hab _ ih =>
    exact List.Forall₂.cons (h _ List.mem_cons_self _ hab)
      (ih fun a ha => h a (List.mem_cons_of_mem _ ha))

theorem exists_of_forall₂ {α β : Type} {R : α → β → Prop} {l : List α} {m : List β}
    (hr : List.Forall₂ R l m) : (∀ a ∈ l, ∃ b ∈ m, R a b) ∧ ∀ b ∈ m, ∃ a ∈ l, R a b := by
  induction hr with
  | nil => simp
  | cons hab _ ih =>
    constructor
    · intro a ha
      rcases List.mem_cons.mp ha with rfl | ha
      · exact ⟨_, List.mem_cons_self, hab⟩
      · obtain ⟨b, hb, hr⟩ := ih.1 a ha
        exact ⟨b, List.mem_cons_of_mem _ hb, hr⟩
    · intro b hb
      rcases List.mem_cons.mp hb with rfl | hb
      · exact ⟨_, List.mem_cons_self, hab⟩
      · obtain ⟨a, ha, hr⟩ := ih.2 b hb
        exact ⟨a, List.mem_cons_of_mem _ ha, hr⟩

theorem forall₂_append {α β : Type} {R : α → β → Prop} {l l' : List α} {m m' : List β}
    (hlen : l.length = m.length) :
    List.Forall₂ R (l ++ l') (m ++ m') ↔ List.Forall₂ R l m ∧ List.Forall₂ R l' m' := by
  constructor
  · intro h
    have ht := List.forall₂_take_append _ _ _ h
    have hd := List.forall₂_drop_append _ _ _ h
    rw [← hlen, List.take_left] at ht
    rw [← hlen, List.drop_left] at hd
    exact ⟨ht, hd⟩
  · rintro ⟨h, h'⟩
    exact List.rel_append h h'

/-! ### The elementary steps on the chains -/

theorem congr {t' : LeafTable} (h : Represents t alloc slots chains) (hsize : t'.size = t.size)
    (hhead : t'.head = t.head) (hnum : t'.entryNum = t.entryNum)
    (hslots : t'.synonymTable = t.synonymTable) : Represents t' alloc slots chains := by
  have hnext : t'.next = t.next := by
    funext s
    rw [LeafTable.next, hslots, LeafTable.next]
  have hsnum : t'.slotNum = t.slotNum := by
    funext s
    rw [LeafTable.slotNum, hslots, LeafTable.slotNum]
  have hchain : ∀ i, t'.chainNums i (slots i) = t.chainNums i (slots i) := fun i => by
    rw [LeafTable.chainNums, LeafTable.chainNums, hnum, hsnum]
  have hav : t'.available = t.available := by
    rw [LeafTable.available_eq, hsnum, LeafTable.available_eq]
  constructor
  · simpa only [hsize, hnext, hhead] using h.path
  · simpa only [hsize, hav] using h.handedOut
  · simpa only [hsize] using h.separate
  · simpa only [hav] using h.countPos
  · simpa only [hav] using h.countLe
  · exact h.usedLe
  · simpa only [hsize, hchain] using h.numsUsed
  · simpa only [hsize, hchain] using h.numsNodup
  · simpa only [hsize, hchain] using h.numsSeparate
  · simpa only [hsize, hchain] using h.holds
  · exact h.blank

theorem transport {alloc' : LeafAllocator K V N} (h : Represents t alloc slots chains)
    (hle : alloc.used ≤ alloc'.used) (hcap : alloc'.used ≤ alloc'.allocated)
    (hsame : ∀ i < t.size, ∀ p ∈ t.chainNums i (slots i), alloc'.leaves p = alloc.leaves p)
    (hblank : ∀ p, alloc'.used ≤ p → p < alloc'.allocated → (alloc'.leaves p).Holds []) :
    Represents t alloc' slots chains where
  path := h.path
  handedOut := h.handedOut
  separate := h.separate
  countPos := h.countPos
  countLe := h.countLe
  usedLe := hcap
  numsUsed := fun i hi p hp => (h.numsUsed i hi p hp).trans_le hle
  numsNodup := h.numsNodup
  numsSeparate := h.numsSeparate
  holds := fun i hi => by
    refine forall₂_of_mem (fun p hp es hpe => ?_) (h.holds i hi)
    rw [hsame i hi p hp]
    exact hpe
  blank := hblank

theorem congr_alloc {alloc' : LeafAllocator K V N} (h : Represents t alloc slots chains)
    (hall : alloc'.allocated = alloc.allocated) (hle : alloc.used ≤ alloc'.used)
    (hcap : alloc'.used ≤ alloc'.allocated)
    (hsame : ∀ i < t.size, ∀ p ∈ t.chainNums i (slots i), alloc'.leaves p = alloc.leaves p)
    (hblank : ∀ p, alloc'.used ≤ p → alloc'.leaves p = alloc.leaves p) :
    Represents t alloc' slots chains :=
  h.transport hle hcap hsame fun p hp hlt => by
    rw [hblank p hp]
    exact h.blank p (hle.trans hp) (hall ▸ hlt)

theorem write (h : Represents t alloc slots chains) {i p : ℕ} (hi : i < t.size)
    {npre npost : List ℕ} {pre post : List (List (K × V))} {b b' : List (K × V)} {leaf : Leaf K V N}
    (hnums : t.chainNums i (slots i) = npre ++ p :: npost) (hchain : chains i = pre ++ b :: post)
    (hlen : npre.length = pre.length) (hleaf : leaf.Holds b') :
    Represents t (alloc.write p leaf) slots (Function.update chains i (pre ++ b' :: post)) where
  path := h.path
  handedOut := h.handedOut
  separate := h.separate
  countPos := h.countPos
  countLe := h.countLe
  usedLe := h.usedLe
  numsUsed := h.numsUsed
  numsNodup := h.numsNodup
  numsSeparate := h.numsSeparate
  holds := fun j hj => by
    have hf := h.holds j hj
    by_cases hji : j = i
    · subst hji
      have hnd := h.numsNodup j hj
      rw [hnums, hchain, forall₂_append hlen, List.forall₂_cons] at hf
      rw [hnums, List.nodup_append, List.nodup_cons] at hnd
      rw [Function.update_self, hnums, forall₂_append hlen, List.forall₂_cons]
      refine ⟨forall₂_of_mem (fun q hq es he => ?_) hf.1, ?_,
        forall₂_of_mem (fun q hq es he => ?_) hf.2.2⟩
      · rwa [alloc.write_leaves_ne (hnd.2.2 q hq p List.mem_cons_self)]
      · rwa [alloc.write_leaves_self]
      · rwa [alloc.write_leaves_ne]
        exact fun hqp => hnd.2.1.1 (hqp ▸ hq)
    · rw [Function.update_of_ne hji]
      refine forall₂_of_mem (fun q hq es he => ?_) hf
      rwa [alloc.write_leaves_ne]
      rintro rfl
      refine h.numsSeparate j hj i hi hji hq ?_
      rw [hnums]
      simp
  blank := fun q hq hlt => by
    rw [alloc.write_leaves_ne]
    · exact h.blank q hq hlt
    · rintro rfl
      have hu := h.numsUsed i hi q (by rw [hnums]; simp)
      simp only [LeafAllocator.write_used] at hq
      omega

end Represents

/-! ### Linking a new slot -/

/-- Leaf `n` was handed out and is on no chain. -/
structure Spare (t : LeafTable) (alloc : LeafAllocator K V N) (slots : ℕ → List ℕ)
    (n : ℕ) : Prop where
  used : n < alloc.used
  unlinked : ∀ j < t.size, n ∉ t.chainNums j (slots j)
  blank : (alloc.leaves n).Holds []

/-- `t'` is `t` after one more slot was handed out, for leaf `n`. -/
structure LeafTable.SlotAdded (t t' : LeafTable) (n : ℕ) : Prop where
  size : t'.size = t.size
  entryNum : t'.entryNum = t.entryNum
  lockBit : t'.lockBit = t.lockBit
  csLocks : t'.csLocks = t.csLocks
  count : t'.available = t.available + 1
  num : t'.slotNum t.available = n
  nums : ∀ s, s ≠ 0 → s ≠ t.available → t'.slotNum s = t.slotNum s

namespace LeafTable

variable {t : LeafTable} {n : ℕ}

theorem synonymEmplaceBack_full (h : t.available = kSynonymMax - 1) (inTable : Bool) (lIdx n : ℕ) :
    t.synonymEmplaceBack inTable lIdx n = .ok (0, t) := if_pos h

theorem synonymEmplaceBack_entry {i : ℕ} (h1 : 1 ≤ t.available) (h2 : t.available < kSynonymMax - 1)
    (hn : n < 2 ^ 48) (hi : i < t.size) :
    ∃ t', t.synonymEmplaceBack true i n = .ok (t.available, t') ∧ t.SlotAdded t' n ∧
      t'.head i = t.available ∧ (∀ j, j ≠ i → t'.head j = t.head j) ∧
      t'.next t.available = t.head i ∧ ∀ s, s ≠ t.available → t'.next s = t.next s := by
  have ha : t.available < kSynonymMax := by omega
  let t₁ := t.modifySlot 0 (TableEntry.withNum (t.available + 1))
  let t₂ := t₁.modifyEntry i (TableEntry.withNext t.available)
  have hi₁ : i < t₁.size := hi
  have hstep : t.synonymEmplaceBack true i n = .ok (t.available, t₂.modifySlot t.available fun _ =>
      ⟨0, 0, t.table[i].synonymLeaf, Fin.ofNat _ n⟩) := by
    rw [synonymEmplaceBack, if_neg h2.ne]
    simp only [if_true]
    rw [t.modifySlot_entry, t.entry_eq hi, ok_bind, slot_eq _ ha]
    rfl
  refine ⟨_, hstep, ⟨?_, ?_, ?_, ?_, ?_, ?_, ?_⟩, ?_, ?_, ?_, ?_⟩
  · rw [modifySlot_size, modifyEntry_size, modifySlot_size]
  · rw [modifySlot_entryNum, modifyEntry_withNext_entryNum, modifySlot_entryNum]
  · rw [modifySlot_lockBit, modifyEntry_withNext_lockBit, modifySlot_lockBit]
  · rfl
  · rw [available_eq, modifySlot_slotNum_ne _ _ _ (by omega), modifyEntry_slotNum,
      modifySlot_slotNum_self _ _ _ (by norm_num)]
    exact TableEntry.val_withNum ((Nat.succ_le_of_lt ha).trans_lt (by norm_num)) _
  · rw [modifySlot_slotNum_self _ _ _ ha]
    exact Nat.mod_eq_of_lt hn
  · intro s h0 hs
    rw [modifySlot_slotNum_ne _ _ _ hs, modifyEntry_slotNum, modifySlot_slotNum_ne _ _ _ h0]
  · rw [modifySlot_head, modifyEntry_head_self _ _ hi₁]
    exact TableEntry.val_withNext ha _
  · intro j hj
    rw [modifySlot_head, modifyEntry_head_ne _ _ _ hj, modifySlot_head]
  · rw [modifySlot_next_self _ _ _ ha]
    exact (t.head_eq hi).symm
  · intro s hs
    rw [modifySlot_next_ne _ _ _ hs, modifyEntry_next, modifySlot_withNum_next]

theorem synonymEmplaceBack_slot {s : ℕ} (h2 : t.available < kSynonymMax - 1) (hn : n < 2 ^ 48)
    (hs0 : s ≠ 0) (hs : s < t.available) :
    ∃ t', t.synonymEmplaceBack false s n = .ok (t.available, t') ∧ t.SlotAdded t' n ∧
      t'.head = t.head ∧ t'.next s = t.available ∧ t'.next t.available = t.next s ∧
      ∀ x, x ≠ t.available → x ≠ s → t'.next x = t.next x := by
  have ha : t.available < kSynonymMax := by omega
  have hsa : s < kSynonymMax := by omega
  let t₁ := t.modifySlot 0 (TableEntry.withNum (t.available + 1))
  let t₂ := t₁.modifySlot s (TableEntry.withNext t.available)
  have hstep : t.synonymEmplaceBack false s n = .ok (t.available, t₂.modifySlot t.available fun _ =>
      ⟨0, 0, (t₁.synonymTable ⟨s, hsa⟩).synonymLeaf, Fin.ofNat _ n⟩) := by
    rw [synonymEmplaceBack, if_neg h2.ne]
    simp only [Bool.false_eq_true, if_false]
    rw [slot_eq _ hsa, ok_bind, slot_eq _ ha]
    rfl
  refine ⟨_, hstep, ⟨?_, ?_, ?_, ?_, ?_, ?_, ?_⟩, ?_, ?_, ?_, ?_⟩
  · rfl
  · rfl
  · rfl
  · rfl
  · rw [available_eq, modifySlot_slotNum_ne _ _ _ (by omega), modifySlot_slotNum_ne _ _ _ hs0.symm,
      modifySlot_slotNum_self _ _ _ (by norm_num)]
    exact TableEntry.val_withNum ((Nat.succ_le_of_lt ha).trans_lt (by norm_num)) _
  · rw [modifySlot_slotNum_self _ _ _ ha]
    exact Nat.mod_eq_of_lt hn
  · intro x h0 hx
    rw [modifySlot_slotNum_ne _ _ _ hx, modifySlot_withNext_slotNum,
      modifySlot_slotNum_ne _ _ _ h0]
  · rw [modifySlot_head, modifySlot_head, modifySlot_head]
  · rw [modifySlot_next_ne _ _ _ hs.ne, modifySlot_next_self _ _ _ hsa]
    exact TableEntry.val_withNext ha _
  · rw [modifySlot_next_self _ _ _ ha]
    simp only
    rw [← next_eq, modifySlot_withNum_next]
  · intro x hx hxs
    rw [modifySlot_next_ne _ _ _ hx, modifySlot_next_ne _ _ _ hxs, modifySlot_withNum_next]

theorem synonymTableRemove_zero {i s : ℕ} (rest : List ℕ) (hi : i < t.size) (hs : s < kSynonymMax) :
    ∃ t', t.synonymTableRemove (s :: rest) i 0 = .ok t' ∧ t'.size = t.size ∧
      t'.entryNum = t.entryNum ∧ t'.lockBit = t.lockBit ∧ t'.csLocks = t.csLocks ∧
      t'.slotNum = t.slotNum ∧ t'.next = t.next ∧ t'.head i = t.next s ∧
      ∀ j, j ≠ i → t'.head j = t.head j := by
  have hstep : t.synonymTableRemove (s :: rest) i 0 = .ok (t.modifyEntry i
      (TableEntry.withNext (t.next s))) := by
    have hw : TableEntry.withNext (t.next s) = fun te =>
        { te with synonymLeaf := (t.synonymTable ⟨s, hs⟩).synonymLeaf } := by
      funext te
      rw [TableEntry.withNext, t.next_eq hs, Fin.ofNat_val_eq_self]
    rw [synonymTableRemove, List.getD_cons_zero, t.slot_eq hs, ok_bind, hw]
    rfl
  refine ⟨_, hstep, t.modifyEntry_size .., t.modifyEntry_withNext_entryNum ..,
    t.modifyEntry_withNext_lockBit .., rfl, rfl, rfl, ?_, fun j hj => t.modifyEntry_head_ne _ _ hj⟩
  rw [modifyEntry_head_self _ _ hi, t.next_eq hs]
  exact Nat.mod_eq_of_lt (Fin.isLt _)

theorem synonymTableRemove_succ {s old : ℕ} (i : ℕ) (spre rest : List ℕ) (hs : s < kSynonymMax)
    (ho : old < kSynonymMax) :
    ∃ t', t.synonymTableRemove (spre ++ s :: old :: rest) i (spre.length + 1) = .ok t' ∧
      t'.size = t.size ∧ t'.entryNum = t.entryNum ∧ t'.lockBit = t.lockBit ∧
      t'.csLocks = t.csLocks ∧ t'.slotNum = t.slotNum ∧ t'.head = t.head ∧ t'.next s = t.next old ∧
      ∀ x, x ≠ s → t'.next x = t.next x := by
  have hgo : (spre ++ s :: old :: rest).getD (spre.length + 1) 0 = old := by simp
  have hgs : (spre ++ s :: old :: rest).getD (spre.length + 1 - 1) 0 = s := by simp
  have hstep : t.synonymTableRemove (spre ++ s :: old :: rest) i (spre.length + 1) =
      .ok (t.modifySlot s (TableEntry.withNext (t.next old))) := by
    have hw : TableEntry.withNext (t.next old) = fun te =>
        { te with synonymLeaf := (t.synonymTable ⟨old, ho⟩).synonymLeaf } := by
      funext te
      rw [TableEntry.withNext, t.next_eq ho, Fin.ofNat_val_eq_self]
    rw [synonymTableRemove, hgo, t.slot_eq ho, ok_bind, hw, hgs]
    rfl
  refine ⟨_, hstep, rfl, rfl, rfl, rfl, t.modifySlot_withNext_slotNum .., rfl, ?_,
    fun x hx => t.modifySlot_next_ne _ _ hx⟩
  rw [modifySlot_next_self _ _ _ hs, t.next_eq ho]
  exact Nat.mod_eq_of_lt (Fin.isLt _)

end LeafTable

namespace Represents

variable {t t' : LeafTable} {alloc : LeafAllocator K V N} {slots : ℕ → List ℕ}
  {chains : ℕ → List (List (K × V))}

theorem fetch (h : Represents t alloc slots chains) (hleaf : alloc.used < alloc.allocated) :
    Represents t { alloc with used := alloc.used + 1 } slots chains :=
  h.congr_alloc rfl (Nat.le_succ _) hleaf (fun _ _ _ _ => rfl) fun _ _ => rfl

theorem spare (h : Represents t alloc slots chains) (hleaf : alloc.used < alloc.allocated) :
    Spare t { alloc with used := alloc.used + 1 } slots alloc.used where
  used := Nat.lt_succ_self _
  unlinked := fun j hj hm => lt_irrefl _ (h.numsUsed j hj _ hm)
  blank := h.blank _ le_rfl hleaf

section Added

variable {i n : ℕ} {spre spost : List ℕ}

theorem map_slotNum_added (h : Represents t alloc slots chains) (hadd : t.SlotAdded t' n)
    (hi : i < t.size) {ss : List ℕ} (hss : ∀ s ∈ ss, s ∈ slots i) :
    ss.map t'.slotNum = ss.map t.slotNum :=
  List.map_congr_left fun s hs =>
    hadd.nums s (h.slot_ne_zero hi (hss s hs)) (h.handedOut i hi s (hss s hs)).ne

theorem chainNums_added_ne (h : Represents t alloc slots chains) (hadd : t.SlotAdded t' n) {j : ℕ}
    (hj : j < t.size) (hji : j ≠ i) (ss : List ℕ) :
    t'.chainNums j (Function.update slots i ss j) = t.chainNums j (slots j) := by
  rw [Function.update_of_ne hji, LeafTable.chainNums, hadd.entryNum,
    h.map_slotNum_added hadd hj fun _ hs => hs, LeafTable.chainNums]

theorem chainNums_added_self (h : Represents t alloc slots chains) (hadd : t.SlotAdded t' n)
    (hi : i < t.size) (hslots : slots i = spre ++ spost) :
    t'.chainNums i (spre ++ t.available :: spost) =
      (t.entryNum i :: spre.map t.slotNum) ++ n :: spost.map t.slotNum := by
  rw [LeafTable.chainNums, hadd.entryNum, List.map_append, List.map_cons, hadd.num,
    h.map_slotNum_added hadd hi fun s hs => hslots ▸ List.mem_append_left _ hs,
    h.map_slotNum_added hadd hi fun s hs => hslots ▸ List.mem_append_right _ hs, List.cons_append]

/-- The spare leaf is linked between `spre` and `spost`. -/
theorem link (h : Represents t alloc slots chains) (hi : i < t.size)
    (hroom : t.available < kSynonymMax - 1) (hspare : Spare t alloc slots n)
    (hadd : t.SlotAdded t' n) {pre post : List (List (K × V))}
    (hslots : slots i = spre ++ spost) (hchain : chains i = pre ++ post)
    (hlen : pre.length = spre.length + 1)
    (hpath : Path t'.next 0 (t'.head i) (spre ++ t.available :: spost))
    (hother : ∀ j < t.size, j ≠ i → Path t'.next 0 (t'.head j) (slots j)) :
    Represents t' alloc (Function.update slots i (spre ++ t.available :: spost))
      (Function.update chains i (pre ++ [] :: post)) := by
  have hself := h.chainNums_added_self hadd hi hslots
  have hold : t.chainNums i (slots i) =
      (t.entryNum i :: spre.map t.slotNum) ++ spost.map t.slotNum := by
    rw [LeafTable.chainNums, hslots, List.map_append, List.cons_append]
  have hnums : ∀ j < t.size, t'.chainNums j
      (Function.update slots i (spre ++ t.available :: spost) j) =
      Function.update (fun j => t.chainNums j (slots j)) i
        ((t.entryNum i :: spre.map t.slotNum) ++ n :: spost.map t.slotNum) j := by
    intro j hj
    by_cases hji : j = i
    · subst hji
      rw [Function.update_self, Function.update_self, hself]
    · rw [h.chainNums_added_ne hadd hj hji, Function.update_of_ne hji]
  have hnot : ∀ j < t.size, t.available ∉ slots j := fun j hj hm => (h.handedOut j hj _ hm).ne rfl
  constructor
  · intro j hj
    rw [hadd.size] at hj
    by_cases hji : j = i
    · subst hji
      rwa [Function.update_self]
    · rw [Function.update_of_ne hji]
      exact hother j hj hji
  · intro j hj s hs
    rw [hadd.size] at hj
    rw [hadd.count]
    rcases mem_update_insert hslots hs with hm | ⟨rfl, _⟩
    · exact Nat.lt_succ_of_lt (h.handedOut j hj s hm)
    · exact Nat.lt_succ_self _
  · intro j hj j' hj' hjj
    rw [hadd.size] at hj hj'
    exact disjoint_update_insert hslots hjj (h.separate j hj j' hj' hjj) (hnot j hj) (hnot j' hj')
  · rw [hadd.count]
    omega
  · rw [hadd.count]
    omega
  · exact h.usedLe
  · intro j hj p hp
    rw [hadd.size] at hj
    rw [hnums j hj] at hp
    rcases mem_update_insert (f := fun j => t.chainNums j (slots j)) hold hp with hm | ⟨rfl, _⟩
    · exact h.numsUsed j hj p hm
    · exact hspare.used
  · intro j hj
    rw [hadd.size] at hj
    rw [hnums j hj]
    exact nodup_update_insert (f := fun j => t.chainNums j (slots j)) hold (h.numsNodup j hj)
      (hspare.unlinked j hj)
  · intro j hj j' hj' hjj
    rw [hadd.size] at hj hj'
    rw [hnums j hj, hnums j' hj']
    exact disjoint_update_insert (f := fun j => t.chainNums j (slots j)) hold hjj
      (h.numsSeparate j hj j' hj' hjj) (hspare.unlinked j hj) (hspare.unlinked j' hj')
  · intro j hj
    rw [hadd.size] at hj
    have hf := h.holds j hj
    by_cases hji : j = i
    · subst hji
      rw [hold, hchain, forall₂_append (by simp [hlen])] at hf
      rw [Function.update_self, hself, Function.update_self, forall₂_append (by simp [hlen]),
        List.forall₂_cons]
      exact ⟨hf.1, hspare.blank, hf.2⟩
    · rw [h.chainNums_added_ne hadd hj hji, Function.update_of_ne hji]
      exact hf
  · exact h.blank

end Added

theorem unlink (h : Represents t alloc slots chains) {i s : ℕ} (hi : i < t.size)
    (hsize : t'.size = t.size) (hnum : t'.entryNum = t.entryNum) (hsnum : t'.slotNum = t.slotNum)
    {spre spost : List ℕ} {pre post : List (List (K × V))} {b : List (K × V)}
    (hslots : slots i = spre ++ s :: spost) (hchain : chains i = pre ++ b :: post)
    (hlen : pre.length = spre.length + 1) (hpath : Path t'.next 0 (t'.head i) (spre ++ spost))
    (hother : ∀ j < t.size, j ≠ i → Path t'.next 0 (t'.head j) (slots j)) :
    Represents t' alloc (Function.update slots i (spre ++ spost))
      (Function.update chains i (pre ++ post)) := by
  have hav : t'.available = t.available := by
    rw [LeafTable.available_eq, hsnum, LeafTable.available_eq]
  have hsub : ∀ j, (Function.update slots i (spre ++ spost) j).Sublist (slots j) := by
    intro j
    by_cases hji : j = i
    · subst hji
      rw [Function.update_self, hslots]
      exact (List.sublist_cons_self s spost).append_left spre
    · rw [Function.update_of_ne hji]
  have hnums : ∀ j, (t'.chainNums j (Function.update slots i (spre ++ spost) j)).Sublist
      (t.chainNums j (slots j)) := by
    intro j
    rw [LeafTable.chainNums, LeafTable.chainNums, hnum, hsnum]
    exact ((hsub j).map _).cons_cons _
  constructor
  · intro j hj
    rw [hsize] at hj
    by_cases hji : j = i
    · subst hji
      rwa [Function.update_self]
    · rw [Function.update_of_ne hji]
      exact hother j hj hji
  · intro j hj x hx
    rw [hav]
    exact h.handedOut j (hsize ▸ hj) x ((hsub j).subset hx)
  · intro j hj j' hj' hjj x hx hx'
    exact h.separate j (hsize ▸ hj) j' (hsize ▸ hj') hjj ((hsub j).subset hx) ((hsub j').subset hx')
  · exact hav ▸ h.countPos
  · exact hav ▸ h.countLe
  · exact h.usedLe
  · intro j hj p hp
    exact h.numsUsed j (hsize ▸ hj) p ((hnums j).subset hp)
  · intro j hj
    exact (h.numsNodup j (hsize ▸ hj)).sublist (hnums j)
  · intro j hj j' hj' hjj p hp hp'
    exact h.numsSeparate j (hsize ▸ hj) j' (hsize ▸ hj') hjj ((hnums j).subset hp)
      ((hnums j').subset hp')
  · intro j hj
    have hf := h.holds j (hsize ▸ hj)
    by_cases hji : j = i
    · subst hji
      rw [LeafTable.chainNums, hslots, hchain, List.map_append, List.map_cons, ← List.cons_append,
        forall₂_append (by simp [hlen]), List.forall₂_cons] at hf
      rw [Function.update_self, Function.update_self, LeafTable.chainNums, hnum, hsnum,
        List.map_append, ← List.cons_append, forall₂_append (by simp [hlen])]
      exact ⟨hf.1, hf.2.2⟩
    · rw [Function.update_of_ne hji, Function.update_of_ne hji, LeafTable.chainNums, hnum, hsnum]
      exact hf
  · exact h.blank

end Represents

theorem Focus.emplace {t : LeafTable} {alloc : LeafAllocator K V N} {slots : ℕ → List ℕ}
    {chains : ℕ → List (List (K × V))} {i : ℕ} {k : K} {pre post : List (List (K × V))}
    {b : List (K × V)} {npre npost : List ℕ} {p : ℕ}
    (f : Focus t alloc slots chains i k pre b post npre p npost)
    (h : Represents t alloc slots chains) (hi : i < t.size) (hroom : t.available < kSynonymMax - 1)
    {n : ℕ} (hspare : Spare t alloc slots n) :
    ∃ t' slots', t.emplaceBehind i ((if pre = [] then none else some (pre.length - 1, p)).map
        fun q : ℕ × ℕ => (slots i).getD q.1 0) n = .ok (t.available, t') ∧
      t.SlotAdded t' n ∧
      Represents t' alloc slots' (Function.update chains i (pre ++ b :: [] :: post)) ∧
      t'.chainNums i (slots' i) = npre ++ p :: n :: npost ∧
      ∀ j < t.size, j ≠ i → slots' j = slots j ∧
        t'.chainNums j (slots' j) = t.chainNums j (slots j) := by
  have hn : n < 2 ^ 48 := (hspare.used.trans_le h.usedLe).trans_le alloc.addressable
  have hpos : t.available ≠ 0 := by have := h.countPos; omega
  have hav : ∀ j < t.size, ∀ s ∈ slots j, s ≠ t.available := fun j hj s hs =>
    (h.handedOut j hj s hs).ne
  have hrest : ∀ (t' : LeafTable) (ss : List ℕ), t.SlotAdded t' n → ∀ j < t.size, j ≠ i →
      Function.update slots i ss j = slots j ∧
        t'.chainNums j (Function.update slots i ss j) = t.chainNums j (slots j) :=
    fun t' ss hadd j hj hji =>
      ⟨Function.update_of_ne hji .., h.chainNums_added_ne hadd hj hji ss⟩
  cases pre with
  | nil =>
    obtain ⟨hnpre, hnum, hnpost⟩ := f.first
    obtain ⟨t', hok, hadd, hhead, hheads, hnew, hnext⟩ :=
      LeafTable.synonymEmplaceBack_entry h.countPos hroom hn hi
    have hpath : Path t'.next 0 (t'.head i) (t.available :: slots i) := by
      rw [hhead]
      exact (h.path i hi).push hpos (fun s hs => (hnext s (hav i hi s hs)).symm) hnew
    have hother : ∀ j < t.size, j ≠ i → Path t'.next 0 (t'.head j) (slots j) := fun j hj hji => by
      rw [hheads j hji]
      exact (h.path j hj).congr fun s hs => (hnext s (hav j hj s hs)).symm
    refine ⟨t', Function.update slots i (t.available :: slots i), hok, hadd, ?_, ?_,
      hrest t' _ hadd⟩
    · have hslots : slots i = [] ++ slots i := rfl
      have hchain : chains i = [b] ++ post := f.located.eq
      exact h.link hi hroom hspare hadd hslots hchain rfl hpath hother
    · have hself := h.chainNums_added_self hadd hi (List.nil_append (slots i)).symm
      rw [Function.update_self]
      refine hself.trans ?_
      rw [hnpre, hnum, hnpost]
      rfl
  | cons x pre =>
    obtain ⟨spre, s, spost, hs, hlen, hnpre, hp, hnpost⟩ := f.later
    have hmem : s ∈ slots i := by rw [hs]; simp
    have hget : (slots i).getD pre.length 0 = s := by
      rw [hs, ← hlen]
      simp
    obtain ⟨t', hok, hadd, hhead, hself, hnew, hnext⟩ :=
      LeafTable.synonymEmplaceBack_slot hroom hn (h.slot_ne_zero hi hmem) (h.handedOut i hi s hmem)
    have hpath : Path t'.next 0 (t'.head i) ((spre ++ [s]) ++ t.available :: spost) := by
      have hp := h.path i hi
      have ha := hav i hi
      rw [hs] at hp ha
      rw [hhead, List.append_assoc]
      exact hp.link hpos (fun y hy hys => (hnext y (ha y hy) hys).symm) hself hnew
    have hother : ∀ j < t.size, j ≠ i → Path t'.next 0 (t'.head j) (slots j) := fun j hj hji => by
      rw [hhead]
      refine (h.path j hj).congr fun y hy => (hnext y (hav j hj y hy) ?_).symm
      rintro rfl
      exact h.separate j hj i hi hji hy hmem
    refine ⟨t', Function.update slots i ((spre ++ [s]) ++ t.available :: spost), ?_, hadd, ?_, ?_,
      hrest t' _ hadd⟩
    · simp only [List.cons_ne_nil, if_false, Option.map_some, List.length_cons, Nat.add_sub_cancel,
        hget]
      exact hok
    · have heq := f.located.eq
      rw [show (x :: pre) ++ b :: post = ((x :: pre) ++ [b]) ++ post by simp] at heq
      have hslots : slots i = (spre ++ [s]) ++ spost := by simp [hs]
      have hlink := h.link hi hroom hspare hadd hslots heq (by simp [hlen]) hpath hother
      rwa [show ((x :: pre) ++ [b]) ++ [] :: post = (x :: pre) ++ b :: [] :: post by simp] at hlink
    · have hslots : slots i = (spre ++ [s]) ++ spost := by simp [hs]
      rw [Function.update_self, h.chainNums_added_self hadd hi hslots, hnpre, ← hp, ← hnpost]
      simp

/-! ### Splitting a leaf -/

/-- The leaf `cur` of a chain has room for `k`, and with `k` in it the chain is
`insert N k v bs`. -/
def Takes (N : ℕ) (nums : List ℕ) (chain bs : List (List (K × V))) (k : K) (v : V)
    (cur : ℕ) : Prop :=
  ∃ pre b post npre npost, chain = pre ++ b :: post ∧ nums = npre ++ cur :: npost ∧
    npre.length = pre.length ∧ b.lookup k = none ∧ b.length < N ∧
    BlockChain.insert N k v bs = pre ++ put k v b :: post

namespace Represents

variable {t : LeafTable} {alloc : LeafAllocator K V N} {slots : ℕ → List ℕ}
  {chains : ℕ → List (List (K × V))} {i : ℕ}

theorem holds_mid (h : Represents t alloc slots chains) (hi : i < t.size) {npre npost : List ℕ}
    {pre post : List (List (K × V))} {b : List (K × V)} {p : ℕ}
    (hnums : t.chainNums i (slots i) = npre ++ p :: npost) (hchain : chains i = pre ++ b :: post)
    (hlen : npre.length = pre.length) : (alloc.leaves p).Holds b := by
  have hf := h.holds i hi
  rw [hnums, hchain, forall₂_append hlen, List.forall₂_cons] at hf
  exact hf.2.1

theorem place (h : Represents t alloc slots chains) (hi : i < t.size) {bs : List (List (K × V))}
    {k : K} (hk : k < ⊤) {v : V} {cur : ℕ}
    (ht : Takes N (t.chainNums i (slots i)) (chains i) bs k v cur) :
    Represents t (alloc.write cur ((alloc.leaves cur).insertNotFull k v).2) slots
      (Function.update chains i (BlockChain.insert N k v bs)) := by
  obtain ⟨pre, b, post, npre, npost, hchain, hnums, hlen, hb, hroom, hbs⟩ := ht
  have hleaf := h.holds_mid hi hnums hchain hlen
  rw [hbs]
  exact h.write hi hnums hchain hlen (Leaf.insertNotFull_holds hleaf hk hb hroom v)

theorem halve (h : Represents t alloc slots chains) (hi : i < t.size) {npre npost : List ℕ}
    {pre post : List (List (K × V))} {b : List (K × V)} {p n : ℕ}
    (hnums : t.chainNums i (slots i) = npre ++ p :: n :: npost)
    (hchain : chains i = pre ++ b :: [] :: post) (hlen : npre.length = pre.length) (hN : Even N)
    (hfull : b.length = N) :
    Represents t ((alloc.write p (Leaf.moveHalf (alloc.leaves p) (alloc.leaves n)).1).write n
        (Leaf.moveHalf (alloc.leaves p) (alloc.leaves n)).2) slots
      (Function.update chains i (pre ++ b.take (N / 2) :: b.drop (N / 2) :: post)) := by
  have hnums' : t.chainNums i (slots i) = (npre ++ [p]) ++ n :: npost := by rw [hnums]; simp
  have hchain' : chains i = (pre ++ [b]) ++ [] :: post := by rw [hchain]; simp
  have hlen' : (npre ++ [p]).length = (pre ++ [b]).length := by simp [hlen]
  obtain ⟨hlow, hup⟩ := Leaf.moveHalf_holds (h.holds_mid hi hnums hchain hlen)
    (h.holds_mid hi hnums' hchain' hlen') hN hfull
  have h₁ := h.write hi hnums hchain hlen hlow
  have hchain₁ : Function.update chains i (pre ++ b.take (N / 2) :: [] :: post) i =
      (pre ++ [b.take (N / 2)]) ++ [] :: post := by rw [Function.update_self]; simp
  have h₂ := h₁.write hi hnums' hchain₁ (by simp [hlen]) hup
  rw [Function.update_idem] at h₂
  simpa using h₂

end Represents

omit [OrderTop K] in
theorem takes_of_room {bs pre post : List (List (K × V))} {b : List (K × V)} {k : K}
    (hloc : Located k bs pre b post) {nums npre npost : List ℕ} {p : ℕ}
    (hnums : nums = npre ++ p :: npost) (hlen : npre.length = pre.length) (hb : b.lookup k = none)
    (hroom : b.length < N) (v : V) : Takes N nums bs bs k v p := by
  refine ⟨pre, b, post, npre, npost, hloc.eq, hnums, hlen, hb, hroom, ?_⟩
  rw [BlockChain.insert, hloc.edit_eq, grow, if_pos hroom]
  simp

omit [OrderTop K] in
theorem takes_of_split {bs pre post : List (List (K × V))} {b : List (K × V)} {k : K}
    (hloc : Located k bs pre b post) {nums npre npost : List ℕ} {p n : ℕ}
    (hnums : nums = npre ++ p :: n :: npost) (hlen : npre.length = pre.length)
    (hb : b.lookup k = none) (hN : Even N) (hN0 : 0 < N) (hfull : b.length = N) (v : V) :
    Takes N nums (pre ++ b.take (N / 2) :: b.drop (N / 2) :: post) bs k v
      (if opens k (b.drop (N / 2)) then n else p) := by
  rw [lookup_eq_none] at hb
  have hlow : (b.take (N / 2)).lookup k = none :=
    lookup_eq_none.mpr fun e he => hb e (List.mem_of_mem_take he)
  have hup : (b.drop (N / 2)).lookup k = none :=
    lookup_eq_none.mpr fun e he => hb e (List.mem_of_mem_drop he)
  have hN2 : 0 < N / 2 ∧ N / 2 < N := by
    obtain ⟨m, rfl⟩ := hN
    omega
  have hbs : BlockChain.insert N k v bs = pre ++ grow N k v b ++ post := hloc.edit_eq _
  rw [grow, if_neg (by omega)] at hbs
  split
  · rename_i hopen
    rw [if_pos hopen] at hbs
    refine ⟨pre ++ [b.take (N / 2)], b.drop (N / 2), post, npre ++ [p], npost, by simp,
      by simp [hnums], by simp [hlen], hup, by rw [List.length_drop]; omega, by simp [hbs]⟩
  · rename_i hopen
    rw [if_neg hopen] at hbs
    refine ⟨pre, b.take (N / 2), b.drop (N / 2) :: post, npre, n :: npost, rfl, hnums, hlen, hlow,
      by rw [List.length_take]; omega, by simp [hbs]⟩

theorem Focus.unlink {t : LeafTable} {alloc : LeafAllocator K V N} {slots : ℕ → List ℕ}
    {chains : ℕ → List (List (K × V))} {i : ℕ} {k : K} {x : List (K × V)}
    {pre post : List (List (K × V))} {b : List (K × V)} {npre npost : List ℕ} {p : ℕ}
    (f : Focus t alloc slots chains i k (x :: pre) b post npre p npost)
    (h : Represents t alloc slots chains) (hi : i < t.size) :
    ∃ t' slots', t.synonymTableRemove (slots i) i pre.length = .ok t' ∧ t'.size = t.size ∧
      t'.lockBit = t.lockBit ∧ t'.csLocks = t.csLocks ∧ t'.available = t.available ∧
      Represents t' alloc slots' (Function.update chains i ((x :: pre) ++ post)) ∧
      ∀ j < t.size, ∀ q ∈ t'.chainNums j (slots' j), q ∈ t.chainNums j (slots j) ∧ q ≠ p := by
  obtain ⟨spre, s, spost, hs, hlen, hnpre, hp, hnpost⟩ := f.later
  have hmem : s ∈ slots i := by rw [hs]; simp
  have hpath := h.path i hi
  have hpre : (x :: pre).length = spre.length + 1 := by simp [hlen]
  -- either way the chain of slots is `spre ++ spost`, and the other chains are as before
  have finish : ∀ t' : LeafTable, t'.size = t.size → t'.entryNum = t.entryNum →
      t'.slotNum = t.slotNum → Path t'.next 0 (t'.head i) (spre ++ spost) →
      (∀ j < t.size, j ≠ i → Path t'.next 0 (t'.head j) (slots j)) →
      t'.available = t.available ∧ Represents t' alloc (Function.update slots i (spre ++ spost))
        (Function.update chains i ((x :: pre) ++ post)) ∧
      ∀ j < t.size, ∀ q ∈ t'.chainNums j (Function.update slots i (spre ++ spost) j),
        q ∈ t.chainNums j (slots j) ∧ q ≠ p := by
    intro t' hsize hnum hsnum hself hother
    refine ⟨by rw [LeafTable.available_eq, hsnum, LeafTable.available_eq],
      h.unlink hi hsize hnum hsnum hs f.located.eq hpre hself hother, fun j hj q hq => ?_⟩
    rw [LeafTable.chainNums, hnum, hsnum] at hq
    by_cases hji : j = i
    · subst hji
      have hnd := h.numsNodup j hj
      rw [f.nums, List.nodup_middle, List.nodup_cons] at hnd
      rw [Function.update_self, List.map_append, hnpost, ← List.cons_append, ← hnpre] at hq
      rw [f.nums]
      refine ⟨?_, fun hqp => hnd.1 (hqp ▸ hq)⟩
      simp only [List.mem_append, List.mem_cons] at hq ⊢
      tauto
    · rw [Function.update_of_ne hji] at hq
      refine ⟨hq, ?_⟩
      rintro rfl
      exact h.numsSeparate j hj i hi hji hq f.mem_nums
  rcases List.eq_nil_or_concat spre with rfl | ⟨spre', s', rfl⟩
  · rw [hs, List.nil_append] at hpath
    obtain ⟨t', hok, hsize, hnum, hlock, hcs, hsnum, hnext, hhead, hheads⟩ :=
      t.synonymTableRemove_zero spost hi (h.slot_lt hi hmem)
    refine ⟨t', _, ?_, hsize, hlock, hcs, finish t' hsize hnum hsnum ?_ fun j hj hji => ?_⟩
    · rw [hs, ← hlen]
      exact hok
    · rw [hhead, hnext]
      exact hpath.pop
    · rw [hheads j hji, hnext]
      exact h.path j hj
  · have hs' : slots i = spre' ++ s' :: s :: spost := by simpa using hs
    have hmem' : s' ∈ slots i := by rw [hs']; simp
    obtain ⟨t', hok, hsize, hnum, hlock, hcs, hsnum, hhead, hself, hnext⟩ :=
      t.synonymTableRemove_succ i spre' spost (h.slot_lt hi hmem')
        (h.slot_lt hi hmem)
    refine ⟨t', _, ?_, hsize, hlock, hcs, finish t' hsize hnum hsnum ?_ fun j hj hji => ?_⟩
    · rw [hs', ← hlen, List.concat_eq_append, List.length_append]
      exact hok
    · rw [hs'] at hpath
      rw [hhead, List.concat_eq_append, List.append_assoc]
      exact hpath.unlink (fun y _ hy => (hnext y hy).symm) hself
    · rw [hhead]
      refine (h.path j hj).congr fun y hy => (hnext y ?_).symm
      rintro rfl
      exact h.separate j hj i hi hji hy hmem'

end Rolex
