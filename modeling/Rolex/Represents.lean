import Rolex.Foundations.BlockChain
import Rolex.Foundations.LinkedSlots
import Rolex.LeafTable

/-! What a leaf table stores: behind every table entry a chain of leaves, the
leaf of the entry first and then the synonym leaves in walking order.
`Represents` ties the words of the table and the leaves of the pool to chains
of blocks; `BlockChain.Ordered` is the order of the keys in one chain. -/

namespace Rolex
open AscendingMap BlockChain LinkedSlots

/-! ### Assignments to one bit-field -/

namespace TableEntry

def withLock (b : Fin 2) (te : TableEntry) : TableEntry := { te with lock := b }

def withNext (s : ℕ) (te : TableEntry) : TableEntry := { te with synonymLeaf := Fin.ofNat _ s }

def withNum (n : ℕ) (te : TableEntry) : TableEntry := { te with leafNum := Fin.ofNat _ n }

theorem val_withNext {s : ℕ} (h : s < kSynonymMax) (te : TableEntry) :
    (te.withNext s).synonymLeaf.val = s := Nat.mod_eq_of_lt (h.trans (by norm_num))

theorem val_withNum {n : ℕ} (h : n < 2 ^ 48) (te : TableEntry) :
    (te.withNum n).leafNum.val = n := Nat.mod_eq_of_lt h

end TableEntry

namespace LeafTable

/-! ### Fields by position -/

abbrev size (t : LeafTable) : ℕ := t.table.length

def head (t : LeafTable) (i : ℕ) : ℕ := (t.table[i]?.map fun te => te.synonymLeaf.val).getD 0

def entryNum (t : LeafTable) (i : ℕ) : ℕ := (t.table[i]?.map fun te => te.leafNum.val).getD 0

def lockBit (t : LeafTable) (i : ℕ) : Fin 2 := (t.table[i]?.map TableEntry.lock).getD 0

def next (t : LeafTable) (s : ℕ) : ℕ :=
  if h : s < kSynonymMax then (t.synonymTable ⟨s, h⟩).synonymLeaf else 0

def slotNum (t : LeafTable) (s : ℕ) : ℕ :=
  if h : s < kSynonymMax then (t.synonymTable ⟨s, h⟩).leafNum else 0

def chainNums (t : LeafTable) (i : ℕ) (slots : List ℕ) : List ℕ :=
  t.entryNum i :: slots.map t.slotNum

theorem available_eq (t : LeafTable) : t.available = t.slotNum 0 := rfl

@[simp] theorem entry_eq (t : LeafTable) {i : ℕ} (h : i < t.size) :
    t.entry i = .ok t.table[i] := by
  rw [entry, List.getElem?_eq_getElem h]

theorem head_eq (t : LeafTable) {i : ℕ} (h : i < t.size) : t.head i = t.table[i].synonymLeaf := by
  rw [head, List.getElem?_eq_getElem h]
  rfl

theorem entryNum_eq (t : LeafTable) {i : ℕ} (h : i < t.size) :
    t.entryNum i = t.table[i].leafNum := by
  rw [entryNum, List.getElem?_eq_getElem h]
  rfl

theorem lockBit_eq (t : LeafTable) {i : ℕ} (h : i < t.size) : t.lockBit i = t.table[i].lock := by
  rw [lockBit, List.getElem?_eq_getElem h]
  rfl

theorem slot_eq (t : LeafTable) {s : ℕ} (h : s < kSynonymMax) :
    t.slot s = .ok (t.synonymTable ⟨s, h⟩) := dif_pos h

theorem next_eq (t : LeafTable) {s : ℕ} (h : s < kSynonymMax) :
    t.next s = (t.synonymTable ⟨s, h⟩).synonymLeaf := dif_pos h

theorem slotNum_eq (t : LeafTable) {s : ℕ} (h : s < kSynonymMax) :
    t.slotNum s = (t.synonymTable ⟨s, h⟩).leafNum := dif_pos h

/-! ### The elementary writes -/

section Writes

variable (t : LeafTable) (i : ℕ) (f : TableEntry → TableEntry)

@[simp] theorem modifyEntry_size : (t.modifyEntry i f).size = t.size := List.length_modify ..

@[simp] theorem modifyEntry_csLocks : (t.modifyEntry i f).csLocks = t.csLocks := rfl

@[simp] theorem modifyEntry_next : (t.modifyEntry i f).next = t.next := rfl

@[simp] theorem modifyEntry_slotNum : (t.modifyEntry i f).slotNum = t.slotNum := rfl

@[simp] theorem modifyEntry_slot : (t.modifyEntry i f).slot = t.slot := rfl

@[simp] theorem modifyEntry_available : (t.modifyEntry i f).available = t.available := rfl

@[simp] theorem modifySlot_size : (t.modifySlot i f).size = t.size := rfl

@[simp] theorem modifySlot_csLocks : (t.modifySlot i f).csLocks = t.csLocks := rfl

@[simp] theorem modifySlot_head : (t.modifySlot i f).head = t.head := rfl

@[simp] theorem modifySlot_entryNum : (t.modifySlot i f).entryNum = t.entryNum := rfl

@[simp] theorem modifySlot_lockBit : (t.modifySlot i f).lockBit = t.lockBit := rfl

@[simp] theorem modifySlot_entry : (t.modifySlot i f).entry = t.entry := rfl

theorem modifyEntry_getElem? (j : ℕ) :
    (t.modifyEntry i f).table[j]? = if i = j then t.table[j]?.map f else t.table[j]? := by
  rw [modifyEntry, List.getElem?_modify]
  split
  · rfl
  · simp

theorem modifyEntry_head_ne {j : ℕ} (h : j ≠ i) : (t.modifyEntry i f).head j = t.head j := by
  rw [head, modifyEntry_getElem?, if_neg h.symm, head]

theorem modifyEntry_head_self {i : ℕ} (h : i < t.size) :
    (t.modifyEntry i f).head i = (f t.table[i]).synonymLeaf := by
  rw [head, modifyEntry_getElem?, if_pos rfl, List.getElem?_eq_getElem h]
  rfl

@[simp] theorem modifyEntry_withNext_entryNum (s : ℕ) :
    (t.modifyEntry i (TableEntry.withNext s)).entryNum = t.entryNum := by
  funext j
  rw [entryNum, modifyEntry_getElem?, entryNum]
  split
  · cases t.table[j]? <;> rfl
  · rfl

@[simp] theorem modifyEntry_withNext_lockBit (s : ℕ) :
    (t.modifyEntry i (TableEntry.withNext s)).lockBit = t.lockBit := by
  funext j
  rw [lockBit, modifyEntry_getElem?, lockBit]
  split
  · cases t.table[j]? <;> rfl
  · rfl

@[simp] theorem modifyEntry_withLock_entryNum (b : Fin 2) :
    (t.modifyEntry i (TableEntry.withLock b)).entryNum = t.entryNum := by
  funext j
  rw [entryNum, modifyEntry_getElem?, entryNum]
  split
  · cases t.table[j]? <;> rfl
  · rfl

@[simp] theorem modifyEntry_withLock_head (b : Fin 2) :
    (t.modifyEntry i (TableEntry.withLock b)).head = t.head := by
  funext j
  rw [head, modifyEntry_getElem?, head]
  split
  · cases t.table[j]? <;> rfl
  · rfl

theorem modifySlot_next_ne {s : ℕ} (h : s ≠ i) : (t.modifySlot i f).next s = t.next s := by
  simp [next, modifySlot, h]

theorem modifySlot_next_self (h : i < kSynonymMax) :
    (t.modifySlot i f).next i = (f (t.synonymTable ⟨i, h⟩)).synonymLeaf := by
  simp [next, modifySlot, h]

@[simp] theorem modifySlot_withNum_next (n : ℕ) :
    (t.modifySlot i (TableEntry.withNum n)).next = t.next := by
  funext s
  simp only [next, modifySlot]
  split_ifs <;> rfl

theorem modifySlot_slotNum_ne {s : ℕ} (h : s ≠ i) :
    (t.modifySlot i f).slotNum s = t.slotNum s := by
  simp [slotNum, modifySlot, h]

theorem modifySlot_slotNum_self (h : i < kSynonymMax) :
    (t.modifySlot i f).slotNum i = (f (t.synonymTable ⟨i, h⟩)).leafNum := by
  simp [slotNum, modifySlot, h]

@[simp] theorem modifySlot_withNext_slotNum (n : ℕ) :
    (t.modifySlot i (TableEntry.withNext n)).slotNum = t.slotNum := by
  funext s
  simp only [slotNum, modifySlot]
  split_ifs <;> rfl

end Writes

/-! ### The walk -/

theorem walk_ok (t : LeafTable) {fuel a : ℕ} {l : List ℕ} (h : Path t.next 0 a l)
    (hl : ∀ s ∈ l, s < kSynonymMax) (hf : l.length ≤ fuel) : t.walk fuel a = .ok l := by
  induction l generalizing fuel a with
  | nil =>
    have ha : a = 0 := h.segment
    cases fuel <;> simp [walk, ha]
  | cons s l ih =>
    obtain ⟨fuel, rfl⟩ : ∃ m, fuel = m + 1 := by
      cases fuel with
      | zero => simp at hf
      | succ fuel => exact ⟨fuel, rfl⟩
    have ha : a = s := h.segment.1
    have hs := hl s List.mem_cons_self
    have hne : s ≠ 0 := fun h0 => h.inner (h0 ▸ List.mem_cons_self)
    have hrest : t.walk fuel (t.next s) = .ok l :=
      ih h.pop (fun x hx => hl x (List.mem_cons_of_mem _ hx)) (Nat.le_of_succ_le_succ hf)
    rw [t.next_eq hs] at hrest
    rw [walk, ha, if_neg hne, t.slot_eq hs, ok_bind, hrest, ok_bind]

theorem path_of_walk (t : LeafTable) {fuel a : ℕ} {l : List ℕ} (h : t.walk fuel a = .ok l) :
    Path t.next 0 a l ∧ ∀ s ∈ l, s < kSynonymMax := by
  induction fuel generalizing a l with
  | zero =>
    rw [walk] at h
    split at h
    · rename_i ha
      obtain rfl := Except.ok.inj h
      exact ⟨⟨ha, by simp⟩, by simp⟩
    · simp at h
  | succ fuel ih =>
    rw [walk] at h
    split at h
    · rename_i ha
      obtain rfl := Except.ok.inj h
      exact ⟨⟨ha, by simp⟩, by simp⟩
    · rename_i ha
      by_cases hs : a < kSynonymMax
      · rw [t.slot_eq hs, ok_bind] at h
        cases hr : t.walk fuel (t.synonymTable ⟨a, hs⟩).synonymLeaf with
        | error e => simp [hr] at h
        | ok rest =>
          rw [hr, ok_bind] at h
          obtain rfl := Except.ok.inj h
          obtain ⟨⟨hseg, hin⟩, hb⟩ := ih hr
          refine ⟨⟨⟨rfl, by rwa [t.next_eq hs]⟩, ?_⟩, ?_⟩
          · simpa [eq_comm] using ⟨ha, hin⟩
          · simpa using ⟨hs, hb⟩
      · simp [slot, hs] at h

theorem length_lt_of_path {next : ℕ → ℕ} {a m : ℕ} {l : List ℕ} (h : Path next 0 a l)
    (hl : ∀ s ∈ l, s < m) (hm : 0 < m) : l.length < m := by
  have hsub : (0 :: l) ⊆ List.range m := by
    intro s hs
    rcases List.mem_cons.mp hs with rfl | hs
    · exact List.mem_range.mpr hm
    · exact List.mem_range.mpr (hl s hs)
  have hnd : (0 :: l).Nodup := List.nodup_cons.mpr ⟨h.inner, h.nodup⟩
  have hle := (hnd.subperm hsub).length_le
  simp only [List.length_cons, List.length_range] at hle
  omega

theorem walk_of_walk (t : LeafTable) {fuel a : ℕ} {l : List ℕ} (h : t.walk fuel a = .ok l) :
    t.walk kSynonymMax a = .ok l := by
  obtain ⟨hp, hl⟩ := t.path_of_walk h
  exact t.walk_ok hp hl (length_lt_of_path hp hl (by norm_num)).le

end LeafTable

/-! ### The chains of a table -/

variable {K V : Type} {N : ℕ} [LinearOrder K] [OrderTop K]

/-- The table `t` over the pool of `alloc` stores the chains `chains i` of blocks; the
synonym leaves behind entry `i` stand in the slots `slots i`. -/
structure Represents (t : LeafTable) (alloc : LeafAllocator K V N) (slots : ℕ → List ℕ)
    (chains : ℕ → List (List (K × V))) : Prop where
  path : ∀ i < t.size, Path t.next 0 (t.head i) (slots i)
  handedOut : ∀ i < t.size, ∀ s ∈ slots i, s < t.available
  separate : ∀ i < t.size, ∀ j < t.size, i ≠ j → (slots i).Disjoint (slots j)
  countPos : 1 ≤ t.available
  countLe : t.available ≤ kSynonymMax - 1
  usedLe : alloc.used ≤ alloc.allocated
  numsUsed : ∀ i < t.size, ∀ p ∈ t.chainNums i (slots i), p < alloc.used
  numsNodup : ∀ i < t.size, (t.chainNums i (slots i)).Nodup
  numsSeparate : ∀ i < t.size, ∀ j < t.size, i ≠ j →
    (t.chainNums i (slots i)).Disjoint (t.chainNums j (slots j))
  holds : ∀ i < t.size,
    List.Forall₂ (fun p es => (alloc.leaves p).Holds es) (t.chainNums i (slots i)) (chains i)
  blank : ∀ p, alloc.used ≤ p → p < alloc.allocated → (alloc.leaves p).Holds []

namespace Represents

variable {t : LeafTable} {alloc : LeafAllocator K V N} {slots : ℕ → List ℕ}
  {chains : ℕ → List (List (K × V))}

theorem slot_lt (h : Represents t alloc slots chains) {i s : ℕ} (hi : i < t.size)
    (hs : s ∈ slots i) : s < kSynonymMax := by
  have h1 := h.handedOut i hi s hs
  have h2 := h.countLe
  omega

theorem slot_ne_zero (h : Represents t alloc slots chains) {i s : ℕ} (hi : i < t.size)
    (hs : s ∈ slots i) : s ≠ 0 := fun h0 => (h.path i hi).inner (h0 ▸ hs)

theorem chain_ne_nil (h : Represents t alloc slots chains) {i : ℕ} (hi : i < t.size) :
    chains i ≠ [] := by
  intro hnil
  have hf := h.holds i hi
  rw [hnil] at hf
  cases hf

theorem length_chain (h : Represents t alloc slots chains) {i : ℕ} (hi : i < t.size) :
    (chains i).length = (slots i).length + 1 := by
  rw [← (h.holds i hi).length_eq, LeafTable.chainNums, List.length_cons, List.length_map]

theorem synonymLeaves_ok (h : Represents t alloc slots chains) {i : ℕ} (hi : i < t.size) :
    t.synonymLeaves i = .ok (slots i) := by
  have hlt := fun s hs => h.slot_lt (s := s) hi hs
  rw [LeafTable.synonymLeaves, t.entry_eq hi, ok_bind, ← t.head_eq hi]
  exact t.walk_ok (h.path i hi) hlt (LeafTable.length_lt_of_path (h.path i hi) hlt (by norm_num)).le

theorem entryLeaf_ok (h : Represents t alloc slots chains) {i : ℕ} (hi : i < t.size) :
    t.entryLeaf alloc i = .ok (t.entryNum i) := by
  rw [LeafTable.entryLeaf, t.entry_eq hi, ok_bind, ← t.entryNum_eq hi]
  exact LeafAllocator.getLeaf_ok (h.numsUsed i hi _ List.mem_cons_self) h.usedLe

theorem slotLeaf_ok (h : Represents t alloc slots chains) {i s : ℕ} (hi : i < t.size)
    (hs : s ∈ slots i) : t.slotLeaf alloc s = .ok (t.slotNum s) := by
  rw [LeafTable.slotLeaf, t.slot_eq (h.slot_lt hi hs), ok_bind, ← t.slotNum_eq (h.slot_lt hi hs)]
  exact LeafAllocator.getLeaf_ok
    (h.numsUsed i hi _ (List.mem_cons_of_mem _ (List.mem_map_of_mem hs))) h.usedLe

theorem holds_slot (h : Represents t alloc slots chains) {i m : ℕ} (hi : i < t.size)
    (hm : m < (slots i).length) :
    (slots i).getD m 0 ∈ slots i ∧
      (alloc.leaves (t.slotNum ((slots i).getD m 0))).Holds ((chains i).getD (m + 1) []) := by
  have hlen := h.length_chain hi
  have h1 : m + 1 < (t.chainNums i (slots i)).length := by
    rw [LeafTable.chainNums, List.length_cons, List.length_map]
    omega
  have h2 : m + 1 < (chains i).length := by omega
  have hleaf := (h.holds i hi).get h1 h2
  rw [List.getD_eq_getElem _ _ hm, List.getD_eq_getElem _ _ h2]
  exact ⟨List.getElem_mem hm, by simpa [LeafTable.chainNums] using hleaf⟩

theorem holds_entry (h : Represents t alloc slots chains) {i : ℕ} (hi : i < t.size) :
    (alloc.leaves (t.entryNum i)).Holds ((chains i).headD []) := by
  have hf := h.holds i hi
  obtain ⟨b, rest, hc⟩ := List.exists_cons_of_ne_nil (h.chain_ne_nil hi)
  rw [hc, LeafTable.chainNums, List.forall₂_cons] at hf
  rw [hc]
  exact hf.1

theorem insertHere_entry (h : Represents t alloc slots chains) {i : ℕ} (hi : i < t.size) {k : K}
    (hk : k < ⊤) :
    (alloc.leaves (t.entryNum i)).insertHere k = opens k ((chains i).headD []) := by
  rw [Bool.eq_iff_iff, (h.holds_entry hi).insertHere_iff hk, opens_iff]

/-- The loop over the synonym leaves stops where `BlockChain.locate` says. -/
theorem pickSynonym_eq (h : Represents t alloc slots chains) {i : ℕ} (hi : i < t.size) {k : K}
    (hk : k < ⊤) {m : ℕ} (hm : m ≤ (slots i).length) :
    t.pickSynonym alloc k (slots i) m =
      .ok (match Nat.findGreatest (fun j => opens k ((chains i).getD j []) = true) m with
        | 0 => none
        | j + 1 => some (j, t.slotNum ((slots i).getD j 0))) := by
  induction m with
  | zero => simp [LeafTable.pickSynonym]
  | succ m ih =>
    obtain ⟨hmem, hleaf⟩ := h.holds_slot hi hm
    have hopen : (alloc.leaves (t.slotNum ((slots i).getD m 0))).insertHere k =
        opens k ((chains i).getD (m + 1) []) := by
      rw [Bool.eq_iff_iff, hleaf.insertHere_iff hk, opens_iff]
    rw [LeafTable.pickSynonym, h.slotLeaf_ok hi hmem, ok_bind, hopen, Nat.findGreatest_succ]
    split
    · rfl
    · exact ih (by omega)

end Represents

/-- The leaf `p` of entry `i` is the one that key `k` belongs to. -/
structure Focus (t : LeafTable) (alloc : LeafAllocator K V N) (slots : ℕ → List ℕ)
    (chains : ℕ → List (List (K × V))) (i : ℕ) (k : K) (pre : List (List (K × V)))
    (b : List (K × V)) (post : List (List (K × V))) (npre : List ℕ) (p : ℕ) (npost : List ℕ) :
    Prop where
  located : Located k (chains i) pre b post
  nums : t.chainNums i (slots i) = npre ++ p :: npost
  holdsPre : List.Forall₂ (fun p es => (alloc.leaves p).Holds es) npre pre
  holds : (alloc.leaves p).Holds b
  holdsPost : List.Forall₂ (fun p es => (alloc.leaves p).Holds es) npost post

theorem Represents.exists_focus {t : LeafTable} {alloc : LeafAllocator K V N} {slots : ℕ → List ℕ}
    {chains : ℕ → List (List (K × V))} (h : Represents t alloc slots chains) {i : ℕ}
    (hi : i < t.size) (k : K) :
    ∃ pre b post npre p npost, Focus t alloc slots chains i k pre b post npre p npost := by
  obtain ⟨pre, b, post, hloc⟩ := exists_located k (h.chain_ne_nil hi)
  have hf := h.holds i hi
  rw [hloc.eq] at hf
  have hnums := List.take_append_drop pre.length (t.chainNums i (slots i))
  obtain ⟨p, npost, hp, hpost, hdrop⟩ :=
    List.forall₂_cons_right_iff.mp (List.forall₂_drop_append _ _ _ hf)
  rw [hdrop] at hnums
  exact ⟨pre, b, post, _, p, npost, hloc, hnums.symm, List.forall₂_take_append _ _ _ hf, hp, hpost⟩

namespace Focus

variable {t : LeafTable} {alloc : LeafAllocator K V N} {slots : ℕ → List ℕ}
  {chains : ℕ → List (List (K × V))} {i : ℕ} {k : K} {pre post : List (List (K × V))}
  {b : List (K × V)} {npre npost : List ℕ} {p : ℕ}

theorem length_pre (f : Focus t alloc slots chains i k pre b post npre p npost) :
    npre.length = pre.length := f.holdsPre.length_eq

theorem first (f : Focus t alloc slots chains i k [] b post npre p npost) :
    npre = [] ∧ t.entryNum i = p ∧ (slots i).map t.slotNum = npost := by
  have hn : npre = [] := List.length_eq_zero_iff.mp f.length_pre
  have hnums := f.nums
  rw [hn, LeafTable.chainNums, List.nil_append, List.cons.injEq] at hnums
  exact ⟨hn, hnums⟩

theorem later {c : List (K × V)}
    (f : Focus t alloc slots chains i k (c :: pre) b post npre p npost) :
    ∃ spre s spost, slots i = spre ++ s :: spost ∧ spre.length = pre.length ∧
      npre = t.entryNum i :: spre.map t.slotNum ∧ t.slotNum s = p ∧
      spost.map t.slotNum = npost := by
  have hlen := f.length_pre
  have hnums := f.nums
  cases npre with
  | nil => simp at hlen
  | cons n npre =>
    simp only [LeafTable.chainNums, List.cons_append, List.cons.injEq, List.map_eq_append_iff,
      List.map_eq_cons_iff] at hnums
    obtain ⟨hn, spre, _, hs, hpre, s, spost, rfl, hp, hpost⟩ := hnums
    refine ⟨spre, s, spost, hs, ?_, by rw [hn, hpre], hp, hpost⟩
    simpa [← hpre] using hlen

theorem pickSynonym_ok (f : Focus t alloc slots chains i k pre b post npre p npost)
    (h : Represents t alloc slots chains) (hi : i < t.size) (hk : k < ⊤) :
    t.pickSynonym alloc k (slots i) (slots i).length =
      .ok (if pre = [] then none else some (pre.length - 1, p)) := by
  have hloc := f.located.index
  rw [locate, h.length_chain hi, Nat.add_sub_cancel] at hloc
  rw [h.pickSynonym_eq hi hk le_rfl, hloc]
  cases pre with
  | nil => rfl
  | cons c pre =>
    obtain ⟨spre, s, spost, hs, hlen, _, hp, _⟩ := f.later
    have hget : (slots i).getD pre.length 0 = s := by
      rw [hs, ← hlen]
      simp
    simp only [List.length_cons, hget, hp, List.cons_ne_nil, if_false, Nat.add_sub_cancel]

theorem pickedLeaf_eq (f : Focus t alloc slots chains i k pre b post npre p npost) :
    LeafTable.pickedLeaf (t.entryNum i) (if pre = [] then none else some (pre.length - 1, p)) =
    p := by
  split
  · rename_i hp
    subst hp
    exact f.first.2.1
  · rfl

theorem mem_nums (f : Focus t alloc slots chains i k pre b post npre p npost) :
    p ∈ t.chainNums i (slots i) := by
  rw [f.nums]
  simp

end Focus

end Rolex
