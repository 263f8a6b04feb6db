import Rolex.ChainSteps

/-! What the operations do to the chain of one table entry. Each of them is the
operation of `BlockChain` of the same name, and a call that answers `false`
leaves the memory as it was. -/

namespace Rolex
open AscendingMap BlockChain LinkedSlots

variable {K V : Type} {N : ℕ} [LinearOrder K] [OrderTop K]

structure LeafTable.Idle (t : LeafTable) : Prop where
  cs : t.csLocks = List.replicate t.size false
  te : ∀ i, t.lockBit i = 0

structure Sound (t : LeafTable) (alloc : LeafAllocator K V N) (slots : ℕ → List ℕ)
    (chains : ℕ → List (List (K × V))) : Prop extends Represents t alloc slots chains where
  ordered : ∀ i < t.size, Ordered (chains i)
  idle : t.Idle

/-- From `t` to `t'` the chain of entry `i` became `bs`. The leaves of other tables are untouched,
and every newly linked leaf was fetched. -/
structure Step (t : LeafTable) (alloc : LeafAllocator K V N) (slots : ℕ → List ℕ)
    (chains : ℕ → List (List (K × V))) (i : ℕ) (bs : List (List (K × V))) (t' : LeafTable)
    (alloc' : LeafAllocator K V N) (slots' : ℕ → List ℕ) : Prop where
  sound : Sound t' alloc' slots' (Function.update chains i bs)
  size : t'.size = t.size
  count : alloc'.used + t.available = alloc.used + t'.available
  allocated : alloc'.allocated = alloc.allocated
  used : alloc.used ≤ alloc'.used
  leaves : ∀ p, p ∉ t.chainNums i (slots i) → p < alloc.used ∨ alloc'.used ≤ p →
    alloc'.leaves p = alloc.leaves p
  nums : ∀ j < t.size, ∀ p ∈ t'.chainNums j (slots' j), p ∈ t.chainNums j (slots j) ∨ alloc.used ≤ p

namespace LeafTable

/-! ### Locks -/

theorem modifyEntry_withLock_lockBit (t : LeafTable) {i : ℕ} (hi : i < t.size) (b : Fin 2) (j : ℕ) :
    (t.modifyEntry i (TableEntry.withLock b)).lockBit j = if j = i then b else t.lockBit j := by
  rw [lockBit, modifyEntry_getElem?]
  split
  · rename_i h
    rw [if_pos h.symm, ← h, List.getElem?_eq_getElem hi]
    rfl
  · rename_i h
    rw [if_neg (Ne.symm h)]
    rfl

theorem lockLeaf_ok {t : LeafTable} {i : ℕ} (hi : i < t.size) (h : t.lockBit i = 0) :
    t.lockLeaf i = .ok (t.modifyEntry i (TableEntry.withLock 1)) := by
  rw [lockBit_eq t hi] at h
  rw [lockLeaf, t.entry_eq hi, ok_bind, if_neg (by simp [h])]
  rfl

theorem unlockLeaf_lock {t : LeafTable} {i : ℕ} (hi : i < t.size) (h : t.lockBit i = 0) :
    (t.modifyEntry i (TableEntry.withLock 1)).unlockLeaf i = t := by
  have ht : (t.table.modify i (TableEntry.withLock 1)).modify i (TableEntry.withLock 0) =
      t.table := by
    apply List.ext_getElem?
    intro j
    rw [List.getElem?_modify, List.getElem?_modify]
    by_cases hj : i = j
    · subst hj
      rw [lockBit_eq t hi] at h
      rw [List.getElem?_eq_getElem hi]
      simp only [if_true, TableEntry.withLock, ← h]
      rfl
    · simp [hj]
  cases t
  exact congrArg (fun l => LeafTable.mk l _ _) ht

theorem unlockLeaf_size (t : LeafTable) (i : ℕ) : (t.unlockLeaf i).size = t.size :=
  t.modifyEntry_size ..

theorem unlockLeaf_csLocks (t : LeafTable) (i : ℕ) : (t.unlockLeaf i).csLocks = t.csLocks := rfl

theorem unlockLeaf_available (t : LeafTable) (i : ℕ) :
    (t.unlockLeaf i).available = t.available := rfl

theorem unlockLeaf_entryNum (t : LeafTable) (i : ℕ) : (t.unlockLeaf i).entryNum = t.entryNum :=
  t.modifyEntry_withLock_entryNum ..

theorem unlockLeaf_lockBit {t : LeafTable} {i : ℕ} (hi : i < t.size) (j : ℕ) :
    (t.unlockLeaf i).lockBit j = if j = i then 0 else t.lockBit j :=
  t.modifyEntry_withLock_lockBit hi 0 j

theorem csLock_ok {t : LeafTable} {i : ℕ} (hi : i < t.size)
    (h : t.csLocks = List.replicate t.size false) :
    t.csLock i = .ok { t with csLocks := t.csLocks.set i true } := by
  rw [csLock, h, List.getElem?_replicate, if_pos hi]

theorem set_csLocks {t : LeafTable} {i : ℕ} (h : t.csLocks = List.replicate t.size false) :
    (t.csLocks.set i true).set i false = t.csLocks := by
  rw [List.set_set, h, List.set_replicate_self]

theorem csUnlock_lock {t : LeafTable} {i : ℕ} (h : t.csLocks = List.replicate t.size false) :
    ({ t with csLocks := t.csLocks.set i true } : LeafTable).csUnlock i = t := by
  rw [csUnlock, set_csLocks h]

theorem unlinkEmptied_stays {t : LeafTable} {ss : List ℕ} {i : ℕ} {picked : Option (ℕ × ℕ)}
    {empty : Bool} (h : empty = false ∨ picked = none) :
    t.unlinkEmptied ss i empty picked = .ok t := by
  rcases h with rfl | rfl
  · cases picked <;> rfl
  · cases empty <;> rfl

end LeafTable

namespace Sound

variable {t : LeafTable} {alloc : LeafAllocator K V N} {slots : ℕ → List ℕ}
  {chains : ℕ → List (List (K × V))} {i : ℕ} {k : K}

/-! ### search -/

theorem searchFromBack_ok (h : Sound t alloc slots chains) (hi : i < t.size) (hk : k < ⊤) {m : ℕ}
    (hm : m ≤ (slots i).length) :
    t.searchFromBack alloc k (slots i) m =
      .ok (((chains i).tail.take m).flatten.lookup k) := by
  induction m with
  | zero => rfl
  | succ m ih =>
    have hlen := h.length_chain hi
    obtain ⟨hmem, hleaf⟩ := h.holds_slot hi hm
    have hm1 : m + 1 < (chains i).length := by omega
    rw [List.getD_eq_getElem _ [] hm1] at hleaf
    have htail : m < (chains i).tail.length := by rw [List.length_tail]; omega
    have hblock : (chains i).tail[m] = (chains i)[m + 1] := List.getElem_tail _
    -- a key of a later block is in no earlier block
    have hasc : Ascending (((chains i).tail.take m).flatten ++ (chains i)[m + 1]) := by
      have ha := (h.ordered i hi).ascending
      rw [← List.cons_head_tail (h.chain_ne_nil hi), List.flatten_cons, ascending_append,
        ← List.take_append_drop m (chains i).tail, List.drop_eq_getElem_cons htail, hblock,
        List.flatten_append, List.flatten_cons, ← List.append_assoc, ascending_append] at ha
      exact ha.2.1.1
    rw [LeafTable.searchFromBack, h.slotLeaf_ok hi hmem, ok_bind, Leaf.search_eq hleaf hk,
      ih (by omega), List.take_succ_eq_append_getElem htail, hblock, List.flatten_append,
      List.flatten_singleton]
    cases hl : (chains i)[m + 1].lookup k with
    | none => rw [lookup_append_left (lookup_eq_none.mp hl)]
    | some v =>
      have hv := (lookup_eq_some (ascending_append.mp hasc).2.1 k v).mp hl
      rw [lookup_append_right fun e he => ((ascending_append.mp hasc).2.2 e he (k, v) hv).ne, hl]

theorem searchEntry_ok (h : Sound t alloc slots chains) (hi : i < t.size) (hk : k < ⊤) :
    t.searchEntry alloc k i (t.entryNum i) = .ok ((chains i).flatten.lookup k) := by
  have hf := h.holds i hi
  have ha := (h.ordered i hi).ascending
  obtain ⟨b, rest, hc⟩ := List.exists_cons_of_ne_nil (h.chain_ne_nil hi)
  rw [hc, LeafTable.chainNums, List.forall₂_cons] at hf
  have hsyn : t.searchSynonym alloc k i = .ok (rest.flatten.lookup k) := by
    have hlen := h.length_chain hi
    rw [LeafTable.searchSynonym, h.synonymLeaves_ok hi, ok_bind, h.searchFromBack_ok hi hk le_rfl,
      hc, List.tail_cons, List.take_of_length_le (by rw [hc, List.length_cons] at hlen; omega)]
  rw [LeafTable.searchEntry, Leaf.search_eq hf.1 hk, hsyn, hc, List.flatten_cons,
    List.lookup_append]
  cases b.lookup k <;> rfl

/-! ### range -/

theorem rangeSlots_ok (h : Sound t alloc slots chains) (hi : i < t.size) (n : ℕ) {ss : List ℕ}
    {bs : List (List (K × V))} (hss : ∀ s ∈ ss, s ∈ slots i)
    (hf : List.Forall₂ (fun p es => (alloc.leaves p).Holds es) (ss.map t.slotNum) bs)
    (vals : List V) : t.rangeSlots alloc k n ss vals =
    .ok (vals ++ scan k (n - vals.length) bs.flatten) := by
  induction ss generalizing bs vals with
  | nil =>
    cases hf
    simp [LeafTable.rangeSlots, scan]
  | cons s ss ih =>
    cases bs with
    | nil => cases hf
    | cons b bs =>
      rw [List.map_cons, List.forall₂_cons] at hf
      rw [LeafTable.rangeSlots]
      split
      · rw [h.slotLeaf_ok hi (hss s List.mem_cons_self), ok_bind, Leaf.range_eq hf.1,
          ih (fun x hx => hss x (List.mem_cons_of_mem _ hx)) hf.2, List.flatten_cons, scan_append,
          List.append_assoc, List.length_append, Nat.sub_add_eq]
      · rw [show n - vals.length = 0 by omega]
        simp [scan]

theorem nextRange_ok (h : Sound t alloc slots chains) (hi : i < t.size) (n : ℕ) (vals : List V) :
    t.nextRange alloc k n vals i =
      .ok (vals ++ scan k (n - vals.length) (chains i).tail.flatten) := by
  have hf := h.holds i hi
  obtain ⟨b, rest, hc⟩ := List.exists_cons_of_ne_nil (h.chain_ne_nil hi)
  rw [hc, LeafTable.chainNums, List.forall₂_cons] at hf
  rw [LeafTable.nextRange, h.synonymLeaves_ok hi, ok_bind, hc]
  exact h.rangeSlots_ok hi n (fun _ hs => hs) hf.2 vals

theorem rangeSynonym_ok (h : Sound t alloc slots chains) (hi : i < t.size) (hk : k < ⊤) (n : ℕ)
    (vals : List V) :
    t.rangeSynonym alloc k n vals i (t.entryNum i) =
      .ok (vals ++ scan k (n - vals.length) (chains i).flatten) := by
  obtain ⟨pre, b, post, npre, p, npost, f⟩ := h.exists_focus hi k
  have hslots : ∃ ss, (slots i).drop (LeafTable.behindPicked
      (if pre = [] then none else some (pre.length - 1, p))) = ss ∧ (∀ s ∈ ss, s ∈ slots i) ∧
      ss.map t.slotNum = npost := by
    refine ⟨_, rfl, fun s hs => List.mem_of_mem_drop hs, ?_⟩
    cases pre with
    | nil => exact f.first.2.2
    | cons x pre =>
      obtain ⟨spre, s, spost, hs, hlen, _, _, hpost⟩ := f.later
      have hd : (slots i).drop (pre.length + 1) = spost := by
        rw [hs, ← hlen]
        simp
      simp only [List.cons_ne_nil, if_false, List.length_cons, Nat.add_sub_cancel,
        LeafTable.behindPicked, hd, hpost]
  obtain ⟨ss, hdrop, hss, hnums⟩ := hslots
  rw [LeafTable.rangeSynonym, h.synonymLeaves_ok hi, ok_bind, f.pickSynonym_ok h.toRepresents hi hk,
    ok_bind, f.pickedLeaf_eq, hdrop, Leaf.range_eq f.holds,
    h.rangeSlots_ok hi n hss (by rw [hnums]; exact f.holdsPost), f.located.flatten_eq,
    scan_append_of_lt (f.located.before (h.ordered i hi)), scan_append, List.append_assoc,
    List.length_append, Nat.sub_add_eq]

/-! ### The locked table -/

theorem locked (h : Represents t alloc slots chains) (i : ℕ) :
    Represents (t.modifyEntry i (TableEntry.withLock 1)) alloc slots chains :=
  h.congr (t.modifyEntry_size ..) (t.modifyEntry_withLock_head ..)
    (t.modifyEntry_withLock_entryNum ..)
    rfl

theorem unlocked (h : Represents t alloc slots chains) (i : ℕ) :
    Represents (t.unlockLeaf i) alloc slots chains :=
  h.congr (t.modifyEntry_size ..) (t.modifyEntry_withLock_head ..)
    (t.modifyEntry_withLock_entryNum ..)
    rfl

theorem csSet (h : Represents t alloc slots chains) (locks : List Bool) :
    Represents { t with csLocks := locks } alloc slots chains := h.congr rfl rfl rfl rfl

theorem locked_chainNums (t : LeafTable) (i j : ℕ) (ss : List ℕ) :
    (t.modifyEntry i (TableEntry.withLock 1)).chainNums j ss = t.chainNums j ss := by
  rw [LeafTable.chainNums, LeafTable.chainNums, t.modifyEntry_withLock_entryNum,
    t.modifyEntry_slotNum]

theorem locked_focus {pre post : List (List (K × V))} {b : List (K × V)} {npre npost : List ℕ}
    {p : ℕ} (f : Focus t alloc slots chains i k pre b post npre p npost) (j : ℕ) :
    Focus (t.modifyEntry j (TableEntry.withLock 1)) alloc slots chains i k pre b post npre p
      npost :=
  ⟨f.located, by rw [locked_chainNums, f.nums], f.holdsPre, f.holds, f.holdsPost⟩

omit [OrderTop K] in
theorem ordered_update_chain (h : ∀ j < t.size, Ordered (chains j)) {bs : List (List (K × V))}
    (hbs : Ordered bs) : ∀ j < t.size, Ordered (Function.update chains i bs j) := by
  intro j hj
  by_cases hji : j = i
  · subst hji
    rwa [Function.update_self]
  · rw [Function.update_of_ne hji]
    exact h j hj

theorem step_write {pre post : List (List (K × V))} {b b' : List (K × V)} {npre npost : List ℕ}
    {p : ℕ} (h : Sound t alloc slots chains) (hi : i < t.size)
    (hnums : t.chainNums i (slots i) = npre ++ p :: npost) (hchain : chains i = pre ++ b :: post)
    (hlen : npre.length = pre.length) {leaf : Leaf K V N} (hleaf : leaf.Holds b')
    (ho : Ordered (pre ++ b' :: post)) :
    Step t alloc slots chains i (pre ++ b' :: post) t (alloc.write p leaf) slots where
  sound := ⟨h.write hi hnums hchain hlen hleaf, ordered_update_chain h.ordered ho, h.idle⟩
  size := rfl
  count := rfl
  allocated := rfl
  used := le_rfl
  leaves := fun _ hq _ => alloc.write_leaves_ne
    (ne_of_mem_of_not_mem (by simp [hnums] : p ∈ t.chainNums i (slots i)) hq).symm leaf
  nums := fun _ _ _ hp => Or.inl hp

/-! ### update -/

theorem updateSynonym_eq {pre post : List (List (K × V))} {b : List (K × V)} {npre npost : List ℕ}
    {p : ℕ} (h : Represents t alloc slots chains) (hidle : t.Idle) (hi : i < t.size) (hk : k < ⊤)
    (f : Focus t alloc slots chains i k pre b post npre p npost) (v : V) :
    t.updateSynonym alloc k v i (t.entryNum i) =
      .ok ((b.lookup k).isSome, t, alloc.write p ((alloc.leaves p).update k v).2) := by
  have hl := locked h i
  have hil : i < (t.modifyEntry i (TableEntry.withLock 1)).size := by rwa [t.modifyEntry_size]
  rw [LeafTable.updateSynonym, LeafTable.lockLeaf_ok hi (hidle.te i), ok_bind,
    hl.synonymLeaves_ok hil, ok_bind, (locked_focus f i).pickSynonym_ok hl hil hk, ok_bind,
    f.pickedLeaf_eq, LeafTable.unlockLeaf_lock hi (hidle.te i),
    ← (Leaf.update_holds f.holds hk v).1]

theorem updateSynonym_ok (h : Sound t alloc slots chains) (hi : i < t.size) (hk : k < ⊤) (v : V) :
    ∃ alloc', t.updateSynonym alloc k v i (t.entryNum i) =
        .ok (((chains i).flatten.lookup k).isSome, t, alloc') ∧
      Step t alloc slots chains i (BlockChain.update k v (chains i)) t alloc' slots ∧
      ((chains i).flatten.lookup k = none → alloc' = alloc) := by
  obtain ⟨pre, b, post, npre, p, npost, f⟩ := h.toRepresents.exists_focus hi k
  have ho := h.ordered i hi
  have hlook := f.located.lookup_eq ho
  have hbs : BlockChain.update k v (chains i) = pre ++ assign k v b :: post := by
    rw [BlockChain.update, f.located.edit_eq]
    simp
  have hob := ordered_update (k := k) ho v
  rw [hbs] at hob
  refine ⟨alloc.write p ((alloc.leaves p).update k v).2, ?_, ?_, ?_⟩
  · rw [updateSynonym_eq h.toRepresents h.idle hi hk f, hlook]
  · rw [hbs]
    exact h.step_write hi f.nums f.located.eq f.length_pre (Leaf.update_holds f.holds hk v).2 hob
  · intro hnone
    rw [hlook] at hnone
    rw [Leaf.update_of_none f.holds hk hnone v, alloc.write_self]

/-! ### insert -/

theorem insertSynonym_full (h : t.available = kSynonymMax - 1) (v : V) (leaf : ℕ) :
    t.insertSynonym alloc k v i leaf = .ok (false, t, alloc) := if_pos h

theorem insertSynonym_present (h : Sound t alloc slots chains) (hi : i < t.size) (hk : k < ⊤)
    (hsome : (chains i).flatten.lookup k ≠ none) (v : V) :
    t.insertSynonym alloc k v i (t.entryNum i) = .ok (false, t, alloc) := by
  have hc := csSet h.toRepresents (t.csLocks.set i true)
  obtain ⟨pre, b, post, npre, p, npost, f⟩ := hc.exists_focus hi k
  have fp := f.pickSynonym_ok hc hi hk
  have fe := f.pickedLeaf_eq
  have hcontain : (alloc.leaves p).contain k = true := by
    rwa [Leaf.contain_eq f.holds hk, ← f.located.lookup_eq (h.ordered i hi),
      ← Option.ne_none_iff_isSome]
  rw [LeafTable.insertSynonym]
  split
  · rfl
  · rw [LeafTable.csLock_ok hi h.idle.cs, ok_bind, hc.synonymLeaves_ok hi, ok_bind, fp, ok_bind]
    change LeafTable.pickedLeaf (t.entryNum i) _ = p at fe
    rw [fe]
    simp only [hcontain, if_true]
    rw [LeafTable.csUnlock_lock h.idle.cs]

theorem splitLeaf_halves {pre post : List (List (K × V))} {b : List (K × V)} {npre npost : List ℕ}
    {p : ℕ} (f : Focus t alloc slots chains i k pre b post npre p npost)
    (h : Represents t alloc slots chains) (hi : i < t.size) (hN : Even N) (hfull : b.length = N)
    (hroom : t.available < kSynonymMax - 1) (hleaf : alloc.used < alloc.allocated) (x : K) :
    ∃ t' alloc' slots', t.splitLeaf alloc x i p
      ((if pre = [] then none else some (pre.length - 1, p)).map
        fun q : ℕ × ℕ => (slots i).getD q.1 0) =
          .ok (if (alloc'.leaves alloc.used).insertHere x then alloc.used else p, t', alloc') ∧
      t.SlotAdded t' alloc.used ∧
      Represents t' alloc' slots'
        (Function.update chains i (pre ++ b.take (N / 2) :: b.drop (N / 2) :: post)) ∧
      (alloc'.leaves alloc.used).Holds (b.drop (N / 2)) ∧
      alloc'.used = alloc.used + 1 ∧ alloc'.allocated = alloc.allocated ∧
      (∀ q, q ≠ p → q ≠ alloc.used → alloc'.leaves q = alloc.leaves q) ∧
      t'.chainNums i (slots' i) = npre ++ p :: alloc.used :: npost ∧
      ∀ j < t.size, j ≠ i → t'.chainNums j (slots' j) = t.chainNums j (slots j) := by
  have f' : Focus t { alloc with used := alloc.used + 1 } slots chains i k pre b post npre p
      npost :=
    ⟨f.located, f.nums, f.holdsPre, f.holds, f.holdsPost⟩
  obtain ⟨t', slots', hemp, hadd, hrep, hnums, hrest⟩ :=
    f'.emplace (h.fetch hleaf) hi hroom (h.spare hleaf)
  have hi' : i < t'.size := hadd.size ▸ hi
  have hself := Function.update_self (f := chains) i (pre ++ b :: [] :: post)
  have hhalf := hrep.halve hi' hnums hself f.length_pre hN hfull
  rw [Function.update_idem] at hhalf
  obtain ⟨_, hup⟩ := Leaf.moveHalf_holds f.holds (h.blank _ le_rfl hleaf) hN hfull
  set halves := Leaf.moveHalf (alloc.leaves p) (alloc.leaves alloc.used) with hhalves
  refine ⟨t', _, slots', ?_, hadd, hhalf, ?_, rfl, rfl, ?_, hnums,
    fun j hj hji => (hrest j hj hji).2⟩
  · rw [LeafTable.splitLeaf, LeafAllocator.fetchNewLeaf_ok hleaf, ok_bind, hemp, ok_bind]
  · rw [LeafAllocator.write_leaves_self]
    exact hup
  · intro q hqp hqu
    rw [LeafAllocator.write_leaves_ne _ hqu, LeafAllocator.write_leaves_ne _ hqp]

theorem splitLeaf_ok {pre post : List (List (K × V))} {b : List (K × V)} {npre npost : List ℕ}
    {p : ℕ} (f : Focus t alloc slots chains i k pre b post npre p npost)
    (h : Represents t alloc slots chains) (hi : i < t.size) (hk : k < ⊤) (hN : Even N) (hN0 : 0 < N)
    (hb : b.lookup k = none) (hfull : b.length = N) (hroom : t.available < kSynonymMax - 1)
    (hleaf : alloc.used < alloc.allocated) (v : V) :
    ∃ cur t' alloc' slots',
    t.splitLeaf alloc k i p ((if pre = [] then none else some (pre.length - 1, p)).map
        fun q : ℕ × ℕ => (slots i).getD q.1 0) = .ok (cur, t', alloc') ∧ t.SlotAdded t' alloc.used ∧
      Represents t' alloc' slots'
        (Function.update chains i (pre ++ b.take (N / 2) :: b.drop (N / 2) :: post)) ∧
      Takes N (t'.chainNums i (slots' i)) (pre ++ b.take (N / 2) :: b.drop (N / 2) :: post)
      (chains i) k v
        cur ∧
      alloc'.used = alloc.used + 1 ∧ alloc'.allocated = alloc.allocated ∧
      (cur = p ∨ cur = alloc.used) ∧
      (∀ q, q ≠ p → q ≠ alloc.used → alloc'.leaves q = alloc.leaves q) ∧
      t'.chainNums i (slots' i) = npre ++ p :: alloc.used :: npost ∧
      ∀ j < t.size, j ≠ i → t'.chainNums j (slots' j) = t.chainNums j (slots j) := by
  obtain ⟨t', alloc', slots', hsplit, hadd, hhalf, hup, hused, hall, hleaves, hnums, hrest⟩ :=
    splitLeaf_halves f h hi hN hfull hroom hleaf k
  have hopen : (alloc'.leaves alloc.used).insertHere k = opens k (b.drop (N / 2)) := by
    rw [Bool.eq_iff_iff, hup.insertHere_iff hk, opens_iff]
  rw [hopen] at hsplit
  refine ⟨_, t', alloc', slots', hsplit, hadd, hhalf,
    takes_of_split f.located hnums f.length_pre hb hN hN0 hfull v, hused, hall, ?_, hleaves, hnums,
    hrest⟩
  split
  · exact Or.inr rfl
  · exact Or.inl rfl

theorem step_split {p : ℕ} {npre npost : List ℕ} (h : Sound t alloc slots chains) (hi : i < t.size)
    {t' : LeafTable} {alloc' : LeafAllocator K V N} {slots' : ℕ → List ℕ} {bs : List (List (K × V))}
    (hadd : ({ t with csLocks := t.csLocks.set i true } : LeafTable).SlotAdded t' alloc.used)
    (hrep : Represents t' alloc' slots' (Function.update chains i bs)) (hord : Ordered bs)
    (hused : alloc'.used = alloc.used + 1) (hall : alloc'.allocated = alloc.allocated)
    (hleaves : ∀ q, q ≠ p → q ≠ alloc.used → alloc'.leaves q = alloc.leaves q)
    (hold : t.chainNums i (slots i) = npre ++ p :: npost)
    (hnums : t'.chainNums i (slots' i) = npre ++ p :: alloc.used :: npost)
    (hrest : ∀ j < t.size, j ≠ i → t'.chainNums j (slots' j) = t.chainNums j (slots j)) :
    Step t alloc slots chains i bs (t'.csUnlock i) alloc' slots' := by
  have hsize : t'.size = t.size := hadd.size
  have hcs : (t'.csUnlock i).csLocks = t.csLocks := by
    rw [← LeafTable.set_csLocks h.idle.cs]
    exact congrArg (fun l => List.set l i false) hadd.csLocks
  refine ⟨⟨csSet hrep _, fun j hj => ordered_update_chain h.ordered hord j (hsize ▸ hj), ?_, ?_⟩,
    hsize, ?_, hall, ?_, fun q hq hqu => ?_, fun j hj q hq => ?_⟩
  · rw [hcs, h.idle.cs]
    exact congrArg (fun n => List.replicate n false) hsize.symm
  · exact fun j => (congrFun hadd.lockBit j).trans (h.idle.te j)
  · have hav : t'.available = t.available + 1 := hadd.count
    change alloc'.used + t.available = alloc.used + t'.available
    omega
  · rw [hused]
    exact Nat.le_succ _
  · refine hleaves q (fun hqp => hq ?_) fun hqa => ?_
    · rw [hold, hqp]
      simp
    · omega
  · change q ∈ t'.chainNums j (slots' j) at hq
    by_cases hji : j = i
    · subst hji
      rw [hnums] at hq
      rw [hold]
      simp only [List.mem_append, List.mem_cons] at hq ⊢
      rcases hq with hq | hq | hq | hq
      · exact Or.inl (Or.inl hq)
      · exact Or.inl (Or.inr (Or.inl hq))
      · exact Or.inr hq.ge
      · exact Or.inl (Or.inr (Or.inr hq))
    · rw [hrest j hj hji] at hq
      exact Or.inl hq

theorem insertSynonym_eq {pre post : List (List (K × V))} {b : List (K × V)} {npre npost : List ℕ}
    {p : ℕ} (h : Sound t alloc slots chains)
    (f : Focus t alloc slots chains i k pre b post npre p npost) (hN0 : 0 < N) (hi : i < t.size)
    (hk : k < ⊤) (hnone : (chains i).flatten.lookup k = none)
    (hroom : t.available < kSynonymMax - 1) (v : V) : t.insertSynonym alloc k v i (t.entryNum i) =
      if b.length = N then do
        let split ← ({ t with csLocks := t.csLocks.set i true } : LeafTable).splitLeaf alloc k i p
          ((if pre = [] then none else some (pre.length - 1, p)).map fun q : ℕ × ℕ =>
          (slots i).getD q.1 0)
        .ok (true, split.2.1.csUnlock i,
          split.2.2.write split.1 ((split.2.2.leaves split.1).insertNotFull k v).2)
      else .ok (true, t, alloc.write p ((alloc.leaves p).insertNotFull k v).2) := by
  have hc := csSet h.toRepresents (t.csLocks.set i true)
  have fc : Focus { t with csLocks := t.csLocks.set i true } alloc slots chains i k pre b post npre
      p npost :=
    ⟨f.located, f.nums, f.holdsPre, f.holds, f.holdsPost⟩
  have fp := fc.pickSynonym_ok hc hi hk
  have fe := f.pickedLeaf_eq
  have hb : b.lookup k = none := by rw [← f.located.lookup_eq (h.ordered i hi), hnone]
  have hcontain : (alloc.leaves p).contain k = false := by
    rw [Leaf.contain_eq f.holds hk, hb]
    rfl
  rw [LeafTable.insertSynonym, if_neg hroom.ne, LeafTable.csLock_ok hi h.idle.cs, ok_bind,
    hc.synonymLeaves_ok hi, ok_bind, fp, ok_bind, fe]
  simp only [hcontain, Bool.false_eq_true, if_false]
  by_cases hlen : b.length = N
  · have hf : (alloc.leaves p).isfull = true := (f.holds.isfull_iff hN0).mpr hlen
    rw [if_pos hlen, if_pos hf]
    exact if_neg hroom.ne
  · have hnf : (alloc.leaves p).isfull = false := by
      rw [Bool.eq_false_iff]
      exact fun hf => hlen ((f.holds.isfull_iff hN0).mp hf)
    rw [if_neg hlen, hnf, LeafTable.csUnlock_lock h.idle.cs]
    rfl

theorem insertSynonym_stuck {pre post : List (List (K × V))} {b : List (K × V)}
    (h : Sound t alloc slots chains) (hloc : Located k (chains i) pre b post) (hN0 : 0 < N)
    (hi : i < t.size) (hk : k < ⊤) (hnone : (chains i).flatten.lookup k = none)
    (hroom : t.available < kSynonymMax - 1) (hfull : b.length = N)
    (hleaf : ¬alloc.used < alloc.allocated) (v : V) :
    t.insertSynonym alloc k v i (t.entryNum i) = .error .leavesInsufficient := by
  obtain ⟨pre', b', post', npre, p, npost, f⟩ := h.toRepresents.exists_focus hi k
  obtain ⟨rfl, rfl, rfl⟩ := f.located.unique hloc
  rw [h.insertSynonym_eq f hN0 hi hk hnone hroom v, if_pos hfull, LeafTable.splitLeaf,
    LeafAllocator.fetchNewLeaf, if_neg hleaf]
  rfl

theorem insertSynonym_absent (h : Sound t alloc slots chains) (hN : Even N) (hN0 : 0 < N)
    (hi : i < t.size) (hk : k < ⊤) (hnone : (chains i).flatten.lookup k = none)
    (hroom : t.available < kSynonymMax - 1)
    (hleaf : ∀ pre b post, Located k (chains i) pre b post → b.length = N →
      alloc.used < alloc.allocated) (v : V) :
    ∃ t' alloc' slots', t.insertSynonym alloc k v i (t.entryNum i) = .ok (true, t', alloc') ∧
      Step t alloc slots chains i (BlockChain.insert N k v (chains i)) t' alloc' slots' ∧
      (∀ pre b post, Located k (chains i) pre b post → b.length = N →
        t'.available = t.available + 1) ∧
      t'.entryNum = t.entryNum := by
  have hc := csSet h.toRepresents (t.csLocks.set i true)
  obtain ⟨pre, b, post, npre, p, npost, ft⟩ := h.toRepresents.exists_focus hi k
  have f : Focus { t with csLocks := t.csLocks.set i true } alloc slots chains i k pre b post npre p
      npost :=
    ⟨ft.located, ft.nums, ft.holdsPre, ft.holds, ft.holdsPost⟩
  have hb : b.lookup k = none := by rw [← f.located.lookup_eq (h.ordered i hi), hnone]
  have hN2 : 2 ≤ N := by obtain ⟨m, rfl⟩ := hN; omega
  have hord := ordered_insert hN2 (h.ordered i hi) hnone v
  rw [h.insertSynonym_eq ft hN0 hi hk hnone hroom v]
  by_cases hfull : b.length < N
  · have hbs : BlockChain.insert N k v (chains i) = pre ++ put k v b :: post := by
      rw [BlockChain.insert, f.located.edit_eq, grow, if_pos hfull]
      simp
    rw [if_neg hfull.ne]
    rw [hbs] at hord ⊢
    refine ⟨t, alloc.write p ((alloc.leaves p).insertNotFull k v).2, slots, rfl,
      h.step_write hi ft.nums ft.located.eq ft.length_pre
      (Leaf.insertNotFull_holds ft.holds hk hb hfull v) hord, fun pre' b' post' hloc hlen => ?_,
      rfl⟩
    obtain ⟨rfl, rfl, rfl⟩ := f.located.unique hloc
    exact absurd hlen hfull.ne
  · have hlen : b.length = N := le_antisymm f.holds.length_le (not_lt.mp hfull)
    obtain ⟨cur, t', alloc', slots', hsplit, hadd, hrep, htakes, hused, hall, hcur, hleaves, hnums,
        hrest⟩ :=
      splitLeaf_ok f hc hi hk hN hN0 hb hlen hroom (hleaf _ _ _ f.located hlen) v
    have hplace := hrep.place (hadd.size ▸ hi) hk (by rwa [Function.update_self])
    rw [Function.update_idem] at hplace
    refine ⟨t'.csUnlock i, alloc'.write cur ((alloc'.leaves cur).insertNotFull k v).2, slots', ?_,
      h.step_split hi hadd hplace hord hused hall (fun q hqp hqa => ?_) ft.nums hnums hrest,
      fun _ _ _ _ _ => hadd.count, hadd.entryNum⟩
    · rw [if_pos hlen, hsplit, ok_bind]
    · rw [LeafAllocator.write_leaves_ne _ (by rcases hcur with rfl | rfl <;> assumption),
        hleaves q hqp hqa]

/-! ### remove -/

/-- An emptied synonym leaf is taken out of its chain, while the entry is locked. -/
theorem step_unlink {x : List (K × V)} {pre post : List (List (K × V))} {b : List (K × V)}
    {npre npost : List ℕ} {p : ℕ} (h : Sound t alloc slots chains) (hi : i < t.size)
    (f : Focus t alloc slots chains i k (x :: pre) b post npre p npost)
    (ho : Ordered ((x :: pre) ++ post)) (leaf : Leaf K V N) :
    ∃ t' slots', (t.modifyEntry i (TableEntry.withLock 1)).synonymTableRemove (slots i) i
        pre.length = .ok t' ∧
      Step t alloc slots chains i ((x :: pre) ++ post) (t'.unlockLeaf i) (alloc.write p leaf)
        slots' := by
  have hl := locked h.toRepresents i
  have hil : i < (t.modifyEntry i (TableEntry.withLock 1)).size := by rwa [t.modifyEntry_size]
  obtain ⟨t', slots', hrem, hsize, hlock, hcs, hav, hrep, hnums⟩ := (locked_focus f i).unlink hl hil
  have hsize : t'.size = t.size := hsize.trans (t.modifyEntry_size ..)
  have hi' : i < t'.size := hsize ▸ hi
  have hold : ∀ j < t.size, ∀ q ∈ t'.chainNums j (slots' j), q ∈ t.chainNums j (slots j) ∧
      q ≠ p := by
    intro j hj q hq
    rw [← locked_chainNums t i]
    exact hnums j (by rwa [t.modifyEntry_size]) q hq
  have hpu : p < alloc.used := h.numsUsed i hi p f.mem_nums
  have hrep' : Represents t' (alloc.write p leaf) slots'
      (Function.update chains i ((x :: pre) ++ post)) := by
    refine hrep.congr_alloc rfl le_rfl hrep.usedLe (fun j hj q hq => ?_) fun q hq => ?_
    · exact alloc.write_leaves_ne (hold j (hsize ▸ hj) q hq).2 _
    · exact alloc.write_leaves_ne (hpu.trans_le hq).ne' _
  have hunlock : (t'.unlockLeaf i).chainNums = t'.chainNums := by
    funext j ss
    rw [LeafTable.chainNums, LeafTable.chainNums, LeafTable.unlockLeaf_entryNum]
    rfl
  refine ⟨t', slots', hrem, ⟨⟨unlocked hrep' i, ?_, ⟨?_, ?_⟩⟩, ?_, ?_, rfl, le_rfl, ?_, ?_⟩⟩
  · intro j hj
    rw [LeafTable.unlockLeaf_size, hsize] at hj
    exact ordered_update_chain h.ordered ho j hj
  · rw [LeafTable.unlockLeaf_size, hsize, LeafTable.unlockLeaf_csLocks, hcs]
    exact h.idle.cs
  · intro j
    rw [LeafTable.unlockLeaf_lockBit hi', hlock, t.modifyEntry_withLock_lockBit hi]
    split
    · rfl
    · exact h.idle.te j
  · rw [LeafTable.unlockLeaf_size, hsize]
  · rw [LeafTable.unlockLeaf_available, hav]
    rfl
  · exact fun q hq _ => alloc.write_leaves_ne (ne_of_mem_of_not_mem f.mem_nums hq).symm _
  · intro j hj q hq
    rw [hunlock] at hq
    exact Or.inl (hold j hj q hq).1

theorem removeSynonym_ok (h : Sound t alloc slots chains) (hi : i < t.size) (hk : k < ⊤) :
    ∃ t' alloc' slots', t.removeSynonym alloc k i (t.entryNum i) =
        .ok (((chains i).flatten.lookup k).isSome, t', alloc') ∧
      Step t alloc slots chains i (BlockChain.remove k (chains i)) t' alloc' slots' ∧
      ((chains i).flatten.lookup k = none → t' = t ∧ alloc' = alloc) := by
  have hl := locked h.toRepresents i
  have hil : i < (t.modifyEntry i (TableEntry.withLock 1)).size := by rwa [t.modifyEntry_size]
  obtain ⟨pre, b, post, npre, p, npost, f⟩ := h.toRepresents.exists_focus hi k
  have hpick := (locked_focus f i).pickSynonym_ok hl hil hk
  have ho := h.ordered i hi
  have hlook := f.located.lookup_eq ho
  obtain ⟨hans, hleaf⟩ := Leaf.remove_holds (k := k) f.holds hk
  have hob := ordered_remove (k := k) ho
  rw [f.located.remove_eq] at hob ⊢
  by_cases hcut : without k b = [] ∧ pre ≠ []
  · obtain ⟨x, pre, rfl⟩ := List.exists_cons_of_ne_nil hcut.2
    rw [if_pos hcut, List.append_nil] at hob ⊢
    have hempty : ((alloc.leaves p).remove k).2.isEmpty = true := hleaf.isEmpty_iff.mpr hcut.1
    obtain ⟨t', slots', hrem, hstep⟩ := h.step_unlink hi f hob ((alloc.leaves p).remove k).2
    refine ⟨t'.unlockLeaf i, alloc.write p ((alloc.leaves p).remove k).2, slots', ?_, hstep, ?_⟩
    · rw [LeafTable.removeSynonym, LeafTable.lockLeaf_ok hi (h.idle.te i), ok_bind,
        hl.synonymLeaves_ok hil, ok_bind, hpick, ok_bind, f.pickedLeaf_eq, hlook, ← hans]
      simp only [hempty, List.cons_ne_nil, if_false, List.length_cons, Nat.add_sub_cancel]
      rw [LeafTable.unlinkEmptied, hrem, ok_bind]
    · intro hnone
      rw [hlook, lookup_eq_none] at hnone
      obtain ⟨e, rest, hb, _⟩ := (opens_iff k b).mp (f.located.opens_block (List.cons_ne_nil x pre))
      have hw := without_of_forall_ne hnone
      rw [hcut.1, hb] at hw
      cases hw
  · rw [if_neg hcut, List.append_assoc, List.singleton_append] at hob ⊢
    refine ⟨t, alloc.write p ((alloc.leaves p).remove k).2, slots, ?_,
      h.step_write hi f.nums f.located.eq f.length_pre hleaf hob, ?_⟩
    · have hstays : ((alloc.leaves p).remove k).2.isEmpty = false ∨
          (if pre = [] then none else some (pre.length - 1, p)) = none := by
        by_cases hp : pre = []
        · exact Or.inr (if_pos hp)
        · exact Or.inl (Bool.eq_false_iff.mpr fun he => hcut ⟨hleaf.isEmpty_iff.mp he, hp⟩)
      rw [LeafTable.removeSynonym, LeafTable.lockLeaf_ok hi (h.idle.te i), ok_bind,
        hl.synonymLeaves_ok hil, ok_bind, hpick, ok_bind, f.pickedLeaf_eq, hlook, ← hans]
      dsimp only
      rw [LeafTable.unlinkEmptied_stays hstays, ok_bind, LeafTable.unlockLeaf_lock hi (h.idle.te i)]
    · intro hnone
      rw [hlook] at hnone
      rw [Leaf.remove_of_none f.holds hk hnone, alloc.write_self]
      exact ⟨rfl, rfl⟩

end Sound
end Rolex
