import Rolex.TableOps
import Rolex.TrainedLeaves

/-!
`insert` and `update` with `Leaf::invalidKey()`, the key that marks an empty slot and that no caller
filters out. Neither takes a stored pair away: at most a full leaf is split.
-/

namespace Rolex
open AscendingMap BlockChain

variable {K V : Type} {N : ℕ} [LinearOrder K] [OrderTop K]

/-! ### Leaves -/

namespace Leaf

variable {leaf : Leaf K V N} {es : List (K × V)}

theorem Holds.contain_top (h : leaf.Holds es) (hN : 0 < N) (hroom : leaf.isfull = false) :
    leaf.contain ⊤ = true := by
  have hlt : es.length < N := lt_of_le_of_ne h.length_le fun heq =>
    Bool.false_ne_true (hroom.symm.trans ((h.isfull_iff hN).mpr heq))
  rw [contain, if_neg (not_lt.mpr le_top), List.any_eq_true]
  refine ⟨⊤, ?_, decide_eq_true rfl⟩
  rw [h.keys]
  exact List.mem_append_right _ (List.mem_replicate.mpr ⟨by omega, rfl⟩)

theorem Holds.ne_top_of_full (h : leaf.Holds es) (hN : 0 < N) (hfull : leaf.isfull = true) :
    ∀ x ∈ leaf.keys, x ≠ (⊤ : K) := by
  intro x hx
  rw [h.keys, (h.isfull_iff hN).mp hfull, Nat.sub_self, List.replicate_zero, List.append_nil] at hx
  obtain ⟨e, he, rfl⟩ := List.mem_map.mp hx
  exact (h.below e he).ne

theorem Holds.contain_top_of_full (h : leaf.Holds es) (hN : 0 < N) (hfull : leaf.isfull = true) :
    leaf.contain ⊤ = false := by
  rw [contain, if_neg (not_lt.mpr le_top), List.any_eq_false]
  exact fun x hx => by simpa using h.ne_top_of_full hN hfull x hx

theorem Holds.update_top_holds (h : leaf.Holds es) (v : V) : (leaf.update ⊤ v).2.Holds es := by
  rw [update, if_neg (not_lt.mpr le_top)]
  split
  · rename_i i hi
    obtain ⟨hlt, hkey, _⟩ := List.findIdx?_eq_some_iff_getElem.mp hi
    have hout : es.length ≤ i := by
      by_contra hin
      have hget : leaf.key i = leaf.keys[i] := List.getD_eq_getElem _ _ hlt
      exact h.key_below (not_le.mp hin) (hget.trans (of_decide_eq_true hkey))
    refine ⟨h.ascending, h.below, h.keys, ?_⟩
    dsimp only
    rw [List.take_set_of_le hout]
    exact h.vals
  · exact h

end Leaf

theorem insertHere_top (leaf : Leaf K V N) : leaf.insertHere ⊤ = true := decide_eq_true le_top

section Table

variable {t : LeafTable} {alloc : LeafAllocator K V N} {slots : ℕ → List ℕ}
  {chains : ℕ → List (List (K × V))} {i lo hi : ℕ}

/-! ### The leaf that the key leads to -/

theorem LeafTable.pickSynonym_congr (t t' : LeafTable) (h : t'.synonymTable = t.synonymTable)
    (alloc : LeafAllocator K V N) (k : K) (ss : List ℕ) (m : ℕ) :
    t'.pickSynonym alloc k ss m = t.pickSynonym alloc k ss m := by
  induction m with
  | zero => rfl
  | succ m ih =>
    rw [LeafTable.pickSynonym, LeafTable.pickSynonym, ih, LeafTable.slotLeaf, LeafTable.slotLeaf,
      LeafTable.slot, LeafTable.slot, h]

@[simp] theorem LeafTable.pickSynonym_modifyEntry (t : LeafTable) (alloc : LeafAllocator K V N)
    (k : K) (ss : List ℕ) (m i : ℕ) (f : TableEntry → TableEntry) :
    (t.modifyEntry i f).pickSynonym alloc k ss m = t.pickSynonym alloc k ss m :=
  pickSynonym_congr t (t.modifyEntry i f) rfl alloc k ss m

@[simp] theorem LeafTable.pickSynonym_csLocks (t : LeafTable) (alloc : LeafAllocator K V N) (k : K)
    (ss : List ℕ) (m : ℕ) (csLocks : List Bool) :
    ({ t with csLocks := csLocks } : LeafTable).pickSynonym alloc k ss m =
      t.pickSynonym alloc k ss m :=
  pickSynonym_congr t { t with csLocks := csLocks } rfl alloc k ss m

theorem Represents.pickEntry_any (h : Represents t alloc slots chains) {k : K} (hlt : hi < t.size)
    {q : ℕ × ℕ} (hok : t.pickEntry alloc k lo hi = .ok q) :
    q.1 < t.size ∧ q.2 = t.entryNum q.1 := by
  have hfirst : (t.entryLeaf alloc lo >>= fun leaf => .ok (lo, leaf)) = .ok q →
      q.1 < t.size ∧ q.2 = t.entryNum q.1 := by
    intro hok
    obtain ⟨leaf, hleaf, hok⟩ := bind_eq_ok hok
    obtain rfl := Except.ok.inj hok
    have hlo : lo < t.size := by
      by_contra hlo
      rw [entryLeaf_outside (not_lt.mp hlo)] at hleaf
      cases hleaf
    rw [h.entryLeaf_ok hlo] at hleaf
    exact ⟨hlo, (Except.ok.inj hleaf).symm⟩
  induction hi with
  | zero => exact hfirst hok
  | succ i ih =>
    rw [LeafTable.pickEntry] at hok
    split at hok
    · rw [h.entryLeaf_ok hlt, ok_bind] at hok
      split at hok
      · obtain rfl := Except.ok.inj hok
        exact ⟨hlt, rfl⟩
      · exact ih (by omega) hok
    · exact hfirst hok

theorem Sound.exists_last (h : Sound t alloc slots chains) (hi : i < t.size) :
    ∃ pre b npre p, Focus t alloc slots chains i ⊤ pre b [] npre p [] ∧
      t.pickSynonym alloc ⊤ (slots i) (slots i).length =
      .ok (if pre = [] then none else some (pre.length - 1, p)) := by
  obtain ⟨pre, b, post, npre, p, npost, f⟩ := h.toRepresents.exists_focus hi ⊤
  have hord := h.ordered i hi
  -- behind the first one the blocks are not empty, so that the key belongs to the last one
  have hlast : post = [] := by
    by_contra hpost
    obtain ⟨post', c, rfl⟩ := (List.eq_nil_or_concat post).resolve_left hpost
    rw [List.concat_eq_append] at f
    have hc : c ≠ [] := by
      refine hord.later c ?_
      rw [f.located.eq]
      cases pre <;> simp
    obtain ⟨e, c, rfl⟩ := List.exists_cons_of_ne_nil hc
    have hlt : pre.length < (chains i).length - 1 := by
      rw [f.located.eq]
      simp
    refine Nat.findGreatest_is_greatest (f.located.index.trans_lt hlt) le_rfl ?_
    have hget : (chains i).getD ((chains i).length - 1) [] = e :: c := by
      rw [f.located.eq]
      simp [List.getD_eq_getElem?_getD]
    rw [hget]
    exact decide_eq_true le_top
  subst hlast
  obtain rfl : npost = [] := List.length_eq_zero_iff.mp f.holdsPost.length_eq
  refine ⟨pre, b, npre, p, f, ?_⟩
  cases pre with
  | nil =>
    obtain ⟨_, _, hslots⟩ := f.first
    rw [List.map_eq_nil_iff.mp hslots]
    rfl
  | cons c pre =>
    obtain ⟨spre, s, spost, hs, hlen, _, hp, hpost⟩ := f.later
    rw [List.map_eq_nil_iff.mp hpost] at hs
    have hmem : s ∈ slots i := by
      rw [hs]
      simp
    have hslot := h.toRepresents.slotLeaf_ok hi hmem
    rw [hs, List.length_append, List.length_singleton, LeafTable.pickSynonym,
      List.getD_eq_getElem?_getD, List.getElem?_concat_length, Option.getD_some, hslot, ok_bind,
      insertHere_top, if_pos rfl, hp, hlen]
    rfl

theorem Focus.getLast?_nums {pre : List (List (K × V))} {b : List (K × V)} {npre : List ℕ} {p : ℕ}
    (f : Focus t alloc slots chains i ⊤ pre b [] npre p []) :
    (t.chainNums i (slots i)).getLast? = some p := by
  rw [f.nums, List.getLast?_concat]

/-! ### The calls -/

omit [OrderTop K] in
theorem ordered_halve {pre : List (List (K × V))} {b : List (K × V)} (h : Ordered (pre ++ [b]))
    (hN : Even N) (hN0 : 0 < N) (hfull : b.length = N) :
    Ordered (pre ++ [b.take (N / 2), b.drop (N / 2)]) := by
  have hhalf : 0 < N / 2 ∧ N / 2 < N := by
    obtain ⟨m, rfl⟩ := hN
    omega
  have htake : b.take (N / 2) ≠ [] := List.length_pos_iff.mp (by rw [List.length_take]; omega)
  have hdrop : b.drop (N / 2) ≠ [] := List.length_pos_iff.mp (by rw [List.length_drop]; omega)
  refine ⟨by simp, ?_, fun c hc => ?_⟩
  · have hflat : (pre ++ [b.take (N / 2), b.drop (N / 2)]).flatten = (pre ++ [b]).flatten := by simp
    rw [hflat]
    exact h.ascending
  · cases pre with
    | nil =>
      obtain rfl := List.mem_singleton.mp hc
      exact hdrop
    | cons d pre =>
      rcases List.mem_append.mp (hc : c ∈ pre ++ [b.take (N / 2), b.drop (N / 2)]) with hc | hc
      · exact h.later c (List.mem_append_left _ hc)
      · rcases List.mem_cons.mp hc with rfl | hc
        · exact htake
        · obtain rfl := List.mem_singleton.mp hc
          exact hdrop

theorem Sound.updateSynonym_top (h : Sound t alloc slots chains) (hi : i < t.size) (v : V) :
    ∃ p es, (t.chainNums i (slots i)).getLast? = some p ∧ (alloc.leaves p).Holds es ∧
      t.updateSynonym alloc ⊤ v i (t.entryNum i) =
        .ok (((alloc.leaves p).update ⊤ v).1, t, alloc.write p ((alloc.leaves p).update ⊤ v).2) ∧
      Step t alloc slots chains i (chains i) t
        (alloc.write p ((alloc.leaves p).update ⊤ v).2) slots := by
  obtain ⟨pre, b, npre, p, f, hpick⟩ := h.exists_last hi
  have hl := locked h.toRepresents i
  have hil : i < (t.modifyEntry i (TableEntry.withLock 1)).size := by rwa [t.modifyEntry_size]
  have hstep := h.step_write hi f.nums f.located.eq f.length_pre (f.holds.update_top_holds v)
    (f.located.eq ▸ h.ordered i hi)
  rw [← f.located.eq] at hstep
  refine ⟨p, b, f.getLast?_nums, f.holds, ?_, hstep⟩
  rw [LeafTable.updateSynonym, LeafTable.lockLeaf_ok hi (h.idle.te i), ok_bind,
    hl.synonymLeaves_ok hil, ok_bind, LeafTable.pickSynonym_modifyEntry, hpick, ok_bind,
    f.pickedLeaf_eq, LeafTable.unlockLeaf_lock hi (h.idle.te i)]

/-- Where no slot is left, or an empty slot passes for the key, nothing is inserted. -/
theorem Sound.insertSynonym_top_refused (h : Sound t alloc slots chains) (hN : 0 < N)
    (hi : i < t.size) {p : ℕ} (hlast : (t.chainNums i (slots i)).getLast? = some p)
    (hrefuses : t.available = kSynonymMax - 1 ∨ (alloc.leaves p).isfull = false) (v : V) :
    t.insertSynonym alloc ⊤ v i (t.entryNum i) = .ok (false, t, alloc) := by
  obtain ⟨pre, b, npre, q, f, hpick⟩ := h.exists_last hi
  obtain rfl := Option.some.inj (f.getLast?_nums.symm.trans hlast)
  rw [LeafTable.insertSynonym]
  split
  · rfl
  · rename_i hroom
    have hempty := hrefuses.resolve_left hroom
    have hc := (csSet h.toRepresents (t.csLocks.set i true)).synonymLeaves_ok hi
    rw [LeafTable.csLock_ok hi h.idle.cs, ok_bind, hc, ok_bind, LeafTable.pickSynonym_csLocks,
      hpick, ok_bind, f.pickedLeaf_eq, if_pos (f.holds.contain_top hN hempty),
      LeafTable.csUnlock_lock h.idle.cs]

/-- A full leaf is split, and then its upper half has the key already. -/
theorem Sound.insertSynonym_top (h : Sound t alloc slots chains) (hN : Even N) (hN0 : 0 < N)
    (hi : i < t.size) {v : V} {res : Bool × LeafTable × LeafAllocator K V N}
    (hok : t.insertSynonym alloc ⊤ v i (t.entryNum i) = .ok res) :
    res.2.1.entryNum = t.entryNum ∧
    ∃ bs slots', Step t alloc slots chains i bs res.2.1 res.2.2 slots' := by
  obtain ⟨pre, b, npre, p, f, hpick⟩ := h.exists_last hi
  by_cases hrefuses : t.available = kSynonymMax - 1 ∨ (alloc.leaves p).isfull = false
  · rw [h.insertSynonym_top_refused hN0 hi f.getLast?_nums hrefuses] at hok
    obtain rfl := Except.ok.inj hok
    exact ⟨rfl, chains i, slots, Step.refl h i⟩
  obtain ⟨hroom, hfull⟩ := not_or.mp hrefuses
  rw [Bool.not_eq_false] at hfull
  have hc := csSet h.toRepresents (t.csLocks.set i true)
  have fc : Focus { t with csLocks := t.csLocks.set i true } alloc slots chains i ⊤ pre b [] npre p
      [] :=
    ⟨f.located, f.nums, f.holdsPre, f.holds, f.holdsPost⟩
  have hlen := (f.holds.isfull_iff hN0).mp hfull
  rw [LeafTable.insertSynonym, if_neg hroom, LeafTable.csLock_ok hi h.idle.cs, ok_bind,
    hc.synonymLeaves_ok hi, ok_bind, LeafTable.pickSynonym_csLocks, hpick, ok_bind,
    f.pickedLeaf_eq] at hok
  simp only [f.holds.contain_top_of_full hN0 hfull, hfull, Bool.false_eq_true, if_false,
    if_true] at hok
  replace hok := (if_neg (c := t.available = kSynonymMax - 1) hroom).symm.trans hok
  by_cases hleaf : alloc.used < alloc.allocated
  · obtain ⟨t', alloc', slots', hsplit, hadd, hrep, hup, hused, hall, hleaves, hnums, hrest⟩ :=
      splitLeaf_halves fc hc hi hN hlen (lt_of_le_of_ne h.countLe hroom) hleaf ⊤
    have hhalf : (b.drop (N / 2)).length < N := by
      rw [List.length_drop, hlen]
      obtain ⟨m, rfl⟩ := hN
      omega
    rw [hsplit, ok_bind, if_pos (insertHere_top _)] at hok
    simp only [hup.insertNotFull_top hhalf, LeafAllocator.write_self] at hok
    obtain rfl := Except.ok.inj hok
    have hord := ordered_halve (f.located.eq ▸ h.ordered i hi) hN hN0 hlen
    exact ⟨hadd.entryNum, _, slots',
      h.step_split hi hadd hrep hord hused hall hleaves f.nums hnums hrest⟩
  · rw [LeafTable.splitLeaf, LeafAllocator.fetchNewLeaf, if_neg hleaf] at hok
    cases hok

/-- Whatever its key is, an insert or an update that returns changes one chain. -/
theorem Sound.stores_of_ok {s s' : TableState K V N} (h : Sound s.table s.alloc slots chains)
    (hN : Even N) (hN0 : 0 < N) {op : TableOp K V} (hop : op.Stores) {ans : Answer V}
    (hok : s.call op lo hi = .ok (ans, s')) :
    s'.table.entryNum = s.table.entryNum ∧ ∃ i < s.table.size, ∃ bs slots',
      Step s.table s.alloc slots chains i bs s'.table s'.alloc slots' := by
  cases op with
  | search key => exact hop.elim
  | remove key => exact hop.elim
  | update key val =>
    obtain ⟨res, hup, hok⟩ := bind_eq_ok hok
    obtain ⟨_, rfl⟩ := Prod.mk.inj (Except.ok.inj hok)
    rcases lt_or_eq_of_le (le_top (a := key)) with hk | rfl
    · obtain ⟨hlt, _, ht, hstep⟩ := h.update_of_ok hk hup
      dsimp only
      rw [ht]
      exact ⟨rfl, _, hlt, _, _, hstep⟩
    · rw [LeafTable.update] at hup
      split at hup
      · rename_i hlt
        obtain ⟨q, hpick, hup⟩ := bind_eq_ok hup
        obtain ⟨hi, hleaf⟩ := h.toRepresents.pickEntry_any hlt hpick
        obtain ⟨p, es, _, _, hup', hstep⟩ := h.updateSynonym_top hi val
        rw [hleaf, hup'] at hup
        obtain rfl := Except.ok.inj hup
        exact ⟨rfl, _, hi, _, _, hstep⟩
      · cases hup
  | insert key val =>
    obtain ⟨res, hins, hok⟩ := bind_eq_ok hok
    obtain ⟨_, rfl⟩ := Prod.mk.inj (Except.ok.inj hok)
    rcases lt_or_eq_of_le (le_top (a := key)) with hk | rfl
    · obtain ⟨hle, hlt, hcase⟩ := h.insert_of_ok hN hN0 hk hins
      rcases hcase with ⟨rfl, _⟩ | ⟨_, _, _, hnum, slots', hstep⟩
      · exact ⟨rfl, target chains key lo hi, (target_le hle).trans_lt hlt, _, _, Step.refl h _⟩
      · exact ⟨hnum, _, (target_le hle).trans_lt hlt, _, slots', hstep⟩
    · rw [LeafTable.insert] at hins
      split at hins
      · rename_i hlt
        obtain ⟨q, hpick, hins⟩ := bind_eq_ok hins
        obtain ⟨hi, hleaf⟩ := h.toRepresents.pickEntry_any hlt.1 hpick
        rw [hleaf] at hins
        obtain ⟨hnum, bs, slots', hstep⟩ := h.insertSynonym_top hN hN0 hi hins
        exact ⟨hnum, _, hi, bs, slots', hstep⟩
      · cases hins

end Table

/-- The state that inserts and updates with any keys and windows lead to. -/
theorem Sound.run_stores (hN : Even N) (hN0 : 0 < N) {calls : List (TableOp K V × ℕ × ℕ)} :
    ∀ {s s' : TableState K V N} {slots : ℕ → List ℕ} {chains : ℕ → List (List (K × V))}
      {answers : List (Answer V)}, Sound s.table s.alloc slots chains →
      (∀ c ∈ calls, c.1.Stores) → s.run calls = .ok (answers, s') →
      ∃ slots' chains', Sound s'.table s'.alloc slots' chains' ∧
        s'.alloc.used + s.table.available = s.alloc.used + s'.table.available ∧
        s'.alloc.allocated = s.alloc.allocated := by
  induction calls with
  | nil =>
    intro s s' slots chains answers h _ hrun
    obtain ⟨_, rfl⟩ := Prod.mk.inj (Except.ok.inj hrun)
    exact ⟨slots, chains, h, rfl, rfl⟩
  | cons c calls ih =>
    intro s s' slots chains answers h hc hrun
    obtain ⟨⟨ans, s₁⟩, hcall, hrun⟩ := bind_eq_ok hrun
    obtain ⟨⟨rest, s₂⟩, hrest, hok⟩ := bind_eq_ok hrun
    obtain ⟨_, rfl⟩ := Prod.mk.inj (Except.ok.inj hok)
    obtain ⟨_, i, _, bs, slots₁, hstep⟩ := h.stores_of_ok hN hN0 (hc c List.mem_cons_self) hcall
    obtain ⟨slots', chains', h', hcount, hall⟩ :=
      ih hstep.sound (fun x hx => hc x (List.mem_cons_of_mem _ hx)) hrest
    have hcount₁ := hstep.count
    refine ⟨slots', chains', h', ?_, hall.trans hstep.allocated⟩
    dsimp only at hcount ⊢
    omega

end Rolex
