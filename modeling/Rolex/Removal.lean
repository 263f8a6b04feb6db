import Rolex.MapRefinement

/-! Removing a key. The leaf of a table entry stays in place when it is emptied, but
no longer starts at or below any key, so the loops over the window pass it by.
A key of its synonym leaves is then found only where its window starts. -/

namespace Rolex
open AscendingMap BlockChain

variable {K V : Type} {N : ℕ} [LinearOrder K] [OrderTop K]

def Present (s : TableState K V N) (k : K) : Prop := ∃ es, s.stored = .ok es ∧ ∃ v, (k, v) ∈ es

/-- `remove(k)` answers whether `k` was there, and searching any other key gives what it gave. -/
def RemoveExact (lo hi : K → ℕ) (s : TableState K V N) (k : K) : Prop :=
  ∃ res s', s.call (.remove k) (lo k) (hi k) = .ok (.done res, s') ∧ (res = true ↔ Present s k) ∧
    ∀ k' < ⊤, k' ≠ k → s'.table.search s'.alloc k' (lo k') (hi k') =
      s.table.search s.alloc k' (lo k') (hi k')

/-- `remove(k)` empties the leaf of the table entry that it works on, and on the chain of this
entry there is another key whose window starts before the entry. -/
def Strands (lo hi : K → ℕ) (s : TableState K V N) (k : K) : Prop :=
  ∃ i leaf es, s.table.pickEntry s.alloc k (lo k) (hi k) = .ok (i, leaf) ∧
    (s.alloc.leaves leaf).isEmpty = false ∧ ((s.alloc.leaves leaf).remove k).2.isEmpty = true ∧
    s.table.chainEntries s.alloc i = .ok es ∧ ∃ e ∈ es, e.1 ≠ k ∧ lo e.1 < i

/-- The states of the runs none of whose removals strands a key. -/
inductive Reaches (lo hi : K → ℕ) (s₀ : TableState K V N) : TableState K V N → Prop where
  | start : Reaches lo hi s₀ s₀
  | call {s s' : TableState K V N} {op : TableOp K V} {a : Answer V} : Reaches lo hi s₀ s →
      op.key < ⊤ → (∀ k, op = .remove k → ¬Strands lo hi s k) →
      s.call op (lo op.key) (hi op.key) = .ok (a, s') → Reaches lo hi s₀ s'

namespace Tracks

variable {lo hi : K → ℕ} {s : TableState K V N} {m : AscendingMap K V} {slots : ℕ → List ℕ}
  {chains : ℕ → List (List (K × V))} {k : K}

theorem strands_iff (h : Tracks lo hi s m slots chains) (hk : k < ⊤) :
    Strands lo hi s k ↔ Homed.StrandsIn chains lo k (home chains lo hi k) := by
  have hhome := h.home_lt hk
  have hpick := h.sound.pickEntry_ok hk (h.windows.le k hk) (h.windows.lt k hk)
  have hentries := h.sound.chainEntries_ok hhome
  obtain ⟨b, rest, hc⟩ := List.exists_cons_of_ne_nil (h.sound.chain_ne_nil hhome)
  have hf := h.sound.holds _ hhome
  rw [hc, LeafTable.chainNums, List.forall₂_cons] at hf
  have hempty : (s.alloc.leaves (s.table.entryNum (home chains lo hi k))).isEmpty = false ↔
      b ≠ [] := by
    rw [← Bool.not_eq_true, hf.1.isEmpty_iff]
  have hempty' := (Leaf.remove_holds (k := k) hf.1 hk).2.isEmpty_iff
  have hhead : (chains (home chains lo hi k)).headD [] = b := by rw [hc]; rfl
  rw [Homed.StrandsIn, hhead, ← hempty, ← hempty']
  constructor
  · rintro ⟨i, leaf, es, hp, h1, h2, he, hx⟩
    obtain ⟨rfl, rfl⟩ := Prod.ext_iff.mp (Except.ok.inj (hpick.symm.trans hp))
    obtain rfl := Except.ok.inj (hentries.symm.trans he)
    exact ⟨h1, h2, hx⟩
  · rintro ⟨h1, h2, hx⟩
    exact ⟨_, _, _, hpick, h1, h2, hentries, hx⟩

theorem present_iff (h : Tracks lo hi s m slots chains) :
    Present s k ↔ (m.find k).isSome = true := by
  obtain ⟨es, hes, hperm⟩ := h.shows.stored
  rw [Option.isSome_iff_exists]
  constructor
  · rintro ⟨es', hes', v, hv⟩
    obtain rfl := Except.ok.inj (hes.symm.trans hes')
    exact ⟨v, (lookup_eq_some m.ascending k v).mpr (hperm.mem_iff.mp hv)⟩
  · rintro ⟨v, hv⟩
    exact ⟨es, hes, v, hperm.mem_iff.mpr ((lookup_eq_some m.ascending k v).mp hv)⟩

theorem removeExact_of_not_strands (h : Tracks lo hi s m slots chains) (hN : Even N) (hN0 : 0 < N)
    (hk : k < ⊤) (hs : ¬Strands lo hi s k) : RemoveExact lo hi s k := by
  obtain ⟨ans, s', hcall⟩ := h.sound.call_returns hN hN0 (.remove k) (fun _ _ he => by cases he) hk
    (h.windows.le k hk) (h.windows.lt k hk)
  have hk' : (TableOp.remove k : TableOp K V).key < ⊤ := hk
  obtain ⟨rfl, slots', chains', h'⟩ := h.call_of_ok hN hN0 hk' (fun k' he hin => by
    obtain rfl := TableOp.remove.inj he
    exact hs ((h.strands_iff hk).mpr hin)) hcall
  refine ⟨_, s', hcall, h.present_iff.symm, fun k' hk' hne => ?_⟩
  rw [h'.shows.search k' hk', h.shows.search k' hk', mapCall, find_erase, if_neg hne]

theorem not_removeExact_of_strands (h : Tracks lo hi s m slots chains) (hN : Even N) (hN0 : 0 < N)
    (hk : k < ⊤) (hs : Strands lo hi s k) : ¬RemoveExact lo hi s k := by
  rintro ⟨res, s', hcall, _, hsearch⟩
  have hk' : (TableOp.remove k : TableOp K V).key < ⊤ := hk
  obtain ⟨hne, hempty, e, he, hek, hlo⟩ := (h.strands_iff hk).mp hs
  have hhome := h.home_lt hk
  have hord := h.sound.ordered _ hhome
  have hlt := h.homed.below _ hhome e he
  obtain ⟨_, _, ⟨slots₁, hstep⟩, _⟩ := h.sound.call_of_ok hN hN0 hk' hcall
  have hsize : s'.table.size = s.table.size := hstep.size
  have hle := h.windows.le e.1 hlt
  have hafter := hstep.sound.search_ok hlt hle (by rw [hsize]; exact h.windows.lt e.1 hlt)
  have hbefore := h.shows.search e.1 hlt
  have hfound : m.find e.1 = some e.2 :=
    (lookup_eq_some m.ascending e.1 e.2).mpr ((h.mem _).mp ⟨_, hhome, he⟩)
  -- the way of the key passes the emptied leaf
  set chains' := Function.update chains (home chains lo hi k)
    (TableOp.edit (.remove k) N s.room (chains (home chains lo hi k))) with hc'
  have hnot : target chains' e.1 (lo e.1) (hi e.1) ≠ home chains lo hi k := by
    intro heq
    obtain ⟨_, _, hop, _⟩ := (target_eq_iff hle).mp heq
    rcases hop with hop | hop
    · omega
    · have hhead : (chains' (home chains lo hi k)).headD [] = [] := by
        rw [hc', Function.update_self]
        exact (head_remove hord).trans hempty
      rw [hhead] at hop
      cases hop
  have hnone : (chains' (target chains' e.1 (lo e.1) (hi e.1))).flatten.lookup e.1 = none := by
    rw [lookup_eq_none]
    intro x hx hxe
    have hj : target chains' e.1 (lo e.1) (hi e.1) < s.table.size :=
      (target_le hle).trans_lt (h.windows.lt e.1 hlt)
    rw [hc', Function.update_of_ne hnot] at hx
    have h1 := h.homed.target _ hj x hx
    have h2 := h.homed.target _ hhome e he
    rw [hxe] at h1
    exact hnot (h1.symm.trans h2)
  have hval := Except.ok.inj ((hafter.symm.trans (hsearch e.1 hlt hek)).trans hbefore)
  cases hnone.symm.trans (hval.trans hfound)

theorem reaches (hN : Even N) (hN0 : 0 < N) {s₀ : TableState K V N} {m₀ : AscendingMap K V}
    {slots₀ : ℕ → List ℕ} {chains₀ : ℕ → List (List (K × V))}
    (h : Tracks lo hi s₀ m₀ slots₀ chains₀) (hr : Reaches lo hi s₀ s) :
    ∃ m slots chains, Tracks lo hi s m slots chains := by
  induction hr with
  | start => exact ⟨m₀, slots₀, chains₀, h⟩
  | call hr hk hs hcall ih =>
    rename_i s s' op a
    obtain ⟨m, slots, chains, h⟩ := ih
    obtain ⟨_, slots₁, chains₁, h₁⟩ := h.call_of_ok hN hN0 hk (fun k he hin => by
      subst he
      exact hs k rfl ((h.strands_iff hk).mpr hin)) hcall
    exact ⟨_, _, _, h₁⟩

end Tracks

/-- In every state of a run that strands no key, a removal is exact unless it strands a key. -/
theorem removeExact_iff (hN : Even N) (hN0 : 0 < N) {data : List (K × V)} {s₀ : TableState K V N}
    (h : Trained data s₀) {lo hi : K → ℕ} (hw : Windows lo hi s₀.table.size)
    (hmono : ∀ a b, a ≤ b → b < ⊤ → lo a ≤ lo b)
    (hleaf : ∀ k < ⊤, lo k ≤ SubModel.trainedLeaf N data k ∧ SubModel.trainedLeaf N data k ≤ hi k)
    {s : TableState K V N} (hr : Reaches lo hi s₀ s) {k : K} (hk : k < ⊤) :
    RemoveExact lo hi s k ↔ ¬Strands lo hi s k := by
  have h₀ := h.tracks hN0 hw hmono fun j hj hlt => by
    have hj' := hleaf data[j].1 hlt
    rwa [SubModel.trainedLeaf_getElem hN0 h.ascending hj] at hj'
  obtain ⟨m, slots, chains, ht⟩ := h₀.reaches hN hN0 hr
  exact ⟨fun hx hs => ht.not_removeExact_of_strands hN hN0 hk hs hx,
    ht.removeExact_of_not_strands hN hN0 hk⟩

/-- Two leaves, `1, 2` and `10, 20`, windows `[0, 1]`. Inserting 15 splits the second leaf into
`10, 15` and a synonym leaf `20`; removing 10 and then 15 empties it, and 20 is lost. -/
theorem split_table : ∃ s₀ s₁ s₂ s₃ : TableState Key ℕ 2,
    Trained [(1, 10), (2, 20), (10, 100), (20, 200)] s₀ ∧ s₀.Enough ∧
    s₀.call (.insert 15 150) 0 1 = .ok (.done true, s₁) ∧
    s₁.table.chainLeaves s₁.alloc 1 = .ok [1, 2] ∧
    s₁.stored = .ok [(1, 10), (2, 20), (10, 100), (15, 150), (20, 200)] ∧
    s₁.table.search s₁.alloc 7 0 1 = .ok none ∧
    s₁.call (.remove 10) 0 1 = .ok (.done true, s₂) ∧
    s₂.table.search s₂.alloc 20 0 1 = .ok (some 200) ∧
    s₂.call (.remove 15) 0 1 = .ok (.done true, s₃) ∧
    s₃.table.search s₃.alloc 20 0 1 = .ok none := by
  have hrun : (do
      let q ← SubModel.construct (fun _ => ⟨0, 0, 0, 0⟩) () ()
        [((1 : Key), 10), (2, 20), (10, 100), (20, 200)]
        (LeafAllocator.prealloc (fun _ => zeroLeaf 2) 200 (by norm_num))
      let r ← (TableState.mk q.1.ltable q.2).call (.insert 15 150) 0 1
      let leaves ← r.2.table.chainLeaves r.2.alloc 1
      let es ← r.2.stored
      let seven ← r.2.table.search r.2.alloc 7 0 1
      let u ← r.2.call (.remove 10) 0 1
      let before ← u.2.table.search u.2.alloc 20 0 1
      let w ← u.2.call (.remove 15) 0 1
      let after ← w.2.table.search w.2.alloc 20 0 1
      Except.ok (decide (q.2.used + (kSynonymMax - 1) ≤ q.2.allocated + q.1.ltable.available), r.1,
      leaves, es,
        seven, u.1, before, w.1, after)) =
      .ok (true, .done true, [1, 2], [(1, 10), (2, 20), (10, 100), (15, 150), (20, 200)], none,
      .done true, some 200,
        .done true, none) := by rfl
  obtain ⟨q, hq, hrun⟩ := bind_eq_ok hrun
  obtain ⟨⟨a₁, s₁⟩, hr, hrun⟩ := bind_eq_ok hrun
  obtain ⟨leaves, hleaves, hrun⟩ := bind_eq_ok hrun
  obtain ⟨es, hes, hrun⟩ := bind_eq_ok hrun
  obtain ⟨seven, hseven, hrun⟩ := bind_eq_ok hrun
  obtain ⟨⟨a₂, s₂⟩, hu, hrun⟩ := bind_eq_ok hrun
  obtain ⟨before, hbefore, hrun⟩ := bind_eq_ok hrun
  obtain ⟨⟨a₃, s₃⟩, hw, hrun⟩ := bind_eq_ok hrun
  obtain ⟨after, hafter, hrun⟩ := bind_eq_ok hrun
  obtain ⟨henough, hrun⟩ := Prod.mk.inj (Except.ok.inj hrun)
  obtain ⟨rfl, rfl, rfl, rfl, rfl, rfl, rfl, rfl⟩ : a₁ = .done true ∧ leaves = [1, 2] ∧
      es = [(1, 10), (2, 20), (10, 100), (15, 150), (20, 200)] ∧ seven = none ∧ a₂ = .done true ∧
      before = some 200 ∧ a₃ = .done true ∧ after = none := by
    simpa using hrun
  have hfresh := LeafAllocator.prealloc_fresh (fun _ => zeroLeaf 2) 200 (by norm_num)
  have henough : (TableState.mk q.1.ltable q.2).Enough := by
    rw [TableState.Enough]
    exact of_decide_eq_true henough
  exact ⟨_, s₁, s₂, s₃, ⟨by decide, Unit, (), (), _, _, q.1, hfresh, hq, rfl⟩, henough, hr, hleaves,
    hes, hseven, hu, hbefore, hw, hafter⟩

theorem removeExact_iff_split : ∃ s₀ s : TableState Key ℕ 2,
    Trained [(1, 10), (2, 20), (10, 100), (20, 200)] s₀ ∧
    s₀.call (.insert 15 150) 0 1 = .ok (.done true, s) ∧
    s.table.chainLeaves s.alloc 1 = .ok [1, 2] ∧
    ∀ k < ⊤, RemoveExact (fun _ => 0) (fun _ => 1) s k ↔
      ¬Strands (fun _ => 0) (fun _ => 1) s k := by
  obtain ⟨s₀, s₁, _, _, h, _, hins, hleaves, _⟩ := split_table
  have hsize := h.size (by norm_num)
  have hreach : Reaches (fun _ => 0) (fun _ => 1) s₀ s₁ :=
    Reaches.start.call (show (TableOp.insert 15 150 : TableOp Key ℕ).key < ⊤ by decide)
      (fun _ he => by cases he) hins
  exact ⟨s₀, s₁, h, hins, hleaves, fun k hk => removeExact_iff (by decide) (by norm_num) h
    ⟨fun _ _ => Nat.zero_le 1, fun _ _ => by rw [hsize]; decide⟩ (fun _ _ _ _ => le_rfl)
    (fun k _ => ⟨Nat.zero_le _, Nat.findGreatest_le _⟩) hreach hk⟩

theorem remove_strands_key : ∃ (s₀ s : TableState Key ℕ 2),
    Trained [(1, 10), (2, 20), (10, 100), (20, 200)] s₀ ∧ s₀.Enough ∧
    Windows (fun _ : Key => 0) (fun _ => 1) s₀.table.size ∧
    (∀ k : Key, SubModel.trainedLeaf 2 [(1, 10), (2, 20), (10, 100), (20, 200)] k ≤ 1) ∧
    s₀.run [(.insert 15 150, 0, 1), (.remove 10, 0, 1)] = .ok ([.done true, .done true], s) ∧
    s.table.search s.alloc 20 0 1 = .ok (some 200) ∧
    (∃ s', s.call (.remove 15) 0 1 = .ok (.done true, s') ∧
      s'.table.search s'.alloc 20 0 1 = .ok none) ∧
    ¬RemoveExact (fun _ => 0) (fun _ => 1) s 15 := by
  obtain ⟨s₀, s₁, s₂, s₃, h, henough, hins, _, _, _, hrem, hbefore, hlast, hafter⟩ := split_table
  have hsize := h.size (by norm_num)
  refine ⟨s₀, s₂, h, henough, ⟨fun _ _ => Nat.zero_le 1, fun _ _ => by rw [hsize]; decide⟩,
    fun k => Nat.findGreatest_le _, ?_, hbefore, ⟨s₃, hlast, hafter⟩, ?_⟩
  · rw [TableState.run, hins, ok_bind, TableState.run, hrem, ok_bind]
    rfl
  · rintro ⟨res, s', hs', _, hsame⟩
    obtain ⟨_, rfl⟩ := Prod.mk.inj (Except.ok.inj (hlast.symm.trans hs'))
    cases hafter.symm.trans ((hsame 20 (by decide) (by decide)).trans hbefore)

end Rolex
