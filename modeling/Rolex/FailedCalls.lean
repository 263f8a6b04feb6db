import Rolex.MapRefinement

/-!
Runs of a trained table in which every call returns. A call that answers `false` leaves the memory
as it was, and no lock stays taken.
-/

namespace Rolex
open AscendingMap BlockChain

variable {K V : Type} {N : ℕ} [LinearOrder K] [OrderTop K]

theorem Sound.run_of_ok (hN : Even N) (hN0 : 0 < N) {calls : List (TableOp K V × ℕ × ℕ)} :
    ∀ {s s' : TableState K V N} {slots : ℕ → List ℕ} {chains : ℕ →
      List (List (K × V))} {answers : List (Answer V)}, Sound s.table s.alloc slots chains →
      (∀ c ∈ calls, c.1.key < ⊤) → s.run calls = .ok (answers, s') →
      ∃ slots' chains', Sound s'.table s'.alloc slots' chains' := by
  induction calls with
  | nil =>
    intro s s' slots chains answers h _ hrun
    obtain ⟨_, rfl⟩ := Prod.mk.inj (Except.ok.inj hrun)
    exact ⟨slots, chains, h⟩
  | cons c calls ih =>
    intro s s' slots chains answers h hc hrun
    obtain ⟨⟨ans, s₁⟩, hcall, hrun⟩ := bind_eq_ok hrun
    obtain ⟨⟨rest, s₂⟩, hrest, hok⟩ := bind_eq_ok hrun
    obtain ⟨_, rfl⟩ := Prod.mk.inj (Except.ok.inj hok)
    obtain ⟨_, _, ⟨slots', hstep⟩, _⟩ := h.call_of_ok hN hN0 (hc c List.mem_cons_self) hcall
    exact ih hstep.sound (fun x hx => hc x (List.mem_cons_of_mem _ hx)) hrest

/-- In every state of a trained table, a call that answers `false` changes nothing, and all locks
are free. -/
theorem failed_call_unchanged (hN : Even N) (hN0 : 0 < N) {data : List (K × V)}
    {s₀ s s' : TableState K V N} (h : Trained data s₀) {calls : List (TableOp K V × ℕ × ℕ)}
    (hc : ∀ c ∈ calls, c.1.key < ⊤) {answers : List (Answer V)}
    (hrun : s₀.run calls = .ok (answers, s)) {op : TableOp K V} (hk : op.key < ⊤) {lo hi : ℕ}
    (hcall : s.call op lo hi = .ok (.done false, s')) : s' = s ∧ s'.table.Idle := by
  obtain ⟨base, hfilled⟩ := h.filled hN0
  obtain ⟨slots, chains, hsound⟩ := (hfilled.sound h.ascending).run_of_ok hN hN0 hc hrun
  obtain rfl := (hsound.call_of_ok hN hN0 hk hcall).2.2.2 rfl
  exact ⟨rfl, hsound.idle⟩

theorem failed_call_unchanged_twenty : ∃ (s₀ s s' : TableState Key ℕ 2) (answers : List (Answer ℕ)),
    Trained [(1, 10), (2, 20), (10, 100), (20, 200)] s₀ ∧
    s₀.run [(.insert 15 150, 0, 1), (.remove 10, 0, 1)] = .ok (answers, s) ∧
    s.call (.insert 20 7) 0 1 = .ok (.done false, s') ∧ s' = s ∧ s'.table.Idle := by
  have hasc : Ascending [((1 : Key), 10), (2, 20), (10, 100), (20, 200)] := by decide
  have hfresh := LeafAllocator.prealloc_fresh (fun _ => zeroLeaf 2) 200 (by norm_num)
  have hrun : (do
      let q ← SubModel.construct (fun _ => ⟨0, 0, 0, 0⟩) () ()
        [((1 : Key), 10), (2, 20), (10, 100), (20, 200)]
        (LeafAllocator.prealloc (fun _ => zeroLeaf 2) 200 (by norm_num))
      let r ← (TableState.mk q.1.ltable q.2).run [(.insert 15 150, 0, 1), (.remove 10, 0, 1)]
      let u ← r.2.call (.insert 20 7) 0 1
      Except.ok u.1) = .ok (.done false) := by rfl
  obtain ⟨q, hq, hrun⟩ := bind_eq_ok hrun
  obtain ⟨⟨answers, s⟩, hr, hrun⟩ := bind_eq_ok hrun
  obtain ⟨⟨ans, s'⟩, hu, hrun⟩ := bind_eq_ok hrun
  obtain rfl := Except.ok.inj hrun
  have htrained : Trained [((1 : Key), 10), (2, 20), (10, 100), (20, 200)]
      (TableState.mk q.1.ltable q.2) :=
    ⟨hasc, Unit, (), (), _, _, q.1, hfresh, hq, rfl⟩
  exact ⟨_, s, s', answers, htrained, hr, hu,
    failed_call_unchanged (by decide) (by norm_num) htrained
    (fun c hc => by fin_cases hc <;> decide) hr (by decide) hu⟩

end Rolex
