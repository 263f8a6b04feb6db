import Rolex.MapRefinement

/-! The links of the synonym slots in every state of a run, whatever the windows
of the calls are. -/

namespace Rolex
open LinkedSlots

variable {K V : Type} {N : ℕ} [LinearOrder K] [OrderTop K]

/-- The slots behind entry `i` are `slots i`. -/
structure TableState.Linked (s : TableState K V N) (slots : ℕ → List ℕ) : Prop where
  -- `while(s_idx!=0)` ends, and has visited these slots.
  walks : ∀ i < s.table.size, s.table.synonymLeaves i = .ok (slots i)
  handedOut : ∀ i < s.table.size, ∀ x ∈ slots i, 1 ≤ x ∧ x < s.table.available
  count : s.table.available ≤ kSynonymMax - 1
  nodup : ∀ i < s.table.size, (slots i).Nodup
  disjoint : ∀ i < s.table.size, ∀ j < s.table.size, i ≠ j → (slots i).Disjoint (slots j)
  -- A slot number survives the 8 bits of a link, also the next one to be handed out.
  byte : ∀ x ≤ s.table.available, (Fin.ofNat (2 ^ 8) x).val = x
  numsNodup : ((List.range s.table.size).flatMap fun i => s.table.chainNums i (slots i)).Nodup
  numsUsed : ∀ i < s.table.size, ∀ p ∈ s.table.chainNums i (slots i), p < s.alloc.used
  getLeaf : ∀ i < s.table.size, ∀ p ∈ s.table.chainNums i (slots i), s.alloc.getLeaf p = .ok p

theorem Represents.linked {s : TableState K V N} {slots : ℕ → List ℕ}
    {chains : ℕ → List (List (K × V))} (h : Represents s.table s.alloc slots chains) :
    s.Linked slots where
  walks := fun _ hi => h.synonymLeaves_ok hi
  handedOut := fun i hi x hx =>
    ⟨Nat.one_le_iff_ne_zero.mpr (h.slot_ne_zero hi hx), h.handedOut i hi x hx⟩
  count := h.countLe
  nodup := fun i hi => (h.path i hi).nodup
  disjoint := h.separate
  byte := fun x hx => by
    have hlt : x < 128 := (hx.trans h.countLe).trans_lt (by norm_num)
    exact Nat.mod_eq_of_lt (by omega)
  numsNodup := by
    rw [List.nodup_flatMap]
    refine ⟨fun i hi => h.numsNodup i (List.mem_range.mp hi), ?_⟩
    refine List.pairwise_lt_range.imp_of_mem fun hi hj hij => ?_
    exact h.numsSeparate _ (List.mem_range.mp hi) _ (List.mem_range.mp hj) hij.ne
  numsUsed := h.numsUsed
  getLeaf := fun i hi p hp => LeafAllocator.getLeaf_ok (h.numsUsed i hi p hp) h.usedLe

/-- No call of a run on a trained table fails, and the slots of the state it reaches are linked. -/
theorem linked_of_run (hN : Even N) (hN0 : 0 < N) {data : List (K × V)} {s : TableState K V N}
    (h : Trained data s) (he : s.Enough) {calls : List (TableOp K V × ℕ × ℕ)}
    (hcalls : ∀ c ∈ calls, c.1.key < ⊤ ∧ c.2.1 ≤ c.2.2 ∧ c.2.2 < s.table.size) :
    ∃ answers s' slots, s.run calls = .ok (answers, s') ∧ s'.Linked slots := by
  obtain ⟨base, hf⟩ := h.filled hN0
  obtain ⟨answers, s', slots, chains, hrun, hs, _⟩ :=
    (hf.sound h.ascending).run_ok hN hN0 he hcalls
  exact ⟨answers, s', slots, hrun, hs.toRepresents.linked⟩

theorem linked_of_run_three : ∃ s : TableState Key ℕ 2, Trained [(1, 10), (2, 20), (3, 30)] s ∧
    ∃ answers s' slots, s.run [(.insert 0 5, 0, 1), (.remove 2, 0, 0), (.insert 7 70, 1, 1)] =
      .ok (answers, s') ∧ s'.Linked slots := by
  obtain ⟨s, h, he, hsize⟩ := trained_three
  refine ⟨s, h, linked_of_run (by decide) (by norm_num) h he ?_⟩
  rw [hsize]
  decide

end Rolex
