import Rolex.Foundations.BlockFill
import Rolex.Links
import Rolex.Removal
import Rolex.TrainPartition

/-!
The leaves that a table has in use while nothing is removed from it: every leaf that was fetched is
on a chain, and all of them are half full but the one that training left short.
-/

namespace Rolex
open AscendingMap BlockChain

variable {K V : Type} {N : ℕ} [LinearOrder K] [OrderTop K]

def TableState.linkedLeaves (s : TableState K V N) : Except Fault (List ℕ) := do
  let ls ← (List.range s.table.table.length).mapM (s.table.chainLeaves s.alloc)
  .ok ls.flatten

/-- The leaf that may be short is the first one of the last entry; every slot but the counter links
a leaf. -/
structure Packed (s : TableState K V N) (chains : ℕ → List (List (K × V))) : Prop where
  fill : ∀ i < s.table.size, Fill (N / 2) (if i + 1 < s.table.size then N / 2 else 0) (chains i)
  count : ∑ i ∈ Finset.range s.table.size, (chains i).length + 1 = s.table.size + s.table.available

namespace Sound

variable {s s' : TableState K V N} {slots : ℕ → List ℕ} {chains : ℕ → List (List (K × V))}
  {lo hi : ℕ}

theorem call_insert (h : Sound s.table s.alloc slots chains) {key : K} (hk : key < ⊤) {val : V}
    (hle : lo ≤ hi) (hlt : hi < s.table.size) {res : Bool × LeafTable × LeafAllocator K V N}
    (hres : s.table.insertSynonym s.alloc key val (target chains key lo hi)
      (s.table.entryNum (target chains key lo hi)) = .ok res) :
    s.call (.insert key val) lo hi = .ok (.done res.1, ⟨res.2.1, res.2.2⟩) := by
  rw [TableState.call, LeafTable.insert, if_pos ⟨hlt, hle⟩, h.toRepresents.pickEntry_ok hk hle hlt,
    ok_bind]
  dsimp only
  rw [hres, ok_bind]

theorem insert_available (h : Sound s.table s.alloc slots chains) (hN : Even N) (hN0 : 0 < N)
    (henough : s.Enough) {key : K} (hk : key < ⊤) {val : V} (hle : lo ≤ hi)
    (hlt : hi < s.table.size) (hroom : s.table.available < kSynonymMax - 1)
    (hnone : (chains (target chains key lo hi)).flatten.lookup key = none) {ans : Answer V}
    (hcall : s.call (.insert key val) lo hi = .ok (ans, s')) :
    s'.table.available + (chains (target chains key lo hi)).length =
      s.table.available + (BlockChain.insert N key val
        (chains (target chains key lo hi))).length := by
  have hi' : target chains key lo hi < s.table.size := (target_le hle).trans_lt hlt
  obtain ⟨pre, b, post, npre, p, npost, f⟩ := h.toRepresents.exists_focus hi' key
  have hlen := length_edit f.located (grow N key val)
  rw [length_grow] at hlen
  rw [BlockChain.insert]
  by_cases hfull : b.length = N
  · have hleaf : s.alloc.used < s.alloc.allocated := by
      rw [TableState.Enough] at henough
      omega
    obtain ⟨t', alloc', slots', hok, _, hcount, _⟩ :=
      h.insertSynonym_absent hN hN0 hi' hk hnone hroom (fun _ _ _ _ _ => hleaf) val
    rw [h.call_insert hk hle hlt hok] at hcall
    obtain ⟨_, rfl⟩ := Prod.mk.inj (Except.ok.inj hcall)
    have hc := hcount pre b post f.located hfull
    rw [if_neg (by omega)] at hlen
    dsimp only
    omega
  · have hok := h.insertSynonym_eq f hN0 hi' hk hnone hroom val
    rw [if_neg hfull] at hok
    rw [h.call_insert hk hle hlt hok] at hcall
    obtain ⟨_, rfl⟩ := Prod.mk.inj (Except.ok.inj hcall)
    rw [if_pos (by have := f.holds.length_le; omega)] at hlen
    dsimp only
    omega

theorem call_available (h : Sound s.table s.alloc slots chains) (hN : Even N) (hN0 : 0 < N)
    (henough : s.Enough) {op : TableOp K V} (hop : ∀ k, op ≠ .remove k) (hk : op.key < ⊤)
    (hle : lo ≤ hi) (hlt : hi < s.table.size) {ans : Answer V}
    (hcall : s.call op lo hi = .ok (ans, s')) :
    s'.table.available + (chains (target chains op.key lo hi)).length =
      s.table.available + (op.edit N s.room (chains (target chains op.key lo hi))).length := by
  have hi' : target chains op.key lo hi < s.table.size := (target_le hle).trans_lt hlt
  cases op with
  | search key =>
    obtain ⟨_, _, hcall⟩ := bind_eq_ok hcall
    obtain ⟨_, rfl⟩ := Prod.mk.inj (Except.ok.inj hcall)
    rfl
  | update key val =>
    change target chains key lo hi < s.table.size at hi'
    change key < ⊤ at hk
    obtain ⟨alloc', hok, _, _⟩ := h.updateSynonym_ok hi' hk val
    rw [TableState.call, LeafTable.update, if_pos hlt, h.toRepresents.pickEntry_ok hk hle hlt,
      ok_bind] at hcall
    dsimp only at hcall
    rw [hok, ok_bind] at hcall
    obtain ⟨_, rfl⟩ := Prod.mk.inj (Except.ok.inj hcall)
    obtain ⟨pre, b, post, hloc⟩ := exists_located key (h.toRepresents.chain_ne_nil hi')
    have hlen := length_edit hloc fun b => [assign key val b]
    rw [List.length_singleton] at hlen
    dsimp only [TableOp.edit, TableOp.key, BlockChain.update]
    omega
  | insert key val =>
    change target chains key lo hi < s.table.size at hi'
    change key < ⊤ at hk
    rw [TableOp.edit, TableOp.key]
    by_cases hroom : s.table.available < kSynonymMax - 1
    · have hr : s.room = true := decide_eq_true hroom
      cases hl : (chains (target chains key lo hi)).flatten.lookup key with
      | none =>
        rw [hr, if_pos (by simp)]
        exact h.insert_available hN hN0 henough hk hle hlt hroom hl hcall
      | some w =>
        have hok := h.insertSynonym_present hi' hk (by rw [hl]; exact Option.some_ne_none w) val
        rw [h.call_insert hk hle hlt hok] at hcall
        obtain ⟨_, rfl⟩ := Prod.mk.inj (Except.ok.inj hcall)
        rw [hr, if_neg (by simp)]
    · have hfull : s.table.available = kSynonymMax - 1 := le_antisymm h.countLe (not_lt.mp hroom)
      rw [h.call_insert hk hle hlt (Sound.insertSynonym_full hfull val _)] at hcall
      obtain ⟨_, rfl⟩ := Prod.mk.inj (Except.ok.inj hcall)
      rw [show s.room = false from decide_eq_false hroom, if_neg (by simp)]
  | remove key => exact absurd rfl (hop key)

end Sound

/-! ### Runs without remove -/

/-- The slots behind the entries after calls that remove nothing: further leaves are added to
them. -/
structure Grows (s : TableState K V N) (slots : ℕ → List ℕ) (s' : TableState K V N)
    (slots' : ℕ → List ℕ) : Prop where
  size : s'.table.size = s.table.size
  used : s.alloc.used ≤ s'.alloc.used
  count : s'.alloc.used + s.table.available = s.alloc.used + s'.table.available
  nums : ∀ j < s.table.size, ∀ p ∈ s'.table.chainNums j (slots' j),
    p ∈ s.table.chainNums j (slots j) ∨ s.alloc.used ≤ p

omit [LinearOrder K] [OrderTop K] in
theorem Grows.refl (s : TableState K V N) (slots : ℕ → List ℕ) : Grows s slots s slots :=
  ⟨rfl, le_rfl, rfl, fun _ _ _ hp => Or.inl hp⟩

omit [LinearOrder K] [OrderTop K] in
theorem Grows.trans {s s' s'' : TableState K V N} {slots slots' slots'' : ℕ → List ℕ}
    (h : Grows s slots s' slots') (h' : Grows s' slots' s'' slots'') :
    Grows s slots s'' slots'' where
  size := h'.size.trans h.size
  used := h.used.trans h'.used
  count := by
    have := h.count
    have := h'.count
    omega
  nums := fun j hj p hp => by
    rcases h'.nums j (by rwa [h.size]) p hp with hp | hp
    · exact h.nums j hj p hp
    · exact Or.inr (h.used.trans hp)

theorem length_flatten_range {α : Type*} (f : ℕ → List α) (n : ℕ) :
    ((List.range n).map f).flatten.length = ∑ i ∈ Finset.range n, (f i).length := by
  rw [List.length_flatten, List.map_map]
  rfl

namespace Packed

variable {s : TableState K V N} {slots : ℕ → List ℕ} {chains : ℕ → List (List (K × V))} {lo hi : ℕ}

omit [OrderTop K] in
theorem fill_edit {m : ℕ} {bs : List (List (K × V))} (h : Fill (N / 2) m bs) (hm : m ≤ N / 2)
    (hne : bs ≠ []) {op : TableOp K V} (hop : ∀ k, op ≠ .remove k) (room : Bool) :
    Fill (N / 2) m (op.edit N room bs) := by
  cases op with
  | search key => exact h
  | update key val => exact h.update hm hne key val
  | insert key val =>
    rw [TableOp.edit]
    split
    · exact h.insert hm hne key val
    · exact h
  | remove key => exact absurd rfl (hop key)

theorem call (hp : Packed s chains) (h : Sound s.table s.alloc slots chains) (hN : Even N)
    (hN0 : 0 < N) (henough : s.Enough) {op : TableOp K V} (hop : ∀ k, op ≠ .remove k)
    (hk : op.key < ⊤) (hle : lo ≤ hi) (hlt : hi < s.table.size) :
    ∃ ans s' slots' chains', s.call op lo hi = .ok (ans, s') ∧
      Sound s'.table s'.alloc slots' chains' ∧ Packed s' chains' ∧ s'.Enough ∧
      Grows s slots s' slots' := by
  obtain ⟨s', slots', hcall, hstep, _⟩ := h.call_ok hN hN0 henough op hk hle hlt
  have hi' : target chains op.key lo hi < s.table.size := (target_le hle).trans_lt hlt
  have hav := h.call_available hN hN0 henough hop hk hle hlt hcall
  refine ⟨_, s', slots', _, hcall, hstep.sound, ⟨fun j hj => ?_, ?_⟩, hstep.enough henough,
    hstep.size, hstep.used, hstep.count, hstep.nums⟩
  · rw [hstep.size] at hj ⊢
    by_cases hji : j = target chains op.key lo hi
    · rw [hji, Function.update_self, ← hji]
      refine fill_edit (hp.fill j hj) ?_ (h.toRepresents.chain_ne_nil hj) hop s.room
      split
      · exact le_rfl
      · exact Nat.zero_le _
    · rw [Function.update_of_ne hji]
      exact hp.fill j hj
  · -- one summand changes
    have hsum := Finset.sum_update_of_mem (Finset.mem_range.mpr hi') (fun j => (chains j).length)
      (op.edit N s.room (chains (target chains op.key lo hi))).length
    have hold := Finset.sum_eq_add_sum_sdiff_singleton_of_mem (Finset.mem_range.mpr hi') fun j =>
      (chains j).length
    have hupd : (fun j => (Function.update chains (target chains op.key lo hi)
        (op.edit N s.room (chains (target chains op.key lo hi))) j).length) =
        Function.update (fun j => (chains j).length) (target chains op.key lo hi)
          (op.edit N s.room (chains (target chains op.key lo hi))).length := by
      funext j
      by_cases hj : j = target chains op.key lo hi
      · rw [hj, Function.update_self, Function.update_self]
      · rw [Function.update_of_ne hj, Function.update_of_ne hj]
    have hcount := hp.count
    rw [hstep.size, hupd, hsum]
    omega

theorem run (hN : Even N) (hN0 : 0 < N) {calls : List (TableOp K V × ℕ × ℕ)} :
    ∀ {s : TableState K V N} {slots : ℕ → List ℕ} {chains : ℕ → List (List (K × V))},
      Packed s chains → Sound s.table s.alloc slots chains → s.Enough →
      (∀ c ∈ calls, (∀ k, c.1 ≠ .remove k) ∧ c.1.key < ⊤ ∧ c.2.1 ≤ c.2.2 ∧ c.2.2 < s.table.size) →
      ∃ answers s' slots' chains', s.run calls = .ok (answers, s') ∧
        Sound s'.table s'.alloc slots' chains' ∧
        Packed s' chains' ∧ s'.Enough ∧ Grows s slots s' slots' := by
  induction calls with
  | nil => exact fun {s slots chains} hp h he _ =>
      ⟨[], s, slots, chains, rfl, h, hp, he, Grows.refl s slots⟩
  | cons c calls ih =>
    intro s slots chains hp h he hc
    obtain ⟨hop, hk, hle, hlt⟩ := hc c List.mem_cons_self
    obtain ⟨ans, s₁, slots₁, chains₁, hcall, h₁, hp₁, he₁, hg₁⟩ :=
      hp.call h hN hN0 he hop hk hle hlt
    obtain ⟨answers, s', slots', chains', hrun, hs, hp', he', hg⟩ := ih hp₁ h₁ he₁ fun x hx => by
      rw [hg₁.size]
      exact hc x (List.mem_cons_of_mem _ hx)
    refine ⟨ans :: answers, s', slots', chains', ?_, hs, hp', he', hg₁.trans hg⟩
    rw [TableState.run, hcall, ok_bind, hrun, ok_bind]

/-! ### What is stored -/

theorem leaves_ok (hp : Packed s chains) (h : Sound s.table s.alloc slots chains) : ∃ leaves,
    s.linkedLeaves = .ok leaves ∧ leaves.Nodup ∧
    leaves.length + 1 = s.table.size + s.table.available ∧
      (∀ p, p ∈ leaves ↔ ∃ i < s.table.size, p ∈ s.table.chainNums i (slots i)) ∧
      ∀ p ∈ leaves, p ≠ s.table.entryNum (s.table.size - 1) →
        N / 2 ≤ (s.alloc.leaves p).entries.length := by
  have hlen : ∀ i ∈ Finset.range s.table.size, (s.table.chainNums i (slots i)).length =
      (chains i).length :=
    fun i hi => (h.holds i (Finset.mem_range.mp hi)).length_eq
  have hmem : ∀ p, p ∈
    ((List.range s.table.size).map fun i => s.table.chainNums i (slots i)).flatten ↔
      ∃ i < s.table.size, p ∈ s.table.chainNums i (slots i) := fun p => by simp [List.mem_flatten]
  refine ⟨((List.range s.table.size).map fun i => s.table.chainNums i (slots i)).flatten, ?_, ?_,
    ?_, hmem, fun p hp' hne => ?_⟩
  · rw [TableState.linkedLeaves,
      mapM_ok fun i hi => h.toRepresents.chainLeaves_ok (List.mem_range.mp hi), ok_bind]
  · rw [← List.flatMap_def]
    exact h.toRepresents.linked.numsNodup
  · rw [length_flatten_range, Finset.sum_congr rfl hlen, hp.count]
  · obtain ⟨i, hi, hpn⟩ := (hmem p).mp hp'
    obtain ⟨hfirst, hlater⟩ := hp.fill i hi
    have hholds := h.holds i hi
    obtain ⟨b, bs, hc⟩ := List.exists_cons_of_ne_nil (h.chain_ne_nil hi)
    rw [hc] at hfirst hlater hholds
    obtain ⟨hb, hbs⟩ := List.forall₂_cons.mp hholds
    rcases List.mem_cons.mp hpn with rfl | hpn
    · -- the leaf of an entry
      have hlast : i + 1 < s.table.size := by
        by_contra hlast
        rw [show s.table.size - 1 = i by omega] at hne
        exact hne rfl
      rw [if_pos hlast] at hfirst
      rwa [hb.entries_eq]
    · obtain ⟨c, hcmem, hcp⟩ := (Represents.exists_of_forall₂ hbs).1 p hpn
      rw [hcp.entries_eq]
      exact hlater c hcmem

theorem stored_length (hp : Packed s chains) (h : Sound s.table s.alloc slots chains) : ∃ es,
    s.stored = .ok es ∧ (s.table.size + s.table.available - 2) * (N / 2) ≤ es.length := by
  refine ⟨_, h.toRepresents.stored_ok, ?_⟩
  rw [length_flatten_range]
  -- each chain has its share, but for the first leaf of the last one
  have hchain : ∀ i ∈ Finset.range s.table.size, (chains i).length * (N / 2) ≤
      (chains i).flatten.length + if i + 1 < s.table.size then 0 else N / 2 := by
    intro i hi
    have hi := Finset.mem_range.mp hi
    have hle := (hp.fill i hi).le_flatten
    obtain ⟨n, hn⟩ := Nat.exists_eq_succ_of_ne_zero
      (List.length_pos_iff.mpr (h.chain_ne_nil hi)).ne'
    rw [hn, Nat.succ_sub_one] at hle
    rw [hn, Nat.succ_mul]
    split at hle <;> split <;> omega
  have hsum := Finset.sum_le_sum hchain
  have hcount := hp.count
  rw [← Finset.sum_mul, Finset.sum_add_distrib] at hsum
  have hshort : (∑ i ∈ Finset.range s.table.size, if i + 1 < s.table.size then 0 else N / 2) ≤
      N / 2 := by
    cases hsize : s.table.size with
    | zero => exact Nat.zero_le _
    | succ n =>
      rw [Finset.sum_range_succ, if_neg (lt_irrefl _), Finset.sum_eq_zero, zero_add]
      exact fun i hi => if_pos (Nat.succ_lt_succ (Finset.mem_range.mp hi))
  have hlen : ∑ i ∈ Finset.range s.table.size,
    (chains i).length = s.table.size + s.table.available - 2 + 1 ∨
      ∑ i ∈ Finset.range s.table.size, (chains i).length = 0 := by omega
  rcases hlen with hlen | hlen
  · rw [hlen, Nat.succ_mul] at hsum
    omega
  · rw [show s.table.size + s.table.available - 2 = 0 by omega, zero_mul]
    exact Nat.zero_le _

end Packed

/-- The linked leaves are those that were linked before and those fetched since. -/
theorem Grows.linkedLeaves {s s' : TableState K V N} {slots slots' : ℕ → List ℕ}
    {chains chains' : ℕ → List (List (K × V))} (hg : Grows s slots s' slots') (hp : Packed s chains)
    (h : Sound s.table s.alloc slots chains) (hp' : Packed s' chains')
    (h' : Sound s'.table s'.alloc slots' chains') {leaves leaves' : List ℕ}
    (hleaves : s.linkedLeaves = .ok leaves) (hleaves' : s'.linkedLeaves = .ok leaves') :
    leaves'.Perm (leaves ++ List.range' s.alloc.used (s'.alloc.used - s.alloc.used)) := by
  obtain ⟨l, hl, _, hlen, hmem, _⟩ := hp.leaves_ok h
  obtain ⟨l', hl', hnodup', hlen', hmem', _⟩ := hp'.leaves_ok h'
  obtain rfl := Except.ok.inj (hleaves.symm.trans hl)
  obtain rfl := Except.ok.inj (hleaves'.symm.trans hl')
  have hsub : leaves' ⊆ leaves ++ List.range' s.alloc.used (s'.alloc.used - s.alloc.used) :=
    fun p hpl => by
    obtain ⟨i, hi, hpi⟩ := (hmem' p).mp hpl
    have hused := h'.numsUsed i hi p hpi
    rw [hg.size] at hi
    rw [List.mem_append, List.mem_range'_1]
    rcases hg.nums i hi p hpi with hold | hnew
    · exact Or.inl ((hmem p).mpr ⟨i, hi, hold⟩)
    · exact Or.inr ⟨hnew, by omega⟩
  -- as many as there can be
  refine (List.subperm_of_subset hnodup' hsub).perm_of_length_le ?_
  have hsize := hg.size
  have hused := hg.used
  have hcount := hg.count
  rw [List.length_append, List.length_range']
  omega

theorem Trained.packed {data : List (K × V)} {s : TableState K V N} (h : Trained data s)
    (hN : 0 < N) : Packed s fun i => [SubModel.block N (storable data) i] where
  fill := fun i hi => by
    refine ⟨?_, fun b hb => by cases hb⟩
    split
    · rename_i hlast
      rw [h.size hN, SubModel.leafCount, Nat.succ_lt_succ_iff] at hlast
      have hmul : (i + 1) * N ≤ data.length - 1 :=
        (Nat.le_div_iff_mul_le hN).mp (Nat.succ_le_of_lt hlast)
      have hlen := length_storable h.ascending
      rw [List.headD_cons, length_block (storable data) (by omega)]
      exact Nat.div_le_self N 2
    · exact Nat.zero_le _
  count := by
    obtain ⟨base, hf⟩ := h.filled hN
    simp only [hf.available, List.length_singleton, Finset.sum_const, Finset.card_range,
      smul_eq_mul, mul_one]

/-- In every state that inserts, updates and searches lead to, the leaves on the chains are the
trained ones and all that were fetched since, and every leaf is half full but the first one of the
last entry. -/
theorem leaves_half_full (hN : Even N) (hN0 : 0 < N) {data : List (K × V)} {s : TableState K V N}
    (h : Trained data s) (he : s.Enough) {calls : List (TableOp K V × ℕ × ℕ)}
    (hcalls : ∀ c ∈ calls, (∀ k, c.1 ≠ .remove k) ∧ c.1.key < ⊤ ∧ c.2.1 ≤ c.2.2 ∧
      c.2.2 < s.table.size) :
    ∃ answers s' trained leaves es, s.run calls = .ok (answers, s') ∧ s.linkedLeaves = .ok trained ∧
      s'.linkedLeaves = .ok leaves ∧ s'.stored = .ok es ∧ leaves.Nodup ∧
      leaves.Perm (trained ++ List.range' s.alloc.used (s'.alloc.used - s.alloc.used)) ∧
      (∀ p ∈ leaves, p ≠ s'.table.entryNum (s'.table.size - 1) →
        N / 2 ≤ (s'.alloc.leaves p).entries.length) ∧
      (leaves.length - 1) * (N / 2) ≤ es.length := by
  obtain ⟨base, hf⟩ := h.filled hN0
  have hp₀ := h.packed hN0
  have hs₀ := hf.sound h.ascending
  obtain ⟨answers, s', slots, chains, hrun, hs, hp, _, hg⟩ := hp₀.run hN hN0 hs₀ he hcalls
  obtain ⟨trained, htrained, _⟩ := hp₀.leaves_ok hs₀
  obtain ⟨leaves, hleaves, hnodup, hcount, _, hhalf⟩ := hp.leaves_ok hs
  obtain ⟨es, hes, hlen⟩ := hp.stored_length hs
  refine ⟨answers, s', trained, leaves, es, hrun, htrained, hleaves, hes, hnodup,
    hg.linkedLeaves hp₀ hs₀ hp hs htrained hleaves, hhalf, ?_⟩
  rwa [show leaves.length - 1 = s'.table.size + s'.table.available - 2 by omega]

theorem leaves_half_full_three : ∃ s : TableState Key ℕ 2, Trained [(1, 10), (2, 20), (3, 30)] s ∧
    ∃ answers s' trained leaves es,
      s.run [(.insert 0 5, 0, 1), (.insert 7 70, 1, 1), (.insert 8 80, 1, 1)] = .ok (answers, s') ∧
      s.linkedLeaves = .ok trained ∧ s'.linkedLeaves = .ok leaves ∧ s'.stored = .ok es ∧
      leaves.Nodup ∧
      leaves.Perm (trained ++ List.range' s.alloc.used (s'.alloc.used - s.alloc.used)) ∧
      (∀ p ∈ leaves, p ≠ s'.table.entryNum (s'.table.size - 1) →
        2 / 2 ≤ (s'.alloc.leaves p).entries.length) ∧
      (leaves.length - 1) * (2 / 2) ≤ es.length := by
  obtain ⟨s, h, he, hsize⟩ := trained_three
  refine ⟨s, h, leaves_half_full (by decide) (by norm_num) h he fun c hc => ?_⟩
  rw [hsize]
  fin_cases hc <;> exact ⟨by simp, by decide, by decide, by decide⟩

/-- An absent key is inserted while the table stores fewer pairs than half full leaves in all its
slots would. -/
theorem insert_accepted (hN : Even N) (hN0 : 0 < N) {data : List (K × V)} {s : TableState K V N}
    (h : Trained data s) (he : s.Enough) {calls : List (TableOp K V × ℕ × ℕ)}
    (hcalls : ∀ c ∈ calls, (∀ k, c.1 ≠ .remove k) ∧ c.1.key < ⊤ ∧ c.2.1 ≤ c.2.2 ∧
      c.2.2 < s.table.size)
    {answers : List (Answer V)} {s' : TableState K V N} (hrun : s.run calls = .ok (answers, s'))
    {es : List (K × V)} (hes : s'.stored = .ok es)
    (hfew : es.length < (s.table.size + kSynonymMax - 3) * (N / 2)) {key : K} (hk : key < ⊤)
    (val : V) {lo hi : ℕ} (hle : lo ≤ hi) (hlt : hi < s.table.size)
    (hsearch : s'.table.search s'.alloc key lo hi = .ok none) :
    ∃ s'', s'.call (.insert key val) lo hi = .ok (.done true, s'') := by
  obtain ⟨base, hf⟩ := h.filled hN0
  obtain ⟨_, s₁, slots, chains, hrun₁, hs, hp, he', hg⟩ :=
    (h.packed hN0).run hN hN0 (hf.sound h.ascending) he hcalls
  obtain ⟨_, rfl⟩ := Prod.mk.inj (Except.ok.inj (hrun.symm.trans hrun₁))
  obtain ⟨es₁, hes₁, hlen⟩ := hp.stored_length hs
  obtain rfl := Except.ok.inj (hes.symm.trans hes₁)
  have hsize := hg.size
  obtain ⟨s'', _, hcall, _⟩ := hs.call_ok hN hN0 he' (.insert key val) hk hle (by omega)
  have hnone := Except.ok.inj ((hs.search_ok hk hle (by omega)).symm.trans hsearch)
  have hroom : s'.table.available < kSynonymMax - 1 := by
    by_contra hfull
    have hle : (s.table.size + kSynonymMax - 3) * (N / 2) ≤
        (s'.table.size + s'.table.available - 2) * (N / 2) :=
      Nat.mul_le_mul_right _ (by omega)
    omega
  rw [TableOp.answer, TableOp.key, hnone, TableState.room, decide_eq_true hroom] at hcall
  exact ⟨s'', hcall⟩

theorem insert_accepted_split :
    ∃ s₀ s₁ s₂ : TableState Key ℕ 2, Trained [(1, 10), (2, 20), (10, 100), (20, 200)] s₀ ∧
    s₀.run [(.insert 15 150, 0, 1)] = .ok ([.done true], s₁) ∧
    s₁.call (.insert 7 70) 0 1 = .ok (.done true, s₂) := by
  obtain ⟨s₀, s₁, _, _, h, he, hins, hleaves, hstored, hsearch, _⟩ := split_table
  have hsize := h.size (by norm_num)
  have hrun : s₀.run [(.insert 15 150, 0, 1)] = .ok ([.done true], s₁) := by
    rw [TableState.run, hins, ok_bind]
    rfl
  obtain ⟨s₂, hcall⟩ := insert_accepted (by decide) (by norm_num) h he
    (fun c hc => by
      rw [hsize]
      fin_cases hc
      exact ⟨by simp, by decide, by decide, by decide⟩) hrun hstored
    (by rw [hsize]; decide) (by decide) 70 (by norm_num) (by rw [hsize]; decide) hsearch
  exact ⟨s₀, s₁, s₂, h, hrun, hcall⟩

end Rolex
