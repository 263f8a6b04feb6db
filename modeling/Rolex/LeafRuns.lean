import Rolex.LeafLoops

/-! A leaf over whole runs of its operations: it is a finite map of at most `N` entries. -/

namespace Rolex
open AscendingMap

inductive LeafOp (K V : Type) where
  | insertNotFull (key : K) (val : V)
  | update (key : K) (val : V)
  | remove (key : K)

variable {K V : Type} {N : ℕ}

def LeafOp.key : LeafOp K V → K
  | insertNotFull key _ => key
  | update key _ => key
  | remove key => key

variable [LinearOrder K]

/-- What the operation means for a map of at most `N` entries. -/
def LeafOp.onMap (N : ℕ) (m : AscendingMap K V) : LeafOp K V → AscendingMap K V
  | insertNotFull key val => if m.entries.length < N then m.insert key val else m
  | update key val => m.replace key val
  | remove key => m.erase key

def emptyMap : AscendingMap K V := ⟨[], List.Pairwise.nil⟩

namespace Leaf

variable [OrderTop K]

def applyOp (leaf : Leaf K V N) : LeafOp K V → Except LeafFault (Leaf K V N)
  | .insertNotFull key val => do
    let res ← leaf.insertNotFullU8 key val
    .ok res.2
  | .update key val => .ok (leaf.update key val).2
  | .remove key => do
    let res ← leaf.removeU8 key
    .ok res.2

def runOps (leaf : Leaf K V N) : List (LeafOp K V) → Except LeafFault (Leaf K V N)
  | [] => .ok leaf
  | op :: ops => do
    let leaf ← leaf.applyOp op
    leaf.runOps ops

/-- The leaf is the map `m`: what it holds, what its readers answer and what the next operation
does. `range` compares the size of its vector with its limit as `size_t`. -/
structure ActsAs (leaf : Leaf K V N) (m : AscendingMap K V) : Prop where
  holds : leaf.Holds m.entries
  bounded : m.entries.length ≤ N
  search : ∀ key < ⊤, leaf.search key = m.find key
  contain : ∀ key < ⊤, leaf.contain key = (m.find key).isSome
  full : leaf.isfull = true ↔ m.entries.length = N
  empty : leaf.isEmpty = true ↔ m.entries.length = 0
  range : ∀ key n vals, leaf.range key n vals = vals ++ scan key (n - vals.length) m.entries
  insertNew : ∀ key < ⊤, ∀ val, m.find key = none → m.entries.length < N →
    ∃ i leaf', leaf.insertNotFullU8 key val = .ok (i, leaf') ∧
    leaf'.Holds (m.insert key val).entries
  insertElse : ∀ key < ⊤, ∀ val, m.find key ≠ none ∨ m.entries.length = N →
    ∃ i, leaf.insertNotFullU8 key val = .ok (i, leaf)
  update : ∀ key < ⊤, ∀ val, (leaf.update key val).1 = (m.find key).isSome ∧
    (leaf.update key val).2.Holds (m.replace key val).entries
  remove : ∀ key < ⊤, ∃ leaf', leaf.removeU8 key = .ok ((m.find key).isSome, leaf') ∧
    leaf'.Holds (m.erase key).entries

namespace Holds

variable {leaf : Leaf K V N} {m : AscendingMap K V}

theorem insertU8_new (h : leaf.Holds m.entries) (hN : N ≤ 255) {key : K} (hk : key < ⊤) (val : V)
    (hnone : m.find key = none) (hroom : m.entries.length < N) :
    ∃ i leaf', leaf.insertNotFullU8 key val = .ok (i, leaf') ∧
      leaf'.Holds (m.insert key val).entries := by
  refine ⟨_, _, leaf.insertNotFullU8_eq hN key val, ?_⟩
  rw [AscendingMap.insert, dif_pos hnone]
  exact insertNotFull_holds h hk hnone hroom val

theorem insertU8_else (h : leaf.Holds m.entries) (hN : N ≤ 255) {key : K} (hk : key < ⊤) (val : V)
    (hor : m.find key ≠ none ∨ m.entries.length = N) :
    ∃ i, leaf.insertNotFullU8 key val = .ok (i, leaf) := by
  rw [leaf.insertNotFullU8_eq hN]
  cases hfind : m.find key with
  | some w =>
    rw [insertNotFull_of_some h hfind]
    exact ⟨_, rfl⟩
  | none =>
    rw [insertNotFull_of_full h hk hfind (hor.resolve_left fun hne => hne hfind)]
    exact ⟨_, rfl⟩

theorem removeU8 (h : leaf.Holds m.entries) (hN : N ≤ 255) {key : K} (hk : key < ⊤) :
    ∃ leaf', leaf.removeU8 key = .ok ((m.find key).isSome, leaf') ∧
      leaf'.Holds (m.erase key).entries := by
  obtain ⟨hanswer, hholds⟩ := remove_holds h hk
  refine ⟨(leaf.remove key).2, ?_, hholds⟩
  rw [leaf.removeU8_eq hN, ← Prod.eta (leaf.remove key), hanswer]
  rfl

theorem actsAs (h : leaf.Holds m.entries) (hN0 : 0 < N) (hN : N ≤ 255) : leaf.ActsAs m where
  holds := h
  bounded := h.length_le
  search _ hk := search_eq h hk
  contain _ hk := contain_eq h hk
  full := h.isfull_iff hN0
  empty := h.isEmpty_iff.trans List.length_eq_zero_iff.symm
  range key n vals := range_eq h key n vals
  insertNew _ hk val hnone hroom := h.insertU8_new hN hk val hnone hroom
  insertElse _ hk val hor := h.insertU8_else hN hk val hor
  update _ hk val := update_holds h hk val
  remove _ hk := h.removeU8 hN hk

theorem applyOp (h : leaf.Holds m.entries) (hN : N ≤ 255) {op : LeafOp K V} (hk : op.key < ⊤) :
    ∃ leaf', leaf.applyOp op = .ok leaf' ∧ leaf'.Holds (op.onMap N m).entries := by
  cases op with
  | insertNotFull key val =>
    have hk : key < ⊤ := hk
    rw [Leaf.applyOp, LeafOp.onMap]
    by_cases hroom : m.entries.length < N
    · rw [if_pos hroom]
      by_cases hnone : m.find key = none
      · obtain ⟨i, leaf', hins, hholds⟩ := h.insertU8_new hN hk val hnone hroom
        exact ⟨leaf', by rw [hins, ok_bind], hholds⟩
      · obtain ⟨i, hins⟩ := h.insertU8_else hN hk val (Or.inl hnone)
        refine ⟨leaf, by rw [hins, ok_bind], ?_⟩
        rw [AscendingMap.insert, dif_neg hnone]
        exact h
    · rw [if_neg hroom]
      obtain ⟨i, hins⟩ := h.insertU8_else hN hk val
        (Or.inr (h.length_le.antisymm (not_lt.mp hroom)))
      exact ⟨leaf, by rw [hins, ok_bind], h⟩
  | update key val => exact ⟨_, rfl, (update_holds h hk val).2⟩
  | remove key =>
    have hk : key < ⊤ := hk
    obtain ⟨leaf', hrem, hholds⟩ := h.removeU8 hN hk
    rw [Leaf.applyOp]
    exact ⟨leaf', by rw [hrem, ok_bind], hholds⟩

theorem runOps (h : leaf.Holds m.entries) (hN : N ≤ 255) {ops : List (LeafOp K V)}
    (hops : ∀ op ∈ ops, op.key < ⊤) :
    ∃ leaf', leaf.runOps ops = .ok leaf' ∧ leaf'.Holds (ops.foldl (LeafOp.onMap N) m).entries := by
  induction ops generalizing leaf m with
  | nil => exact ⟨leaf, rfl, h⟩
  | cons op ops ih =>
    obtain ⟨leaf₁, hop, h₁⟩ := h.applyOp hN (hops op List.mem_cons_self)
    obtain ⟨leaf', hrest, h'⟩ := ih h₁ fun x hx => hops x (List.mem_cons_of_mem _ hx)
    refine ⟨leaf', ?_, h'⟩
    rw [Leaf.runOps, hop, ok_bind, hrest]

end Holds

/-- After any run on a fresh leaf it is the map that the run makes of the empty one. -/
theorem actsAs_of_run (hN0 : 0 < N) (hN : N ≤ 255) (raw : Leaf K V N) {ops : List (LeafOp K V)}
    (hops : ∀ op ∈ ops, op.key < ⊤) :
    ∃ leaf, (construct raw).runOps ops = .ok leaf ∧
      leaf.ActsAs (ops.foldl (LeafOp.onMap N) emptyMap) := by
  obtain ⟨leaf, hrun, hholds⟩ := Holds.runOps (m := emptyMap) (construct_holds raw) hN hops
  exact ⟨leaf, hrun, hholds.actsAs hN0 hN⟩

theorem actsAs_of_run_five : ∃ leaf,
    (construct (⟨[0, 0], [0, 0], rfl, rfl⟩ : Leaf (Fin 256) ℕ 2)).runOps
        [.insertNotFull 7 70, .insertNotFull 5 50, .insertNotFull 6 60, .remove 7, .update 5 51] =
        .ok leaf ∧
      leaf.ActsAs ([.insertNotFull 7 70, .insertNotFull 5 50, .insertNotFull 6 60, .remove 7,
        .update 5 51].foldl (LeafOp.onMap 2) emptyMap) :=
  actsAs_of_run (by decide) (by decide) _ (by
    intro op hop
    fin_cases hop <;> decide)

end Leaf
end Rolex
