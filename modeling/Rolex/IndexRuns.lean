import Rolex.Index
import Rolex.SentinelSteps

/-! Runs of `search`, `update`, `insert` and `remove` of an index. A call that returns edits one
chain of one submodel; the other submodels share only the allocator with it. -/

namespace Rolex
open AscendingMap BlockChain

namespace RolexIndex

variable {F V : Type} {N : ℕ} (fmt : DoubleFormat F) (epsilon : ℕ)

def call (r : RolexIndex F V N) (op : TableOp Key V) : Except Fault (Answer V × RolexIndex F V N) :=
  match op with
  | .search key => do
    let val ← r.search fmt epsilon key
    .ok (.found val, r)
  | .update key val => do
    let res ← r.update fmt epsilon key val
    .ok (.done res.1, res.2)
  | .insert key val => do
    let res ← r.insert fmt epsilon key val
    .ok (.done res.1, res.2)
  | .remove key => do
    let res ← r.remove fmt epsilon key
    .ok (.done res.1, res.2)

def run (r : RolexIndex F V N) :
    List (TableOp Key V) → Except Fault (List (Answer V) × RolexIndex F V N)
  | [] => .ok ([], r)
  | op :: ops => do
    let res ← r.call fmt epsilon op
    let rest ← res.2.run ops
    .ok (res.1 :: rest.1, rest.2)

end RolexIndex

/-! ### The tables of an index -/

variable {F V : Type} {N : ℕ} {fmt : DoubleFormat F} {epsilon : ℕ}

/-- Every submodel of `r` stores its chains, in leaves of its own. -/
structure IndexSound (r : RolexIndex F V N) (slots : ℕ → ℕ → List ℕ)
    (chains : ℕ → ℕ → List (List (Key × V))) : Prop where
  sound : ∀ (i : ℕ) (m : SubModel F), r.models[i]? = some m →
    Sound m.ltable r.RM.leafAllocator (slots i) (chains i)
  apart : ∀ (i j : ℕ) (m m' : SubModel F), i ≠ j → r.models[i]? = some m → r.models[j]? = some m' →
    ∀ a < m.ltable.size, ∀ b < m'.ltable.size,
      (m.ltable.chainNums a (slots i a)).Disjoint (m'.ltable.chainNums b (slots j b))

/-- The part of an index that no call changes: the lines, and the leaves of the entries. -/
structure SameShape (r r' : RolexIndex F V N) : Prop where
  keys : r'.modelKeys = r.modelKeys
  length : r'.models.length = r.models.length
  model : ∀ (i : ℕ) (m m' : SubModel F), r.models[i]? = some m → r'.models[i]? = some m' →
    m'.model = m.model ∧ m'.capacity = m.capacity ∧ m'.ltable.size = m.ltable.size ∧
      m'.ltable.entryNum = m.ltable.entryNum

theorem SameShape.refl (r : RolexIndex F V N) : SameShape r r :=
  ⟨rfl, rfl, fun i m m' h h' => by
    obtain rfl := Option.some.inj (h.symm.trans h')
    exact ⟨rfl, rfl, rfl, rfl⟩⟩

theorem SameShape.trans {r r' r₂ : RolexIndex F V N} (h : SameShape r r') (h' : SameShape r' r₂) :
    SameShape r r₂ where
  keys := h'.keys.trans h.keys
  length := h'.length.trans h.length
  model := fun i m m' hm hm' => by
    have hi : i < r'.models.length := by
      have := (List.getElem?_eq_some_iff.mp hm).1
      have hlen := h.length
      omega
    obtain ⟨h1, h2, h3, h4⟩ := h.model i m _ hm (List.getElem?_eq_getElem hi)
    obtain ⟨h1', h2', h3', h4'⟩ := h'.model i _ m' (List.getElem?_eq_getElem hi) hm'
    exact ⟨h1'.trans h1, h2'.trans h2, h3'.trans h3, h4'.trans h4⟩

theorem SameShape.modelForKey {r r' : RolexIndex F V N} (h : SameShape r r') (key : Key) :
    r'.modelForKey key = r.modelForKey key := by
  rw [RolexIndex.modelForKey, RolexIndex.modelForKey, h.keys, h.length]

def RolexIndex.setTable (r : RolexIndex F V N) (i : ℕ) (m : SubModel F) (t : LeafTable)
    (alloc : LeafAllocator Key V N) : RolexIndex F V N :=
  { r with
    RM := { r.RM with leafAllocator := alloc }
    models := r.models.set i { m with ltable := t } }

theorem SameShape.setTable {r : RolexIndex F V N} {i : ℕ} {m : SubModel F}
    (hm : r.models[i]? = some m) {t : LeafTable} (hsize : t.size = m.ltable.size)
    (hnum : t.entryNum = m.ltable.entryNum) (alloc : LeafAllocator Key V N) :
    SameShape r (r.setTable i m t alloc) where
  keys := rfl
  length := List.length_set
  model := fun j m' m₂ hj hj' => by
    rw [RolexIndex.setTable, List.getElem?_set] at hj'
    split at hj'
    · rename_i hij
      subst hij
      split at hj'
      · obtain rfl := Option.some.inj hj'
        obtain rfl := Option.some.inj (hm.symm.trans hj)
        exact ⟨rfl, rfl, hsize, hnum⟩
      · cases hj'
    · obtain rfl := Option.some.inj (hj.symm.trans hj')
      exact ⟨rfl, rfl, rfl, rfl⟩

/-- One step of one submodel. The leaves of the others are not written, and the new ones are new. -/
theorem IndexSound.step {r : RolexIndex F V N} {slots : ℕ → ℕ → List ℕ}
    {chains : ℕ → ℕ → List (List (Key × V))} (h : IndexSound r slots chains) {i : ℕ}
    {m : SubModel F} (hm : r.models[i]? = some m) {a : ℕ} (ha : a < m.ltable.size)
    {bs : List (List (Key × V))} {t : LeafTable} {alloc : LeafAllocator Key V N}
    {slots' : ℕ → List ℕ}
    (hstep : Step m.ltable r.RM.leafAllocator (slots i) (chains i) a bs t alloc slots') :
    IndexSound (r.setTable i m t alloc) (Function.update slots i slots')
      (Function.update chains i (Function.update (chains i) a bs)) := by
  have hil := (List.getElem?_eq_some_iff.mp hm).1
  have hget : ∀ (j : ℕ) (m' : SubModel F), (r.setTable i m t alloc).models[j]? = some m' →
      j = i ∧ m' = { m with ltable := t } ∨ j ≠ i ∧ r.models[j]? = some m' := by
    intro j m' hj
    rw [RolexIndex.setTable, List.getElem?_set] at hj
    split at hj
    · rename_i hij
      exact Or.inl ⟨hij.symm, (Option.some.inj hj).symm⟩
    · rename_i hij
      exact Or.inr ⟨Ne.symm hij, hj⟩
  -- the leaves of another submodel are neither in the chain that changes nor new
  have hother : ∀ (j : ℕ) (m' : SubModel F), j ≠ i → r.models[j]? = some m' → ∀ b < m'.ltable.size,
      ∀ p ∈ m'.ltable.chainNums b (slots j b), p < r.RM.leafAllocator.used ∧
        ∀ a < m.ltable.size, p ∉ m.ltable.chainNums a (slots i a) := fun j m' hji hj b hb p hp =>
    ⟨(h.sound j m' hj).numsUsed b hb p hp, fun a ha => h.apart j i m' m hji hj hm b hb a ha hp⟩
  have hnew : ∀ (j : ℕ) (m' : SubModel F), j ≠ i → r.models[j]? = some m' → ∀ b < m'.ltable.size,
      ∀ a < t.size, (t.chainNums a (slots' a)).Disjoint (m'.ltable.chainNums b (slots j b)) := by
    intro j m' hji hj b hb a' ha' p hp hp'
    obtain ⟨hused, hnot⟩ := hother j m' hji hj b hb p hp'
    rw [hstep.size] at ha'
    rcases hstep.nums a' ha' p hp with hp | hp
    · exact hnot a' ha' hp
    · omega
  constructor
  · intro j m' hj
    rcases hget j m' hj with ⟨rfl, rfl⟩ | ⟨hji, hj⟩
    · rw [Function.update_self, Function.update_self]
      exact hstep.sound
    · rw [Function.update_of_ne hji, Function.update_of_ne hji]
      have hold := h.sound j m' hj
      refine ⟨hold.toRepresents.transport hstep.used hstep.sound.usedLe
        (fun b hb p hp => ?_) hstep.sound.blank, hold.ordered, hold.idle⟩
      obtain ⟨hused, hnot⟩ := hother j m' hji hj b hb p hp
      exact hstep.leaves p (hnot a ha) (Or.inl hused)
  · intro j j' m₁ m₂ hne hj hj' b hb b' hb'
    rcases hget j m₁ hj with ⟨rfl, rfl⟩ | ⟨hji, hold⟩
    · rcases hget j' m₂ hj' with ⟨rfl, rfl⟩ | ⟨hji', hold'⟩
      · exact absurd rfl hne
      · rw [Function.update_self, Function.update_of_ne hji']
        exact hnew j' m₂ hji' hold' b' hb' b hb
    · rcases hget j' m₂ hj' with ⟨rfl, rfl⟩ | ⟨hji', hold'⟩
      · rw [Function.update_self, Function.update_of_ne hji]
        exact (hnew j m₁ hji hold b hb b' hb').symm
      · rw [Function.update_of_ne hji, Function.update_of_ne hji']
        exact h.apart j j' m₁ m₂ hne hold hold' b hb b' hb'

/-! ### Inserts and updates of an index -/

structure Edited (r : RolexIndex F V N) (slots : ℕ → ℕ → List ℕ)
    (chains : ℕ → ℕ → List (List (Key × V))) (op : TableOp Key V) (w : ℕ × ℕ) (ans : Answer V)
    (r' : RolexIndex F V N) (m : SubModel F) (a : ℕ) : Prop where
  model : r.models[r.modelForKey op.key]? = some m
  target : a = target (chains (r.modelForKey op.key)) op.key w.1 w.2
  lt : a < m.ltable.size
  answer : ans = op.answer (decide (m.ltable.available < kSynonymMax - 1))
    (chains (r.modelForKey op.key) a).flatten
  step : ∃ t alloc slots', r' = r.setTable (r.modelForKey op.key) m t alloc ∧
    t.entryNum = m.ltable.entryNum ∧
    Step m.ltable r.RM.leafAllocator (slots (r.modelForKey op.key))
    (chains (r.modelForKey op.key)) a
      (op.edit N (decide (m.ltable.available < kSynonymMax - 1)) (chains (r.modelForKey op.key) a))
      t alloc slots'

theorem model_ok {r : RolexIndex F V N} {key : Key} {m : SubModel F} (h : r.model key = .ok m) :
    r.models[r.modelForKey key]? = some m := by
  rw [RolexIndex.model] at h
  split at h
  · rename_i hm
    rw [hm, Except.ok.inj h]
  · cases h

theorem model_of_some {r : RolexIndex F V N} {key : Key} {m : SubModel F}
    (h : r.models[r.modelForKey key]? = some m) : r.model key = .ok m := by
  rw [RolexIndex.model, h]

section Equations

variable {r : RolexIndex F V N} {key : Key} {m : SubModel F}

theorem RolexIndex.search_eq (hm : r.models[r.modelForKey key]? = some m) :
    r.search fmt epsilon key = m.ltable.search r.RM.leafAllocator key (m.window fmt epsilon N key).1
      (m.window fmt epsilon N key).2 := by
  rw [RolexIndex.search, model_of_some hm, ok_bind, SubModel.search]

theorem RolexIndex.setTable_of_model (hm : r.models[r.modelForKey key]? = some m)
    (f : SubModel F → Except Fault (Bool × LeafTable × LeafAllocator Key V N)) :
    (do
      let m ← r.model key
      let res ← (do
        let res ← f m
        .ok (res.1, { m with ltable := res.2.1 }, res.2.2))
      .ok (res.1, r.setModel key res.2.1 res.2.2)) =
      (f m).map fun res => (res.1, r.setTable (r.modelForKey key) m res.2.1 res.2.2) := by
  rw [model_of_some hm, ok_bind]
  cases f m with
  | error e => rfl
  | ok res => rfl

theorem RolexIndex.update_eq (hm : r.models[r.modelForKey key]? = some m) (val : V) :
    r.update fmt epsilon key val =
    (m.ltable.update r.RM.leafAllocator key val (m.window fmt epsilon N key).1
      (m.window fmt epsilon N key).2).map fun res =>
        (res.1, r.setTable (r.modelForKey key) m res.2.1 res.2.2) :=
  setTable_of_model hm fun m =>
    m.ltable.update r.RM.leafAllocator key val (m.window fmt epsilon N key).1
      (m.window fmt epsilon N key).2

theorem RolexIndex.insert_eq (hm : r.models[r.modelForKey key]? = some m) (val : V) :
    r.insert fmt epsilon key val =
    (m.ltable.insert r.RM.leafAllocator key val (m.window fmt epsilon N key).1
      (m.window fmt epsilon N key).2).map fun res =>
        (res.1, r.setTable (r.modelForKey key) m res.2.1 res.2.2) :=
  setTable_of_model hm fun m =>
    m.ltable.insert r.RM.leafAllocator key val (m.window fmt epsilon N key).1
      (m.window fmt epsilon N key).2

end Equations

theorem map_eq_ok {α β : Type} {f : α → β} {x : Except Fault α} {b : β} (h : x.map f = .ok b) :
    ∃ a, x = .ok a ∧ b = f a := by
  cases x with
  | error e => cases h
  | ok a => exact ⟨a, rfl, (Except.ok.inj h).symm⟩

theorem RolexIndex.call_ok {r r' : RolexIndex F V N} {op : TableOp Key V} (hop : op.Stores)
    {ans : Answer V} (hok : r.call fmt epsilon op = .ok (ans, r')) :
    ∃ (m : SubModel F) (s' : TableState Key V N), r.models[r.modelForKey op.key]? = some m ∧
      (TableState.mk m.ltable r.RM.leafAllocator).call op (m.window fmt epsilon N op.key).1
        (m.window fmt epsilon N op.key).2 = .ok (ans, s') ∧
      r' = r.setTable (r.modelForKey op.key) m s'.table s'.alloc := by
  cases op with
  | search key => exact hop.elim
  | remove key => exact hop.elim
  | update key val =>
    obtain ⟨res, hres, hok⟩ := bind_eq_ok hok
    obtain ⟨rfl, rfl⟩ := Prod.mk.inj (Except.ok.inj hok)
    obtain ⟨m, hm, _⟩ := bind_eq_ok hres
    rw [RolexIndex.update_eq (model_ok hm)] at hres
    obtain ⟨tres, htab, rfl⟩ := map_eq_ok hres
    refine ⟨m, ⟨tres.2.1, tres.2.2⟩, model_ok hm, ?_, rfl⟩
    rw [TableState.call, TableOp.key, htab]
    rfl
  | insert key val =>
    obtain ⟨res, hres, hok⟩ := bind_eq_ok hok
    obtain ⟨rfl, rfl⟩ := Prod.mk.inj (Except.ok.inj hok)
    obtain ⟨m, hm, _⟩ := bind_eq_ok hres
    rw [RolexIndex.insert_eq (model_ok hm)] at hres
    obtain ⟨tres, htab, rfl⟩ := map_eq_ok hres
    refine ⟨m, ⟨tres.2.1, tres.2.2⟩, model_ok hm, ?_, rfl⟩
    rw [TableState.call, TableOp.key, htab]
    rfl

theorem IndexSound.call_of_ok {r r' : RolexIndex F V N} {slots : ℕ → ℕ → List ℕ}
    {chains : ℕ → ℕ → List (List (Key × V))} (h : IndexSound r slots chains) (hN : Even N)
    (hN0 : 0 < N) {op : TableOp Key V} (hop : op.Stores) (hk : op.key < ⊤) {ans : Answer V}
    (hok : r.call fmt epsilon op = .ok (ans, r')) :
    ∃ m a, Edited r slots chains op (m.window fmt epsilon N op.key) ans r' m a := by
  obtain ⟨m, s', hm, hcall, rfl⟩ := RolexIndex.call_ok hop hok
  have hs : Sound (TableState.mk m.ltable r.RM.leafAllocator).table r.RM.leafAllocator _ _ :=
    h.sound _ m hm
  obtain ⟨hnum, _⟩ := hs.stores_of_ok hN hN0 hop hcall
  obtain ⟨hlt, hans, ⟨slots', hstep⟩, _⟩ := hs.call_of_ok hN hN0 hk hcall
  exact ⟨m, _, hm, rfl, hlt, hans, s'.table, s'.alloc, slots', rfl, hnum, hstep⟩

theorem IndexSound.run_of_ok {ops : List (TableOp Key V)} (hN : Even N) (hN0 : 0 < N)
    (hops : ∀ op ∈ ops, op.Stores) :
    ∀ {r r' : RolexIndex F V N} {slots : ℕ → ℕ → List ℕ} {chains : ℕ → ℕ → List (List (Key × V))}
      {answers : List (Answer V)}, IndexSound r slots chains →
      r.run fmt epsilon ops = .ok (answers, r') →
      SameShape r r' ∧ ∃ slots' chains', IndexSound r' slots' chains' := by
  induction ops with
  | nil =>
    intro r r' slots chains answers h hok
    obtain ⟨_, rfl⟩ := Prod.mk.inj (Except.ok.inj hok)
    exact ⟨.refl _, slots, chains, h⟩
  | cons op ops ih =>
    intro r r' slots chains answers h hok
    obtain ⟨⟨ans, r₁⟩, hcall, hok⟩ := bind_eq_ok hok
    obtain ⟨⟨rest, r₂⟩, hrun, hok⟩ := bind_eq_ok hok
    obtain ⟨_, rfl⟩ := Prod.mk.inj (Except.ok.inj hok)
    have hop := hops op List.mem_cons_self
    obtain ⟨m, s', hm, htable, rfl⟩ := RolexIndex.call_ok hop hcall
    have hs : Sound (TableState.mk m.ltable r.RM.leafAllocator).table r.RM.leafAllocator _ _ :=
      h.sound _ m hm
    obtain ⟨hnum, a, ha, bs, slots', hstep⟩ := hs.stores_of_ok hN hN0 hop htable
    obtain ⟨hshape, hsound⟩ :=
      ih (fun x hx => hops x (List.mem_cons_of_mem _ hx)) (h.step hm ha hstep) hrun
    exact ⟨(SameShape.setTable hm hstep.size hnum s'.alloc).trans hshape, hsound⟩

end Rolex
