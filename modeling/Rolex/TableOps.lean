import Rolex.Routing
import Rolex.SubModel

/-! Runs of the operations of a leaf table, each called with a window of its own.
A call is answered from the chain its window leads to, and edits that chain. -/

namespace Rolex
open AscendingMap BlockChain

inductive TableOp (K V : Type) where
  | search (key : K)
  | update (key : K) (val : V)
  | insert (key : K) (val : V)
  | remove (key : K)
  deriving DecidableEq

/-- `found none` is the answer `false` of `search`. -/
inductive Answer (V : Type) where
  | found (val : Option V)
  | done (res : Bool)
  deriving DecidableEq

structure TableState (K V : Type) (N : ℕ) where
  table : LeafTable
  alloc : LeafAllocator K V N

def TableOp.key {K V : Type} : TableOp K V → K
  | search key => key
  | update key _ => key
  | insert key _ => key
  | remove key => key

def TableOp.Stores {K V : Type} : TableOp K V → Prop
  | .update _ _ => True
  | .insert _ _ => True
  | _ => False

variable {K V : Type} {N : ℕ} [LinearOrder K] [OrderTop K]

namespace TableState

def call (s : TableState K V N) (op : TableOp K V) (lo hi : ℕ) :
    Except Fault (Answer V × TableState K V N) :=
  match op with
  | .search key => do
    let val ← s.table.search s.alloc key lo hi
    .ok (.found val, s)
  | .update key val => do
    let res ← s.table.update s.alloc key val lo hi
    .ok (.done res.1, ⟨res.2.1, res.2.2⟩)
  | .insert key val => do
    let res ← s.table.insert s.alloc key val lo hi
    .ok (.done res.1, ⟨res.2.1, res.2.2⟩)
  | .remove key => do
    let res ← s.table.remove s.alloc key lo hi
    .ok (.done res.1, ⟨res.2.1, res.2.2⟩)

def run (s : TableState K V N) :
    List (TableOp K V × ℕ × ℕ) → Except Fault (List (Answer V) × TableState K V N)
  | [] => .ok ([], s)
  | c :: calls => do
    let res ← s.call c.1 c.2.1 c.2.2
    let rest ← res.2.run calls
    .ok (res.1 :: rest.1, rest.2)

def room (s : TableState K V N) : Bool := decide (s.table.available < kSynonymMax - 1)

/-- One preallocated leaf for every synonym slot that is left. -/
def Enough (s : TableState K V N) : Prop :=
  s.alloc.used + (kSynonymMax - 1) ≤ s.alloc.allocated + s.table.available

end TableState

/-! ### The calls on chains -/

namespace TableOp

def answer (op : TableOp K V) (room : Bool) (es : List (K × V)) : Answer V :=
  match op with
  | search key => .found (es.lookup key)
  | update key _ => .done (es.lookup key).isSome
  | insert key _ => .done (room && (es.lookup key).isNone)
  | remove key => .done (es.lookup key).isSome

def edit (op : TableOp K V) (N : ℕ) (room : Bool) (bs : List (List (K × V))) :
    List (List (K × V)) :=
  match op with
  | search _ => bs
  | update key val => BlockChain.update key val bs
  | insert key val =>
    if room && (bs.flatten.lookup key).isNone then BlockChain.insert N key val bs else bs
  | remove key => BlockChain.remove key bs

end TableOp

theorem Step.refl {t : LeafTable} {alloc : LeafAllocator K V N} {slots : ℕ → List ℕ}
    {chains : ℕ → List (List (K × V))} (h : Sound t alloc slots chains) (i : ℕ) :
    Step t alloc slots chains i (chains i) t alloc slots where
  sound := by rwa [Function.update_eq_self]
  size := rfl
  count := rfl
  allocated := rfl
  used := le_rfl
  leaves := fun _ _ _ => rfl
  nums := fun _ _ _ hp => Or.inl hp

theorem Step.enough {s s' : TableState K V N} {slots slots' : ℕ → List ℕ}
    {chains : ℕ → List (List (K × V))} {i : ℕ} {bs : List (List (K × V))}
    (h : Step s.table s.alloc slots chains i bs s'.table s'.alloc slots') (he : s.Enough) :
    s'.Enough := by
  have hc := h.count
  have ha := h.allocated
  rw [TableState.Enough] at he ⊢
  omega

/-! ### Reading the chains -/

def Leaf.entries (leaf : Leaf K V N) : List (K × V) :=
  (leaf.keys.zip leaf.vals).filter fun e => e.1 ≠ Leaf.invalidKey K

def LeafTable.chainLeaves (t : LeafTable) (alloc : LeafAllocator K V N) (i : ℕ) :
    Except Fault (List ℕ) := do
  let leaf ← t.entryLeaf alloc i
  let sLeaves ← t.synonymLeaves i
  let rest ← sLeaves.mapM (t.slotLeaf alloc)
  .ok (leaf :: rest)

def LeafTable.chainEntries (t : LeafTable) (alloc : LeafAllocator K V N) (i : ℕ) :
    Except Fault (List (K × V)) := do
  let leaves ← t.chainLeaves alloc i
  .ok (leaves.flatMap fun p => (alloc.leaves p).entries)

def TableState.stored (s : TableState K V N) : Except Fault (List (K × V)) := do
  let es ← (List.range s.table.table.length).mapM (s.table.chainEntries s.alloc)
  .ok es.flatten

theorem Leaf.Holds.entries_eq {leaf : Leaf K V N} {es : List (K × V)} (h : leaf.Holds es) :
    leaf.entries = es := by
  obtain ⟨unused, hzip, hunused⟩ := h.zip_eq
  rw [Leaf.entries, hzip, List.filter_append, List.filter_eq_self.mpr, List.filter_eq_nil_iff.mpr,
    List.append_nil]
  · intro e he
    simp [hunused e he]
  · intro e he
    simpa using (h.below e he).ne

theorem mapM_ok {α β : Type} {f : α → Except Fault β} {g : α → β} {l : List α}
    (h : ∀ a ∈ l, f a = .ok (g a)) : l.mapM f = .ok (l.map g) := by
  induction l with
  | nil => rfl
  | cons a l ih =>
    rw [List.mapM_cons, h a List.mem_cons_self, ok_bind,
      ih fun x hx => h x (List.mem_cons_of_mem _ hx), ok_bind]
    rfl

namespace Represents

variable {t : LeafTable} {alloc : LeafAllocator K V N} {slots : ℕ → List ℕ}
  {chains : ℕ → List (List (K × V))}

theorem chainLeaves_ok (h : Represents t alloc slots chains) {i : ℕ} (hi : i < t.size) :
    t.chainLeaves alloc i = .ok (t.chainNums i (slots i)) := by
  rw [LeafTable.chainLeaves, h.entryLeaf_ok hi, ok_bind, h.synonymLeaves_ok hi, ok_bind,
    mapM_ok fun s hs => h.slotLeaf_ok hi hs, ok_bind]
  rfl

theorem chainEntries_ok (h : Represents t alloc slots chains) {i : ℕ} (hi : i < t.size) :
    t.chainEntries alloc i = .ok (chains i).flatten := by
  have hflat : ∀ {l : List ℕ} {bs : List (List (K × V))},
      List.Forall₂ (fun p es => (alloc.leaves p).Holds es) l bs →
      l.flatMap (fun p => (alloc.leaves p).entries) = bs.flatten := by
    intro l bs hf
    induction hf with
    | nil => rfl
    | cons hab _ ih => rw [List.flatMap_cons, List.flatten_cons, hab.entries_eq, ih]
  rw [LeafTable.chainEntries, h.chainLeaves_ok hi, ok_bind, hflat (h.holds i hi)]

theorem stored_ok {s : TableState K V N} (h : Represents s.table s.alloc slots chains) :
    s.stored = .ok ((List.range s.table.size).map fun i => (chains i).flatten).flatten := by
  rw [TableState.stored, mapM_ok fun i hi => h.chainEntries_ok (List.mem_range.mp hi), ok_bind]

end Represents

/-! ### Calls on a table that return -/

section Table

variable {t : LeafTable} {alloc : LeafAllocator K V N}
  {slots : ℕ → List ℕ} {chains : ℕ → List (List (K × V))} {k : K} {lo hi : ℕ}

omit [OrderTop K] in
theorem target_of_lt (h : hi < lo) : target chains k lo hi = lo := by
  cases hi with
  | zero => rfl
  | succ i => rw [target, if_neg (by omega)]

theorem pickEntry_of_gt (h : hi < lo) :
    t.pickEntry alloc k lo hi = (t.entryLeaf alloc lo >>= fun leaf => .ok (lo, leaf)) := by
  cases hi with
  | zero => rfl
  | succ i => rw [LeafTable.pickEntry, if_neg (by omega)]

omit [LinearOrder K] [OrderTop K] in
theorem entryLeaf_outside {i : ℕ} (hi : t.size ≤ i) :
    t.entryLeaf alloc i = .error .outOfBounds := by
  rw [LeafTable.entryLeaf, LeafTable.entry, List.getElem?_eq_none hi]
  rfl

theorem Represents.pickEntry_of_ok (h : Represents t alloc slots chains) (hk : k < ⊤)
    (hlt : hi < t.size) {p : ℕ × ℕ} (hok : t.pickEntry alloc k lo hi = .ok p) :
    p = (target chains k lo hi, t.entryNum (target chains k lo hi)) ∧
    target chains k lo hi < t.size := by
  rcases le_or_gt lo hi with hle | hgt
  · rw [h.pickEntry_ok hk hle hlt] at hok
    exact ⟨(Except.ok.inj hok).symm, (target_le hle).trans_lt hlt⟩
  · rw [pickEntry_of_gt hgt] at hok
    have hlo : lo < t.size := by
      by_contra hlo
      rw [entryLeaf_outside (not_lt.mp hlo)] at hok
      cases hok
    rw [h.entryLeaf_ok hlo] at hok
    rw [target_of_lt hgt]
    exact ⟨(Except.ok.inj hok).symm, hlo⟩

theorem Sound.update_of_ok (h : Sound t alloc slots chains) (hk : k < ⊤) {v : V}
    {res : Bool × LeafTable × LeafAllocator K V N} (hok : t.update alloc k v lo hi = .ok res) :
    target chains k lo hi < t.size ∧
    res.1 = ((chains (target chains k lo hi)).flatten.lookup k).isSome ∧
      res.2.1 = t ∧ Step t alloc slots chains (target chains k lo hi)
        (BlockChain.update k v (chains (target chains k lo hi))) t res.2.2 slots := by
  rw [LeafTable.update] at hok
  split at hok
  · rename_i hlt
    obtain ⟨p, hpick, hok⟩ := bind_eq_ok hok
    obtain ⟨rfl, hi'⟩ := h.toRepresents.pickEntry_of_ok hk hlt hpick
    obtain ⟨alloc', hup, hstep, _⟩ := h.updateSynonym_ok hi' hk v
    rw [hup] at hok
    obtain rfl := Except.ok.inj hok
    exact ⟨hi', rfl, rfl, hstep⟩
  · cases hok

theorem Sound.insert_of_ok (h : Sound t alloc slots chains) (hN : Even N) (hN0 : 0 < N) (hk : k < ⊤)
    {v : V} {res : Bool × LeafTable × LeafAllocator K V N}
    (hok : t.insert alloc k v lo hi = .ok res) : lo ≤ hi ∧ hi < t.size ∧
      (res = (false, t, alloc) ∧ (t.available = kSynonymMax - 1 ∨
          (chains (target chains k lo hi)).flatten.lookup k ≠ none) ∨
        res.1 = true ∧ t.available < kSynonymMax - 1 ∧
        (chains (target chains k lo hi)).flatten.lookup k = none ∧
        res.2.1.entryNum = t.entryNum ∧
        ∃ slots', Step t alloc slots chains (target chains k lo hi)
          (BlockChain.insert N k v (chains (target chains k lo hi))) res.2.1 res.2.2 slots') := by
  rw [LeafTable.insert] at hok
  split at hok
  · rename_i hlt
    obtain ⟨p, hpick, hok⟩ := bind_eq_ok hok
    obtain ⟨rfl, hi'⟩ := h.toRepresents.pickEntry_of_ok hk hlt.1 hpick
    refine ⟨hlt.2, hlt.1, ?_⟩
    by_cases hroom : t.available = kSynonymMax - 1
    · rw [Sound.insertSynonym_full hroom] at hok
      exact Or.inl ⟨(Except.ok.inj hok).symm, Or.inl hroom⟩
    have hroom : t.available < kSynonymMax - 1 := lt_of_le_of_ne h.countLe hroom
    by_cases hl : (chains (target chains k lo hi)).flatten.lookup k = none
    · have hleaf : ∀ pre b post, Located k (chains (target chains k lo hi)) pre b post →
        b.length = N →
          alloc.used < alloc.allocated := by
        intro pre b post hloc hfull
        by_contra hleaf
        rw [h.insertSynonym_stuck hloc hN0 hi' hk hl hroom hfull hleaf v] at hok
        cases hok
      obtain ⟨t', alloc', slots', hins, hstep, _, hnum⟩ :=
        h.insertSynonym_absent hN hN0 hi' hk hl hroom hleaf v
      rw [hins] at hok
      obtain rfl := Except.ok.inj hok
      exact Or.inr ⟨rfl, hroom, hl, hnum, slots', hstep⟩
    · rw [h.insertSynonym_present hi' hk hl v] at hok
      exact Or.inl ⟨(Except.ok.inj hok).symm, Or.inr hl⟩
  · cases hok

/-! ### What the calls do to the chain of their key -/

omit [OrderTop K] in
theorem TableOp.insert_refused {room : Bool} {bs : List (List (K × V))} {v : V}
    (h : room = false ∨ bs.flatten.lookup k ≠ none) :
    (TableOp.insert k v).answer room bs.flatten = .done false ∧
    (TableOp.insert k v).edit N room bs = bs := by
  have hfalse : (room && (bs.flatten.lookup k).isNone) = false := by
    rcases h with rfl | h
    · rfl
    · rw [Option.isNone_eq_false_iff.mpr (Option.isSome_iff_ne_none.mpr h), Bool.and_false]
  rw [TableOp.answer, TableOp.edit, hfalse]
  exact ⟨rfl, rfl⟩

omit [OrderTop K] in
theorem TableOp.insert_taken {room : Bool} {bs : List (List (K × V))} {v : V} (hroom : room = true)
    (h : bs.flatten.lookup k = none) : (TableOp.insert k v).answer room bs.flatten = .done true ∧
      (TableOp.insert k v).edit N room bs = BlockChain.insert N k v bs := by
  rw [TableOp.answer, TableOp.edit, hroom, h]
  exact ⟨rfl, rfl⟩

/-- A call that returns is answered from one chain and edits it; an answer `false` changes
nothing. -/
theorem Sound.call_of_ok {s s' : TableState K V N} (h : Sound s.table s.alloc slots chains)
    (hN : Even N) (hN0 : 0 < N) {op : TableOp K V} (hk : op.key < ⊤) {ans : Answer V}
    (hok : s.call op lo hi = .ok (ans, s')) : target chains op.key lo hi < s.table.size ∧
      ans = op.answer s.room (chains (target chains op.key lo hi)).flatten ∧
      (∃ slots', Step s.table s.alloc slots chains (target chains op.key lo hi)
        (op.edit N s.room (chains (target chains op.key lo hi))) s'.table s'.alloc slots') ∧
      (ans = .done false → s' = s) := by
  cases op with
  | search key =>
    obtain ⟨val, hsearch, hok⟩ := bind_eq_ok hok
    obtain ⟨rfl, rfl⟩ := Prod.mk.inj (Except.ok.inj hok)
    rw [LeafTable.search] at hsearch
    split at hsearch
    · rename_i hlt
      obtain ⟨p, hpick, hsearch⟩ := bind_eq_ok hsearch
      obtain ⟨rfl, hi'⟩ := h.toRepresents.pickEntry_of_ok hk hlt hpick
      obtain rfl := Except.ok.inj ((h.searchEntry_ok hi' hk).symm.trans hsearch)
      exact ⟨hi', rfl, ⟨_, Step.refl h _⟩, fun _ => rfl⟩
    · cases hsearch
  | update key val =>
    obtain ⟨res, hup, hok⟩ := bind_eq_ok hok
    obtain ⟨rfl, rfl⟩ := Prod.mk.inj (Except.ok.inj hok)
    rw [LeafTable.update] at hup
    split at hup
    · rename_i hlt
      obtain ⟨p, hpick, hup⟩ := bind_eq_ok hup
      obtain ⟨rfl, hi'⟩ := h.toRepresents.pickEntry_of_ok hk hlt hpick
      obtain ⟨alloc', hup', hstep, hsame⟩ := h.updateSynonym_ok hi' hk val
      obtain rfl := Except.ok.inj (hup'.symm.trans hup)
      refine ⟨hi', rfl, ⟨_, hstep⟩, fun hans => ?_⟩
      have hnone := Option.isSome_eq_false_iff.mp (Answer.done.inj hans)
      rw [hsame (Option.isNone_iff_eq_none.mp hnone)]
    · cases hup
  | insert key val =>
    obtain ⟨res, hins, hok⟩ := bind_eq_ok hok
    obtain ⟨rfl, rfl⟩ := Prod.mk.inj (Except.ok.inj hok)
    obtain ⟨hle, hlt, hcase⟩ := h.insert_of_ok hN hN0 hk hins
    simp only [TableOp.key] at hcase ⊢
    refine ⟨(target_le hle).trans_lt hlt, ?_⟩
    rcases hcase with ⟨rfl, hno⟩ | ⟨htrue, hroom, hnone, _, slots', hstep⟩
    · have hno : s.room = false ∨ (chains (target chains key lo hi)).flatten.lookup key ≠ none :=
        hno.imp (fun hfull => decide_eq_false hfull.not_lt) id
      obtain ⟨hans, hedit⟩ := TableOp.insert_refused (N := N) (v := val) hno
      rw [hans, hedit]
      exact ⟨rfl, ⟨_, Step.refl h _⟩, fun _ => rfl⟩
    · have hroom : s.room = true := decide_eq_true hroom
      obtain ⟨hans, hedit⟩ := TableOp.insert_taken (N := N) (v := val) hroom hnone
      rw [hans, hedit, htrue]
      exact ⟨rfl, ⟨_, hstep⟩, fun hfalse => by cases hfalse⟩
  | remove key =>
    obtain ⟨res, hrem, hok⟩ := bind_eq_ok hok
    obtain ⟨rfl, rfl⟩ := Prod.mk.inj (Except.ok.inj hok)
    rw [LeafTable.remove] at hrem
    split at hrem
    · rename_i hlt
      obtain ⟨p, hpick, hrem⟩ := bind_eq_ok hrem
      obtain ⟨rfl, hi'⟩ := h.toRepresents.pickEntry_of_ok hk hlt hpick
      obtain ⟨t', alloc', slots', hrem', hstep, hsame⟩ := h.removeSynonym_ok hi' hk
      obtain rfl := Except.ok.inj (hrem'.symm.trans hrem)
      refine ⟨hi', rfl, ⟨_, hstep⟩, fun hans => ?_⟩
      have hnone := Option.isSome_eq_false_iff.mp (Answer.done.inj hans)
      obtain ⟨rfl, rfl⟩ := hsame (Option.isNone_iff_eq_none.mp hnone)
      rfl
    · cases hrem

/-- A call with a window inside the table returns; only an insertion fetches a leaf. -/
theorem Sound.call_returns {s : TableState K V N} (h : Sound s.table s.alloc slots chains)
    (hN : Even N) (hN0 : 0 < N) (op : TableOp K V) (henough : ∀ k v, op = .insert k v → s.Enough)
    (hk : op.key < ⊤) (hle : lo ≤ hi) (hlt : hi < s.table.size) :
    ∃ ans s', s.call op lo hi = .ok (ans, s') := by
  have hpick := h.toRepresents.pickEntry_ok hk hle hlt
  have hi' : target chains op.key lo hi < s.table.size := (target_le hle).trans_lt hlt
  cases op with
  | search key =>
    have hsearch := h.search_ok hk hle hlt
    rw [TableOp.key] at hsearch
    exact ⟨_, _, by rw [TableState.call, hsearch, ok_bind]⟩
  | update key val =>
    simp only [TableOp.key] at hpick hi' hk
    obtain ⟨alloc', hup, _⟩ := h.updateSynonym_ok hi' hk val
    rw [TableState.call, LeafTable.update, if_pos hlt, hpick, ok_bind]
    simp only
    exact ⟨_, _, by rw [hup, ok_bind]⟩
  | insert key val =>
    simp only [TableOp.key] at hpick hi' hk
    have hins : ∃ res, s.table.insertSynonym s.alloc key val (target chains key lo hi)
        (s.table.entryNum (target chains key lo hi)) = .ok res := by
      by_cases hroom : s.table.available = kSynonymMax - 1
      · exact ⟨_, Sound.insertSynonym_full hroom val _⟩
      have hroom : s.table.available < kSynonymMax - 1 := lt_of_le_of_ne h.countLe hroom
      by_cases hl : (chains (target chains key lo hi)).flatten.lookup key = none
      · have hleaf : s.alloc.used < s.alloc.allocated := by
          have he := henough key val rfl
          rw [TableState.Enough] at he
          omega
        obtain ⟨_, _, _, hins, _⟩ :=
          h.insertSynonym_absent hN hN0 hi' hk hl hroom (fun _ _ _ _ _ => hleaf) val
        exact ⟨_, hins⟩
      · exact ⟨_, h.insertSynonym_present hi' hk hl val⟩
    obtain ⟨res, hins⟩ := hins
    rw [TableState.call, LeafTable.insert, if_pos ⟨hlt, hle⟩, hpick, ok_bind]
    simp only
    exact ⟨_, _, by rw [hins, ok_bind]⟩
  | remove key =>
    simp only [TableOp.key] at hpick hi' hk
    obtain ⟨t', alloc', slots', hrem, _⟩ := h.removeSynonym_ok hi' hk
    rw [TableState.call, LeafTable.remove, if_pos hlt, hpick, ok_bind]
    simp only
    exact ⟨_, _, by rw [hrem, ok_bind]⟩

theorem Sound.call_ok {s : TableState K V N} (h : Sound s.table s.alloc slots chains) (hN : Even N)
    (hN0 : 0 < N) (henough : s.Enough) (op : TableOp K V) (hk : op.key < ⊤) (hle : lo ≤ hi)
    (hlt : hi < s.table.size) : ∃ s' slots', s.call op lo hi =
        .ok (op.answer s.room (chains (target chains op.key lo hi)).flatten, s') ∧
      Step s.table s.alloc slots chains (target chains op.key lo hi)
        (op.edit N s.room (chains (target chains op.key lo hi))) s'.table s'.alloc slots' ∧
      (op.answer s.room (chains (target chains op.key lo hi)).flatten = .done false → s' = s) := by
  obtain ⟨ans, s', hcall⟩ := h.call_returns hN hN0 op (fun _ _ _ => henough) hk hle hlt
  obtain ⟨_, rfl, ⟨slots', hstep⟩, hfalse⟩ := h.call_of_ok hN hN0 hk hcall
  exact ⟨s', slots', hcall, hstep, hfalse⟩

end Table

/-! ### Runs -/

/-- A run keeps the tables sound, whatever the windows are. -/
theorem Sound.run_ok (hN : Even N) (hN0 : 0 < N) {calls : List (TableOp K V × ℕ × ℕ)} :
    ∀ {s : TableState K V N} {slots : ℕ → List ℕ} {chains : ℕ → List (List (K × V))},
      Sound s.table s.alloc slots chains → s.Enough →
      (∀ c ∈ calls, c.1.key < ⊤ ∧ c.2.1 ≤ c.2.2 ∧ c.2.2 < s.table.size) →
      ∃ answers s' slots' chains', s.run calls = .ok (answers, s') ∧
        Sound s'.table s'.alloc slots' chains' ∧ s'.table.size = s.table.size ∧
        s'.alloc.used + s.table.available = s.alloc.used + s'.table.available ∧
        s'.alloc.allocated = s.alloc.allocated := by
  induction calls with
  | nil => exact fun {s slots chains} h _ _ => ⟨[], s, slots, chains, rfl, h, rfl, rfl, rfl⟩
  | cons c calls ih =>
    intro s slots chains h he hc
    obtain ⟨hk, hle, hlt⟩ := hc c List.mem_cons_self
    obtain ⟨s₁, slots₁, hcall, hstep, _⟩ := h.call_ok hN hN0 he c.1 hk hle hlt
    obtain ⟨answers, s', slots', chains', hrun, hs, hsize, hcount, hall⟩ :=
      ih hstep.sound (hstep.enough he)
      fun x hx => by
        rw [hstep.size]
        exact hc x (List.mem_cons_of_mem _ hx)
    have hr : s.run (c :: calls) = .ok (c.1.answer s.room
        (chains (target chains c.1.key c.2.1 c.2.2)).flatten :: answers, s') := by
      rw [TableState.run, hcall, ok_bind, hrun, ok_bind]
    have hcount' := hstep.count
    exact ⟨_, s', slots', chains', hr, hs, hsize.trans hstep.size, by omega,
      hall.trans hstep.allocated⟩

end Rolex
