import Rolex.Foundations.Interleaving
import Rolex.TableOps

/-! Two calls of `insert_synonym` at once, for different table entries. Each call
holds the spin lock of its own entry; the slot counter and the counter of the
leaves are shared. Every statement of the body is one step. -/

namespace Rolex
open AscendingMap BlockChain Interleaving

structure InsertCall (K V : Type) where
  key : K
  val : V
  lIdx : ℕ
  leaf : ℕ

/-- Where a call is; `cur`, `idx` and `nLeaf` are its variables. -/
inductive InsertPhase where
  | start
  | locking
  | locked
  | walked (sLeaves : List ℕ)
  | picked (cur : ℕ) (idx : Option ℕ)
  | absent (cur : ℕ) (idx : Option ℕ)
  | full (cur : ℕ) (idx : Option ℕ)
  | splitting (cur : ℕ) (idx : Option ℕ)
  | fetched (cur : ℕ) (idx : Option ℕ) (nLeaf : ℕ)
  | emplaced (cur nLeaf : ℕ)
  | halved (cur nLeaf : ℕ)
  | placing (cur : ℕ)
  | unlocking (res : Bool)
  | returned (res : Bool)
  | faulted (e : Fault)
  deriving DecidableEq

variable {K V : Type} {N : ℕ} [LinearOrder K] [OrderTop K]

def orFault (s : TableState K V N) (x : Except Fault (InsertPhase × TableState K V N)) :
    InsertPhase × TableState K V N :=
  match x with
  | .ok r => r
  | .error e => (.faulted e, s)

def insertSynonymStep (call : InsertCall K V) (s : TableState K V N) :
    InsertPhase → Option (InsertPhase × TableState K V N)
  | .start => some (if s.table.available = kSynonymMax - 1 then .returned false else .locking, s)
  | .locking =>
    match s.table.csLock call.lIdx with
    | .ok t => some (.locked, ⟨t, s.alloc⟩)
    -- another thread holds the lock
    | .error .hang => none
    | .error e => some (.faulted e, s)
  | .locked => some (orFault s do
      let sLeaves ← s.table.synonymLeaves call.lIdx
      .ok (.walked sLeaves, s))
  | .walked sLeaves => some (orFault s do
      let picked ← s.table.pickSynonym s.alloc call.key sLeaves sLeaves.length
      .ok (.picked (LeafTable.pickedLeaf call.leaf picked) (picked.map fun p => sLeaves.getD p.1 0),
        s))
  | .picked cur idx =>
    some (if (s.alloc.leaves cur).contain call.key then .unlocking false else .absent cur idx, s)
  | .absent cur idx => some (if (s.alloc.leaves cur).isfull then .full cur idx else .placing cur, s)
  | .full cur idx =>
    some (if s.table.available = kSynonymMax - 1 then .unlocking false else .splitting cur idx, s)
  | .splitting cur idx => some (orFault s do
      let res ← s.alloc.fetchNewLeaf
      .ok (.fetched cur idx res.1, ⟨s.table, res.2⟩))
  -- what `synonym_emplace_back` returns is not looked at
  | .fetched cur idx nLeaf => some (orFault s do
      let linked ← s.table.emplaceBehind call.lIdx idx nLeaf
      .ok (.emplaced cur nLeaf, ⟨linked.2, s.alloc⟩))
  | .emplaced cur nLeaf =>
    let halves := Leaf.moveHalf (s.alloc.leaves cur) (s.alloc.leaves nLeaf)
    some (.halved cur nLeaf, ⟨s.table, (s.alloc.write cur halves.1).write nLeaf halves.2⟩)
  | .halved cur nLeaf =>
    some (.placing (if (s.alloc.leaves nLeaf).insertHere call.key then nLeaf else cur), s)
  | .placing cur => some (.unlocking true,
      ⟨s.table, s.alloc.write cur ((s.alloc.leaves cur).insertNotFull call.key call.val).2⟩)
  | .unlocking res => some (.returned res, ⟨s.table.csUnlock call.lIdx, s.alloc⟩)
  | .returned _ => none
  | .faulted _ => none

def twoInserts (calls : Bool → InsertCall K V) (x : Bool) (phase : InsertPhase)
    (s : TableState K V N) : Option (InsertPhase × TableState K V N) :=
  insertSynonymStep (calls x) s phase

def TableState.searchAt (s : TableState K V N) (i : ℕ) (key : K) : Except Fault (Option V) := do
  let leaf ← s.table.entryLeaf s.alloc i
  s.table.searchEntry s.alloc key i leaf

/-- From `s₀` to `s` no key is lost, and no synonym slot is on two chains. -/
structure Intact (s₀ s : TableState K V N) (calls : Bool → InsertCall K V)
    (res : Bool → Bool) : Prop where
  stored : ∀ i < s₀.table.size, ∀ es, s₀.table.chainEntries s₀.alloc i = .ok es →
    ∀ e ∈ es, s.searchAt i e.1 = .ok (some e.2)
  inserted : ∀ x, res x = true → s.searchAt (calls x).lIdx (calls x).key = .ok (some (calls x).val)
  disjoint : ∀ i < s₀.table.size, ∀ j < s₀.table.size, i ≠ j → ∀ l l',
    s.table.synonymLeaves i = .ok l → s.table.synonymLeaves j = .ok l' → l.Disjoint l'

/-- The call, made now and alone, finds its key absent and its leaf full. -/
def TableState.splits (s : TableState K V N) (call : InsertCall K V) : Except Fault Bool := do
  let sLeaves ← s.table.synonymLeaves call.lIdx
  let picked ← s.table.pickSynonym s.alloc call.key sLeaves sLeaves.length
  let cur := s.alloc.leaves (LeafTable.pickedLeaf call.leaf picked)
  .ok (!cur.contain call.key && cur.isfull)

namespace InsertPhase

def holds : InsertPhase → Bool
  | start | locking | returned _ | faulted _ => false
  | _ => true

def entered : InsertPhase → Bool
  | start | returned _ | faulted _ => false
  | _ => true

def pastFetch : InsertPhase → Bool
  | fetched _ _ _ | emplaced _ _ | halved _ _ | placing _ | unlocking _ | returned _ => true
  | _ => false

def pastEmplace : InsertPhase → Bool
  | emplaced _ _ | halved _ _ | placing _ | unlocking _ | returned _ => true
  | _ => false

def fetchedLeaf : InsertPhase → Option ℕ
  | fetched _ _ nLeaf => some nLeaf
  | _ => none

end InsertPhase

theorem Represents.below_of_mem {t : LeafTable} {alloc : LeafAllocator K V N} {slots : ℕ → List ℕ}
    {chains : ℕ → List (List (K × V))} (h : Represents t alloc slots chains) {i : ℕ}
    (hi : i < t.size) {e : K × V} (he : e ∈ (chains i).flatten) : e.1 < ⊤ := by
  obtain ⟨b, hb, heb⟩ := List.mem_flatten.mp he
  obtain ⟨pre, post, hchain⟩ := List.append_of_mem hb
  have hf := h.holds i hi
  rw [hchain] at hf
  obtain ⟨p, _, hp, _⟩ := List.forall₂_cons_right_iff.mp (List.forall₂_drop_append _ _ _ hf)
  exact hp.below e heb

theorem Sound.searchAt_ok {s : TableState K V N} {slots : ℕ → List ℕ}
    {chains : ℕ → List (List (K × V))} (h : Sound s.table s.alloc slots chains) {i : ℕ}
    (hi : i < s.table.size) {k : K} (hk : k < ⊤) :
    s.searchAt i k = .ok ((chains i).flatten.lookup k) := by
  rw [TableState.searchAt, h.entryLeaf_ok hi, ok_bind, h.searchEntry_ok hi hk]

/-! ### What a call has done to its chain -/

/-- `cur` is the leaf of `k` in the chain `bs`, standing in slot `idx` or in the entry. -/
structure Picks (k : K) (bs : List (List (K × V))) (slots nums : List ℕ) (cur : ℕ) (idx : Option ℕ)
    (pre : List (List (K × V))) (b : List (K × V)) (post : List (List (K × V)))
    (npre npost : List ℕ) : Prop where
  located : Located k bs pre b post
  nums : nums = npre ++ cur :: npost
  length : npre.length = pre.length
  idx : idx = (if pre = [] then none else some (pre.length - 1, cur)).map
    fun q : ℕ × ℕ => slots.getD q.1 0

/-- The leaf `cur` of `k` in the chain `bs` is full and does not hold `k`; `n` stands behind it. -/
structure Splits (N : ℕ) (k : K) (bs : List (List (K × V))) (nums : List ℕ) (cur n : ℕ)
    (pre : List (List (K × V))) (b : List (K × V)) (post : List (List (K × V)))
    (npre npost : List ℕ) : Prop where
  located : Located k bs pre b post
  nums : nums = npre ++ cur :: n :: npost
  length : npre.length = pre.length
  absent : b.lookup k = none
  full : b.length = N

def MustSplit (N : ℕ) (k : K) (bs : List (List (K × V))) : Prop :=
  ∃ pre b post, Located k bs pre b post ∧ b.lookup k = none ∧ b.length = N

/-- The chain of the entry was `bs` when the call began and now is `chain`, its slots being
`slots` and its leaves `nums`. -/
def Stands (N : ℕ) (call : InsertCall K V) (bs : List (List (K × V))) (slots nums : List ℕ)
    (chain : List (List (K × V))) : InsertPhase → Prop
  | .start | .locking | .locked => chain = bs
  | .walked sLeaves => chain = bs ∧ sLeaves = slots
  | .picked cur idx => chain = bs ∧
      ∃ pre b post npre npost, Picks call.key bs slots nums cur idx pre b post npre npost
  | .absent cur idx => chain = bs ∧ ∃ pre b post npre npost,
      Picks call.key bs slots nums cur idx pre b post npre npost ∧ b.lookup call.key = none
  | .full cur idx | .splitting cur idx | .fetched cur idx _ => chain = bs ∧ ∃ pre b post npre npost,
      Picks call.key bs slots nums cur idx pre b post npre npost ∧ b.lookup call.key = none ∧
      b.length = N
  | .emplaced cur n => ∃ pre b post npre npost,
      Splits N call.key bs nums cur n pre b post npre npost ∧ chain = pre ++ b :: [] :: post
  | .halved cur n => ∃ pre b post npre npost,
      Splits N call.key bs nums cur n pre b post npre npost ∧
      chain = pre ++ b.take (N / 2) :: b.drop (N / 2) :: post
  | .placing cur => Takes N nums chain bs call.key call.val cur ∧ bs.flatten.lookup call.key = none
  | .unlocking res | .returned res =>
      chain = (if res then BlockChain.insert N call.key call.val bs else bs) ∧
        (res = true → bs.flatten.lookup call.key = none)
  | .faulted _ => False

structure Ready (s₀ : TableState K V N) (calls : Bool → InsertCall K V) (slots₀ : ℕ → List ℕ)
    (bs : ℕ → List (List (K × V))) : Prop where
  sound : Sound s₀.table s₀.alloc slots₀ bs
  enough : s₀.alloc.used + 2 ≤ s₀.alloc.allocated
  key : ∀ x, (calls x).key < ⊤
  lt : ∀ x, (calls x).lIdx < s₀.table.size
  leaf : ∀ x, (calls x).leaf = s₀.table.entryNum (calls x).lIdx
  ne : ∀ x, (calls x).lIdx ≠ (calls !x).lIdx

/-- The two calls are under way: the memory stores the chains, and each call stands where its
phase says. -/
structure Underway (s₀ : TableState K V N) (calls : Bool → InsertCall K V)
    (bs : ℕ → List (List (K × V))) (c : Config Bool InsertPhase (TableState K V N))
    (slots : ℕ → List ℕ) (chains : ℕ → List (List (K × V))) : Prop where
  represents : Represents c.shared.table c.shared.alloc slots chains
  size : c.shared.table.size = s₀.table.size
  entryNum : c.shared.table.entryNum = s₀.table.entryNum
  lockBit : ∀ i, c.shared.table.lockBit i = 0
  others : ∀ m, (∀ x, m ≠ (calls x).lIdx) → chains m = bs m
  stands : ∀ x, Stands N (calls x) (bs (calls x).lIdx) (slots (calls x).lIdx)
    (c.shared.table.chainNums (calls x).lIdx (slots (calls x).lIdx)) (chains (calls x).lIdx)
    (c.pc x)
  spare : ∀ x n, (c.pc x).fetchedLeaf = some n → Spare c.shared.table c.shared.alloc slots n
  spareNe : ∀ x n, (c.pc x).fetchedLeaf = some n → (c.pc !x).fetchedLeaf ≠ some n
  csLength : c.shared.table.csLocks.length = s₀.table.size
  csHeld : ∀ x, c.shared.table.csLocks[(calls x).lIdx]? = some (c.pc x).holds
  csFree : ∀ m < s₀.table.size, (∀ x, m ≠ (calls x).lIdx) → c.shared.table.csLocks[m]? = some false
  entered : ∀ x, (c.pc x).entered = true → s₀.table.available < kSynonymMax - 1
  countGe : s₀.table.available ≤ c.shared.table.available
  countLe : ∀ x, (c.pc x).pastEmplace = false → c.shared.table.available ≤ s₀.table.available + 1
  countEq : (∀ x, (c.pc x).pastEmplace = true → ¬MustSplit N (calls x).key (bs (calls x).lIdx)) →
    c.shared.table.available = s₀.table.available
  usedLe : ∀ x, (c.pc x).pastFetch = false → c.shared.alloc.used ≤ s₀.alloc.used + 1
  usedEq : (∀ x, (c.pc x).pastFetch = false) → c.shared.alloc.used = s₀.alloc.used
  allocated : c.shared.alloc.allocated = s₀.alloc.allocated

structure Moves (s₀ : TableState K V N) (calls : Bool → InsertCall K V)
    (bs : ℕ → List (List (K × V))) (c : Config Bool InsertPhase (TableState K V N))
    (slots : ℕ → List ℕ) (chains : ℕ → List (List (K × V))) (x : Bool) (p : InsertPhase)
    (s' : TableState K V N) (slots' : ℕ → List ℕ) (chains' : ℕ → List (List (K × V))) : Prop where
  represents : Represents s'.table s'.alloc slots' chains'
  size : s'.table.size = c.shared.table.size
  entryNum : s'.table.entryNum = c.shared.table.entryNum
  lockBit : s'.table.lockBit = c.shared.table.lockBit
  chains : ∀ m, m ≠ (calls x).lIdx → chains' m = chains m
  slotsOther : slots' (calls !x).lIdx = slots (calls !x).lIdx
  numsOther : s'.table.chainNums (calls !x).lIdx (slots' (calls !x).lIdx) =
    c.shared.table.chainNums (calls !x).lIdx (slots (calls !x).lIdx)
  stands : Stands N (calls x) (bs (calls x).lIdx) (slots' (calls x).lIdx)
    (s'.table.chainNums (calls x).lIdx (slots' (calls x).lIdx)) (chains' (calls x).lIdx) p
  spare : ∀ n, (c.pc !x).fetchedLeaf = some n → Spare s'.table s'.alloc slots' n
  fetched : ∀ n, p.fetchedLeaf = some n →
    Spare s'.table s'.alloc slots' n ∧ (c.pc !x).fetchedLeaf ≠ some n
  csLocks : s'.table.csLocks = c.shared.table.csLocks.set (calls x).lIdx p.holds
  entered : p.entered = true → s₀.table.available < kSynonymMax - 1
  count : s'.table.available = c.shared.table.available ∧
      ((c.pc x).pastEmplace = true → p.pastEmplace = true) ∨
    s'.table.available = c.shared.table.available + 1 ∧ (c.pc x).pastEmplace = false ∧
      p.pastEmplace = true ∧ MustSplit N (calls x).key (bs (calls x).lIdx)
  used : s'.alloc.used = c.shared.alloc.used ∧ ((c.pc x).pastFetch = true → p.pastFetch = true) ∨
    s'.alloc.used = c.shared.alloc.used + 1 ∧ (c.pc x).pastFetch = false ∧ p.pastFetch = true
  allocated : s'.alloc.allocated = c.shared.alloc.allocated

namespace Underway

variable {s₀ : TableState K V N} {calls : Bool → InsertCall K V} {slots₀ : ℕ → List ℕ}
  {bs : ℕ → List (List (K × V))} {c : Config Bool InsertPhase (TableState K V N)}
  {slots : ℕ → List ℕ} {chains : ℕ → List (List (K × V))} {x : Bool}

theorem forall_update {P : Type} {Q : Bool → P → Prop} {pc : Bool → P} {p : P} (hp : Q x p)
    (ho : Q (!x) (pc !x)) : ∀ y, Q y (Function.update pc x p y) := by
  rw [Function.forall_update_iff pc]
  refine ⟨hp, fun y hy => ?_⟩
  obtain rfl : y = !x := by cases x <;> cases y <;> simp_all
  exact ho

/-- A counter to which each call adds one at most, when its phase gets past one step. -/
theorem count_le {past : InsertPhase → Bool} {pc : Bool → InsertPhase} {p : InsertPhase}
    {n₀ n n' : ℕ} (hle : ∀ y, past (pc y) = false → n ≤ n₀ + 1)
    (heq : (∀ y, past (pc y) = false) → n = n₀)
    (hmove : n' = n ∧ (past (pc x) = true → past p = true) ∨
      n' = n + 1 ∧ past (pc x) = false ∧ past p = true) :
    ∀ y, past (Function.update pc x p y) = false → n' ≤ n₀ + 1 := by
  rcases hmove with ⟨rfl, hpast⟩ | ⟨rfl, hbefore, hafter⟩
  · refine forall_update (Q := fun _ q => past q = false → n' ≤ n₀ + 1)
      (fun hp => hle x ?_) (hle _)
    exact Bool.eq_false_iff.mpr fun ht => Bool.false_ne_true (hp.symm.trans (hpast ht))
  · refine forall_update (Q := fun _ q => past q = false → n + 1 ≤ n₀ + 1)
      (fun hp => absurd (hp.symm.trans hafter) Bool.false_ne_true) fun hother => ?_
    -- neither call was past the step, so nothing was added before
    have hnone : ∀ y, past (pc y) = false := by
      intro y
      rcases Bool.eq_or_eq_not y x with rfl | rfl
      · exact hbefore
      · exact hother
    rw [heq hnone]

theorem start (h : Ready s₀ calls slots₀ bs) :
    Underway s₀ calls bs ⟨fun _ => .start, s₀⟩ slots₀ bs where
  represents := h.sound.toRepresents
  size := rfl
  entryNum := rfl
  lockBit := h.sound.idle.te
  others := fun _ _ => rfl
  stands := fun _ => rfl
  spare := fun _ _ hn => by cases hn
  spareNe := fun _ _ hn => by cases hn
  csLength := by rw [h.sound.idle.cs, List.length_replicate]
  csHeld := fun x => by
    rw [h.sound.idle.cs, List.getElem?_replicate, if_pos (h.lt x)]
    rfl
  csFree := fun m hm _ => by rw [h.sound.idle.cs, List.getElem?_replicate, if_pos hm]
  entered := fun _ he => by cases he
  countGe := le_rfl
  countLe := fun _ _ => Nat.le_succ _
  countEq := fun _ => rfl
  usedLe := fun _ _ => Nat.le_succ _
  usedEq := fun _ => rfl
  allocated := rfl

theorem advance (h : Underway s₀ calls bs c slots chains) (hr : Ready s₀ calls slots₀ bs)
    {p : InsertPhase} {s' : TableState K V N} {slots' : ℕ → List ℕ}
    {chains' : ℕ → List (List (K × V))}
    (m : Moves s₀ calls bs c slots chains x p s' slots' chains') :
    Underway s₀ calls bs ⟨Function.update c.pc x p, s'⟩ slots' chains' where
  represents := m.represents
  size := m.size.trans h.size
  entryNum := m.entryNum.trans h.entryNum
  lockBit := fun i => (congrFun m.lockBit i).trans (h.lockBit i)
  others := fun i hi => (m.chains i (hi x)).trans (h.others i hi)
  stands := by
    refine forall_update (Q := fun y (q : InsertPhase) => Stands N (calls y) (bs (calls y).lIdx)
      (slots' (calls y).lIdx) (s'.table.chainNums (calls y).lIdx (slots' (calls y).lIdx))
      (chains' (calls y).lIdx) q) m.stands ?_
    rw [m.numsOther, m.slotsOther, m.chains _ (hr.ne x).symm]
    exact h.stands _
  spare := forall_update (Q := fun _ (q : InsertPhase) => ∀ n, q.fetchedLeaf = some n →
    Spare s'.table s'.alloc slots' n) (fun n hn => (m.fetched n hn).1) m.spare
  spareNe := fun y n hn => by
    by_cases hy : y = x
    · subst hy
      have hny : (!y) ≠ y := by cases y <;> decide
      have hn' : p.fetchedLeaf = some n := by simpa using hn
      simpa [Function.update_of_ne hny] using (m.fetched n hn').2
    · obtain rfl : y = !x := by cases x <;> cases y <;> simp_all
      rw [Bool.not_not]
      have hn' : (c.pc !x).fetchedLeaf = some n := by simpa [Function.update_of_ne hy] using hn
      simpa using fun hp => (m.fetched n hp).2 hn'
  csLength := by rw [m.csLocks, List.length_set, h.csLength]
  csHeld := by
    refine forall_update (Q := fun y (q : InsertPhase) => s'.table.csLocks[(calls y).lIdx]? =
      some q.holds) ?_ ?_
    · rw [m.csLocks, List.getElem?_set_self (by rw [h.csLength]; exact hr.lt x)]
    · rw [m.csLocks, List.getElem?_set_ne (hr.ne x)]
      exact h.csHeld _
  csFree := fun i hi ho => by
    rw [m.csLocks, List.getElem?_set_ne (ho x).symm]
    exact h.csFree i hi ho
  entered := forall_update (Q := fun _ (q : InsertPhase) => q.entered = true → _) m.entered
    (h.entered _)
  countGe := by
    have := h.countGe
    change s₀.table.available ≤ s'.table.available
    rcases m.count with ⟨he, _⟩ | ⟨he, _⟩ <;> omega
  countLe := count_le h.countLe
    (fun hnone => h.countEq fun y hy => absurd ((hnone y).symm.trans hy) Bool.false_ne_true)
    (m.count.imp_right fun hadd => ⟨hadd.1, hadd.2.1, hadd.2.2.1⟩)
  countEq := fun hnone => by
    rcases m.count with ⟨he, hpast⟩ | ⟨he, hbefore, hafter, hsplit⟩
    · refine he.trans (h.countEq fun y hy => hnone y ?_)
      by_cases hyx : y = x
      · subst hyx
        simpa using hpast hy
      · simpa [Function.update_of_ne hyx] using hy
    · exact absurd hsplit (hnone x (by simpa using hafter))
  usedLe := count_le h.usedLe h.usedEq m.used
  usedEq := fun hnone => by
    rcases m.used with ⟨he, hpast⟩ | ⟨he, hbefore, hafter⟩
    · refine he.trans (h.usedEq fun y => ?_)
      by_cases hyx : y = x
      · subst hyx
        exact Bool.eq_false_iff.mpr fun ht =>
          Bool.false_ne_true ((by simpa using hnone y : p.pastFetch = false).symm.trans (hpast ht))
      · simpa [Function.update_of_ne hyx] using hnone y
    · exact absurd ((by simpa using hnone x : p.pastFetch = false).symm.trans hafter)
        Bool.false_ne_true
  allocated := m.allocated.trans h.allocated

theorem lt (h : Underway s₀ calls bs c slots chains) (hr : Ready s₀ calls slots₀ bs) (x : Bool) :
    (calls x).lIdx < c.shared.table.size := h.size ▸ hr.lt x

theorem standsAt (h : Underway s₀ calls bs c slots chains) {q : InsertPhase} (hp : c.pc x = q) :
    Stands N (calls x) (bs (calls x).lIdx) (slots (calls x).lIdx)
      (c.shared.table.chainNums (calls x).lIdx (slots (calls x).lIdx)) (chains (calls x).lIdx) q :=
  hp ▸ h.stands x

theorem enteredAt (h : Underway s₀ calls bs c slots chains) {q : InsertPhase} (hp : c.pc x = q)
    (hq : q.entered = true) : s₀.table.available < kSynonymMax - 1 := h.entered x (hp ▸ hq)

theorem relock (h : Underway s₀ calls bs c slots chains) {p q : InsertPhase} (hp : c.pc x = q)
    (hstands : Stands N (calls x) (bs (calls x).lIdx) (slots (calls x).lIdx)
      (c.shared.table.chainNums (calls x).lIdx (slots (calls x).lIdx)) (chains (calls x).lIdx) p)
    (hfetched : p.fetchedLeaf = none)
    (hentered : p.entered = true → s₀.table.available < kSynonymMax - 1)
    (hemplace : q.pastEmplace = true → p.pastEmplace = true)
    (hfetch : q.pastFetch = true → p.pastFetch = true) :
    Moves s₀ calls bs c slots chains x p
      ⟨{ c.shared.table with csLocks := c.shared.table.csLocks.set (calls x).lIdx p.holds },
        c.shared.alloc⟩ slots chains where
  represents := h.represents.congr rfl rfl rfl rfl
  size := rfl
  entryNum := rfl
  lockBit := rfl
  chains := fun _ _ => rfl
  slotsOther := rfl
  numsOther := rfl
  stands := hstands
  spare := fun n hn => ⟨(h.spare _ n hn).used, (h.spare _ n hn).unlinked, (h.spare _ n hn).blank⟩
  fetched := fun n hn => by rw [hfetched] at hn; cases hn
  csLocks := rfl
  entered := hentered
  count := Or.inl ⟨rfl, hp ▸ hemplace⟩
  used := Or.inl ⟨rfl, hp ▸ hfetch⟩
  allocated := rfl

theorem csLocks_set (h : Underway s₀ calls bs c slots chains) (x : Bool) :
    c.shared.table.csLocks.set (calls x).lIdx (c.pc x).holds = c.shared.table.csLocks := by
  obtain ⟨hlt, heq⟩ := List.getElem?_eq_some_iff.mp (h.csHeld x)
  rw [← heq, List.set_getElem_self]

theorem quiet (h : Underway s₀ calls bs c slots chains) {p q : InsertPhase} (hp : c.pc x = q)
    (hholds : p.holds = q.holds)
    (hstands : Stands N (calls x) (bs (calls x).lIdx) (slots (calls x).lIdx)
      (c.shared.table.chainNums (calls x).lIdx (slots (calls x).lIdx)) (chains (calls x).lIdx) p)
    (hfetched : p.fetchedLeaf = none)
    (hentered : p.entered = true → s₀.table.available < kSynonymMax - 1)
    (hemplace : q.pastEmplace = true → p.pastEmplace = true)
    (hfetch : q.pastFetch = true → p.pastFetch = true) :
    Moves s₀ calls bs c slots chains x p c.shared slots chains := by
  have hm := h.relock hp hstands hfetched hentered hemplace hfetch
  rwa [hholds, ← hp, h.csLocks_set] at hm

theorem next_start (h : Underway s₀ calls bs c slots chains) (hp : c.pc x = .start) :
    ∃ p, twoInserts calls x .start c.shared = some (p, c.shared) ∧
      Moves s₀ calls bs c slots chains x p c.shared slots chains ∧
      (c.shared.table.available < kSynonymMax - 1 → p = .locking) := by
  have hst := h.standsAt hp
  refine ⟨_, rfl, ?_, fun hlt => if_neg hlt.ne⟩
  split
  · exact h.quiet hp rfl ⟨hst, fun hres => (by cases hres)⟩ rfl (fun he => by cases he)
      (fun _ => rfl) (fun _ => rfl)
  · rename_i hne
    have h1 := h.countGe
    have h2 := h.represents.countLe
    exact h.quiet hp rfl hst rfl (fun _ => by omega) id id

theorem next_locking (h : Underway s₀ calls bs c slots chains) (hp : c.pc x = .locking) :
    ∃ s', twoInserts calls x .locking c.shared = some (.locked, s') ∧ s'.alloc = c.shared.alloc ∧
      s'.table.available = c.shared.table.available ∧
      Moves s₀ calls bs c slots chains x .locked s' slots chains := by
  have hst : chains (calls x).lIdx = bs (calls x).lIdx := h.standsAt hp
  have hheld := h.csHeld x
  rw [hp] at hheld
  have hlock : c.shared.table.csLock (calls x).lIdx =
      .ok { c.shared.table with csLocks := c.shared.table.csLocks.set (calls x).lIdx true } := by
    rw [LeafTable.csLock, hheld]
    rfl
  refine ⟨⟨{ c.shared.table with csLocks := c.shared.table.csLocks.set (calls x).lIdx true },
    c.shared.alloc⟩, ?_, rfl, rfl, h.relock hp hst rfl (fun _ => h.enteredAt hp rfl) id id⟩
  rw [twoInserts, insertSynonymStep, hlock]

theorem next_locked (h : Underway s₀ calls bs c slots chains) (hr : Ready s₀ calls slots₀ bs)
    (hp : c.pc x = .locked) :
    twoInserts calls x .locked c.shared = some (.walked (slots (calls x).lIdx), c.shared) ∧
      Moves s₀ calls bs c slots chains x
      (.walked (slots (calls x).lIdx)) c.shared slots chains := by
  constructor
  · rw [twoInserts, insertSynonymStep, h.represents.synonymLeaves_ok (h.lt hr x)]
    rfl
  · exact h.quiet hp rfl ⟨h.standsAt hp, rfl⟩ rfl (fun _ => h.enteredAt hp rfl) id id

theorem next_walked (h : Underway s₀ calls bs c slots chains) (hr : Ready s₀ calls slots₀ bs)
    {sLeaves : List ℕ} (hp : c.pc x = .walked sLeaves) :
    ∃ cur idx, twoInserts calls x (.walked sLeaves) c.shared = some (.picked cur idx, c.shared) ∧
      Moves s₀ calls bs c slots chains x (.picked cur idx) c.shared slots chains := by
  obtain ⟨hchain, rfl⟩ := h.standsAt hp
  obtain ⟨pre, b, post, npre, cur, npost, f⟩ := h.represents.exists_focus (h.lt hr x) (calls x).key
  have hpick := f.pickSynonym_ok h.represents (h.lt hr x) (hr.key x)
  have hcur := f.pickedLeaf_eq
  rw [h.entryNum, ← hr.leaf x] at hcur
  refine ⟨cur, (if pre = [] then none else some (pre.length - 1, cur)).map
    fun q : ℕ × ℕ => (slots (calls x).lIdx).getD q.1 0, ?_, h.quiet hp rfl
    ⟨hchain, pre, b, post, npre, npost, ⟨hchain ▸ f.located, f.nums, f.length_pre, rfl⟩⟩ rfl
    (fun _ => h.enteredAt hp rfl) id id⟩
  rw [twoInserts, insertSynonymStep, hpick, ok_bind, hcur]
  rfl

theorem picked_holds (h : Underway s₀ calls bs c slots chains) (hr : Ready s₀ calls slots₀ bs)
    (hchain : chains (calls x).lIdx = bs (calls x).lIdx) {cur : ℕ} {idx : Option ℕ}
    {pre post : List (List (K × V))} {b : List (K × V)} {npre npost : List ℕ}
    (hpicks : Picks (calls x).key (bs (calls x).lIdx) (slots (calls x).lIdx)
      (c.shared.table.chainNums (calls x).lIdx (slots (calls x).lIdx)) cur idx pre b post npre
      npost) :
    (c.shared.alloc.leaves cur).Holds b :=
  h.represents.holds_mid (h.lt hr x) hpicks.nums (hchain.trans hpicks.located.eq) hpicks.length

theorem next_picked (h : Underway s₀ calls bs c slots chains) (hr : Ready s₀ calls slots₀ bs)
    {cur : ℕ} {idx : Option ℕ} (hp : c.pc x = .picked cur idx) :
    ∃ p, twoInserts calls x (.picked cur idx) c.shared = some (p, c.shared) ∧
      Moves s₀ calls bs c slots chains x p c.shared slots chains ∧
      (MustSplit N (calls x).key (bs (calls x).lIdx) → p = .absent cur idx) := by
  obtain ⟨hchain, pre, b, post, npre, npost, hpicks⟩ := h.standsAt hp
  have hcontain := Leaf.contain_eq (h.picked_holds hr hchain hpicks) (hr.key x)
  refine ⟨_, rfl, ?_, fun hsplit => if_neg ?_⟩
  · rw [hcontain]
    split
    · exact h.quiet hp rfl ⟨hchain, fun hres => (by cases hres)⟩ rfl (fun _ => h.enteredAt hp rfl)
        (fun _ => rfl) (fun _ => rfl)
    · rename_i hnone
      rw [Option.not_isSome_iff_eq_none] at hnone
      exact h.quiet hp rfl ⟨hchain, pre, b, post, npre, npost, hpicks, hnone⟩ rfl
        (fun _ => h.enteredAt hp rfl) id id
  · obtain ⟨pre', b', post', hloc, hnone, _⟩ := hsplit
    obtain ⟨rfl, rfl, rfl⟩ := hpicks.located.unique hloc
    rw [hcontain, hnone]
    exact Bool.false_ne_true

theorem next_absent (h : Underway s₀ calls bs c slots chains) (hr : Ready s₀ calls slots₀ bs)
    (hN0 : 0 < N) {cur : ℕ} {idx : Option ℕ} (hp : c.pc x = .absent cur idx) :
    ∃ p, twoInserts calls x (.absent cur idx) c.shared = some (p, c.shared) ∧
      Moves s₀ calls bs c slots chains x p c.shared slots chains ∧
      (MustSplit N (calls x).key (bs (calls x).lIdx) → p = .full cur idx) := by
  obtain ⟨hchain, pre, b, post, npre, npost, hpicks, hnone⟩ := h.standsAt hp
  have hleaf := h.picked_holds hr hchain hpicks
  refine ⟨_, rfl, ?_, fun hsplit => if_pos ?_⟩
  · split
    · rename_i hfull
      exact h.quiet hp rfl ⟨hchain, pre, b, post, npre, npost, hpicks, hnone,
        (hleaf.isfull_iff hN0).mp hfull⟩
        rfl (fun _ => h.enteredAt hp rfl) id id
    · rename_i hroom
      have hlt : b.length < N :=
        lt_of_le_of_ne hleaf.length_le fun he => hroom ((hleaf.isfull_iff hN0).mpr he)
      have htakes := takes_of_room hpicks.located hpicks.nums hpicks.length hnone hlt (calls x).val
      have habsent := (hpicks.located.lookup_eq (hr.sound.ordered _ (hr.lt x))).trans hnone
      exact h.quiet hp rfl ⟨hchain ▸ htakes, habsent⟩ rfl (fun _ => h.enteredAt hp rfl)
        (fun _ => rfl) (fun _ => rfl)
  · obtain ⟨pre', b', post', hloc, _, hfull⟩ := hsplit
    obtain ⟨rfl, rfl, rfl⟩ := hpicks.located.unique hloc
    exact (hleaf.isfull_iff hN0).mpr hfull

theorem next_full (h : Underway s₀ calls bs c slots chains) {cur : ℕ} {idx : Option ℕ}
    (hp : c.pc x = .full cur idx) :
    ∃ p, twoInserts calls x (.full cur idx) c.shared = some (p, c.shared) ∧
      Moves s₀ calls bs c slots chains x p c.shared slots chains ∧
      (c.shared.table.available < kSynonymMax - 1 → p = .splitting cur idx) := by
  obtain ⟨hchain, hsplit⟩ := h.standsAt hp
  refine ⟨_, rfl, ?_, fun hlt => if_neg hlt.ne⟩
  split
  · exact h.quiet hp rfl ⟨hchain, fun hres => (by cases hres)⟩ rfl (fun _ => h.enteredAt hp rfl)
      (fun _ => rfl) (fun _ => rfl)
  · exact h.quiet hp rfl ⟨hchain, hsplit⟩ rfl (fun _ => h.enteredAt hp rfl) id id

theorem next_splitting (h : Underway s₀ calls bs c slots chains) (hr : Ready s₀ calls slots₀ bs)
    {cur : ℕ} {idx : Option ℕ} (hp : c.pc x = .splitting cur idx) :
    ∃ n s', twoInserts calls x (.splitting cur idx) c.shared = some (.fetched cur idx n, s') ∧
      s'.table = c.shared.table ∧
      Moves s₀ calls bs c slots chains x (.fetched cur idx n) s' slots chains := by
  have hu := h.usedLe x (by rw [hp]; rfl)
  have hall := h.allocated
  have henough := hr.enough
  have hleaf : c.shared.alloc.used < c.shared.alloc.allocated := by omega
  have hst := h.standsAt hp
  refine ⟨c.shared.alloc.used,
    ⟨c.shared.table, { c.shared.alloc with used := c.shared.alloc.used + 1 }⟩, ?_, rfl, ?_⟩
  · rw [twoInserts, insertSynonymStep, LeafAllocator.fetchNewLeaf_ok hleaf]
    rfl
  · refine ⟨h.represents.fetch hleaf, rfl, rfl, rfl, fun _ _ => rfl, rfl, rfl, hst, fun n hn => ?_,
      fun n hn => ?_, ?_, fun _ => h.enteredAt hp rfl, Or.inl ⟨rfl, fun he => ?_⟩,
      Or.inr ⟨rfl, by rw [hp]; rfl, rfl⟩, rfl⟩
    · have hs := h.spare _ n hn
      exact ⟨Nat.lt_succ_of_lt hs.used, hs.unlinked, hs.blank⟩
    · obtain rfl := Option.some.inj hn
      exact ⟨h.represents.spare hleaf, fun hn => lt_irrefl _ (h.spare _ _ hn).used⟩
    · have hset := h.csLocks_set x
      rw [hp] at hset
      exact hset.symm
    · rw [hp] at he
      cases he

theorem next_fetched (h : Underway s₀ calls bs c slots chains) (hr : Ready s₀ calls slots₀ bs)
    {cur n : ℕ} {idx : Option ℕ} (hp : c.pc x = .fetched cur idx n)
    (hroom : c.shared.table.available < kSynonymMax - 1) :
    ∃ s' slots' chains', twoInserts calls x (.fetched cur idx n) c.shared =
      some (.emplaced cur n, s') ∧
      s'.table.available = c.shared.table.available + 1 ∧
      Moves s₀ calls bs c slots chains x (.emplaced cur n) s' slots' chains' := by
  obtain ⟨hchain, pre, b, post, npre, npost, hpicks, hnone, hfull⟩ := h.standsAt hp
  have hi := h.lt hr x
  have hne := (hr.ne x).symm
  have hspare := h.spare x n (by rw [hp]; rfl)
  have hholds := h.represents.holds _ hi
  rw [hpicks.nums, hchain.trans hpicks.located.eq, Represents.forall₂_append hpicks.length,
    List.forall₂_cons] at hholds
  have f : Focus c.shared.table c.shared.alloc slots chains (calls x).lIdx
    (calls x).key pre b post npre cur
      npost := ⟨hchain ▸ hpicks.located, hpicks.nums, hholds.1, hholds.2.1, hholds.2.2⟩
  obtain ⟨t', slots', hok, hadd, hrep, hnums, hrest⟩ := f.emplace h.represents hi hroom hspare
  have hother := hrest _ (h.lt hr !x) hne
  refine ⟨⟨t', c.shared.alloc⟩, slots', _, ?_, hadd.count, hrep, hadd.size, hadd.entryNum,
    hadd.lockBit, fun m hm => Function.update_of_ne hm .., hother.1, hother.2, ?_, fun m hm => ?_,
    fun m hm => (by cases hm), ?_, fun _ => h.enteredAt hp rfl,
    Or.inr ⟨hadd.count, by rw [hp]; rfl, rfl, pre, b, post, hpicks.located, hnone, hfull⟩,
    Or.inl ⟨rfl, fun _ => rfl⟩, rfl⟩
  · rw [twoInserts, insertSynonymStep, hpicks.idx, hok]
    rfl
  · rw [Function.update_self]
    exact ⟨pre, b, post, npre, npost, ⟨hpicks.located, hnums, hpicks.length, hnone, hfull⟩, rfl⟩
  · have hs := h.spare _ m hm
    have hmn : m ≠ n := fun he => h.spareNe x n (by rw [hp]; rfl) (he ▸ hm)
    refine ⟨hs.used, fun j hj hin => ?_, hs.blank⟩
    rw [hadd.size] at hj
    by_cases hjx : j = (calls x).lIdx
    · subst hjx
      rw [hnums] at hin
      refine hs.unlinked _ hi ?_
      rw [hpicks.nums]
      simp only [List.mem_append, List.mem_cons] at hin ⊢
      tauto
    · rw [(hrest j hj hjx).2] at hin
      exact hs.unlinked j hj hin
  · have hset := h.csLocks_set x
    rw [hp] at hset
    exact hadd.csLocks.trans hset.symm

theorem writes (h : Underway s₀ calls bs c slots chains) (hr : Ready s₀ calls slots₀ bs)
    {p q : InsertPhase} (hp : c.pc x = q) (hholds : p.holds = q.holds)
    {alloc' : LeafAllocator K V N} {chain : List (List (K × V))}
    (hrep : Represents c.shared.table alloc' slots (Function.update chains (calls x).lIdx chain))
    (hstands : Stands N (calls x) (bs (calls x).lIdx) (slots (calls x).lIdx)
      (c.shared.table.chainNums (calls x).lIdx (slots (calls x).lIdx)) chain p)
    (hused : alloc'.used = c.shared.alloc.used) (hall : alloc'.allocated = c.shared.alloc.allocated)
    (hleaves : ∀ m, m ∉ c.shared.table.chainNums (calls x).lIdx (slots (calls x).lIdx) →
      alloc'.leaves m = c.shared.alloc.leaves m)
    (hfetched : p.fetchedLeaf = none)
    (hentered : p.entered = true → s₀.table.available < kSynonymMax - 1)
    (hemplace : q.pastEmplace = true → p.pastEmplace = true)
    (hfetch : q.pastFetch = true → p.pastFetch = true) :
    Moves s₀ calls bs c slots chains x p ⟨c.shared.table, alloc'⟩ slots
      (Function.update chains (calls x).lIdx chain) where
  represents := hrep
  size := rfl
  entryNum := rfl
  lockBit := rfl
  chains := fun m hm => Function.update_of_ne hm ..
  slotsOther := rfl
  numsOther := rfl
  stands := by rwa [Function.update_self]
  spare := fun n hn => by
    have hs := h.spare _ n hn
    exact ⟨hused ▸ hs.used, hs.unlinked,
      by rw [hleaves n (hs.unlinked _ (h.lt hr x))]; exact hs.blank⟩
  fetched := fun n hn => by rw [hfetched] at hn; cases hn
  csLocks := by rw [hholds, ← hp, h.csLocks_set]
  entered := hentered
  count := Or.inl ⟨rfl, hp ▸ hemplace⟩
  used := Or.inl ⟨hused, hp ▸ hfetch⟩
  allocated := hall

theorem next_emplaced (h : Underway s₀ calls bs c slots chains) (hr : Ready s₀ calls slots₀ bs)
    (hN : Even N) {cur n : ℕ} (hp : c.pc x = .emplaced cur n) :
    ∃ s' chains', twoInserts calls x (.emplaced cur n) c.shared = some (.halved cur n, s') ∧
      s'.table = c.shared.table ∧
      Moves s₀ calls bs c slots chains x (.halved cur n) s' slots chains' := by
  obtain ⟨pre, b, post, npre, npost, hsplit, hchain⟩ := h.standsAt hp
  have hhalf := h.represents.halve (h.lt hr x) hsplit.nums hchain hsplit.length hN hsplit.full
  refine ⟨_, _, rfl, rfl,
    h.writes hr hp (p := .halved cur n) rfl hhalf ⟨pre, b, post, npre, npost, hsplit, rfl⟩ rfl rfl
      (fun m hm => ?_) rfl (fun _ => h.enteredAt hp rfl) id id⟩
  rw [hsplit.nums, List.mem_append, List.mem_cons, List.mem_cons] at hm
  push Not at hm
  rw [LeafAllocator.write_leaves_ne _ hm.2.2.1, LeafAllocator.write_leaves_ne _ hm.2.1]

theorem next_halved (h : Underway s₀ calls bs c slots chains) (hr : Ready s₀ calls slots₀ bs)
    (hN : Even N) (hN0 : 0 < N) {cur n : ℕ} (hp : c.pc x = .halved cur n) :
    ∃ cur', twoInserts calls x (.halved cur n) c.shared = some (.placing cur', c.shared) ∧
      Moves s₀ calls bs c slots chains x (.placing cur') c.shared slots chains := by
  obtain ⟨pre, b, post, npre, npost, hsplit, hchain⟩ := h.standsAt hp
  have hnums : c.shared.table.chainNums (calls x).lIdx (slots (calls x).lIdx) =
      (npre ++ [cur]) ++ n :: npost := by
    rw [hsplit.nums]
    simp
  have hchain' : chains (calls x).lIdx = (pre ++ [b.take (N / 2)]) ++ b.drop (N / 2) :: post := by
    rw [hchain]
    simp
  have hup := h.represents.holds_mid (h.lt hr x) hnums hchain' (by simp [hsplit.length])
  have hopen : (c.shared.alloc.leaves n).insertHere (calls x).key =
      opens (calls x).key (b.drop (N / 2)) := by
    rw [Bool.eq_iff_iff, hup.insertHere_iff (hr.key x), opens_iff]
  have htakes := takes_of_split hsplit.located hsplit.nums hsplit.length hsplit.absent hN hN0
    hsplit.full (calls x).val
  have habsent := (hsplit.located.lookup_eq (hr.sound.ordered _ (hr.lt x))).trans hsplit.absent
  rw [← hopen, ← hchain] at htakes
  exact ⟨_, rfl, h.quiet hp rfl ⟨htakes, habsent⟩ rfl (fun _ => h.enteredAt hp rfl) id id⟩

theorem next_placing (h : Underway s₀ calls bs c slots chains) (hr : Ready s₀ calls slots₀ bs)
    {cur : ℕ} (hp : c.pc x = .placing cur) :
    ∃ s' chains', twoInserts calls x (.placing cur) c.shared = some (.unlocking true, s') ∧
      s'.table = c.shared.table ∧
      Moves s₀ calls bs c slots chains x (.unlocking true) s' slots chains' := by
  obtain ⟨htakes, habsent⟩ := h.standsAt hp
  have hplace := h.represents.place (h.lt hr x) (hr.key x) htakes
  refine ⟨_, _, rfl, rfl, h.writes hr hp (p := .unlocking true) rfl hplace
    ⟨(if_pos rfl).symm, fun _ => habsent⟩ rfl rfl
    (fun m hm => ?_) rfl (fun _ => h.enteredAt hp rfl) id id⟩
  obtain ⟨_, _, _, npre, npost, _, hnums, _⟩ := htakes
  rw [hnums, List.mem_append, List.mem_cons] at hm
  push Not at hm
  exact LeafAllocator.write_leaves_ne _ hm.2.1 _

theorem next_unlocking (h : Underway s₀ calls bs c slots chains) {res : Bool}
    (hp : c.pc x = .unlocking res) :
    ∃ s', twoInserts calls x (.unlocking res) c.shared = some (.returned res, s') ∧
      s'.table.available = c.shared.table.available ∧
      Moves s₀ calls bs c slots chains x (.returned res) s' slots chains := by
  obtain ⟨hchain, habsent⟩ := h.standsAt hp
  exact ⟨_, rfl, rfl, h.relock hp (p := .returned res) ⟨hchain, habsent⟩ rfl
    (fun he => by cases he) id id⟩

theorem next (h : Underway s₀ calls bs c slots chains) (hr : Ready s₀ calls slots₀ bs) (hN : Even N)
    (hN0 : 0 < N) (hroom : (c.pc x).entered = true → (c.pc x).pastEmplace = false →
      MustSplit N (calls x).key (bs (calls x).lIdx) → c.shared.table.available < kSynonymMax - 1)
    {p : InsertPhase} {s' : TableState K V N}
    (hn : twoInserts calls x (c.pc x) c.shared = some (p, s')) :
    ∃ slots' chains', Underway s₀ calls bs ⟨Function.update c.pc x p, s'⟩ slots' chains' := by
  have finish : ∀ {p' : InsertPhase} {t' : TableState K V N} {slots' : ℕ → List ℕ}
      {chains' : ℕ → List (List (K × V))}, twoInserts calls x (c.pc x) c.shared = some (p', t') →
      Moves s₀ calls bs c slots chains x p' t' slots' chains' →
      ∃ slots' chains', Underway s₀ calls bs ⟨Function.update c.pc x p, s'⟩ slots' chains' := by
    intro p' t' slots' chains' hn' m
    obtain ⟨rfl, rfl⟩ := Prod.ext_iff.mp (Option.some.inj (hn'.symm.trans hn))
    exact ⟨_, _, h.advance hr m⟩
  cases hp : c.pc x <;> rw [hp] at finish hn
  case start =>
    obtain ⟨_, hok, m, _⟩ := h.next_start hp
    exact finish hok m
  case locking =>
    obtain ⟨_, hok, _, _, m⟩ := h.next_locking hp
    exact finish hok m
  case locked => exact finish (h.next_locked hr hp).1 (h.next_locked hr hp).2
  case walked =>
    obtain ⟨_, _, hok, m⟩ := h.next_walked hr hp
    exact finish hok m
  case picked =>
    obtain ⟨_, hok, m, _⟩ := h.next_picked hr hp
    exact finish hok m
  case absent =>
    obtain ⟨_, hok, m, _⟩ := h.next_absent hr hN0 hp
    exact finish hok m
  case full =>
    obtain ⟨_, hok, m, _⟩ := h.next_full hp
    exact finish hok m
  case splitting =>
    obtain ⟨_, _, hok, _, m⟩ := h.next_splitting hr hp
    exact finish hok m
  case fetched =>
    obtain ⟨_, pre, b, post, _, _, hpicks, hnone, hfull⟩ := h.standsAt hp
    have hr' := hroom (by rw [hp]; rfl) (by rw [hp]; rfl) ⟨pre, b, post, hpicks.located, hnone,
      hfull⟩
    obtain ⟨_, _, _, hok, _, m⟩ := h.next_fetched hr hp hr'
    exact finish hok m
  case emplaced =>
    obtain ⟨_, _, hok, _, m⟩ := h.next_emplaced hr hN hp
    exact finish hok m
  case halved =>
    obtain ⟨_, hok, m⟩ := h.next_halved hr hN hN0 hp
    exact finish hok m
  case placing =>
    obtain ⟨_, _, hok, _, m⟩ := h.next_placing hr hp
    exact finish hok m
  case unlocking =>
    obtain ⟨_, hok, _, m⟩ := h.next_unlocking hp
    exact finish hok m
  case returned => cases hn
  case faulted => cases hn

/-- Unless two calls that must split begin with one slot left, the slots suffice. -/
theorem roomy (h : Underway s₀ calls bs c slots chains)
    (hgood : ¬(s₀.table.available = kSynonymMax - 2 ∧
    ∀ x, MustSplit N (calls x).key (bs (calls x).lIdx))) (he : (c.pc x).entered = true)
    (hp : (c.pc x).pastEmplace = false) (hsplit : MustSplit N (calls x).key (bs (calls x).lIdx)) :
    c.shared.table.available < kSynonymMax - 1 := by
  have h₀ := h.entered x he
  have hle := h.countLe x hp
  by_cases hlast : s₀.table.available = kSynonymMax - 2
  · have hother : ¬MustSplit N (calls !x).key (bs (calls !x).lIdx) := fun ho =>
      hgood ⟨hlast, fun y => by rcases Bool.eq_or_eq_not y x with rfl | rfl <;> assumption⟩
    have heq := h.countEq fun y hy => by
      rcases Bool.eq_or_eq_not y x with rfl | rfl
      · exact absurd (hp.symm.trans hy) Bool.false_ne_true
      · exact hother
    omega
  · omega

/-! ### When both calls have returned -/

variable {res : Bool → Bool}

theorem sound_of_returned (h : Underway s₀ calls bs c slots chains) (hr : Ready s₀ calls slots₀ bs)
    (hN2 : 2 ≤ N) (hret : ∀ x, c.pc x = .returned (res x)) :
    Sound c.shared.table c.shared.alloc slots chains where
  toRepresents := h.represents
  ordered := fun m hm => by
    by_cases hx : ∃ x, m = (calls x).lIdx
    · obtain ⟨x, rfl⟩ := hx
      obtain ⟨hchain, habsent⟩ := h.standsAt (hret x)
      have ho := hr.sound.ordered _ (hr.lt x)
      rw [hchain]
      split
      · rename_i hres
        exact ordered_insert hN2 ho (habsent hres) _
      · exact ho
    · rw [h.others m fun x hmx => hx ⟨x, hmx⟩]
      exact hr.sound.ordered m (h.size ▸ hm)
  idle := by
    refine ⟨List.ext_getElem? fun m => ?_, h.lockBit⟩
    rw [List.getElem?_replicate, h.size]
    split
    · rename_i hm
      by_cases hx : ∃ x, m = (calls x).lIdx
      · obtain ⟨x, rfl⟩ := hx
        rw [h.csHeld x, hret x]
        rfl
      · exact h.csFree m hm fun x hmx => hx ⟨x, hmx⟩
    · rename_i hm
      rw [List.getElem?_eq_none]
      rw [h.csLength]
      omega

theorem mem_chain_of_returned (h : Underway s₀ calls bs c slots chains)
    (hr : Ready s₀ calls slots₀ bs) (hret : ∀ x, c.pc x = .returned (res x)) {m : ℕ} {e : K × V}
    (he : e ∈ (bs m).flatten) : e ∈ (chains m).flatten := by
  by_cases hx : ∃ x, m = (calls x).lIdx
  · obtain ⟨x, rfl⟩ := hx
    obtain ⟨hchain, _⟩ := h.standsAt (hret x)
    rw [hchain]
    split
    · exact (mem_flatten_insert (hr.sound.ordered _ (hr.lt x))).mpr (Or.inr he)
    · exact he
  · rwa [h.others m fun x hmx => hx ⟨x, hmx⟩]

theorem intact_of_returned (h : Underway s₀ calls bs c slots chains) (hr : Ready s₀ calls slots₀ bs)
    (hN2 : 2 ≤ N) (hret : ∀ x, c.pc x = .returned (res x)) : Intact s₀ c.shared calls res := by
  have hs := h.sound_of_returned hr hN2 hret
  have hfind : ∀ i < s₀.table.size, ∀ e ∈ (chains i).flatten,
      c.shared.searchAt i e.1 = .ok (some e.2) := by
    intro i hi e he
    have hi' : i < c.shared.table.size := h.size ▸ hi
    rw [hs.searchAt_ok hi' (hs.toRepresents.below_of_mem hi' he),
      (lookup_eq_some (hs.ordered i hi').ascending e.1 e.2).mpr he]
  constructor
  · intro i hi es hes e he
    obtain rfl := Except.ok.inj ((hr.sound.toRepresents.chainEntries_ok hi).symm.trans hes)
    exact hfind i hi e (h.mem_chain_of_returned hr hret he)
  · intro x hx
    obtain ⟨hchain, _⟩ := h.standsAt (hret x)
    rw [if_pos hx] at hchain
    refine hfind _ (hr.lt x) ((calls x).key, (calls x).val) ?_
    rw [hchain]
    exact (mem_flatten_insert (hr.sound.ordered _ (hr.lt x))).mpr (Or.inl rfl)
  · intro i hi j hj hij l l' hl hl'
    have hi' : i < c.shared.table.size := h.size ▸ hi
    have hj' : j < c.shared.table.size := h.size ▸ hj
    obtain rfl := Except.ok.inj ((hs.synonymLeaves_ok hi').symm.trans hl)
    obtain rfl := Except.ok.inj ((hs.synonymLeaves_ok hj').symm.trans hl')
    exact hs.separate i hi' j hj' hij

end Underway

end Rolex
