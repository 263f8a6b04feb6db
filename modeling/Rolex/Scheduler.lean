import Rolex.Foundations.Histories
import Rolex.Foundations.PointerRing
import Rolex.LeafAllocator

/-!
The coroutine scheduler of `sshed.hh` and `sshed.cc`, with the ring of `linked_list.hh`. A coroutine
is its id, and what it does is what it asks of the scheduler. The model runs until the main
coroutine sees that `running` is off.
-/

namespace Rolex

inductive SchedFault where
  | nullNode -- An access through a null pointer
  | brokenRing -- `assert(tailer_p->next_p == header_p)`
  | noSuchRoutine -- An id that no coroutine has
  | deleted -- The coroutine is deleted
  | tooManyCompletions -- `ASSERT(pending_futures[cid] >= num)`
  | stillActive -- `assert(routines.at(cid)->val.active == false)`
  deriving DecidableEq, Repr

/-! ### LinkedList -/

structure LinkedList where
  headerP : Option ℕ
  tailerP : Option ℕ
  prevP : ℕ → Option ℕ
  nextP : ℕ → Option ℕ

namespace LinkedList

def empty : LinkedList := ⟨none, none, fun _ => none, fun _ => none⟩

variable (l : LinkedList) (n : ℕ)

def add : Except SchedFault LinkedList :=
  match l.headerP, l.tailerP with
  | none, _ => .ok ⟨some n, some n, Function.update l.prevP n (some n),
      Function.update l.nextP n (some n)⟩
  | some _, none => .error .nullNode
  | some header, some tailer =>
    if l.nextP tailer = some header then
      .ok { l with
        tailerP := some n
        prevP := Function.update l.prevP n (some tailer)
        nextP := Function.update (Function.update l.nextP tailer (some n)) n (some header) }
    else .error .brokenRing

/-- The node behind `n`, and the list without `n`; the header stays what it is. -/
def leaveOne : Except SchedFault (ℕ × LinkedList) :=
  match l.nextP n, l.prevP n with
  | some next, some prev => .ok (next, { l with
      tailerP := if l.tailerP = some n then some prev else l.tailerP
      prevP := Function.update (Function.update l.prevP next (some prev)) n none
      nextP := Function.update (Function.update l.nextP prev (some next)) n none })
  | _, _ => .error .nullNode

end LinkedList

/-! ### SScheduler -/

inductive IOCode where
  | ok
  | err
  | timeout
  | nearOk
  | notReady
  deriving DecidableEq, Repr

/-- What one call of a future does: the coroutines that it adds back, and its result. -/
structure Polled where
  addedBack : List ℕ
  code : IOCode
  cid : ℕ
  num : ℕ
  deriving DecidableEq, Repr

def kMaxRoutineSupported : ℕ := 64

/-- `routines` is their number; `Φ` are the futures. -/
structure SScheduler (Φ : Type) where
  routineChain : LinkedList
  routines : ℕ
  curRoutinePtr : Option ℕ
  active : ℕ → Bool
  failed : ℕ → Bool
  deleted : ℕ → Bool
  pendingFutures : List ℕ
  futures : List Φ

namespace SScheduler

variable {Φ : Type} (s : SScheduler Φ)

def spawn : Except SchedFault (Option ℕ × SScheduler Φ) :=
  let cid := s.routines
  if cid ≥ kMaxRoutineSupported then .ok (none, s)
  else do
    let chain ← s.routineChain.add cid
    .ok (some cid, { s with
      routineChain := chain
      routines := cid + 1
      curRoutinePtr := some (s.curRoutinePtr.getD cid) })

def construct : Except SchedFault (SScheduler Φ) := do
  let res ← spawn ⟨.empty, 0, none, fun _ => false, fun _ => false, fun _ => false,
    List.replicate kMaxRoutineSupported 0, []⟩
  .ok res.2

def spawnAll : ℕ → Except SchedFault (SScheduler Φ)
  | 0 => construct
  | n + 1 => do
    let s ← spawnAll n
    let res ← s.spawn
    .ok res.2

def start (n : ℕ) (futures : List Φ) : Except SchedFault (SScheduler Φ) := do
  let s : SScheduler Φ ← spawnAll n
  .ok { s with futures := futures }

def emplaceFuture (f : Φ) : SScheduler Φ := { s with futures := s.futures ++ [f] }

def waitNum (id num : ℕ) : Except SchedFault (SScheduler Φ) :=
  match s.pendingFutures[id]? with
  | none => .error .noSuchRoutine
  | some k => .ok { s with pendingFutures := s.pendingFutures.set id (k + num) }

def emplaceForRoutine (id num : ℕ) (f : Φ) : Except SchedFault (SScheduler Φ) := do
  let s ← s.waitNum id num
  .ok (s.emplaceFuture f)

def addbackCoroutine (id : ℕ) : Except SchedFault (SScheduler Φ) :=
  if id < s.routines then
    if s.deleted id then .error .deleted
    else do
      let chain ← s.routineChain.add id
      .ok { s with routineChain := chain }
  else .error .noSuchRoutine

def execute (id : ℕ) : SScheduler Φ := { s with active := Function.update s.active id true }

def pauseAndYield : Except SchedFault (SScheduler Φ) :=
  match s.curRoutinePtr with
  | none => .error .nullNode
  | some cur => do
    let res ← s.routineChain.leaveOne cur
    .ok ({ s with
      routineChain := res.2
      active := Function.update s.active cur false
      curRoutinePtr := some res.1 }.execute res.1)

def yieldToNext : Except SchedFault (SScheduler Φ) :=
  match s.curRoutinePtr with
  | none => .error .nullNode
  | some cur =>
    match s.routineChain.nextP cur with
    | none => .error .nullNode
    | some next =>
      if next = cur then .ok { s with curRoutinePtr := some next }
      else .ok ({ s with curRoutinePtr := some next }.execute next)

def exit : Except SchedFault (SScheduler Φ) :=
  match s.curRoutinePtr with
  | none => .error .nullNode
  | some cur => do
    let res ← s.routineChain.leaveOne cur
    let s' : SScheduler Φ := { s with
      routineChain := res.2
      deleted := Function.update s.deleted cur true
      curRoutinePtr := some res.1 }
    .ok (if res.1 = cur then s' else s'.execute res.1)

/-- `ASSERT(pending_futures[cid] >= num)`, and whether none is pending any more. -/
def complete (cid num : ℕ) : Except SchedFault (Bool × SScheduler Φ) :=
  match s.pendingFutures[cid]? with
  | none => .error .noSuchRoutine
  | some k =>
    if num ≤ k then .ok (decide (k - num = 0),
      { s with pendingFutures := s.pendingFutures.set cid (k - num) })
    else .error .tooManyCompletions

def wake (cid : ℕ) : Except SchedFault (SScheduler Φ) :=
  if cid < s.routines then
    if s.active cid then .error .stillActive else s.addbackCoroutine cid
  else .error .noSuchRoutine

/-- The status of a coroutine whose future reports an error, and the end of `poll_all_futures` for
one future. -/
def settle (p : Polled) (needAdd : Bool) : Except SchedFault (SScheduler Φ) :=
  if p.code = .err then
    ({ s with failed := Function.update s.failed p.cid true } : SScheduler Φ).wake p.cid
  else if needAdd then s.wake p.cid
  else .ok s

def pollFuture (p : Polled) : Except SchedFault (Bool × SScheduler Φ) := do
  let s ← p.addedBack.foldlM (fun s id => s.addbackCoroutine id) s
  let res ← if p.code = .ok ∨ p.code = .nearOk then s.complete p.cid p.num else .ok (false, s)
  let s ← res.2.settle p res.1
  .ok (!decide (p.code = .ok ∨ p.code = .err), s)

def pollFutures : List (Φ × Polled) → SScheduler Φ → Except SchedFault (List Φ × SScheduler Φ)
  | [], s => .ok ([], s)
  | (f, p) :: rest, s => do
    let res ← s.pollFuture p
    let left ← pollFutures rest res.2
    .ok (if res.1 then f :: left.1 else left.1, left.2)

def pollAllFutures (outcomes : List Polled) : Except SchedFault (SScheduler Φ) := do
  let res ← pollFutures (s.futures.zip outcomes) s
  .ok { res.2 with futures := res.1 }

end SScheduler

/-! ### Turns -/

inductive Turn (Φ : Type) where
  | poll (outcomes : List Polled) -- The body of the main loop: `poll_all_futures` and `R2_YIELD`
  | yield
  | pause -- `R2_PAUSE_AND_YIELD`
  | waitNum (num : ℕ) -- `R2_WAIT_NUM`
  | pauseWait (num : ℕ) (f : Φ) -- `R2_PAUSE_WAIT`
  | ret -- `R2_RET`

namespace SScheduler

variable {Φ : Type} (s : SScheduler Φ)

/-- The main coroutine has number 0. It polls as many futures as there are, and the others do the
rest. -/
def turn (cur : ℕ) : Turn Φ → Option (Except SchedFault (SScheduler Φ))
  | .poll outcomes => if cur = 0 ∧ outcomes.length = s.futures.length then some do
      let s ← s.pollAllFutures outcomes
      s.yieldToNext
    else none
  | .yield => if cur = 0 then none else some s.yieldToNext
  | .pause => if cur = 0 then none else some s.pauseAndYield
  | .waitNum num => if cur = 0 then none else some do
      let s ← s.waitNum cur num
      s.pauseAndYield
  | .pauseWait num f => if cur = 0 then none else some do
      let s ← s.emplaceForRoutine cur num f
      s.pauseAndYield
  | .ret => if cur = 0 then none else some s.exit

end SScheduler

end Rolex
