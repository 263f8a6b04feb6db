import Rolex.Foundations.Histories
import Rolex.SchedulerRuns

/-!
One-sided operations that a coroutine waits for: `AsyncOp::execute_async` and
`BatchOp::execute_async` over the RC queue pair of a worker. `ibv_post_send` may refuse a request,
and a completion may report an error; `ibv_poll_cq` itself does not fail. The NIC completes the
requests in their order, and a future takes the next completion, whosever it is.
-/

namespace Rolex
open Histories PointerRing

/-! ### RC -/

def numProgressBits : ℕ := 16

structure Progress where
  highWatermark : ℕ
  lowWatermark : ℕ
  deriving DecidableEq, Repr

def Progress.forward (p : Progress) (num : ℕ) : Progress :=
  { p with highWatermark := (p.highWatermark + num) % 2 ^ numProgressBits }

def Progress.done (p : Progress) (num : ℕ) : Progress :=
  { p with lowWatermark := num % 2 ^ numProgressBits }

structure SendWr where
  wrId : ℕ
  signaled : Bool
  deriving DecidableEq, Repr

/-- `success` is `status == IBV_WC_SUCCESS`. -/
structure Wc where
  wrId : ℕ
  success : Bool
  deriving DecidableEq, Repr

/-- `sendQueue` are the requests that the NIC has not completed, `cq` the completions that are not
polled. `out_signaled` has 32 bits. -/
structure RC where
  progress : Progress
  outSignaled : ℕ
  sendQueue : List SendWr
  cq : List Wc
  deriving DecidableEq, Repr

namespace RC

def construct : RC := ⟨⟨0, 0⟩, 0, [], []⟩

variable (rc : RC)

def encodeMyWr (wr forwardNum : ℕ) : ℕ × RC :=
  let progress := rc.progress.forward forwardNum
  ((wr <<< numProgressBits) % 2 ^ 64 ||| progress.highWatermark, { rc with progress := progress })

/-- `Op::execute`, and whether it returns `Ok`: it counts a signaled request before
`ibv_post_send` accepts or refuses it. -/
def execute (signaled : Bool) (wrId : ℕ) (accepted : Bool) : Bool × RC :=
  let res := rc.encodeMyWr wrId 1
  let rc := { res.2 with
    outSignaled := if signaled then (res.2.outSignaled + 1) % 2 ^ 32 else res.2.outSignaled }
  if accepted then (true, { rc with sendQueue := rc.sendQueue ++ [⟨res.1, signaled⟩] })
  else (false, rc)

/-- `BatchOp::execute_async` up to its wait, with the requests `ops` before the last one, which is
signaled. `ibv_post_send` takes the first `accepted` of them; where that is not all, the batch
returns `Err` and is not counted. -/
def executeBatch (ops : List ℕ) (wrId accepted : ℕ) : Bool × RC :=
  let res := rc.encodeMyWr wrId (ops.length + 1)
  let wrs := ops.map (fun wrId => SendWr.mk wrId false) ++ [⟨res.1, true⟩]
  let rc := { res.2 with sendQueue := res.2.sendQueue ++ wrs.take accepted }
  if accepted ≤ ops.length then (false, rc)
  else (true, { rc with outSignaled := (rc.outSignaled + 1) % 2 ^ 32 })

/-- The NIC is done with a request. A failed one has a completion, signaled or not. -/
def complete (success : Bool) : Option RC :=
  match rc.sendQueue with
  | [] => none
  | wr :: rest => some { rc with
      sendQueue := rest
      cq := if wr.signaled || !success then rc.cq ++ [⟨wr.wrId, success⟩] else rc.cq }

def pollRcComp : Option (ℕ × Bool) × RC :=
  match rc.cq with
  | [] => (none, rc)
  | wc :: rest => (some (wc.wrId >>> numProgressBits, wc.success), { rc with
      progress := rc.progress.done (wc.wrId &&& (2 ^ numProgressBits - 1))
      outSignaled := (rc.outSignaled + (2 ^ 32 - 1)) % 2 ^ 32
      cq := rest })

/-- The future that `AsyncOp::wait_one` emplaces for the coroutine `id`. Of a success it reports
the coroutine whose number the completion carries (8 bits), of a failure its own. -/
def pollFuture (id : ℕ) : Polled × RC :=
  match rc.pollRcComp with
  | (none, rc) => (⟨[], .notReady, 0, 0⟩, rc)
  | (some (wr, true), rc) => (⟨[], .ok, wr % 2 ^ 8, 1⟩, rc)
  | (some (_, false), rc) => (⟨[], .err, id, 1⟩, rc)

inductive Polls : RC → List ℕ → List Bool → List Polled → RC → Prop where
  | nil (rc : RC) : Polls rc [] [] [] rc
  | nic {rc rc₁ rc' : RC} {success : Bool} {ids : List ℕ} {completed : List Bool}
      {ps : List Polled} : rc.complete success = some rc₁ → Polls rc₁ ids completed ps rc' →
      Polls rc ids (success :: completed) ps rc'
  | poll {rc rc' : RC} {id : ℕ} {ids : List ℕ} {completed : List Bool} {ps : List Polled} :
      Polls (rc.pollFuture id).2 ids completed ps rc' →
      Polls rc (id :: ids) completed ((rc.pollFuture id).1 :: ps) rc'

end RC

/-! ### A worker -/

/-- The worker; a future is the id of the coroutine that emplaced it. -/
structure AsyncWorker where
  rc : RC
  sched : SScheduler ℕ

inductive AsyncRequest where
  | async (accepted : Bool)
  | batch (ops : List ℕ) (accepted : ℕ)
  deriving DecidableEq, Repr

def AsyncRequest.post (rc : RC) (id : ℕ) : AsyncRequest → Bool × RC
  | .async accepted => rc.execute true id accepted
  | .batch ops accepted => rc.executeBatch ops id accepted

inductive AsyncEvent where
  | nic (success : Bool)
  | main (completed : List Bool)
  | unsignaled (accepted : Bool)
  | refused (op : AsyncRequest)
  | wait (op : AsyncRequest)
  | yield
  | ret
  deriving DecidableEq, Repr

def AsyncEvent.Succeeds : AsyncEvent → Prop
  | .nic success => success = true
  | .main completed => ∀ success ∈ completed, success = true
  | _ => True

instance : DecidablePred AsyncEvent.Succeeds
  | .nic success => inferInstanceAs (Decidable (success = true))
  | .main completed => inferInstanceAs (Decidable (∀ success ∈ completed, success = true))
  | .unsignaled _ | .refused _ | .wait _ | .yield | .ret => instDecidableTrue

/-- The requests that are counted and never completed. -/
def AsyncEvent.lost : AsyncEvent → ℕ
  | .refused (.async _) => 1
  | _ => 0

inductive AsyncWorker.Step : AsyncWorker → AsyncEvent → AsyncWorker → Prop where
  | nic {w : AsyncWorker} {success : Bool} {rc : RC} : w.rc.complete success = some rc →
      Step w (.nic success) { w with rc := rc }
  | main {w : AsyncWorker} {completed : List Bool} {ps : List Polled} {rc : RC}
      {sched : SScheduler ℕ} : w.sched.curRoutinePtr = some 0 →
      w.rc.Polls w.sched.futures completed ps rc → w.sched.turn 0 (.poll ps) = some (.ok sched) →
      Step w (.main completed) ⟨rc, sched⟩
  | unsignaled {w : AsyncWorker} {c : ℕ} {accepted : Bool} : w.sched.curRoutinePtr = some c →
      c ≠ 0 → Step w (.unsignaled accepted) { w with rc := (w.rc.execute false c accepted).2 }
  | refused {w : AsyncWorker} {c : ℕ} {op : AsyncRequest} : w.sched.curRoutinePtr = some c →
      c ≠ 0 → (op.post w.rc c).1 = false → Step w (.refused op) { w with rc := (op.post w.rc c).2 }
  | wait {w : AsyncWorker} {c : ℕ} {op : AsyncRequest} {sched : SScheduler ℕ} :
      w.sched.curRoutinePtr = some c → c ≠ 0 → (op.post w.rc c).1 = true →
      w.sched.turn c (.pauseWait 1 c) = some (.ok sched) →
      Step w (.wait op) ⟨(op.post w.rc c).2, sched⟩
  | yield {w : AsyncWorker} {c : ℕ} {sched : SScheduler ℕ} : w.sched.curRoutinePtr = some c →
      c ≠ 0 → w.sched.turn c .yield = some (.ok sched) → Step w .yield { w with sched := sched }
  | ret {w : AsyncWorker} {c : ℕ} {sched : SScheduler ℕ} : w.sched.curRoutinePtr = some c →
      c ≠ 0 → w.sched.turn c .ret = some (.ok sched) → Step w .ret { w with sched := sched }

/-! ### Whose completions are to come -/

def owner (wrId : ℕ) : ℕ := (wrId >>> numProgressBits) % 2 ^ 8

/-- The coroutines of the signaled requests that are not polled, in the order of their
completions. -/
def RC.owners (rc : RC) : List ℕ :=
  rc.cq.map (fun wc => owner wc.wrId) ++
    (rc.sendQueue.filter SendWr.signaled).map fun wr => owner wr.wrId

section Owners

variable {rc rc' : RC} {id : ℕ}

theorem owner_encodeMyWr (rc : RC) (hid : id < kMaxRoutineSupported) (n : ℕ) :
    owner (rc.encodeMyWr id n).1 = id := by
  have hmark : (rc.progress.forward n).highWatermark < 2 ^ 16 := Nat.mod_lt _ (by decide)
  have hsmall : id <<< 16 < 2 ^ 64 := by
    rw [Nat.shiftLeft_eq]
    rw [kMaxRoutineSupported] at hid
    omega
  rw [RC.encodeMyWr, owner, numProgressBits]
  dsimp only
  rw [Nat.mod_eq_of_lt hsmall, ← Nat.shiftLeft_add_eq_or_of_lt hmark, Nat.shiftLeft_eq,
    Nat.shiftRight_eq_div_pow]
  rw [kMaxRoutineSupported] at hid
  omega

theorem RC.complete_success (h : rc.complete true = some rc') : rc'.owners = rc.owners ∧
    rc'.outSignaled = rc.outSignaled ∧
    ((∀ wc ∈ rc.cq, wc.success = true) → ∀ wc ∈ rc'.cq, wc.success = true) := by
  rw [complete] at h
  split at h
  · cases h
  · rename_i wr rest hqueue
    obtain rfl := Option.some.inj h
    rw [owners, owners, hqueue]
    dsimp only
    cases hs : wr.signaled with
    | true =>
      refine ⟨?_, rfl, fun hcq wc hwc => ?_⟩
      · rw [List.filter_cons_of_pos hs, Bool.true_or, if_pos rfl, List.map_append,
          List.append_assoc]
        rfl
      · rw [Bool.true_or, if_pos rfl, List.mem_append, List.mem_singleton] at hwc
        rcases hwc with hwc | rfl
        · exact hcq wc hwc
        · rfl
    | false =>
      refine ⟨?_, rfl, fun hcq => hcq⟩
      rw [List.filter_cons_of_neg (by rw [hs]; exact Bool.false_ne_true), Bool.not_true,
        Bool.false_or, if_neg Bool.false_ne_true]

theorem RC.owners_append (rc : RC) (progress : Progress) (outSignaled : ℕ) (wrs : List SendWr) :
    RC.owners ⟨progress, outSignaled, rc.sendQueue ++ wrs, rc.cq⟩ =
      rc.owners ++ (wrs.filter SendWr.signaled).map fun wr => owner wr.wrId := by
  rw [owners, owners, List.filter_append, List.map_append, List.append_assoc]

theorem RC.execute_false (rc : RC) (id : ℕ) (accepted : Bool) :
    (rc.execute false id accepted).2.owners = rc.owners ∧
    (rc.execute false id accepted).2.outSignaled = rc.outSignaled ∧
    (rc.execute false id accepted).2.cq = rc.cq := by
  cases accepted with
  | false => exact ⟨rfl, rfl, rfl⟩
  | true => exact ⟨(owners_append rc _ _ [⟨_, false⟩]).trans (List.append_nil _), rfl, rfl⟩

theorem filter_signaled_ops (ops : List ℕ) (n : ℕ) :
    ((ops.map fun wrId => SendWr.mk wrId false).take n).filter SendWr.signaled = [] :=
  List.filter_eq_nil_iff.mpr fun wr hwr => by
    obtain ⟨_, _, rfl⟩ := List.mem_map.mp (List.mem_of_mem_take hwr)
    exact Bool.false_ne_true

theorem RC.executeBatch_accepted (rc : RC) {ops : List ℕ} {accepted : ℕ}
    (h : ops.length < accepted) (hid : id < kMaxRoutineSupported) :
    (rc.executeBatch ops id accepted).2.owners = rc.owners ++ [id] := by
  have howner := owner_encodeMyWr rc hid (ops.length + 1)
  have hops := filter_signaled_ops ops accepted
  have hall (wr : SendWr) : [wr].take (accepted - ops.length) = [wr] :=
    List.take_of_length_le (Nat.sub_pos_of_lt h)
  rw [executeBatch, encodeMyWr]
  dsimp only
  rw [if_neg (Nat.not_le_of_lt h), owners_append, List.take_append, List.length_map,
    hall, List.filter_append, hops, List.nil_append, List.filter_cons_of_pos rfl, List.filter_nil,
    List.map_singleton]
  exact congrArg (fun c => rc.owners ++ [c]) howner

theorem RC.executeBatch_refused (rc : RC) {ops : List ℕ} {accepted : ℕ}
    (h : accepted ≤ ops.length) : (rc.executeBatch ops id accepted).2.owners = rc.owners := by
  rw [executeBatch, encodeMyWr]
  dsimp only
  rw [if_pos h, owners_append, List.take_append_of_le_length (by rwa [List.length_map]),
    filter_signaled_ops, List.map_nil, List.append_nil]

theorem AsyncRequest.post_accepted {op : AsyncRequest} (h : (op.post rc id).1 = true)
    (hid : id < kMaxRoutineSupported) : (op.post rc id).2.owners = rc.owners ++ [id] ∧
    (op.post rc id).2.outSignaled = (rc.outSignaled + 1) % 2 ^ 32 ∧
    (op.post rc id).2.cq = rc.cq := by
  cases op with
  | async accepted =>
    cases accepted with
    | false => cases h
    | true =>
      have howner := owner_encodeMyWr rc hid 1
      refine ⟨(RC.owners_append rc _ _ [⟨(rc.encodeMyWr id 1).1, true⟩]).trans ?_, rfl, rfl⟩
      rw [List.filter_cons_of_pos rfl, List.filter_nil, List.map_singleton, howner]
  | batch ops accepted =>
    by_cases hle : accepted ≤ ops.length
    · rw [post, RC.executeBatch] at h
      dsimp only at h
      rw [if_pos hle] at h
      cases h
    · refine ⟨rc.executeBatch_accepted (Nat.lt_of_not_le hle) hid, ?_, ?_⟩ <;>
      · rw [post, RC.executeBatch]
        dsimp only
        rw [if_neg hle]
        rfl

theorem AsyncRequest.post_refused {op : AsyncRequest} (h : (op.post rc id).1 = false)
    (hout : rc.outSignaled < 2 ^ 32) : (op.post rc id).2.owners = rc.owners ∧
    (op.post rc id).2.outSignaled =
      (rc.outSignaled + (AsyncEvent.refused op).lost) % 2 ^ 32 ∧
    (op.post rc id).2.cq = rc.cq := by
  cases op with
  | async accepted =>
    cases accepted with
    | false => exact ⟨rfl, rfl, rfl⟩
    | true => cases h
  | batch ops accepted =>
    by_cases hle : accepted ≤ ops.length
    · refine ⟨rc.executeBatch_refused hle, ?_, ?_⟩
      · rw [post, RC.executeBatch]
        dsimp only
        rw [if_pos hle]
        exact (Nat.mod_eq_of_lt hout).symm
      · rw [post, RC.executeBatch]
        dsimp only
        rw [if_pos hle]
        rfl
    · rw [post, RC.executeBatch] at h
      dsimp only at h
      rw [if_neg hle] at h
      cases h

theorem RC.pollFuture_cases (rc : RC) (id : ℕ) (hcq : ∀ wc ∈ rc.cq, wc.success = true) :
    rc.cq = [] ∧ rc.pollFuture id = (⟨[], .notReady, 0, 0⟩, rc) ∨
      ∃ c, rc.owners = c :: (rc.pollFuture id).2.owners ∧
        (rc.pollFuture id).1 = ⟨[], .ok, c, 1⟩ ∧
        (rc.pollFuture id).2.outSignaled = (rc.outSignaled + (2 ^ 32 - 1)) % 2 ^ 32 ∧
        (rc.pollFuture id).2.sendQueue = rc.sendQueue ∧
        (rc.pollFuture id).2.cq = rc.cq.tail := by
  rw [pollFuture, pollRcComp]
  cases hqueue : rc.cq with
  | nil => exact Or.inl ⟨rfl, rfl⟩
  | cons wc rest =>
    have hwc := hcq wc (hqueue ▸ List.mem_cons_self)
    dsimp only
    rw [hwc]
    refine Or.inr ⟨owner wc.wrId, ?_, rfl, rfl, rfl, rfl⟩
    rw [owners, owners, hqueue]
    rfl

end Owners

/-! ### Who waits -/

/-- Every coroutine waits for as many completions as it has requests, and on the ring `xs` are
those that have none. -/
structure Waits (lost : ℕ) (rc : RC) (s : SScheduler ℕ) (xs : List ℕ) : Prop where
  onRing : s.OnRing xs
  succeeds : ∀ wc ∈ rc.cq, wc.success = true
  pending : ∀ c < kMaxRoutineSupported, s.pendingFutures[c]? = some (rc.owners.count c)
  owners : ∀ c ∈ rc.owners, c < kMaxRoutineSupported
  outSignaled : rc.outSignaled = (rc.owners.length + lost) % 2 ^ 32
  mem : ∀ c, c ∈ xs ↔ (1 ≤ c ∧ c < s.routines) ∧ s.deleted c = false ∧ c ∉ rc.owners

section Waiting

variable {lost : ℕ} {rc rc' : RC} {s s' : SScheduler ℕ} {xs : List ℕ} {c : ℕ}

theorem Waits.congr (h : Waits lost rc s xs) (howners : rc'.owners = rc.owners)
    (hout : rc'.outSignaled = rc.outSignaled) (hcq : ∀ wc ∈ rc'.cq, wc.success = true) :
    Waits lost rc' s xs := by
  refine ⟨h.onRing, hcq, fun c hc => ?_, fun c hc => ?_, ?_, fun c => ?_⟩
  · rw [howners]
    exact h.pending c hc
  · rw [howners] at hc
    exact h.owners c hc
  · rw [howners, hout, h.outSignaled]
  · rw [howners]
    exact h.mem c

theorem Waits.nic (h : Waits lost rc s xs) (hnic : rc.complete true = some rc') :
    Waits lost rc' s xs := by
  obtain ⟨howners, hout, hcq⟩ := RC.complete_success hnic
  exact h.congr howners hout (hcq h.succeeds)

theorem Waits.outSignaled_lt (h : Waits lost rc s xs) : rc.outSignaled < 2 ^ 32 := by
  rw [h.outSignaled]
  exact Nat.mod_lt _ (by decide)

theorem Waits.refused (h : Waits lost rc s xs) {op : AsyncRequest}
    (hop : (op.post rc c).1 = false) :
    Waits (lost + (AsyncEvent.refused op).lost) (op.post rc c).2 s xs := by
  obtain ⟨howners, hout, hcq⟩ := AsyncRequest.post_refused hop h.outSignaled_lt
  refine ⟨h.onRing, ?_, fun d hd => ?_, fun d hd => ?_, ?_, fun d => ?_⟩
  · rw [hcq]
    exact h.succeeds
  · rw [howners]
    exact h.pending d hd
  · rw [howners] at hd
    exact h.owners d hd
  · rw [howners, hout, h.outSignaled, ← Nat.add_assoc]
    exact Nat.mod_add_mod _ _ _
  · rw [howners]
    exact h.mem d

theorem Waits.paused (h : Waits lost rc s xs) (hc : c ∈ rc.owners) : s.Paused c :=
  h.onRing.waiting c _ (h.pending c (h.owners c hc)) (List.count_pos_iff.mpr hc)

theorem Waits.complete (h : Waits lost rc s xs) (howners : rc.owners = c :: rc'.owners)
    (hout : rc'.outSignaled = (rc.outSignaled + (2 ^ 32 - 1)) % 2 ^ 32)
    (hcq : ∀ wc ∈ rc'.cq, wc.success = true) :
    ∃ s' xs', s.pollFuture ⟨[], .ok, c, 1⟩ = .ok (false, s') ∧ Waits lost rc' s' xs' ∧
      s'.curRoutinePtr = s.curRoutinePtr := by
  have hc : c ∈ rc.owners := howners ▸ List.mem_cons_self
  have hpaused := h.paused hc
  have hcount : rc.owners.count c = rc'.owners.count c + 1 := by
    rw [howners, List.count_cons_self]
  have hk := h.pending c (h.owners c hc)
  rw [hcount] at hk
  obtain ⟨s₁, hcomplete, hs₁, _, hk₁, hcur₁⟩ :=
    h.onRing.complete hk one_pos (Nat.le_add_left 1 _)
  have heq : s.complete c 1 = .ok (decide (rc'.owners.count c + 1 - 1 = 0),
      { s with pendingFutures := s.pendingFutures.set c (rc'.owners.count c + 1 - 1) }) := by
    rw [SScheduler.complete, hk]
    exact if_pos (Nat.le_add_left 1 _)
  obtain ⟨_, rfl⟩ := Prod.mk.inj (Except.ok.inj (hcomplete.symm.trans heq))
  have hpending : ∀ d < kMaxRoutineSupported,
      (s.pendingFutures.set c (rc'.owners.count c + 1 - 1))[d]? = some (rc'.owners.count d) := by
    intro d hd
    by_cases hdc : d = c
    · subst hdc
      exact hk₁
    · rw [List.getElem?_set_ne (Ne.symm hdc), h.pending d hd, howners,
        List.count_cons_of_ne (Ne.symm hdc)]
  have howned : ∀ d ∈ rc'.owners, d < kMaxRoutineSupported := fun d hd =>
    h.owners d (howners ▸ List.mem_cons_of_mem c hd)
  have hcounted : rc'.outSignaled = (rc'.owners.length + lost) % 2 ^ 32 := by
    rw [hout, h.outSignaled, howners, List.length_cons, Nat.mod_add_mod]
    omega
  have hothers : ∀ d, d ≠ c → (d ∉ rc.owners ↔ d ∉ rc'.owners) := fun d hd => by
    rw [howners, List.mem_cons, not_or]
    exact and_iff_right hd
  rw [SScheduler.pollFuture, List.foldlM_nil]
  dsimp only
  rw [pure_bind, if_pos (Or.inl rfl), hcomplete, ok_bind, SScheduler.settle, if_neg (by simp)]
  by_cases hzero : rc'.owners.count c = 0
  · obtain ⟨s₂, hback, hs₂, hcur₂, _⟩ := hs₁.addback hpaused fun j hj => by
      have hj := Option.some.inj (hk₁.symm.trans hj)
      omega
    obtain ⟨chain, rfl⟩ := SScheduler.addbackCoroutine_eq hback
    refine ⟨_, xs ++ [c], ?_, ⟨hs₂, hcq, hpending, howned, hcounted, fun d => ?_⟩,
      hcur₂.trans hcur₁⟩
    · rw [if_pos (by rw [hzero]; rfl), SScheduler.wake, if_pos hpaused.1]
      have hactive : s.active c = false := h.onRing.inactive c hpaused.2.1 hpaused.2.2
      dsimp only
      rw [hactive, if_neg Bool.false_ne_true, hback, ok_bind]
      rfl
    · rw [List.mem_append, h.mem, List.mem_singleton]
      dsimp only
      by_cases hdc : d = c
      · subst hdc
        have hpos : 1 ≤ d :=
          Nat.one_le_iff_ne_zero.mpr (List.ne_of_not_mem_cons (hpaused.not_mem h.onRing))
        have hnot : d ∉ rc'.owners := List.count_eq_zero.mp hzero
        exact iff_of_true (Or.inr rfl) ⟨⟨hpos, hpaused.1⟩, hpaused.2.2, hnot⟩
      · rw [hothers d hdc]
        exact or_iff_left hdc
  · refine ⟨_, xs, ?_, ⟨hs₁, hcq, hpending, howned, hcounted, fun d => ?_⟩, hcur₁⟩
    · rw [if_neg (by simpa using hzero), ok_bind]
      rfl
    · rw [h.mem]
      dsimp only
      by_cases hdc : d = c
      · subst hdc
        have hmem : d ∈ rc'.owners := List.count_pos_iff.mp (Nat.pos_of_ne_zero hzero)
        exact iff_of_false (fun hand => hand.2.2 hc) fun hand => hand.2.2 hmem
      · rw [hothers d hdc]

/-- Where a completion reports an error the count fails: the coroutine whose future polls it is put
back, whosever request failed, and no coroutine waits for less than before. -/
theorem SScheduler.OnRing.pollFuture_failed (hs : s.OnRing xs) (hc : s.Paused c) {wc : Wc}
    {rest : List Wc} (hcq : rc.cq = wc :: rest) (hfailed : wc.success = false) :
    ∃ s', s.pollFuture (rc.pollFuture c).1 = .ok (false, s') ∧
      Ring s'.routineChain.nextP s'.routineChain.prevP 0 (xs ++ [c]) ∧ s'.failed c = true ∧
      s'.pendingFutures = s.pendingFutures := by
  have hpoll : (rc.pollFuture c).1 = ⟨[], .err, c, 1⟩ := by
    rw [RC.pollFuture, RC.pollRcComp, hcq]
    dsimp only
    rw [hfailed]
  obtain ⟨chain, hadd, hchain⟩ := hs.holds.add (hc.not_mem hs)
  have hactive : s.active c = false := hs.inactive c hc.2.1 hc.2.2
  refine ⟨{ s with failed := Function.update s.failed c true, routineChain := chain }, ?_,
    hchain.ring, Function.update_self .., rfl⟩
  rw [hpoll, SScheduler.pollFuture, List.foldlM_nil]
  dsimp only
  rw [pure_bind, if_neg (by simp), ok_bind, SScheduler.settle, if_pos rfl, SScheduler.wake,
    if_pos hc.1]
  dsimp only
  rw [hactive, if_neg Bool.false_ne_true, addbackCoroutine, if_pos hc.1]
  dsimp only
  rw [hc.2.2, if_neg Bool.false_ne_true, hadd]
  rfl

theorem Waits.polls {ids : List ℕ} {completed : List Bool} {ps : List Polled}
    (hpolls : rc.Polls ids completed ps rc') (hsuccess : ∀ success ∈ completed, success = true) :
    ∀ {s : SScheduler ℕ} {xs : List ℕ}, Waits lost rc s xs →
      ∃ left s' xs', SScheduler.pollFutures (ids.zip ps) s = .ok (left, s') ∧
        Waits lost rc' s' xs' ∧ left.length + rc.owners.length = ids.length + rc'.owners.length ∧
        s'.curRoutinePtr = s.curRoutinePtr := by
  induction hpolls with
  | nil rc => exact fun {s xs} h => ⟨[], s, xs, rfl, h, rfl, rfl⟩
  | nic hnic _ ih =>
    intro s xs h
    obtain ⟨rfl, hrest⟩ := List.forall_mem_cons.mp hsuccess
    obtain ⟨left, s', xs', hpoll, h', hlength, hcur⟩ := ih hrest (h.nic hnic)
    rw [(RC.complete_success hnic).1] at hlength
    exact ⟨left, s', xs', hpoll, h', hlength, hcur⟩
  | @poll rc rc' id ids completed ps _ ih =>
    intro s xs h
    rw [List.zip_cons_cons, SScheduler.pollFutures]
    rcases rc.pollFuture_cases id h.succeeds with ⟨_, heq⟩ | ⟨c, howners, heq, hout, _, htail⟩
    · rw [heq] at ih
      obtain ⟨left, s', xs', hpoll, h', hlength, hcur⟩ := ih hsuccess h
      have hstay : s.pollFuture ⟨[], .notReady, 0, 0⟩ = .ok (true, s) := rfl
      refine ⟨id :: left, s', xs', ?_, h', ?_, hcur⟩
      · rw [heq]
        dsimp only
        rw [hstay, ok_bind, hpoll]
        rfl
      · rw [List.length_cons, List.length_cons]
        dsimp only at hlength
        omega
    · have hcq : ∀ wc ∈ (rc.pollFuture id).2.cq, wc.success = true := by
        rw [htail]
        exact fun wc hwc => h.succeeds wc (List.mem_of_mem_tail hwc)
      obtain ⟨s₁, xs₁, hdone, h₁, hcur₁⟩ := h.complete howners hout hcq
      obtain ⟨left, s', xs', hpoll, h', hlength, hcur⟩ := ih hsuccess h₁
      refine ⟨left, s', xs', ?_, h', ?_, hcur.trans hcur₁⟩
      · rw [heq, hdone, ok_bind, hpoll]
        rfl
      · rw [howners, List.length_cons, List.length_cons]
        omega

theorem Waits.switch {ys : List ℕ} (h : Waits lost rc s xs) (hs' : s'.OnRing ys)
    (hroutines : s'.routines = s.routines) (hpending : s'.pendingFutures = s.pendingFutures)
    (hdel : s'.deleted = s.deleted) (hmem : ∀ c, c ∈ ys ↔ c ∈ xs) : Waits lost rc s' ys := by
  refine ⟨hs', h.succeeds, fun c hc => ?_, h.owners, h.outSignaled, fun c => ?_⟩
  · rw [hpending]
    exact h.pending c hc
  · rw [hmem, hroutines, hdel]
    exact h.mem c

theorem RC.Polls.length {ids : List ℕ} {completed : List Bool} {ps : List Polled}
    (hpolls : rc.Polls ids completed ps rc') : ps.length = ids.length := by
  induction hpolls with
  | nil => rfl
  | nic _ _ ih => exact ih
  | poll _ ih => exact congrArg Nat.succ ih

theorem RC.Polls.drains {ids : List ℕ} {completed : List Bool} {ps : List Polled}
    (hpolls : rc.Polls ids completed ps rc') (hqueue : rc.sendQueue = [])
    (hcq : ∀ wc ∈ rc.cq, wc.success = true) (hn : rc.cq.length ≤ ids.length) :
    rc'.owners = [] := by
  induction hpolls with
  | nil rc =>
    rw [owners, hqueue, List.length_eq_zero_iff.mp (Nat.le_zero.mp hn)]
    rfl
  | nic hnic _ _ =>
    rw [complete, hqueue] at hnic
    cases hnic
  | @poll rc rc' id ids completed ps _ ih =>
    rcases rc.pollFuture_cases id hcq with ⟨hnone, heq⟩ | ⟨_, _, _, _, hqueue', htail⟩
    · rw [heq] at ih
      exact ih hqueue hcq (by simp [hnone])
    · refine ih (hqueue'.trans hqueue) ?_ ?_
      · rw [htail]
        exact fun wc hwc => hcq wc (List.mem_of_mem_tail hwc)
      · rw [htail, List.length_tail]
        rw [List.length_cons] at hn
        omega

end Waiting

/-! ### Every reachable state -/

section Workers

variable {w w' : AsyncWorker} {lost : ℕ} {ran left rest : List ℕ} {c : ℕ}

structure AsyncWorker.Sound (w : AsyncWorker) (lost : ℕ) (ran left : List ℕ) : Prop where
  sched : w.sched.Sound ran left
  waits : Waits lost w.rc w.sched (ran ++ left)
  futures : w.sched.futures.length = w.rc.owners.length

theorem AsyncWorker.start_sound {n : ℕ} {sched : SScheduler ℕ}
    (hstart : SScheduler.start n [] = .ok sched) :
    ∃ ran, AsyncWorker.Sound ⟨RC.construct, sched⟩ 0 ran [] := by
  obtain ⟨s, hspawn, hok⟩ := bind_eq_ok hstart
  obtain ⟨_, hspawn', hsound, hdel, hpending, hpos, _⟩ := SScheduler.spawnAll_ok n
  obtain rfl := Except.ok.inj (hspawn.symm.trans hspawn')
  obtain rfl := Except.ok.inj hok
  have hs := hsound.onRing
  have hring : ({ s with futures := [] } : SScheduler ℕ).OnRing
      (List.range' 1 (s.routines - 1) ++ []) :=
    ⟨hs.holds, hs.known, hs.inactive, hs.routines, hs.slots, hs.waiting⟩
  refine ⟨List.range' 1 (s.routines - 1), ⟨hring, hsound.cur⟩,
    ⟨hring, fun wc hwc => ?_, fun c hc => ?_, fun c hc => ?_, rfl, fun c => ?_⟩, rfl⟩
  · exact absurd hwc List.not_mem_nil
  · dsimp only
    rw [hpending, List.getElem?_replicate_of_lt hc]
    rfl
  · exact absurd hc List.not_mem_nil
  · have hdel' := hdel c
    rw [List.append_nil, List.mem_range'_1]
    constructor
    · exact fun hmem => ⟨(by dsimp only; omega), hdel', List.not_mem_nil⟩
    · rintro ⟨hmem, _⟩
      dsimp only at hmem
      omega

theorem AsyncWorker.Sound.main (h : w.Sound lost ran []) {completed : List Bool}
    {ps : List Polled} {rc : RC} (hpolls : w.rc.Polls w.sched.futures completed ps rc)
    (hsuccess : ∀ success ∈ completed, success = true) :
    ∃ sched xs, w.sched.turn 0 (.poll ps) = some (.ok sched) ∧
      AsyncWorker.Sound ⟨rc, sched⟩ lost [] xs := by
  obtain ⟨kept, s₁, xs, hpoll, h₁, hlength, hcur₁⟩ := Waits.polls hpolls hsuccess h.waits
  have hs₁ := h₁.onRing
  have hsound₁ : ({ s₁ with futures := kept } : SScheduler ℕ).Sound xs [] := by
    refine ⟨?_, hcur₁.trans h.sched.cur⟩
    rw [List.append_nil]
    exact ⟨hs₁.holds, hs₁.known, hs₁.inactive, hs₁.routines, hs₁.slots, hs₁.waiting⟩
  obtain ⟨sched, hyield, hsound, _⟩ := hsound₁.yield_main
  obtain ⟨hkept, hdel⟩ := SScheduler.yieldToNext_kept hyield
  have hwaits : Waits lost rc sched xs :=
    h₁.switch hsound.onRing hkept.routines hkept.pendingFutures hdel fun c => Iff.rfl
  refine ⟨sched, xs, ?_, hsound, hwaits, ?_⟩
  · rw [SScheduler.turn, if_pos ⟨rfl, hpolls.length⟩, SScheduler.pollAllFutures, hpoll, ok_bind,
      ok_bind, hyield]
  · have hfutures := h.futures
    rw [show sched.futures = kept from hkept.futures]
    dsimp only
    omega

theorem AsyncWorker.Sound.current (h : w.Sound lost ran (c :: rest)) :
    c < kMaxRoutineSupported ∧ c ≠ 0 ∧ w.sched.deleted c = false ∧ c ∉ w.rc.owners := by
  obtain ⟨hrange, hdel, hnot⟩ := (h.waits.mem c).mp (List.mem_append_right ran List.mem_cons_self)
  have hroutines := h.waits.onRing.routines
  exact ⟨by omega, h.sched.next_ne.2, hdel, hnot⟩

theorem AsyncWorker.Sound.wait (h : w.Sound lost ran (c :: rest)) :
    ∃ sched, w.sched.turn c (.pauseWait 1 c) = some (.ok sched) ∧
      ∀ op : AsyncRequest, (op.post w.rc c).1 = true →
        AsyncWorker.Sound ⟨(op.post w.rc c).2, sched⟩ lost ran rest := by
  obtain ⟨hlt, hne, _, hnot⟩ := h.current
  have hk := h.waits.pending c hlt
  have hslot : c < w.sched.pendingFutures.length := (List.getElem?_eq_some_iff.mp hk).1
  rw [List.count_eq_zero.mpr hnot] at hk
  obtain ⟨sched, hpause, hsound⟩ := h.sched.pause (w.sched.futures ++ [c]) List.length_set
    (fun d hd => List.getElem?_set_ne (a := 0 + 1) (Ne.symm hd))
  obtain ⟨hkept, hdel⟩ := SScheduler.pauseAndYield_kept hpause
  refine ⟨sched, ?_, fun op hop => ?_⟩
  · rw [SScheduler.turn, if_neg hne, SScheduler.emplaceForRoutine, SScheduler.waitNum, hk]
    exact congrArg some hpause
  obtain ⟨howners, hout, hcq⟩ := AsyncRequest.post_accepted hop hlt
  refine ⟨hsound, ⟨hsound.onRing, ?_, fun d hd => ?_, fun d hd => ?_, ?_, fun d => ?_⟩, ?_⟩
  · dsimp only
    rw [hcq]
    exact h.waits.succeeds
  · rw [hkept.pendingFutures, howners, List.count_append]
    dsimp only
    by_cases hdc : d = c
    · subst hdc
      rw [List.getElem?_set_self hslot, List.count_eq_zero.mpr hnot, List.count_singleton_self]
    · rw [List.getElem?_set_ne (Ne.symm hdc), h.waits.pending d hd, List.count_singleton,
        if_neg (by simpa using Ne.symm hdc), Nat.add_zero]
  · dsimp only at hd
    rw [howners, List.mem_append, List.mem_singleton] at hd
    rcases hd with hd | rfl
    · exact h.waits.owners d hd
    · exact hlt
  · dsimp only
    rw [howners, hout, h.waits.outSignaled, List.length_append, List.length_singleton,
      Nat.mod_add_mod]
    exact congrArg (· % 2 ^ 32) (Nat.add_right_comm _ _ _)
  · dsimp only
    rw [h.sched.mem_rest, h.waits.mem, hkept.routines, hdel, howners, List.mem_append,
      List.mem_singleton, not_or]
    dsimp only
    tauto
  · rw [show sched.futures = w.sched.futures ++ [c] from hkept.futures]
    dsimp only
    rw [howners, List.length_append, List.length_append, h.futures]

theorem AsyncWorker.Sound.yield (h : w.Sound lost ran (c :: rest)) :
    ∃ sched, w.sched.turn c .yield = some (.ok sched) ∧
      AsyncWorker.Sound { w with sched := sched } lost (ran ++ [c]) rest := by
  obtain ⟨sched, hyield, hsound⟩ := h.sched.yield
  obtain ⟨hkept, hdel⟩ := SScheduler.yieldToNext_kept hyield
  refine ⟨sched, ?_, hsound, ?_, ?_⟩
  · rw [SScheduler.turn, if_neg h.current.2.1]
    exact congrArg some hyield
  · refine h.waits.switch hsound.onRing hkept.routines hkept.pendingFutures hdel fun d => ?_
    rw [List.append_assoc, List.singleton_append]
  · dsimp only
    rw [hkept.futures]
    exact h.futures

theorem AsyncWorker.Sound.ret (h : w.Sound lost ran (c :: rest)) :
    ∃ sched, w.sched.turn c .ret = some (.ok sched) ∧
      AsyncWorker.Sound { w with sched := sched } lost ran rest := by
  obtain ⟨sched, hexit, hsound⟩ := h.sched.exit
  have hcur : w.sched.curRoutinePtr = some c := h.sched.cur
  obtain ⟨hkept, hdel⟩ := SScheduler.exit_kept hcur hexit
  have hmem : ∀ d, d ∈ ran ++ rest ↔
      (1 ≤ d ∧ d < sched.routines) ∧ sched.deleted d = false ∧ d ∉ w.rc.owners := by
    intro d
    rw [h.sched.mem_rest, h.waits.mem, hkept.routines, hdel]
    by_cases hdc : d = c
    · subst hdc
      rw [Function.update_self]
      exact iff_of_false (fun hand => hand.2 rfl) fun hand => by cases hand.2.1
    · rw [Function.update_of_ne hdc]
      tauto
  refine ⟨sched, ?_, hsound, ⟨hsound.onRing, h.waits.succeeds, fun d hd => ?_, h.waits.owners,
    h.waits.outSignaled, hmem⟩, ?_⟩
  · rw [SScheduler.turn, if_neg h.current.2.1]
    exact congrArg some hexit
  · rw [hkept.pendingFutures]
    exact h.waits.pending d hd
  · dsimp only
    rw [hkept.futures]
    exact h.futures

theorem AsyncWorker.Sound.left_eq (h : w.Sound lost ran left)
    (hcur : w.sched.curRoutinePtr = some c) : c = 0 ∧ left = [] ∨ ∃ rest, left = c :: rest := by
  have hc := h.sched.cur.symm.trans hcur
  cases left with
  | nil => exact Or.inl ⟨(Option.some.inj hc).symm, rfl⟩
  | cons d rest =>
    obtain rfl := Option.some.inj hc
    exact Or.inr ⟨rest, rfl⟩

theorem AsyncWorker.Sound.step {e : AsyncEvent} (h : w.Sound lost ran left) (hs : w.Step e w')
    (he : e.Succeeds) : ∃ ran' left', w'.Sound (lost + e.lost) ran' left' := by
  cases hs with
  | nic hnic =>
    obtain rfl := he
    refine ⟨ran, left, h.sched, h.waits.nic hnic, ?_⟩
    dsimp only
    rw [(RC.complete_success hnic).1]
    exact h.futures
  | main hcur hpolls hturn =>
    rcases h.left_eq hcur with ⟨_, rfl⟩ | ⟨rest, rfl⟩
    · obtain ⟨sched, xs, hturn', hsound⟩ := h.main hpolls he
      obtain rfl := Except.ok.inj (Option.some.inj (hturn'.symm.trans hturn))
      exact ⟨[], xs, hsound⟩
    · exact absurd rfl h.current.2.1
  | @unsignaled c accepted hcur hne =>
    obtain ⟨howners, hout, hcq⟩ := RC.execute_false w.rc c accepted
    refine ⟨ran, left, h.sched, h.waits.congr howners hout (hcq ▸ h.waits.succeeds), ?_⟩
    dsimp only
    rw [howners]
    exact h.futures
  | @refused c op hcur hne hop =>
    refine ⟨ran, left, h.sched, h.waits.refused hop, ?_⟩
    dsimp only
    rw [(AsyncRequest.post_refused hop h.waits.outSignaled_lt).1]
    exact h.futures
  | @wait c op sched hcur hne hop hturn =>
    obtain ⟨rest, rfl⟩ := (h.left_eq hcur).resolve_left fun hand => hne hand.1
    obtain ⟨sched, hturn', hsound⟩ := h.wait
    obtain rfl := Except.ok.inj (Option.some.inj (hturn'.symm.trans hturn))
    exact ⟨ran, rest, hsound op hop⟩
  | @yield c sched hcur hne hturn =>
    obtain ⟨rest, rfl⟩ := (h.left_eq hcur).resolve_left fun hand => hne hand.1
    obtain ⟨sched, hturn', hsound⟩ := h.yield
    obtain rfl := Except.ok.inj (Option.some.inj (hturn'.symm.trans hturn))
    exact ⟨ran ++ [c], rest, hsound⟩
  | ret hcur hne hturn =>
    obtain ⟨rest, rfl⟩ := (h.left_eq hcur).resolve_left fun hand => hne hand.1
    obtain ⟨sched, hturn', hsound⟩ := h.ret
    obtain rfl := Except.ok.inj (Option.some.inj (hturn'.symm.trans hturn))
    exact ⟨ran, rest, hsound⟩

theorem AsyncWorker.Sound.run {w₀ : AsyncWorker} {es : List AsyncEvent}
    (hrun : Run AsyncWorker.Step w₀ es w) (h : ∃ ran left, w₀.Sound 0 ran left)
    (hes : ∀ e ∈ es, e.Succeeds) :
    ∃ ran left, w.Sound (es.map AsyncEvent.lost).sum ran left := by
  induction hrun with
  | start => exact h
  | @step es w w' e _ hs ih =>
    obtain ⟨ran, left, hsound⟩ := ih fun e he => hes e (List.mem_append_left _ he)
    rw [List.map_append, List.sum_append, List.map_singleton, List.sum_singleton]
    exact hsound.step hs (hes e (List.mem_append_right _ (List.mem_singleton_self e)))

structure AsyncWorker.Going (w : AsyncWorker) (es : List AsyncEvent) (xs : List ℕ) : Prop where
  ring : Ring w.sched.routineChain.nextP w.sched.routineChain.prevP 0 xs
  mem : ∀ c, c ∈ xs ↔
    (1 ≤ c ∧ c < w.sched.routines) ∧ w.sched.deleted c = false ∧ c ∉ w.rc.owners
  futures : w.sched.futures.length = w.rc.owners.length
  outSignaled : w.rc.outSignaled =
    (w.rc.owners.length + (es.map AsyncEvent.lost).sum) % 2 ^ 32
  polls : w.sched.curRoutinePtr = some 0 → ∀ completed ps rc,
    (∀ success ∈ completed, success = true) → w.rc.Polls w.sched.futures completed ps rc →
    ∃ sched, w.sched.turn 0 (.poll ps) = some (.ok sched)
  turns : ∀ c, w.sched.curRoutinePtr = some c → c ≠ 0 →
    ∀ t : Turn ℕ, t = .pauseWait 1 c ∨ t = .yield ∨ t = .ret →
    ∃ sched, w.sched.turn c t = some (.ok sched)
  drains : w.rc.sendQueue = [] → ∀ completed ps rc,
    w.rc.Polls w.sched.futures completed ps rc → rc.owners = []

end Workers

end Rolex
