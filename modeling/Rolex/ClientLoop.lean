import Rolex.RemoteHistory
import Rolex.SchedulerRuns

/-!
The loop of a client worker: its scheduler decides which coroutine goes on, and the poll future of
the RPC layer puts coroutines back. A coroutine makes one call after another until it finds that it
should stop.
-/

namespace Rolex
open Histories PointerRing

structure ClientLoop (ι F : Type) (N : ℕ) where
  system : RemoteSystem ι F N
  scheds : ι → SScheduler Unit

def Polled.replies (cs : List ℕ) : Polled := ⟨cs, .notReady, 0, 0⟩

section Steps

variable {ι F : Type} {N : ℕ} [DecidableEq ι] (fmt : DoubleFormat F) (epsilon : ℕ)
  (setup : ι → ClientSetup) (i : ι)

/-- The loop of the future over received datagrams, with the coroutines that it adds back. -/
inductive RemoteSystem.Polls : RemoteSystem ι F N → List ℕ → RemoteSystem ι F N → Prop where
  | nil (s : RemoteSystem ι F N) : Polls s [] s
  | cons {s s₁ s' : RemoteSystem ι F N} {c : ℕ} {b : Bool} {cs : List ℕ} :
      s.Step fmt epsilon setup (.poll ((setup i).threadId, c) b) s₁ → Polls s₁ cs s' →
      Polls s ((bif b then [c] else []) ++ cs) s'

/-- A coroutine that goes on is at its start, or comes back from its call. -/
inductive RemoteSystem.Returns (c : ℕ) : RemoteSystem ι F N → RemoteSystem ι F N → Prop where
  | begin (s : RemoteSystem ι F N) : (s.clients i).calling c = none → Returns c s s
  | back {s s' : RemoteSystem ι F N} {result : Option Val} :
      s.Step fmt epsilon setup (.resume ((setup i).threadId, c) result) s' → Returns c s s'

/-- The server handles a datagram, the main coroutine of a client polls, or another one returns from
its call, and makes the next one or leaves. -/
inductive ClientLoop.Step : ClientLoop ι F N → ClientLoop ι F N → Prop where
  | serve {s : ClientLoop ι F N} {caller : Caller} {op : RemoteOp} {ans : Option Val}
      {system : RemoteSystem ι F N} : s.system.Step fmt epsilon setup
      (.serve caller op ans) system → Step s { s with system := system }
  | main {s : ClientLoop ι F N} {i : ι} {cs : List ℕ} {system : RemoteSystem ι F N}
      {sched : SScheduler Unit} : (s.scheds i).curRoutinePtr = some 0 →
      s.system.Polls fmt epsilon setup i cs system →
      (s.scheds i).turn 0 (.poll [.replies cs]) = some (.ok sched) →
      Step s ⟨system, Function.update s.scheds i sched⟩
  | cor {s : ClientLoop ι F N} {i : ι} {c : ℕ} {op : RemoteOp} {system system' : RemoteSystem ι F N}
      {sched : SScheduler Unit} :
      (s.scheds i).curRoutinePtr = some c → c ≠ 0 → s.system.Returns fmt epsilon setup i c system →
      system.Step fmt epsilon setup (.call ((setup i).threadId, c) op) system' →
      (s.scheds i).turn c .pause = some (.ok sched) →
      Step s ⟨system', Function.update s.scheds i sched⟩
  | ret {s : ClientLoop ι F N} {i : ι} {c : ℕ} {system : RemoteSystem ι F N}
      {sched : SScheduler Unit} : (s.scheds i).curRoutinePtr = some c → c ≠ 0 →
      s.system.Returns fmt epsilon setup i c system →
      (s.scheds i).turn c .ret = some (.ok sched) →
      Step s ⟨system, Function.update s.scheds i sched⟩

end Steps

/-! ### Who can run -/

def CallerView.Runs (v : CallerView) : Prop := v.calling = none ∨ v.addedBack ≠ 0

def RemotePhase.runs : RemotePhase → Bool
  | running => true
  | asked _ => false
  | answered _ => false
  | ready _ => true

def RemoteEvent.before : RemoteEvent → Bool
  | call _ _ => true
  | serve _ _ _ => false
  | poll _ _ => false
  | resume _ _ => true

def RemoteEvent.after : RemoteEvent → Bool
  | call _ _ => false
  | serve _ _ _ => false
  | poll _ _ => true
  | resume _ _ => true

theorem InCall.runs_iff {c : ClientSetup} {cor : ℕ} {v : CallerView} {phase : RemotePhase}
    (h : InCall c cor v phase) : v.Runs ↔ phase.runs = true := by
  cases h <;> simp [CallerView.Runs, RemotePhase.runs]

theorem InCall.calling_iff {c : ClientSetup} {cor : ℕ} {v : CallerView} {phase : RemotePhase}
    (h : InCall c cor v phase) : v.calling = none ↔ phase = .running := by
  cases h <;> simp

theorem RemotePhase.runs_of_next {phase phase' : RemotePhase} {e : RemoteEvent}
    (h : phase.next e = some phase') :
    phase.runs = e.before ∧ phase'.runs = e.after ∧ (∀ caller b, e = .poll caller b → b = true) ∧
      (phase = .running ↔ ∃ caller op, e = .call caller op) := by
  cases phase with
  | running =>
    cases e with
    | call caller op =>
      obtain rfl := Option.some.inj h
      exact ⟨rfl, rfl, (fun _ _ he => by cases he), iff_of_true rfl ⟨_, _, rfl⟩⟩
    | serve | poll | resume => cases h
  | asked op =>
    cases e with
    | serve caller op' ans =>
      rw [next] at h
      split at h
      · obtain rfl := Option.some.inj h
        exact ⟨rfl, rfl, (fun _ _ he => by cases he), by simp⟩
      · cases h
    | call | poll | resume => cases h
  | answered ans =>
    cases e with
    | poll caller b =>
      cases b with
      | false => cases h
      | true =>
        obtain rfl := Option.some.inj h
        refine ⟨rfl, rfl, fun caller b he => ?_, by simp⟩
        cases he
        rfl
    | call | serve | resume => cases h
  | ready ans =>
    cases e with
    | resume caller result =>
      rw [next] at h
      split at h
      · obtain rfl := Option.some.inj h
        exact ⟨rfl, rfl, (fun _ _ he => by cases he), by simp⟩
      · cases h
    | call | serve | poll => cases h

section Views

variable {ι F : Type} {N : ℕ} [DecidableEq ι] {fmt : DoubleFormat F} {epsilon : ℕ}
  {setup : ι → ClientSetup} {i : ι} {s s' : RemoteSystem ι F N}

theorem RemoteSystem.Step.runs {e : RemoteEvent} (hs : s.Step fmt epsilon setup e s')
    (h : s.Sound setup) (hc : DistinctClients setup) {c : ℕ}
    (hcaller : ((setup i).threadId, c) = e.caller) :
    ((s.view setup i c).Runs ↔ e.before = true) ∧ ((s'.view setup i c).Runs ↔ e.after = true) ∧
      (∀ caller b, e = .poll caller b → b = true) ∧
      ((s.view setup i c).calling = none ↔ ∃ caller op, e = .call caller op) := by
  obtain ⟨phase, hphase⟩ := h.phases i c
  obtain ⟨phase', hnext, hphase'⟩ := (hs.moved h hc).own i c hcaller phase hphase
  obtain ⟨hbefore, hafter, hpoll, hcall⟩ := RemotePhase.runs_of_next hnext
  rw [hphase.runs_iff, hphase'.runs_iff, hphase.calling_iff, hbefore, hafter]
  exact ⟨Iff.rfl, Iff.rfl, hpoll, hcall⟩

theorem RemoteSystem.Step.view_of_ne {e : RemoteEvent} (hs : s.Step fmt epsilon setup e s')
    (h : s.Sound setup) (hc : DistinctClients setup) {c : ℕ}
    (hcaller : ((setup i).threadId, c) ≠ e.caller) :
    s'.view setup i c = s.view setup i c := (hs.moved h hc).other i c hcaller

theorem RemoteSystem.Polls.runs {cs : List ℕ} (hpolls : s.Polls fmt epsilon setup i cs s')
    (h : s.Sound setup) (hc : DistinctClients setup) : s'.Sound setup ∧ cs.Nodup ∧
      (∀ c ∈ cs, ¬(s.view setup i c).Runs ∧ (s.view setup i c).calling ≠ none) ∧
      (∀ c, (s'.view setup i c).Runs ↔ (s.view setup i c).Runs ∨ c ∈ cs) ∧
      (∀ c, (s'.view setup i c).calling ≠ none → (s.view setup i c).calling ≠ none) ∧
      ∀ j, j ≠ i → ∀ c, s'.view setup j c = s.view setup j c := by
  induction hpolls with
  | nil s => exact ⟨h, List.nodup_nil, by simp, by simp, fun _ hcalling => hcalling,
      fun _ _ _ => rfl⟩
  | @cons s s₁ s' c b cs hs hpolls ih =>
    obtain ⟨hsound, hnodup, hcs, hruns, hcalling, hothers⟩ := ih (h.moved (hs.moved h hc))
    obtain ⟨hbefore, hafter, hb, hcall⟩ := hs.runs h hc (i := i) (c := c) rfl
    obtain rfl := hb _ _ rfl
    have hnot : ¬(s.view setup i c).Runs := fun hr => Bool.false_ne_true (hbefore.mp hr)
    have hyes : (s₁.view setup i c).Runs := hafter.mpr rfl
    have hsame : ∀ d, d ≠ c → s₁.view setup i d = s.view setup i d :=
      fun d hd => hs.view_of_ne h hc fun heq => hd (Prod.mk.inj heq).2
    have hin : (s.view setup i c).calling ≠ none := fun hnone => by
      obtain ⟨_, _, he⟩ := hcall.mp hnone
      cases he
    have hnotMem : c ∉ cs := fun hmem => (hcs c hmem).1 hyes
    refine ⟨hsound, List.nodup_cons.mpr ⟨hnotMem, hnodup⟩, fun d hd => ?_, fun d => ?_,
      fun d hd => ?_, fun j hj d => ?_⟩
    · rcases List.mem_cons.mp hd with rfl | hd
      · exact ⟨hnot, hin⟩
      · rw [← hsame d fun heq => hnotMem (heq ▸ hd)]
        exact hcs d hd
    · rw [hruns, show (bif true then [c] else []) ++ cs = c :: cs from rfl, List.mem_cons]
      by_cases hd : d = c
      · subst hd
        exact iff_of_true (Or.inl hyes) (Or.inr (Or.inl rfl))
      · rw [hsame d hd]
        tauto
    · have hd := hcalling d hd
      by_cases hdc : d = c
      · rwa [hdc]
      · rwa [hsame d hdc] at hd
    · rw [hothers j hj, hs.view_of_ne h hc fun heq => hj (hc.threadId (Prod.mk.inj heq).1)]

/-- Only its coroutines are in calls of a client. -/
def RemoteSystem.CallsWithin (s : RemoteSystem ι F N) (setup : ι → ClientSetup) : Prop :=
  ∀ i c, (s.view setup i c).calling ≠ none → 1 ≤ c ∧ c ≤ (setup i).coros

theorem RemoteSystem.Step.callWithin {caller : Caller} {op : RemoteOp}
    (hs : s.Step fmt epsilon setup (.call caller op) s') :
    ∃ i c, caller = ((setup i).threadId, c) ∧ 1 ≤ c ∧ c ≤ (setup i).coros := by
  obtain ⟨m, hm⟩ := hs
  cases m with
  | call i c op' raw replyBuf =>
    rw [next] at hm
    dsimp only at hm
    split at hm
    · rename_i hwithin
      obtain ⟨_, _, hok⟩ := bind_eq_ok (Option.some.inj hm)
      obtain ⟨he, _⟩ := Prod.mk.inj (Except.ok.inj hok)
      cases he
      exact ⟨i, c, rfl, hwithin.1, hwithin.2.1⟩
    · cases hm
  | serve n u =>
    obtain ⟨_, _, hm⟩ := Option.map_eq_some_iff.mp hm
    obtain ⟨_, _, hok⟩ := bind_eq_ok hm
    cases (Prod.mk.inj (Except.ok.inj hok)).1
  | poll i n u =>
    obtain ⟨_, _, hm⟩ := Option.map_eq_some_iff.mp hm
    obtain ⟨_, _, hok⟩ := bind_eq_ok hm
    cases (Prod.mk.inj (Except.ok.inj hok)).1
  | resume i c =>
    rw [next] at hm
    dsimp only at hm
    split at hm
    · cases (Prod.mk.inj (Except.ok.inj (Option.some.inj hm))).1
    · cases hm

theorem RemoteSystem.Step.callsWithin {e : RemoteEvent} (hs : s.Step fmt epsilon setup e s')
    (h : s.Sound setup) (hc : DistinctClients setup) (hwithin : s.CallsWithin setup) :
    s'.CallsWithin setup := by
  intro j c hcalling
  by_cases hcaller : ((setup j).threadId, c) = e.caller
  · by_cases hnone : (s.view setup j c).calling = none
    · obtain ⟨caller, op, rfl⟩ := (hs.runs h hc hcaller).2.2.2.mp hnone
      obtain ⟨k, d, heq, hone, hle⟩ := hs.callWithin
      obtain ⟨hid, rfl⟩ := Prod.mk.inj (hcaller.trans heq)
      obtain rfl := hc.threadId hid
      exact ⟨hone, hle⟩
    · exact hwithin j c hnone
  · rw [hs.view_of_ne h hc hcaller] at hcalling
    exact hwithin j c hcalling

theorem RemoteSystem.Polls.run {cs : List ℕ} (hpolls : s.Polls fmt epsilon setup i cs s') :
    ∃ es, Run (RemoteSystem.Step fmt epsilon setup) s es s' := by
  induction hpolls with
  | nil s => exact ⟨[], .start⟩
  | cons hs _ ih =>
    obtain ⟨es, hrun⟩ := ih
    exact ⟨_, (Run.start.step hs).append hrun⟩

theorem RemoteSystem.Returns.run {c : ℕ} (hreturns : s.Returns fmt epsilon setup i c s') :
    ∃ es, Run (RemoteSystem.Step fmt epsilon setup) s es s' := by
  cases hreturns with
  | begin => exact ⟨[], .start⟩
  | back hs => exact ⟨_, Run.start.step hs⟩

theorem RemoteSystem.CallsWithin.run {es : List RemoteEvent} (hwithin : s.CallsWithin setup)
    (h : s.Sound setup) (hc : DistinctClients setup)
    (hrun : Run (RemoteSystem.Step fmt epsilon setup) s es s') :
    s'.Sound setup ∧ s'.CallsWithin setup :=
  hrun.invariant (I := fun s => s.Sound setup ∧ s.CallsWithin setup) ⟨h, hwithin⟩ fun _ _ _ hI hs =>
    ⟨hI.1.moved (hs.moved hI.1 hc), hs.callsWithin hI.1 hc hI.2⟩

theorem RemoteSystem.Returns.runs {c : ℕ} (hreturns : s.Returns fmt epsilon setup i c s')
    (h : s.Sound setup) (hc : DistinctClients setup) :
    (s.view setup i c).Runs ∧ (s'.view setup i c).calling = none ∧
      ∀ j d, (j, d) ≠ (i, c) → s'.view setup j d = s.view setup j d := by
  cases hreturns with
  | begin hnone => exact ⟨Or.inl hnone, hnone, fun _ _ _ => rfl⟩
  | back hs =>
    obtain ⟨phase, hphase⟩ := h.phases i c
    obtain ⟨phase', hnext, hphase'⟩ := (hs.moved h hc).own i c rfl phase hphase
    refine ⟨(hs.runs h hc rfl).1.mpr rfl, hphase'.calling_iff.mpr ?_,
      fun j d hne => hs.view_of_ne h hc fun heq => ?_⟩
    · cases phase with
      | ready ans =>
        rw [RemotePhase.next] at hnext
        split at hnext
        · exact (Option.some.inj hnext).symm
        · cases hnext
      | running | asked | answered => cases hnext
    · obtain ⟨hid, rfl⟩ := Prod.mk.inj heq
      rw [hc.threadId hid] at hne
      exact hne rfl

end Views

/-! ### The scheduler of a worker -/

section Workers

/-- The scheduler of a client worker whose `n` coroutines call: on the ring are those that can
run. -/
structure Worker (sched : SScheduler Unit) (n : ℕ) (view : ℕ → CallerView)
    (ran left : List ℕ) : Prop where
  sound : sched.Sound ran left
  routines : sched.routines = n + 1
  pending : sched.pendingFutures = List.replicate kMaxRoutineSupported 0
  futures : sched.futures = [()]
  mem : ∀ c, c ∈ ran ++ left ↔ (1 ≤ c ∧ c ≤ n) ∧ sched.deleted c = false ∧ (view c).Runs
  gone : ∀ c, sched.deleted c = true → (view c).calling = none

variable {sched : SScheduler Unit} {n c : ℕ} {view view' : ℕ → CallerView} {ran left rest : List ℕ}

theorem worker_start (hn : n < kMaxRoutineSupported) (hstart : SScheduler.start n [()] = .ok sched)
    (hview : ∀ c, (view c).calling = none) : ∃ ran, Worker sched n view ran [] := by
  obtain ⟨s, hspawn, hok⟩ := bind_eq_ok hstart
  obtain ⟨_, hspawn', hsound, hdel, hpending, _, hroutines⟩ := SScheduler.spawnAll_ok n
  obtain rfl := Except.ok.inj (hspawn.symm.trans hspawn')
  obtain rfl := Except.ok.inj hok
  have hs := hsound.onRing
  have hcount : s.routines = n + 1 := hroutines hn
  refine ⟨List.range' 1 (s.routines - 1),
    ⟨⟨hs.holds, hs.known, hs.inactive, hs.routines, hs.slots, hs.waiting⟩, hsound.cur⟩, hcount,
    hpending, rfl, fun c => ?_, fun c hc => ?_⟩
  · rw [List.append_nil, List.mem_range'_1, hcount]
    have hruns : (view c).Runs := Or.inl (hview c)
    have hdel' := hdel c
    constructor
    · exact fun hmem => ⟨by omega, hdel', hruns⟩
    · rintro ⟨hmem, _⟩
      omega
  · exact hview c

theorem Worker.pending_eq_zero (h : Worker sched n view ran left) {k : ℕ}
    (hk : sched.pendingFutures[c]? = some k) : k = 0 := by
  rw [h.pending, List.getElem?_replicate] at hk
  split at hk
  · exact (Option.some.inj hk).symm
  · cases hk

theorem Worker.paused (h : Worker sched n view ran left) (hcalling : (view c).calling ≠ none)
    (hwithin : 1 ≤ c ∧ c ≤ n) (hruns : ¬(view c).Runs) : sched.Paused c := by
  refine ⟨h.routines ▸ Nat.lt_succ_of_le hwithin.2,
    h.sound.onRing.holds.nextP_eq_none.mpr fun hmem => ?_, ?_⟩
  · rcases List.mem_cons.mp hmem with rfl | hmem
    · omega
    · exact hruns ((h.mem c).mp hmem).2.2
  · by_contra hdel
    exact hcalling (h.gone c (Bool.eq_true_of_not_eq_false hdel))

theorem Worker.poll (h : Worker sched n view ran []) {cs : List ℕ} (hnodup : cs.Nodup)
    (hcs : ∀ c ∈ cs, ¬(view c).Runs ∧ (view c).calling ≠ none ∧ 1 ≤ c ∧ c ≤ n)
    (hruns : ∀ c, (view' c).Runs ↔ (view c).Runs ∨ c ∈ cs)
    (hcalling : ∀ c, (view' c).calling ≠ none → (view c).calling ≠ none) :
    ∃ sched', sched.turn 0 (.poll [.replies cs]) = some (.ok sched') ∧
      Worker sched' n view' [] (ran ++ cs) := by
  have hs := h.sound.onRing
  rw [List.append_nil] at hs
  obtain ⟨sched₁, hadd, hs₁, hcur₁, _⟩ := hs.addbacks hnodup fun c hc =>
    ⟨h.paused (hcs c hc).2.1 (hcs c hc).2.2 (hcs c hc).1, fun _ hk => h.pending_eq_zero hk⟩
  obtain ⟨chain, rfl⟩ := SScheduler.addbacks_eq hadd
  have hpoll : sched.pollAllFutures [.replies cs] = .ok { sched with routineChain := chain } := by
    rw [SScheduler.pollAllFutures, h.futures, List.zip_cons_cons, SScheduler.pollFutures,
      SScheduler.pollFuture, Polled.replies, hadd, ok_bind, if_neg (by simp), ok_bind]
    dsimp only
    rw [SScheduler.settle, if_neg (by simp), if_neg Bool.false_ne_true, ok_bind, ok_bind]
    rw [show ({ sched with routineChain := chain } : SScheduler Unit) =
      { sched with routineChain := chain, futures := [()] } by rw [← h.futures]]
    rfl
  have hsound₁ : ({ sched with routineChain := chain } : SScheduler Unit).Sound (ran ++ cs) [] :=
    ⟨by rwa [List.append_nil], hcur₁.trans h.sound.cur⟩
  obtain ⟨sched', hyield, hsound', _⟩ := hsound₁.yield_main
  refine ⟨sched', ?_, ?_⟩
  · rw [SScheduler.turn, if_pos ⟨rfl, by rw [h.futures]; rfl⟩, hpoll, ok_bind, hyield]
  · obtain ⟨hkept, hdel⟩ := SScheduler.yieldToNext_kept hyield
    refine ⟨hsound', hkept.routines.trans h.routines, hkept.pendingFutures.trans h.pending,
      hkept.futures.trans h.futures, fun c => ?_, fun c hc => ?_⟩
    · have hmem := h.mem c
      rw [List.append_nil] at hmem
      rw [List.nil_append, List.mem_append, hmem, hruns, hdel]
      have hback : c ∈ cs → (1 ≤ c ∧ c ≤ n) ∧ sched.deleted c = false := fun hc =>
        ⟨(hcs c hc).2.2, (h.paused (hcs c hc).2.1 (hcs c hc).2.2 (hcs c hc).1).2.2⟩
      dsimp only
      tauto
    · rw [hdel] at hc
      by_contra hne
      exact hcalling c hne (h.gone c hc)

theorem Worker.not_deleted (h : Worker sched n view ran (c :: rest)) : sched.deleted c = false :=
  ((h.mem c).mp (List.mem_append_right ran List.mem_cons_self)).2.1

theorem Worker.call (h : Worker sched n view ran (c :: rest)) (hruns : ¬(view' c).Runs)
    (hothers : ∀ d, d ≠ c → view' d = view d) :
    ∃ sched', sched.turn c .pause = some (.ok sched') ∧ Worker sched' n view' ran rest := by
  obtain ⟨sched', hpause, hsound'⟩ := h.sound.pause sched.futures rfl fun _ _ => rfl
  obtain ⟨hkept, hdel⟩ := SScheduler.pauseAndYield_kept hpause
  refine ⟨sched', ?_, ⟨hsound', hkept.routines.trans h.routines,
    hkept.pendingFutures.trans h.pending, hkept.futures.trans h.futures, fun d => ?_,
    fun d hd => ?_⟩⟩
  · rw [SScheduler.turn, if_neg h.sound.next_ne.2]
    exact congrArg some hpause
  · rw [h.sound.mem_rest, h.mem, hdel]
    by_cases hdc : d = c
    · subst hdc
      tauto
    · rw [hothers d hdc]
      tauto
  · rw [hdel] at hd
    have hdc : d ≠ c := by
      rintro rfl
      exact Bool.false_ne_true (h.not_deleted.symm.trans hd)
    rw [hothers d hdc]
    exact h.gone d hd

theorem Worker.ret (h : Worker sched n view ran (c :: rest)) (hcalling : (view' c).calling = none)
    (hothers : ∀ d, d ≠ c → view' d = view d) :
    ∃ sched', sched.turn c .ret = some (.ok sched') ∧ Worker sched' n view' ran rest := by
  obtain ⟨sched', hexit, hsound'⟩ := h.sound.exit
  have hcur : sched.curRoutinePtr = some c := h.sound.cur
  obtain ⟨hkept, hdel⟩ := SScheduler.exit_kept hcur hexit
  refine ⟨sched', ?_, ⟨hsound', hkept.routines.trans h.routines,
    hkept.pendingFutures.trans h.pending, hkept.futures.trans h.futures, fun d => ?_,
    fun d hd => ?_⟩⟩
  · rw [SScheduler.turn, if_neg h.sound.next_ne.2]
    exact congrArg some hexit
  · rw [h.sound.mem_rest, h.mem, hdel]
    by_cases hdc : d = c
    · subst hdc
      rw [Function.update_self]
      exact iff_of_false (fun hand => hand.2 rfl) fun hand => by cases hand.2.1
    · rw [hothers d hdc, Function.update_of_ne hdc]
      tauto
  · by_cases hdc : d = c
    · rw [hdc]
      exact hcalling
    · rw [hdel, Function.update_of_ne hdc] at hd
      rw [hothers d hdc]
      exact h.gone d hd

end Workers

/-! ### Every reachable state -/

section Runs

variable {ι F : Type} {N : ℕ} [DecidableEq ι] {fmt : DoubleFormat F} {epsilon : ℕ}
  {setup : ι → ClientSetup} {s s' : ClientLoop ι F N}

variable (setup) in
/-- The invariant: whatever the ring of a client holds can run, and nothing else can. -/
structure ClientLoop.Sound (s : ClientLoop ι F N) : Prop where
  system : s.system.Sound setup
  callsWithin : s.system.CallsWithin setup
  workers : ∀ i, ∃ ran left, Worker (s.scheds i) (setup i).coros (s.system.view setup i) ran left

variable (setup) in
structure ClientLoop.Starts (s : ClientLoop ι F N) : Prop where
  system : ∃ server index, (∀ i, server.Connected (setup i)) ∧
    s.system = RemoteSystem.start server index
  scheds : ∀ i, SScheduler.start (setup i).coros [()] = .ok (s.scheds i)

omit [DecidableEq ι] in
theorem ClientLoop.Starts.sound (h : s.Starts setup) (hc : DistinctClients setup) :
    s.Sound setup := by
  obtain ⟨server, index, hserver, hsystem⟩ := h.system
  have hview : ∀ i c, (s.system.view setup i c).calling = none := fun i c => by
    rw [hsystem]
    rfl
  refine ⟨?_, fun i c hcalling => absurd (hview i c) hcalling, fun i => ?_⟩
  · rw [hsystem]
    exact RemoteSystem.start_sound hserver index
  · have hcoros := hc.coros i
    obtain ⟨ran, hworker⟩ :=
      worker_start (by rw [kMaxRoutineSupported]; omega) (h.scheds i) (hview i)
    exact ⟨ran, [], hworker⟩

theorem ClientLoop.Sound.update (h : s.Sound setup) {system : RemoteSystem ι F N}
    (hsystem : system.Sound setup) (hwithin : system.CallsWithin setup) {i : ι}
    {sched : SScheduler Unit} {ran left : List ℕ}
    (hworker : Worker sched (setup i).coros (system.view setup i) ran left)
    (hothers : ∀ j, j ≠ i → ∀ c, system.view setup j c = s.system.view setup j c) :
    ClientLoop.Sound setup ⟨system, Function.update s.scheds i sched⟩ := by
  refine ⟨hsystem, hwithin, fun j => ?_⟩
  by_cases hj : j = i
  · subst hj
    dsimp only
    rw [Function.update_self]
    exact ⟨ran, left, hworker⟩
  · obtain ⟨ran', left', hworker'⟩ := h.workers j
    dsimp only
    rw [Function.update_of_ne hj, funext (hothers j hj)]
    exact ⟨ran', left', hworker'⟩

theorem ClientLoop.Sound.main (h : s.Sound setup) (hc : DistinctClients setup) {i : ι}
    (hcur : (s.scheds i).curRoutinePtr = some 0) {cs : List ℕ} {system : RemoteSystem ι F N}
    (hpolls : s.system.Polls fmt epsilon setup i cs system) :
    ∃ sched, (s.scheds i).turn 0 (.poll [.replies cs]) = some (.ok sched) ∧
      ClientLoop.Sound setup ⟨system, Function.update s.scheds i sched⟩ := by
  obtain ⟨ran, left, hworker⟩ := h.workers i
  obtain ⟨hsystem, hnodup, hcs, hruns, hcalling, hothers⟩ := hpolls.runs h.system hc
  obtain rfl : left = [] := by
    cases left with
    | nil => rfl
    | cons c rest =>
      exact absurd (Option.some.inj (hworker.sound.cur.symm.trans hcur)) hworker.sound.next_ne.2
  obtain ⟨sched, hturn, hworker'⟩ := hworker.poll hnodup
    (fun c hc => ⟨(hcs c hc).1, (hcs c hc).2, h.callsWithin i c (hcs c hc).2⟩) hruns hcalling
  obtain ⟨es, hrun⟩ := hpolls.run
  exact ⟨sched, hturn, h.update hsystem (h.callsWithin.run h.system hc hrun).2 hworker' hothers⟩

omit [DecidableEq ι] in
theorem ClientLoop.Sound.current (h : s.Sound setup) {i : ι} {c : ℕ}
    (hcur : (s.scheds i).curRoutinePtr = some c) (hne : c ≠ 0) :
    ∃ ran rest, Worker (s.scheds i) (setup i).coros (s.system.view setup i) ran (c :: rest) := by
  obtain ⟨ran, left, hworker⟩ := h.workers i
  have hc := hworker.sound.cur.symm.trans hcur
  cases left with
  | nil => exact absurd (Option.some.inj hc).symm hne
  | cons d rest =>
    obtain rfl := Option.some.inj hc
    exact ⟨ran, rest, hworker⟩

theorem ClientLoop.Sound.returned (h : s.Sound setup) (hc : DistinctClients setup) {i : ι} {c : ℕ}
    {system : RemoteSystem ι F N} (hreturns : s.system.Returns fmt epsilon setup i c system) :
    system.Sound setup ∧ system.CallsWithin setup := by
  obtain ⟨es, hrun⟩ := hreturns.run
  exact h.callsWithin.run h.system hc hrun

theorem ClientLoop.Sound.call (h : s.Sound setup) (hc : DistinctClients setup) {i : ι} {c : ℕ}
    (hcur : (s.scheds i).curRoutinePtr = some c) (hne : c ≠ 0) {system system' : RemoteSystem ι F N}
    (hreturns : s.system.Returns fmt epsilon setup i c system) {op : RemoteOp}
    (hcall : system.Step fmt epsilon setup (.call ((setup i).threadId, c) op) system') :
    ∃ sched, (s.scheds i).turn c .pause = some (.ok sched) ∧
      ClientLoop.Sound setup ⟨system', Function.update s.scheds i sched⟩ := by
  obtain ⟨ran, rest, hworker⟩ := h.current hcur hne
  obtain ⟨hsystem, hwithin⟩ := h.returned hc hreturns
  obtain ⟨_, _, hothers⟩ := hreturns.runs h.system hc
  have hsame : ∀ j d, (j, d) ≠ (i, c) → system'.view setup j d = s.system.view setup j d :=
    fun j d hjd => by
    rw [← hothers j d hjd]
    refine hcall.view_of_ne hsystem hc fun heq => hjd ?_
    obtain ⟨hid, rfl⟩ := Prod.mk.inj heq
    rw [hc.threadId hid]
  have hnot : ¬(system'.view setup i c).Runs := fun hruns =>
    Bool.false_ne_true ((hcall.runs hsystem hc rfl).2.1.mp hruns)
  obtain ⟨sched, hturn, hworker'⟩ :=
    hworker.call hnot fun d hd => hsame i d fun heq => hd (Prod.mk.inj heq).2
  exact ⟨sched, hturn,
    h.update (hsystem.moved (hcall.moved hsystem hc))
    (hcall.callsWithin hsystem hc hwithin) hworker' fun j hj d => hsame j d fun heq => hj
    (Prod.mk.inj heq).1⟩

theorem ClientLoop.Sound.ret (h : s.Sound setup) (hc : DistinctClients setup) {i : ι} {c : ℕ}
    (hcur : (s.scheds i).curRoutinePtr = some c) (hne : c ≠ 0) {system : RemoteSystem ι F N}
    (hreturns : s.system.Returns fmt epsilon setup i c system) :
    ∃ sched, (s.scheds i).turn c .ret = some (.ok sched) ∧
      ClientLoop.Sound setup ⟨system, Function.update s.scheds i sched⟩ := by
  obtain ⟨ran, rest, hworker⟩ := h.current hcur hne
  obtain ⟨hsystem, hwithin⟩ := h.returned hc hreturns
  obtain ⟨_, hcalling, hothers⟩ := hreturns.runs h.system hc
  obtain ⟨sched, hturn, hworker'⟩ :=
    hworker.ret hcalling fun d hd => hothers i d fun heq => hd (Prod.mk.inj heq).2
  exact ⟨sched, hturn,
    h.update hsystem hwithin hworker' fun j hj d => hothers j d fun heq => hj (Prod.mk.inj heq).1⟩

theorem ClientLoop.Sound.serve (h : s.Sound setup) (hc : DistinctClients setup) {caller : Caller}
    {op : RemoteOp} {ans : Option Val} {system : RemoteSystem ι F N}
    (hserve : s.system.Step fmt epsilon setup (.serve caller op ans) system) :
    ClientLoop.Sound setup { s with system := system } := by
  refine ⟨h.system.moved (hserve.moved h.system hc), hserve.callsWithin h.system hc h.callsWithin,
    fun i => ?_⟩
  obtain ⟨ran, left, hworker⟩ := h.workers i
  refine ⟨ran, left, hworker.sound, hworker.routines, hworker.pending, hworker.futures, fun c => ?_,
    fun c hdel => ?_⟩
  · rw [hworker.mem]
    by_cases hcaller : ((setup i).threadId, c) = RemoteEvent.caller (.serve caller op ans)
    · obtain ⟨hbefore, hafter, _⟩ := hserve.runs h.system hc hcaller
      rw [hbefore, hafter]
      rfl
    · rw [hserve.view_of_ne h.system hc hcaller]
  · have hnone := hworker.gone c hdel
    rw [hserve.view_of_ne h.system hc fun hcaller => ?_]
    · exact hnone
    · obtain ⟨_, _, he⟩ := (hserve.runs h.system hc hcaller).2.2.2.mp hnone
      cases he

theorem ClientLoop.Sound.step (h : s.Sound setup) (hc : DistinctClients setup)
    (hs : s.Step fmt epsilon setup s') : s'.Sound setup := by
  cases hs with
  | serve hserve => exact h.serve hc hserve
  | main hcur hpolls hturn =>
    obtain ⟨sched, hturn', hsound⟩ := h.main hc hcur hpolls
    obtain rfl := Except.ok.inj (Option.some.inj (hturn'.symm.trans hturn))
    exact hsound
  | cor hcur hne hreturns hcall hturn =>
    obtain ⟨sched, hturn', hsound⟩ := h.call hc hcur hne hreturns hcall
    obtain rfl := Except.ok.inj (Option.some.inj (hturn'.symm.trans hturn))
    exact hsound
  | ret hcur hne hreturns hturn =>
    obtain ⟨sched, hturn', hsound⟩ := h.ret hc hcur hne hreturns
    obtain rfl := Except.ok.inj (Option.some.inj (hturn'.symm.trans hturn))
    exact hsound

theorem ClientLoop.Step.run (hs : s.Step fmt epsilon setup s') :
    ∃ es, Run (RemoteSystem.Step fmt epsilon setup) s.system es s'.system := by
  cases hs with
  | serve hserve => exact ⟨_, Run.start.step hserve⟩
  | main _ hpolls _ => exact hpolls.run
  | cor _ _ hreturns hcall _ =>
    obtain ⟨es, hrun⟩ := hreturns.run
    exact ⟨_, hrun.step hcall⟩
  | ret _ _ hreturns _ => exact hreturns.run

structure ClientLoop.Going (fmt : DoubleFormat F) (epsilon : ℕ) (setup : ι → ClientSetup)
    (s : ClientLoop ι F N) (i : ι) (xs : List ℕ) : Prop where
  ring : Ring (s.scheds i).routineChain.nextP (s.scheds i).routineChain.prevP 0 xs
  mem : ∀ c, c ∈ xs ↔ (1 ≤ c ∧ c ≤ (setup i).coros) ∧ (s.scheds i).deleted c = false ∧
    (s.system.view setup i c).Runs
  polls : (s.scheds i).curRoutinePtr = some 0 →
    ∀ cs system, s.system.Polls fmt epsilon setup i cs system →
    ∃ sched, (s.scheds i).turn 0 (.poll [.replies cs]) = some (.ok sched)
  returns : ∀ c, (s.scheds i).curRoutinePtr = some c → c ≠ 0 →
    ∃ system, s.system.Returns fmt epsilon setup i c system ∧
    (∀ op, ∃ system', system.Step fmt epsilon setup (.call ((setup i).threadId, c) op) system') ∧
    (∃ sched, (s.scheds i).turn c .pause = some (.ok sched)) ∧
    ∃ sched, (s.scheds i).turn c .ret = some (.ok sched)

theorem RemoteSystem.Sound.returns {system : RemoteSystem ι F N} (h : system.Sound setup) {i : ι}
    {c : ℕ} (hruns : (system.view setup i c).Runs) :
    ∃ system', system.Returns fmt epsilon setup i c system' := by
  obtain hnone | hback := hruns
  · exact ⟨system, .begin system hnone⟩
  · obtain ⟨phase, hphase⟩ := h.phases i c
    obtain ⟨op, rfl, _⟩ := hphase.of_addedBack hback
    obtain ⟨system', hresume, _⟩ := RemoteSystem.Sound.resumes fmt epsilon hphase
    exact ⟨system', .back hresume⟩

theorem ClientLoop.Sound.going (h : s.Sound setup) (hc : DistinctClients setup) (i : ι) :
    ∃ xs, s.Going fmt epsilon setup i xs := by
  obtain ⟨ran, left, hworker⟩ := h.workers i
  refine ⟨ran ++ left, hworker.sound.onRing.holds.ring, hworker.mem,
    fun hcur cs system hpolls => ?_, fun c hcur hne => ?_⟩
  · obtain ⟨sched, hturn, _⟩ := h.main hc hcur hpolls
    exact ⟨sched, hturn⟩
  · obtain ⟨ran', rest, hworker'⟩ := h.current hcur hne
    obtain ⟨hrange, _, hruns⟩ := (hworker'.mem c).mp (List.mem_append_right ran' List.mem_cons_self)
    obtain ⟨system, hreturns⟩ := h.system.returns hruns
    obtain ⟨hsystem, _⟩ := h.returned hc hreturns
    obtain ⟨_, hcalling, _⟩ := hreturns.runs h.system hc
    have hcalls := fun op => hsystem.calls fmt epsilon i c hc hrange hcalling op
    obtain ⟨_, hcall, _⟩ := hcalls (.search 0)
    obtain ⟨sched, hpause, _⟩ := h.call hc hcur hne hreturns hcall
    obtain ⟨sched', hret, _⟩ := h.ret hc hcur hne hreturns
    refine ⟨system, hreturns, fun op => ?_, ⟨sched, hpause⟩, sched', hret⟩
    obtain ⟨system', hcall', _⟩ := hcalls op
    exact ⟨system', hcall'⟩

/-- The scheduler of a client holds on its ring the coroutines that can run, and no others; who gets
the processor returns from its call, and can make any next one; no turn stops a scheduler; and the
calls are a run of the system. -/
theorem clientLoop_goesOn (hc : DistinctClients setup) {s₀ : ClientLoop ι F N}
    (hstart : s₀.Starts setup)
    (hrun : Relation.ReflTransGen (ClientLoop.Step fmt epsilon setup) s₀ s) :
    (∀ i, ∃ xs, s.Going fmt epsilon setup i xs) ∧
      ∃ es, Run (RemoteSystem.Step fmt epsilon setup) s₀.system es s.system := by
  have hsound : s.Sound setup ∧
      ∃ es, Run (RemoteSystem.Step fmt epsilon setup) s₀.system es s.system := by
    induction hrun with
    | refl => exact ⟨hstart.sound hc, [], .start⟩
    | tail _ hs ih =>
      obtain ⟨hsound, es, hes⟩ := ih
      obtain ⟨es', hes'⟩ := hs.run
      exact ⟨hsound.step hc hs, es ++ es', hes.append hes'⟩
  exact ⟨fun i => hsound.1.going hc i, hsound.2⟩

end Runs

/-- A client polls nothing and its coroutine puts a pair; the server handles the request, the client
polls the reply, and the coroutine comes back and searches. -/
theorem clientLoop_goesOn_two : ∃ (server : RPCCore) (index : RolexIndex ℚ Val 2)
    (s : ClientLoop Bool ℚ 2), (s.system.clients false).calling 1 = some (.search 7) ∧
    (RemoteOp.put 7 70).apply exactFormat 1 index = .ok (none, s.system.index) ∧
    (∀ i, ∃ xs, s.Going exactFormat 1 clientPair i xs) ∧
    ∃ es, Run (RemoteSystem.Step exactFormat 1 clientPair) (RemoteSystem.start server index) es
      s.system := by
  obtain ⟨server, hserver⟩ := clientPair_connected
  obtain ⟨index, index', _, _, _, hput, _⟩ := putThenSearch_ok
  obtain ⟨sched₀, hspawn, h⟩ := exists_ok
    (p := fun s₀ : SScheduler Unit => decide (s₀.curRoutinePtr = some 0) &&
      ((s₀.turn 0 (.poll [.replies []])).getD (.error .nullNode)).toOption.any
        fun s₁ : SScheduler Unit => decide (s₁.curRoutinePtr = some 1) &&
        ((s₁.turn 1 .pause).getD (.error .nullNode)).toOption.any
          fun s₂ : SScheduler Unit => decide (s₂.curRoutinePtr = some 0) &&
          ((s₂.turn 0 (.poll [.replies [1]])).getD (.error .nullNode)).toOption.any
            fun s₃ : SScheduler Unit => decide (s₃.curRoutinePtr = some 1) &&
            ((s₃.turn 1 .pause).getD (.error .nullNode)).toOption.any fun _ => true)
    (by rfl : (SScheduler.start 1 [()]).toOption.any _ = true)
  obtain ⟨hcur₀, h⟩ := Bool.and_eq_true_iff.mp h
  obtain ⟨sched₁, hpoll₁, h⟩ := exists_turn h
  obtain ⟨hcur₁, h⟩ := Bool.and_eq_true_iff.mp h
  obtain ⟨sched₂, hpause₂, h⟩ := exists_turn h
  obtain ⟨hcur₂, h⟩ := Bool.and_eq_true_iff.mp h
  obtain ⟨sched₃, hpoll₃, h⟩ := exists_turn h
  obtain ⟨hcur₃, h⟩ := Bool.and_eq_true_iff.mp h
  obtain ⟨sched₄, hpause₄, _⟩ := exists_turn h
  have hsys₀ := RemoteSystem.start_sound (F := ℚ) (N := 2) hserver index
  obtain ⟨sys₁, hcall₁, hsys₁, hindex₁, hphase₁⟩ :=
    hsys₀.calls exactFormat 1 false 1 clientPair_distinct (by decide) rfl (.put 7 70)
  obtain ⟨sys₂, hserve, hsys₂, hphase₂⟩ := hsys₁.serves clientPair_distinct hphase₁
    (show (RemoteOp.put 7 70).apply exactFormat 1 sys₁.index = .ok (none, index') by
      rw [hindex₁]
      exact hput)
  obtain ⟨sys₃, hpoll, hsys₃, hphase₃⟩ := hsys₂.polls exactFormat 1 clientPair_distinct hphase₂
  obtain ⟨sys₄, hresume, hcalling⟩ := RemoteSystem.Sound.resumes exactFormat 1 hphase₃
  have hmoved := hresume.moved hsys₃ clientPair_distinct
  obtain ⟨sys₅, hcall₅, _, hindex₅, hphase₅⟩ := (hsys₃.moved hmoved).calls exactFormat 1 false 1
    clientPair_distinct (by decide) hcalling (.search 7)
  let s₀ : ClientLoop Bool ℚ 2 := ⟨RemoteSystem.start server index, fun _ => sched₀⟩
  let s₁ : ClientLoop Bool ℚ 2 := ⟨s₀.system, Function.update s₀.scheds false sched₁⟩
  let s₂ : ClientLoop Bool ℚ 2 := ⟨sys₁, Function.update s₁.scheds false sched₂⟩
  let s₃ : ClientLoop Bool ℚ 2 := { s₂ with system := sys₂ }
  let s₄ : ClientLoop Bool ℚ 2 := ⟨sys₃, Function.update s₃.scheds false sched₃⟩
  let s₅ : ClientLoop Bool ℚ 2 := ⟨sys₅, Function.update s₄.scheds false sched₄⟩
  have hstart : s₀.Starts clientPair :=
    ⟨⟨server, index, hserver, rfl⟩, fun i => by cases i <;> exact hspawn⟩
  have hnothing : s₀.Step exactFormat 1 clientPair s₁ :=
    .main (of_decide_eq_true hcur₀) (.nil _) hpoll₁
  have hcalls : s₁.Step exactFormat 1 clientPair s₂ :=
    .cor (of_decide_eq_true hcur₁) one_ne_zero (.begin _ rfl) hcall₁ hpause₂
  have hserves : s₂.Step exactFormat 1 clientPair s₃ := .serve hserve
  have hreply : s₃.Step exactFormat 1 clientPair s₄ :=
    .main (of_decide_eq_true hcur₂) (.cons hpoll (.nil _)) hpoll₃
  have hagain : s₄.Step exactFormat 1 clientPair s₅ :=
    .cor (of_decide_eq_true hcur₃) one_ne_zero (.back hresume) hcall₅ hpause₄
  have hserved : (RemoteOp.put 7 70).apply exactFormat 1 sys₁.index = .ok (none, sys₂.index) :=
    (hserve.moved hsys₁ clientPair_distinct).index
  have hlater : sys₅.index = sys₂.index :=
    hindex₅.trans (Eq.trans hmoved.index (hpoll.moved hsys₂ clientPair_distinct).index)
  refine ⟨server, index, s₅, ?_, ?_, clientLoop_goesOn clientPair_distinct hstart
    (.tail (.tail (.tail (.tail (.tail .refl hnothing) hcalls) hserves) hreply) hagain)⟩
  · have hview : (sys₅.view clientPair false 1).calling = (sys₅.clients false).calling 1 := rfl
    generalize sys₅.view clientPair false 1 = v at hphase₅ hview
    cases hphase₅
    exact hview.symm
  · rw [hindex₁] at hserved
    exact hlater ▸ hserved

end Rolex
