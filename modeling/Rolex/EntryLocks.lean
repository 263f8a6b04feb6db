import Rolex.Foundations.Interleaving

/-! The two lock words of a table entry. `insert_synonym` takes the spin lock
`csLocks[l_idx]` by an exchange; `update_synonym` and `remove_synonym` go through
`lock_leaf`, which tests the lock bit of the entry in one step and sets it in
another. An insert that returns at its first test takes no lock and is left out. -/

namespace Rolex
open Interleaving

inductive EntryCall where
  | insertSynonym
  | updateSynonym
  | removeSynonym
  deriving DecidableEq

inductive LockPhase where
  | outside
  | spinning -- `while (lock_) cpu_relax();`
  | tested -- Between the test and the assignment of `lock_leaf`
  | inside
  deriving DecidableEq

structure LockWords where
  csLock : Bool
  teLock : Bool
  deriving DecidableEq

structure LockThread where
  calls : List EntryCall
  phase : LockPhase
  deriving DecidableEq

/-- `SpinLock::lock` and `SpinLock::unlock` around the body of `insert_synonym`. -/
def insertLockStep (rest : List EntryCall) (w : LockWords) :
    LockPhase → Option (LockThread × LockWords)
  | .outside => some (⟨.insertSynonym :: rest, if w.csLock then .spinning else .inside⟩,
      { w with csLock := true })
  | .spinning => some (⟨.insertSynonym :: rest, if w.csLock then .spinning else .outside⟩, w)
  | .inside => some (⟨rest, .outside⟩, { w with csLock := false })
  | .tested => none

/-- `lock_leaf` and `unlock_leaf` around the body of `update_synonym` or `remove_synonym`. -/
def lockLeafStep (call : EntryCall) (rest : List EntryCall) (w : LockWords) :
    LockPhase → Option (LockThread × LockWords)
  | .outside => some (⟨call :: rest, if w.teLock then .outside else .tested⟩, w)
  | .tested => some (⟨call :: rest, .inside⟩, { w with teLock := true })
  | .inside => some (⟨rest, .outside⟩, { w with teLock := false })
  | .spinning => none

variable {T : Type} [DecidableEq T]

def lockStep (_ : T) (thread : LockThread) (w : LockWords) : Option (LockThread × LockWords) :=
  match thread.calls with
  | [] => none
  | .insertSynonym :: rest => insertLockStep rest w thread.phase
  | call :: rest => lockLeafStep call rest w thread.phase

def LockThread.Inside (thread : LockThread) : Prop := thread.phase = .inside

def Exclusive (c : Config T LockThread LockWords) : Prop :=
  ∀ t u, (c.pc t).Inside → (c.pc u).Inside → t = u

abbrev LockReaches (calls : T → List EntryCall) (c : Config T LockThread LockWords) : Prop :=
  Reaches lockStep (fun _ _ => True) ⟨fun t => ⟨calls t, .outside⟩, ⟨false, false⟩⟩ c

/-! ### Inserts only -/

/-- The threads have only inserts to make, and `csLocks[l_idx]` guards them. -/
structure InsertsGuarded (c : Config T LockThread LockWords) : Prop where
  guarded : Guarded LockThread.Inside c.shared.csLock c.pc
  inserts : ∀ t, ∀ call ∈ (c.pc t).calls, call = .insertSynonym

theorem InsertsGuarded.step {c : Config T LockThread LockWords} (h : InsertsGuarded c) {t : T}
    {p : LockThread} {w : LockWords} (hn : lockStep t (c.pc t) c.shared = some (p, w)) :
    InsertsGuarded ⟨Function.update c.pc t p, w⟩ := by
  have hcalls := h.inserts t
  have hlater : ∀ calls : List EntryCall, (∀ call ∈ calls, call = .insertSynonym) → ∀ phase u,
      ∀ call ∈ (Function.update c.pc t ⟨calls, phase⟩ u).calls, call = .insertSynonym := by
    intro calls hc phase
    rw [Function.forall_update_iff c.pc fun _ q => ∀ call ∈ LockThread.calls q, call = _]
    exact ⟨hc, fun u _ => h.inserts u⟩
  have hg := h.guarded
  rcases hpt : c.pc t with ⟨calls, phase⟩
  rw [hpt] at hn hcalls
  cases calls with
  | nil => cases hn
  | cons call rest =>
    obtain rfl := hcalls call List.mem_cons_self
    have hrest := fun x hx => hcalls x (List.mem_cons_of_mem _ hx)
    cases phase with
    | outside =>
      cases hn
      refine ⟨?_, hlater _ hcalls _⟩
      cases hlock : c.shared.csLock with
      | true =>
        rw [hlock] at hg
        exact hg.move fun hin => by cases hin
      | false =>
        rw [hlock] at hg
        exact hg.acquire t _
    | spinning =>
      cases hn
      refine ⟨hg.move fun hin => ?_, hlater _ hcalls _⟩
      rw [LockThread.Inside] at hin
      split at hin <;> cases hin
    | inside =>
      cases hn
      exact ⟨hg.release (by rw [hpt]; rfl) (fun hin => by cases hin), hlater _ hrest _⟩
    | tested => cases hn

theorem exclusive_of_inserts {calls : T → List EntryCall}
    (hcalls : ∀ t, ∀ call ∈ calls t, call = .insertSynonym) {c : Config T LockThread LockWords}
    (hr : LockReaches calls c) : Exclusive c := by
  have h := hr.invariant (I := InsertsGuarded)
    ⟨⟨fun _ hin => (by cases hin), fun _ _ hin => (by cases hin)⟩, hcalls⟩
    fun _ _ _ _ h _ hn => h.step hn
  exact h.guarded.one

/-! ### One thread -/

theorem exclusive_of_one {calls : T → List EntryCall} {t : T} (hcalls : ∀ u, u ≠ t → calls u = [])
    {c : Config T LockThread LockWords} (hr : LockReaches calls c) : Exclusive c := by
  have h := hr.invariant (I := fun c => ∀ u, u ≠ t → c.pc u = ⟨[], .outside⟩)
    (fun u hu => congrArg (LockThread.mk · .outside) (hcalls u hu)) fun c u p w h _ hn => by
      by_cases hut : u = t
      · subst hut
        exact fun v hv => (Function.update_of_ne hv ..).trans (h v hv)
      · rw [h u hut] at hn
        cases hn
  have hin : ∀ u, (c.pc u).Inside → u = t := fun u hu => by
    by_contra hut
    rw [h u hut] at hu
    cases hu
  exact fun u v hu hv => (hin u hu).trans (hin v hv).symm

/-! ### Two threads -/

theorem exists_run_call (pc : T → LockThread) {t : T} {call : EntryCall} {rest : List EntryCall}
    (ht : pc t = ⟨call :: rest, .outside⟩) :
    ∃ ts, (Config.mk pc (LockWords.mk false false)).run lockStep ts =
      some ⟨Function.update pc t ⟨rest, .outside⟩, ⟨false, false⟩⟩ := by
  cases call with
  | insertSynonym =>
    refine ⟨[t, t], ?_⟩
    simp [Config.run, Config.step, lockStep, insertLockStep, ht]
  | updateSynonym =>
    refine ⟨[t, t, t], ?_⟩
    simp [Config.run, Config.step, lockStep, lockLeafStep, ht]
  | removeSynonym =>
    refine ⟨[t, t, t], ?_⟩
    simp [Config.run, Config.step, lockStep, lockLeafStep, ht]

theorem reaches_call {calls : T → List EntryCall} {pc : T → LockThread} {t : T}
    (hr : LockReaches calls ⟨pc, ⟨false, false⟩⟩) {before rest : List EntryCall}
    (ht : pc t = ⟨before ++ rest, .outside⟩) :
    LockReaches calls ⟨Function.update pc t ⟨rest, .outside⟩, ⟨false, false⟩⟩ := by
  induction before generalizing pc with
  | nil =>
    rw [List.nil_append] at ht
    rwa [← ht, Function.update_eq_self]
  | cons call before ih =>
    obtain ⟨ts, hrun⟩ := exists_run_call pc ht
    have h := ih (hr.run hrun) (Function.update_self ..)
    rwa [Function.update_idem] at h

omit [DecidableEq T] in
theorem lockStep_of_ne (t : T) {call : EntryCall} (h : call ≠ .insertSynonym)
    (rest : List EntryCall) (phase : LockPhase) (w : LockWords) :
    lockStep t ⟨call :: rest, phase⟩ w = lockLeafStep call rest w phase := by
  cases call with
  | insertSynonym => exact absurd rfl h
  | updateSynonym => rfl
  | removeSynonym => rfl

theorem exists_run_inside (pc : T → LockThread) {t u : T} (htu : t ≠ u) {call call' : EntryCall}
    {rest rest' : List EntryCall} (ht : pc t = ⟨call :: rest, .outside⟩)
    (hcall : call ≠ .insertSynonym) (hu : pc u = ⟨call' :: rest', .outside⟩) :
    ∃ ts c, (Config.mk pc (LockWords.mk false false)).run lockStep ts = some c ∧
      (c.pc t).Inside ∧ (c.pc u).Inside := by
  by_cases hins : call' = .insertSynonym
  · -- different lock words
    subst hins
    refine ⟨[u, t, t], ⟨Function.update (Function.update pc u ⟨.insertSynonym :: rest', .inside⟩) t
      ⟨call :: rest, .inside⟩, ⟨true, true⟩⟩, ?_, ?_, ?_⟩
    · simp [Config.run, Config.step, lockStep, insertLockStep, lockLeafStep, hu, ht, htu]
    · simp [LockThread.Inside]
    · simp [LockThread.Inside, htu.symm]
  · -- both test the lock bit before either sets it
    refine ⟨[t, u, u, t], ⟨Function.update (Function.update (Function.update pc t
      ⟨call :: rest, .tested⟩) u ⟨call' :: rest', .inside⟩) t ⟨call :: rest, .inside⟩,
      ⟨false, true⟩⟩, ?_, ?_, ?_⟩
    · simp [Config.run, Config.step, lockStep_of_ne _ hcall, lockStep_of_ne _ hins, lockLeafStep,
        hu, ht, htu, htu.symm]
    · simp [LockThread.Inside]
    · simp [LockThread.Inside, htu.symm]

/-- The threads exclude each other in every run exactly when no thread that updates or removes has
company. -/
theorem exclusive_iff (calls : T → List EntryCall) :
    (∀ c, LockReaches calls c → Exclusive c) ↔
      ∀ t u, t ≠ u → (∃ call ∈ calls t, call ≠ .insertSynonym) → calls u = [] := by
  constructor
  · rintro h t u htu ⟨call, hmem, hcall⟩
    by_contra hne
    obtain ⟨before, rest, hct⟩ := List.append_of_mem hmem
    obtain ⟨call', rest', hcu⟩ := List.exists_cons_of_ne_nil hne
    have hstart : LockReaches calls ⟨fun t => ⟨calls t, .outside⟩, ⟨false, false⟩⟩ := Reaches.start
    have hr := reaches_call hstart (congrArg (LockThread.mk · .outside) hct)
    have hpu : Function.update (fun t => LockThread.mk (calls t) .outside) t ⟨call :: rest,
      .outside⟩ u =
        ⟨call' :: rest', .outside⟩ := by rw [Function.update_of_ne htu.symm, hcu]
    obtain ⟨ts, c, hrun, ht, hu⟩ := exists_run_inside _ htu (Function.update_self ..) hcall hpu
    exact htu (h c (hr.run hrun) t u ht hu)
  · intro h c hr
    by_cases hins : ∀ t, ∀ call ∈ calls t, call = .insertSynonym
    · exact exclusive_of_inserts hins hr
    · push Not at hins
      obtain ⟨t, hex⟩ := hins
      exact exclusive_of_one (fun u hu => h t u hu.symm hex) hr

/-- Two updates: both threads find the lock bit clear, then both set it. -/
theorem two_updates_inside : ∃ c,
    LockReaches (fun _ : Bool => [.updateSynonym]) c ∧ (c.pc false).Inside ∧ (c.pc true).Inside ∧
      ¬Exclusive c := by
  have hrun : (Config.mk (fun _ => LockThread.mk [.updateSynonym] .outside) ⟨false, false⟩).run
    lockStep
      [false, true, false, true] = some _ := rfl
  refine ⟨_, Reaches.start.run hrun, rfl, rfl, fun h => ?_⟩
  exact Bool.false_ne_true (h false true rfl rfl)

end Rolex
