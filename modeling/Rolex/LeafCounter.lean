import Rolex.Foundations.Interleaving
import Rolex.Foundations.Widths

/-! The counter word of the leaf pool, which `LeafAllocator::fetch_and_add` on the
memory node and the RDMA `FETCH_ADD` of `LearnedCache::insert` both advance. The
spin lock of the allocator orders the calls on the memory node only. -/

namespace Rolex
open Interleaving

inductive LeafCall where
  | fetchNewLeaf
  | remoteFetchAdd
  deriving DecidableEq

/-- Where a call is. `loaded res` is between the load and the store of `fetch_and_add`. -/
inductive LeafPhase where
  | start
  | locked
  | loaded (res : Fin (2 ^ 64))
  | stored (res : Fin (2 ^ 64))
  | checked (res : Fin (2 ^ 64))
  | unlocked (res : Fin (2 ^ 64))
  | handedOut (num : Fin (2 ^ 64))
  | aborted
  deriving DecidableEq

structure LeafWords where
  used : Fin (2 ^ 64)
  allocated : Fin (2 ^ 64)
  lock : Bool
  deriving DecidableEq

variable {T : Type} [DecidableEq T]

def remoteFetchAdd (w : LeafWords) : LeafPhase → Option (LeafPhase × LeafWords)
  | .start => some (.handedOut w.used, { w with used := w.used + 1 })
  | _ => none

/-- `fetch_new_leaf` with `fetch_and_add` inlined; a call that does not get the lock waits. -/
def fetchNewLeaf (w : LeafWords) : LeafPhase → Option (LeafPhase × LeafWords)
  | .start => if w.lock then none else some (.locked, { w with lock := true })
  | .locked => some (.loaded w.used, w)
  | .loaded res => some (.stored res, { w with used := res + 1 })
  -- `ASSERT(res_add == read_res)`
  | .stored res => some (if res + 1 = w.used then .checked res else .aborted, w)
  | .checked res => some (.unlocked res, { w with lock := false })
  -- `ASSERT(num < allocated_num())`
  | .unlocked res => some (if res < w.allocated then .handedOut res else .aborted, w)
  | _ => none

def leafStep (calls : T → LeafCall) (t : T) (phase : LeafPhase) (w : LeafWords) :
    Option (LeafPhase × LeafWords) :=
  match calls t with
  | .remoteFetchAdd => remoteFetchAdd w phase
  | .fetchNewLeaf => fetchNewLeaf w phase

def leafStart (used allocated : Fin (2 ^ 64)) : Config T LeafPhase LeafWords :=
  ⟨fun _ => .start, ⟨used, allocated, false⟩⟩

def HandedOutOnce (c : Config T LeafPhase LeafWords) : Prop :=
  ∀ t u num, c.pc t = .handedOut num → c.pc u = .handedOut num → t = u

/-- A remote add does not come between the load and the store of a call on the memory node,
and the step does not wrap the counter word around. -/
def Undisturbed (calls : T → LeafCall) (t : T) (c : Config T LeafPhase LeafWords) : Prop :=
  (calls t = .remoteFetchAdd → ∀ u res, c.pc u ≠ .loaded res) ∧
    (calls t = .remoteFetchAdd ∨ (∃ res, c.pc t = .loaded res) → c.shared.used.val + 1 < 2 ^ 64)

namespace LeafPhase

def inside : LeafPhase → Prop
  | locked | loaded _ | stored _ | checked _ => True
  | _ => False

def taken : LeafPhase → Option (Fin (2 ^ 64))
  | stored res | checked res | unlocked res | handedOut res => some res
  | _ => none

end LeafPhase

/-- Every number taken is below the counter and taken once, and a loaded counter is current. -/
structure Counted (c : Config T LeafPhase LeafWords) : Prop where
  guarded : Guarded LeafPhase.inside c.shared.lock c.pc
  current : ∀ t res, c.pc t = .loaded res → res = c.shared.used
  below : ∀ t num, (c.pc t).taken = some num → num < c.shared.used
  once : ∀ t u num, (c.pc t).taken = some num → (c.pc u).taken = some num → t = u

namespace Counted

variable {c : Config T LeafPhase LeafWords} {t : T}

theorem keep (h : Counted c) {p : LeafPhase} {lock : Bool}
    (hg : Guarded LeafPhase.inside lock (Function.update c.pc t p))
    (hload : ∀ res, p = .loaded res → res = c.shared.used)
    (htaken : ∀ num, p.taken = some num → (c.pc t).taken = some num) :
    Counted ⟨Function.update c.pc t p, { c.shared with lock := lock }⟩ := by
  have hload' : ∀ u res, Function.update c.pc t p u = .loaded res → res = c.shared.used := by
    rw [Function.forall_update_iff c.pc fun _ q => ∀ res, q = LeafPhase.loaded res →
      res = c.shared.used]
    exact ⟨hload, fun u _ res hu => h.current u res hu⟩
  have hold : ∀ u num, (Function.update c.pc t p u).taken = some num →
      (c.pc u).taken = some num := by
    intro u num hu
    by_cases hut : u = t
    · subst hut
      rw [Function.update_self] at hu
      exact htaken num hu
    · rwa [Function.update_of_ne hut] at hu
  exact ⟨hg, hload', fun u num hu => h.below u num (hold u num hu),
    fun u v num hu hv => h.once u v num (hold u num hu) (hold v num hv)⟩

theorem take (h : Counted c) {p : LeafPhase} (hp : p.taken = some c.shared.used)
    (hwrap : c.shared.used.val + 1 < 2 ^ 64) (hnone : ∀ u res, u ≠ t → c.pc u ≠ .loaded res)
    (hg : Guarded LeafPhase.inside c.shared.lock (Function.update c.pc t p)) :
    Counted ⟨Function.update c.pc t p, { c.shared with used := c.shared.used + 1 }⟩ := by
  have hlt : c.shared.used < c.shared.used + 1 := by
    rw [Fin.lt_def, Fin.val_add]
    have h1 : ((1 : Fin (2 ^ 64)) : ℕ) = 1 := rfl
    omega
  have hself : ∀ num, (Function.update c.pc t p t).taken = some num → num = c.shared.used := by
    intro num hu
    rw [Function.update_self, hp] at hu
    exact (Option.some.inj hu).symm
  have hother : ∀ u num, u ≠ t → (Function.update c.pc t p u).taken = some num →
      (c.pc u).taken = some num := by
    intro u num hut hu
    rwa [Function.update_of_ne hut] at hu
  have hload : ∀ u res, Function.update c.pc t p u = .loaded res → res = c.shared.used + 1 := by
    rw [Function.forall_update_iff c.pc fun _ q => ∀ res, q = LeafPhase.loaded res → res = _]
    refine ⟨fun res hpl => ?_, fun u hut res hu => absurd hu (hnone u res hut)⟩
    rw [hpl] at hp
    cases hp
  refine ⟨hg, hload, fun u num hu => ?_, fun u v num hu hv => ?_⟩
  · by_cases hut : u = t
    · subst hut
      rw [hself num hu]
      exact hlt
    · exact (h.below u num (hother u num hut hu)).trans hlt
  · by_cases hut : u = t <;> by_cases hvt : v = t
    · rw [hut, hvt]
    · subst hut
      have hv := h.below v num (hother v num hvt hv)
      rw [hself num hu] at hv
      exact absurd hv (lt_irrefl _)
    · subst hvt
      have hu := h.below u num (hother u num hut hu)
      rw [hself num hv] at hu
      exact absurd hu (lt_irrefl _)
    · exact h.once u v num (hother u num hut hu) (hother v num hvt hv)

theorem step (h : Counted c) {calls : T → LeafCall} (hc : Undisturbed calls t c) {p : LeafPhase}
    {w : LeafWords} (hn : leafStep calls t (c.pc t) c.shared = some (p, w)) :
    Counted ⟨Function.update c.pc t p, w⟩ := by
  cases hcall : calls t with
  | remoteFetchAdd =>
    cases hpc : c.pc t <;> rw [leafStep, hcall, hpc] at hn <;> cases hn
    exact h.take rfl (hc.2 (Or.inl hcall)) (fun u res _ => hc.1 hcall u res)
      (h.guarded.move fun hin => hin.elim)
  | fetchNewLeaf =>
    cases hpc : c.pc t <;> simp only [leafStep, hcall, hpc, fetchNewLeaf] at hn
    case start =>
      have hg := h.guarded
      cases hlock : c.shared.lock with
      | true => simp [hlock] at hn
      | false =>
        rw [hlock] at hn hg
        cases hn
        exact h.keep (hg.acquire t .locked) (fun _ hp => by cases hp) (fun _ hp => by cases hp)
    case locked =>
      cases hn
      exact h.keep (h.guarded.move fun _ => by rw [hpc]; trivial)
        (fun _ hp => (LeafPhase.loaded.inj hp).symm) (fun _ hp => by cases hp)
    case loaded res =>
      cases hn
      obtain rfl := h.current t res hpc
      have hin : (c.pc t).inside := by rw [hpc]; trivial
      refine h.take rfl (hc.2 (Or.inr ⟨_, hpc⟩)) (fun u res hut hu => hut ?_)
        (h.guarded.move fun _ => hin)
      exact h.guarded.one u t (by rw [hu]; trivial) hin
    case stored res =>
      cases hn
      refine h.keep (h.guarded.move fun _ => by rw [hpc]; trivial) ?_ ?_ <;> split <;>
        intro x hx <;> cases hx
      rw [hpc]
      rfl
    case checked res =>
      cases hn
      refine h.keep (h.guarded.release (by rw [hpc]; trivial) not_false) (fun _ hp => by cases hp)
        fun x hx => ?_
      rw [hpc]
      exact hx
    case unlocked res =>
      cases hn
      refine h.keep (h.guarded.move fun hin => ?_) ?_ ?_
      · split at hin <;> exact hin.elim
      · split <;> intro x hx <;> cases hx
      · split <;> intro x hx <;> cases hx
        rw [hpc]
        rfl
    all_goals cases hn

omit [DecidableEq T] in
theorem start (used allocated : Fin (2 ^ 64)) : Counted (leafStart (T := T) used allocated) where
  guarded := ⟨fun _ h => h.elim, fun _ _ h => h.elim⟩
  current := fun _ _ h => by cases h
  below := fun _ _ h => by cases h
  once := fun _ _ _ h => by cases h

omit [DecidableEq T] in
theorem handedOutOnce (h : Counted c) : HandedOutOnce c := fun t u num ht hu =>
  h.once t u num (by rw [ht]; rfl) (by rw [hu]; rfl)

end Counted

/-- A remote add between the load and the store gives out the number that the call on the memory
node gives out. -/
theorem handedOut_twice {calls : T → LeafCall} {c : Config T LeafPhase LeafWords} {t u : T}
    (ht : calls t = .fetchNewLeaf) (hu : calls u = .remoteFetchAdd)
    (hpt : c.pc t = .loaded c.shared.used) (hpu : c.pc u = .start)
    (hleaf : c.shared.used < c.shared.allocated) :
    ∃ c', c.run (leafStep calls) [u, t, t, t, t] = some c' ∧
      c'.pc t = .handedOut c.shared.used ∧ c'.pc u = .handedOut c.shared.used := by
  have htu : t ≠ u := fun h => by
    rw [h, hu] at ht
    cases ht
  refine ⟨⟨Function.update (Function.update c.pc u (.handedOut c.shared.used)) t
    (.handedOut c.shared.used), ⟨c.shared.used + 1, c.shared.allocated, false⟩⟩, ?_, by simp, by
    simp [htu.symm]⟩
  simp [Config.run, Config.step, leafStep, remoteFetchAdd, fetchNewLeaf, ht, hu, hpt, hpu, htu,
    hleaf]

/-- Runs whose steps are all undisturbed hand out no number twice. -/
theorem handedOutOnce_of_undisturbed {calls : T → LeafCall} {used allocated : Fin (2 ^ 64)}
    {c : Config T LeafPhase LeafWords}
    (hr : Reaches (leafStep calls) (Undisturbed calls) (leafStart used allocated) c) :
    HandedOutOnce c :=
  (hr.invariant (Counted.start used allocated) fun _ _ _ _ h hc hn => h.step hc hn).handedOutOnce

def twoCalls : Bool → LeafCall
  | true => .fetchNewLeaf
  | false => .remoteFetchAdd

theorem handedOutOnce_of_undisturbed_two : ∃ c,
    Reaches (leafStep twoCalls) (Undisturbed twoCalls) (leafStart 0 100) c ∧
      c.pc false = .handedOut 0 ∧ c.pc true = .loaded 1 ∧ HandedOutOnce c := by
  have hremote : ∀ p, p ≠ false → twoCalls p ≠ .remoteFetchAdd := by decide
  have h₁ : Reaches (leafStep twoCalls) (Undisturbed twoCalls) (leafStart 0 100) _ :=
    Reaches.start.step (t := false) ⟨fun _ _ _ h => (by cases h), fun _ => by decide⟩
      (step_of_next rfl)
  have h₂ := h₁.step (t := true) ⟨fun h => absurd h (hremote true (by decide)), fun _ => by decide⟩
    (step_of_next rfl)
  have h₃ := h₂.step (t := true) ⟨fun h => absurd h (hremote true (by decide)), fun _ => by decide⟩
    (step_of_next rfl)
  exact ⟨_, h₃, rfl, rfl, handedOutOnce_of_undisturbed h₃⟩

/-- The call loads 0, the remote add returns 0 and stores 1, the call stores 1 and returns 0. -/
theorem remote_add_between_load_and_store : ∃ c,
    Reaches (leafStep twoCalls) (fun _ _ => True) (leafStart 0 100) c ∧
      c.pc true = .handedOut 0 ∧ c.pc false = .handedOut 0 ∧ ¬HandedOutOnce c := by
  obtain ⟨c, hload, hpt, hpf, hw⟩ : ∃ c,
    Reaches (leafStep twoCalls) (fun _ _ => True) (leafStart 0 100) c ∧
      c.pc true = .loaded c.shared.used ∧ c.pc false = .start ∧ c.shared = ⟨0, 100, true⟩ := by
    have hrun : (leafStart 0 100).run (leafStep twoCalls) [true, true] = some _ := rfl
    exact ⟨_, Reaches.start.run hrun, rfl, rfl, rfl⟩
  have hremote : twoCalls false = .remoteFetchAdd := rfl
  obtain ⟨c', hrun, ht, hf⟩ := handedOut_twice rfl hremote hpt hpf (by rw [hw]; decide)
  rw [hw] at ht hf
  exact ⟨c', hload.run hrun, ht, hf, fun h => Bool.false_ne_true (h true false 0 ht hf).symm⟩

end Rolex
