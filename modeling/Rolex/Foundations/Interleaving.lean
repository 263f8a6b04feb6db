import Mathlib

/-! Threads that run over a shared state, one step at a time and in any order.
A thread is a place in its program; `next` gives its next step, or nothing
while it waits and when it has finished. -/

namespace Interleaving

structure Config (T P S : Type) where
  pc : T → P
  shared : S

variable {T P S : Type} [DecidableEq T]

def Config.step (next : T → P → S → Option (P × S)) (c : Config T P S) (t : T) :
    Option (Config T P S) :=
  (next t (c.pc t) c.shared).map fun r => ⟨Function.update c.pc t r.1, r.2⟩

def Config.run (next : T → P → S → Option (P × S)) (c : Config T P S) :
    List T → Option (Config T P S)
  | [] => some c
  | t :: ts => (c.step next t).bind fun c' => c'.run next ts

/-- The configurations reached by steps that meet `cond`. -/
inductive Reaches (next : T → P → S → Option (P × S)) (cond : T → Config T P S → Prop)
    (c₀ : Config T P S) : Config T P S → Prop where
  | start : Reaches next cond c₀ c₀
  | step {c c' : Config T P S} {t : T} : Reaches next cond c₀ c → cond t c →
      c.step next t = some c' → Reaches next cond c₀ c'

variable {next : T → P → S → Option (P × S)} {cond : T → Config T P S → Prop}
  {c₀ c c' : Config T P S}

theorem step_eq_some {t : T} (h : c.step next t = some c') :
    ∃ p s, next t (c.pc t) c.shared = some (p, s) ∧ c' = ⟨Function.update c.pc t p, s⟩ := by
  rw [Config.step, Option.map_eq_some_iff] at h
  obtain ⟨⟨p, s⟩, hn, rfl⟩ := h
  exact ⟨p, s, hn, rfl⟩

theorem step_of_next {t : T} {p : P} {s : S} (h : next t (c.pc t) c.shared = some (p, s)) :
    c.step next t = some ⟨Function.update c.pc t p, s⟩ := by
  rw [Config.step, h]
  rfl

theorem run_cons_of_next {t : T} {p : P} {s : S} (h : next t (c.pc t) c.shared = some (p, s))
    (ts : List T) : c.run next (t :: ts) = Config.run next ⟨Function.update c.pc t p, s⟩ ts := by
  rw [Config.run, step_of_next h, Option.bind_some]

theorem Reaches.invariant {I : Config T P S → Prop} (h : Reaches next cond c₀ c) (h₀ : I c₀)
    (hstep : ∀ c t p s, I c → cond t c → next t (c.pc t) c.shared = some (p, s) →
      I ⟨Function.update c.pc t p, s⟩) : I c := by
  induction h with
  | start => exact h₀
  | step _ hc hs ih =>
    obtain ⟨p, s, hn, rfl⟩ := step_eq_some hs
    exact hstep _ _ p s ih hc hn

theorem Reaches.run (h : Reaches next (fun _ _ => True) c₀ c) {ts : List T}
    (hr : c.run next ts = some c') : Reaches next (fun _ _ => True) c₀ c' := by
  induction ts generalizing c with
  | nil =>
    obtain rfl := Option.some.inj hr
    exact h
  | cons t ts ih =>
    obtain ⟨c₁, h₁, hr⟩ := Option.bind_eq_some_iff.mp hr
    exact ih (h.step trivial h₁) hr

/-! ### A spin lock -/

/-- The lock is taken while a thread is at one of the places `inside`, and no two threads are. -/
structure Guarded (inside : P → Prop) (held : Bool) (pc : T → P) : Prop where
  held : ∀ t, inside (pc t) → held = true
  one : ∀ t u, inside (pc t) → inside (pc u) → t = u

namespace Guarded

variable {inside : P → Prop} {held : Bool} {pc : T → P}

theorem acquire (h : Guarded inside false pc) (t : T) (p : P) :
    Guarded inside true (Function.update pc t p) where
  held := fun _ _ => rfl
  one := fun a b ha hb => by
    by_cases hat : a = t
    · by_cases hbt : b = t
      · rw [hat, hbt]
      · rw [Function.update_of_ne hbt] at hb
        exact absurd (h.held b hb) Bool.false_ne_true
    · rw [Function.update_of_ne hat] at ha
      exact absurd (h.held a ha) Bool.false_ne_true

theorem release (h : Guarded inside held pc) {t : T} {p : P} (ht : inside (pc t)) (hp : ¬inside p) :
    Guarded inside false (Function.update pc t p) := by
  have hnone : ∀ a, ¬inside (Function.update pc t p a) := by
    intro a ha
    by_cases hat : a = t
    · subst hat
      rw [Function.update_self] at ha
      exact hp ha
    · rw [Function.update_of_ne hat] at ha
      exact hat (h.one a t ha ht)
  exact ⟨fun a ha => absurd ha (hnone a), fun a _ ha => absurd ha (hnone a)⟩

theorem move (h : Guarded inside held pc) {t : T} {p : P} (hp : inside p → inside (pc t)) :
    Guarded inside held (Function.update pc t p) := by
  have hold : ∀ a, inside (Function.update pc t p a) → inside (pc a) := by
    intro a ha
    by_cases hat : a = t
    · subst hat
      rw [Function.update_self] at ha
      exact hp ha
    · rwa [Function.update_of_ne hat] at ha
  exact ⟨fun a ha => h.held a (hold a ha), fun a b ha hb => h.one a b (hold a ha) (hold b hb)⟩

end Guarded
end Interleaving
