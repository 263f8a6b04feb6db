import Mathlib

/-!
Runs of a step relation with the list of their events, and a machine that follows the events of one
party.
-/

namespace Histories

variable {S E P C : Type}

/-- The events so far, and the state they lead to. -/
inductive Run (step : S → E → S → Prop) (s₀ : S) : List E → S → Prop where
  | start : Run step s₀ [] s₀
  | step {es : List E} {s s' : S} {e : E} : Run step s₀ es s → step s e s' →
      Run step s₀ (es ++ [e]) s'

def follow (next : P → E → Option P) (p : P) (es : List E) : Option P := es.foldlM next p

variable {step : S → E → S → Prop} {next : P → E → Option P}

theorem follow_concat (p : P) (es : List E) (e : E) :
    follow next p (es ++ [e]) = (follow next p es).bind fun q => next q e := by
  rw [follow, List.foldlM_append, follow]
  exact Option.bind_congr fun q _ => (List.foldlM_cons ..).trans (bind_pure _)

theorem Run.invariant {I : S → Prop} {s₀ s : S} {es : List E} (h : Run step s₀ es s) (h₀ : I s₀)
    (hstep : ∀ s e s', I s → step s e s' → I s') : I s := by
  induction h with
  | start => exact h₀
  | step _ hs ih => exact hstep _ _ _ ih hs

theorem Run.append {s₀ s s' : S} {es es' : List E} (h : Run step s₀ es s) (h' : Run step s es' s') :
    Run step s₀ (es ++ es') s' := by
  induction h' with
  | start =>
    rw [List.append_nil]
    exact h
  | step _ hs ih =>
    rw [← List.append_assoc]
    exact ih.step hs

/-- A machine follows the events of a party, if every event moves the phase of the party it belongs
to and of no other. -/
theorem Run.follow_party [DecidableEq C] (party : E → C) {I : S → Prop} {phase : S → P → Prop}
    {c : C} {p₀ : P} {s₀ s : S} {es : List E} (h : Run step s₀ es s)
    (hstep : ∀ s e s', I s → step s e s' → I s') (hown : ∀ s e s' p, I s → phase s p → step s e s' →
      party e = c → ∃ p', next p e = some p' ∧ phase s' p')
    (hother : ∀ s e s' p, I s → phase s p → step s e s' → party e ≠ c → phase s' p) (h₀ : I s₀)
    (hp₀ : phase s₀ p₀) :
    ∃ p, follow next p₀ (es.filter fun e => party e = c) = some p ∧ phase s p := by
  induction h with
  | start => exact ⟨p₀, rfl, hp₀⟩
  | @step es s s' e hrun hs ih =>
    obtain ⟨p, hfollow, hp⟩ := ih
    have hI := hrun.invariant h₀ hstep
    rw [List.filter_append, List.filter_singleton]
    by_cases hparty : party e = c
    · obtain ⟨p', hnext, hp'⟩ := hown s e s' p hI hp hs hparty
      refine ⟨p', ?_, hp'⟩
      rw [decide_eq_true hparty, cond_true, follow_concat, hfollow, Option.bind_some, hnext]
    · refine ⟨p, ?_, hother s e s' p hI hp hs hparty⟩
      rw [decide_eq_false hparty, cond_false, List.append_nil, hfollow]

end Histories
