import Mathlib

/-!
Doubly linked rings: the walk from a header through the nodes of a list and back. The back link of
the header is no part of a ring, so that a node can be put in front of it without a write to it.
-/

namespace PointerRing

variable {α : Type}

/-- From `a` the links lead through `xs` to `e`, and those of the nodes `xs` lead back. -/
def Segment (next prev : α → Option α) : α → List α → α → Prop
  | a, [], e => next a = some e
  | a, b :: xs, e => next a = some b ∧ prev b = some a ∧ Segment next prev b xs e

/-- The ring of `header` and the nodes `xs` behind it. -/
structure Ring (next prev : α → Option α) (header : α) (xs : List α) : Prop where
  segment : Segment next prev header xs header
  nodup : (header :: xs).Nodup

variable {next prev next' prev' : α → Option α} {a b e header n : α} {xs ys pre post : List α}

/-! ### Segments -/

theorem segment_append :
    Segment next prev a (xs ++ b :: ys) e ↔
      Segment next prev a xs b ∧ prev b = some (xs.getLastD a) ∧ Segment next prev b ys e := by
  induction xs generalizing a with
  | nil => rfl
  | cons x xs ih =>
    rw [List.cons_append, Segment, ih, Segment, List.getLastD_cons]
    tauto

theorem Segment.congr (h : Segment next prev a xs e) (hnext : ∀ x ∈ a :: xs, next' x = next x)
    (hprev : ∀ x ∈ xs, prev' x = prev x) : Segment next' prev' a xs e := by
  induction xs generalizing a with
  | nil => exact (hnext a List.mem_cons_self).trans h
  | cons x xs ih =>
    obtain ⟨hx, hback, hrest⟩ := h
    exact ⟨(hnext a List.mem_cons_self).trans hx, (hprev x List.mem_cons_self).trans hback,
      ih hrest (fun y hy => hnext y (List.mem_cons_of_mem a hy)) fun y hy => hprev y
      (List.mem_cons_of_mem x hy)⟩

theorem Segment.next_last (h : Segment next prev a xs e) : next (xs.getLastD a) = some e := by
  induction xs generalizing a with
  | nil => exact h
  | cons x xs ih =>
    rw [List.getLastD_cons]
    exact ih h.2.2

theorem Segment.next_first (h : Segment next prev a xs e) : next a = some (xs.headD e) := by
  cases xs with
  | nil => exact h
  | cons x xs => exact h.1

theorem getLastD_mem (a : α) (xs : List α) : xs.getLastD a ∈ a :: xs := by
  induction xs generalizing a with
  | nil => exact List.mem_cons_self
  | cons x xs ih =>
    rw [List.getLastD_cons]
    exact List.mem_cons_of_mem a (ih x)

theorem getLastD_append_cons (a b : α) (xs ys : List α) :
    (xs ++ b :: ys).getLastD a = ys.getLastD b := by
  induction xs generalizing a with
  | nil => exact List.getLastD_cons ..
  | cons x xs ih => rw [List.cons_append, List.getLastD_cons, ih]

theorem Ring.prev_eq (h : Ring next prev header (pre ++ n :: post)) :
    prev n = some (pre.getLastD header) :=
  (segment_append.mp h.segment).2.1

theorem Ring.next_eq (h : Ring next prev header (pre ++ n :: post)) :
    next n = some (post.headD header) :=
  (segment_append.mp h.segment).2.2.next_first

variable [DecidableEq α]

theorem Segment.redirect (h : Segment next prev a xs e) (hnodup : (a :: xs).Nodup) (e' : α) :
    Segment (Function.update next (xs.getLastD a) (some e')) prev a xs e' := by
  induction xs generalizing a with
  | nil => exact Function.update_self ..
  | cons x xs ih =>
    obtain ⟨hx, hback, hrest⟩ := h
    have hnodup' := List.nodup_cons.mp hnodup
    rw [List.getLastD_cons]
    refine ⟨?_, hback, ih hrest hnodup'.2⟩
    rwa [Function.update_of_ne]
    rintro rfl
    exact hnodup'.1 (getLastD_mem x xs)

/-! ### Rings -/

theorem Ring.add (h : Ring next prev header xs) (hn : n ∉ header :: xs) :
    Ring (Function.update (Function.update next (xs.getLastD header) (some n)) n (some header))
      (Function.update prev n (some (xs.getLastD header))) header (xs ++ [n]) := by
  have hne : ∀ x ∈ header :: xs, x ≠ n := fun x hx heq => hn (heq ▸ hx)
  refine ⟨segment_append.mpr ⟨?_, Function.update_self .., Function.update_self ..⟩, ?_⟩
  · refine (h.segment.redirect h.nodup n).congr (fun x hx => ?_) fun x hx => ?_
    · exact Function.update_of_ne (hne x hx) ..
    · exact Function.update_of_ne (hne x (List.mem_cons_of_mem _ hx)) ..
  · rw [← List.cons_append]
    exact List.nodup_append.mpr ⟨h.nodup, List.nodup_singleton n, fun x hx y hy => by
      rw [List.mem_singleton.mp hy]
      exact hne x hx⟩

theorem Ring.leave (h : Ring next prev header (pre ++ n :: post)) :
    Ring (Function.update (Function.update next (pre.getLastD header) (some (post.headD header))) n
      none) (Function.update (Function.update prev (post.headD header) (some (pre.getLastD header)))
        n none)
      header (pre ++ post) := by
  obtain ⟨hpre, _, hpost⟩ := segment_append.mp h.segment
  have hnodup := h.nodup
  rw [← List.cons_append] at hnodup
  obtain ⟨hnodup₁, hnodup₂, hdisj⟩ := List.nodup_append.mp hnodup
  obtain ⟨hnpost, hnodup₃⟩ := List.nodup_cons.mp hnodup₂
  have hn : ∀ x ∈ header :: pre, x ≠ n := fun x hx => hdisj x hx n List.mem_cons_self
  have hnodup' : (header :: (pre ++ post)).Nodup := by
    rw [← List.cons_append]
    exact List.nodup_append.mpr ⟨hnodup₁, hnodup₃,
      fun x hx y hy => hdisj x hx y (List.mem_cons_of_mem n hy)⟩
  refine ⟨?_, hnodup'⟩
  have hfirst := hpre.redirect hnodup₁ (post.headD header)
  cases post with
  | nil =>
    rw [List.append_nil]
    refine hfirst.congr (fun x hx => Function.update_of_ne (hn x hx) ..) fun x hx => ?_
    have hx' := hn x (List.mem_cons_of_mem _ hx)
    rw [Function.update_of_ne hx', List.headD_nil, Function.update_of_ne]
    rintro rfl
    exact (List.nodup_cons.mp hnodup₁).1 hx
  | cons b post =>
    obtain ⟨_, _, hrest⟩ := hpost
    obtain ⟨hb, _⟩ := List.nodup_cons.mp hnodup₃
    have hbn : b ≠ n := fun hbn => hnpost (hbn ▸ List.mem_cons_self)
    rw [List.headD_cons]
    refine segment_append.mpr ⟨?_, ?_, ?_⟩
    · refine hfirst.congr (fun x hx => Function.update_of_ne (hn x hx) ..) fun x hx => ?_
      have hx' := List.mem_cons_of_mem header hx
      rw [Function.update_of_ne (hn x hx'), Function.update_of_ne]
      exact hdisj x hx' b (List.mem_cons_of_mem n List.mem_cons_self)
    · rw [Function.update_of_ne hbn, Function.update_self]
    · refine hrest.congr (fun x hx => ?_) fun x hx => ?_
      · have hxn : x ≠ n := fun hxn => hnpost (hxn ▸ hx)
        rw [Function.update_of_ne hxn, Function.update_of_ne]
        exact fun hlast => hdisj _ (getLastD_mem header pre) x
          (List.mem_cons_of_mem n hx) hlast.symm
      · have hxn : x ≠ n := fun hxn => hnpost (hxn ▸ List.mem_cons_of_mem b hx)
        rw [Function.update_of_ne hxn, Function.update_of_ne]
        rintro rfl
        exact hb hx

end PointerRing
