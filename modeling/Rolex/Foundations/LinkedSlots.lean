import Mathlib

/-! Singly linked lists in an array. `next s` is the slot behind slot `s` and
`stop` ends a list. `Segment next a l b` says that the walk from `a` visits
exactly the slots `l` and then stands at `b`. -/

namespace LinkedSlots

variable {α : Type}

def Segment (next : α → α) : α → List α → α → Prop
  | a, [], b => a = b
  | a, s :: l, b => a = s ∧ Segment next (next s) l b

/-- The walk from `a` visits the slots `l` and ends. -/
structure Path (next : α → α) (stop a : α) (l : List α) : Prop where
  segment : Segment next a l stop
  inner : stop ∉ l

variable {next : α → α} {stop a b : α} {l : List α}

@[simp] theorem segment_nil : Segment next a [] b ↔ a = b := Iff.rfl

@[simp] theorem segment_cons {s : α} :
    Segment next a (s :: l) b ↔ a = s ∧ Segment next (next s) l b :=
  Iff.rfl

theorem segment_append {l' : List α} :
    Segment next a (l ++ l') b ↔ ∃ m, Segment next a l m ∧ Segment next m l' b := by
  induction l generalizing a with
  | nil => simp
  | cons s l ih => simp [ih, and_assoc]

theorem segment_congr {next' : α → α} (h : ∀ s ∈ l, next s = next' s) (hs : Segment next a l b) :
    Segment next' a l b := by
  induction l generalizing a with
  | nil => exact hs
  | cons s l ih =>
    refine ⟨hs.1, ?_⟩
    rw [← h s List.mem_cons_self]
    exact ih (fun x hx => h x (List.mem_cons_of_mem _ hx)) hs.2

theorem Path.unique {l' : List α} (h : Path next stop a l) (h' : Path next stop a l') : l = l' := by
  obtain ⟨hs, hi⟩ := h
  obtain ⟨hs', hi'⟩ := h'
  induction l generalizing a l' with
  | nil =>
    cases l' with
    | nil => rfl
    | cons s l' => exact absurd (List.mem_cons.mpr (Or.inl ((hs : a = stop).symm.trans hs'.1))) hi'
  | cons s l ih =>
    cases l' with
    | nil => exact absurd (List.mem_cons.mpr (Or.inl ((hs' : a = stop).symm.trans hs.1))) hi
    | cons s' l' =>
      have he : s = s' := hs.1.symm.trans hs'.1
      subst he
      rw [ih hs.2 (fun hm => hi (List.mem_cons_of_mem _ hm)) hs'.2
        (fun hm => hi' (List.mem_cons_of_mem _ hm))]

/-- A slot that came twice would start two walks of different lengths. -/
theorem Path.nodup (h : Path next stop a l) : l.Nodup := by
  obtain ⟨hs, hi⟩ := h
  induction l generalizing a with
  | nil => exact List.nodup_nil
  | cons s l ih =>
    have hil : stop ∉ l := fun hm => hi (List.mem_cons_of_mem _ hm)
    refine List.nodup_cons.mpr ⟨fun hm => ?_, ih hs.2 hil⟩
    obtain ⟨l₁, l₂, rfl⟩ := List.append_of_mem hm
    obtain ⟨m, _, hm₂⟩ := segment_append.mp hs.2
    have hshort : Path next stop (next s) l₂ :=
      ⟨hm₂.2, fun hx => hil (List.mem_append_right _ (List.mem_cons_of_mem _ hx))⟩
    have hlen := congrArg List.length (hshort.unique ⟨hs.2, hil⟩)
    simp only [List.length_append, List.length_cons] at hlen
    omega

theorem Path.congr {next' : α → α} (h : Path next stop a l) (he : ∀ s ∈ l, next s = next' s) :
    Path next' stop a l := ⟨segment_congr he h.segment, h.inner⟩

theorem Path.push {next' : α → α} {new : α} (h : Path next stop a l) (hstop : new ≠ stop)
    (he : ∀ s ∈ l, next s = next' s) (hnew : next' new = a) : Path next' stop new (new :: l) := by
  refine ⟨⟨rfl, hnew ▸ segment_congr he h.segment⟩, fun hm => ?_⟩
  rcases List.mem_cons.mp hm with hm | hm
  · exact hstop hm.symm
  · exact h.inner hm

theorem Path.link {next' : α → α} {s new : α} {l₁ l₂ : List α}
    (h : Path next stop a (l₁ ++ s :: l₂)) (hstop : new ≠ stop)
    (he : ∀ x ∈ l₁ ++ s :: l₂, x ≠ s → next x = next' x) (hs : next' s = new)
    (hnew : next' new = next s) : Path next' stop a (l₁ ++ s :: new :: l₂) := by
  have hnd := List.nodup_append.mp h.nodup
  obtain ⟨m, hm₁, rfl, hm₂⟩ := segment_append.mp h.segment
  refine ⟨segment_append.mpr ⟨m, segment_congr (fun x hx => ?_) hm₁, rfl, hs, ?_⟩, fun hm => ?_⟩
  · exact he x (List.mem_append_left _ hx) fun hxs => hnd.2.2 x hx m List.mem_cons_self hxs
  · rw [hnew]
    refine segment_congr (fun x hx => ?_) hm₂
    exact he x (by simp [hx]) fun hxs => (List.nodup_cons.mp hnd.2.1).1 (hxs ▸ hx)
  · have hi := h.inner
    simp only [List.mem_append, List.mem_cons] at hm hi
    rcases hm with hm | hm | hm | hm
    · exact hi (Or.inl hm)
    · exact hi (Or.inr (Or.inl hm))
    · exact hstop hm.symm
    · exact hi (Or.inr (Or.inr hm))

theorem Path.pop {s : α} (h : Path next stop a (s :: l)) : Path next stop (next s) l :=
  ⟨h.segment.2, fun hm => h.inner (List.mem_cons_of_mem _ hm)⟩

theorem Path.unlink {next' : α → α} {s old : α} {l₁ l₂ : List α}
    (h : Path next stop a (l₁ ++ s :: old :: l₂))
    (he : ∀ x ∈ l₁ ++ s :: old :: l₂, x ≠ s → next x = next' x) (hs : next' s = next old) :
    Path next' stop a (l₁ ++ s :: l₂) := by
  have hnd := List.nodup_append.mp h.nodup
  obtain ⟨m, hm₁, rfl, rfl, hm₂⟩ := segment_append.mp h.segment
  refine ⟨segment_append.mpr ⟨m, segment_congr (fun x hx => ?_) hm₁, rfl, ?_⟩, fun hm => ?_⟩
  · exact he x (List.mem_append_left _ hx) fun hxs => hnd.2.2 x hx m List.mem_cons_self hxs
  · rw [hs]
    refine segment_congr (fun x hx => ?_) hm₂
    exact he x (by simp [hx]) fun hxs =>
      (List.nodup_cons.mp hnd.2.1).1 (hxs ▸ List.mem_cons_of_mem _ hx)
  · have hi := h.inner
    simp only [List.mem_append, List.mem_cons] at hm hi
    rcases hm with hm | hm | hm
    · exact hi (Or.inl hm)
    · exact hi (Or.inr (Or.inl hm))
    · exact hi (Or.inr (Or.inr (Or.inr hm)))

/-! ### A new slot in one list of a family -/

section Families

variable {ι : Type} [DecidableEq ι] {f : ι → List α} {i j j' : ι} {pre post : List α} {x : α}

theorem mem_update_insert (hf : f i = pre ++ post)
    (ha : a ∈ Function.update f i (pre ++ x :: post) j) : a ∈ f j ∨ a = x ∧ j = i := by
  by_cases hji : j = i
  · subst hji
    rw [Function.update_self, List.mem_append, List.mem_cons] at ha
    rw [hf, List.mem_append]
    tauto
  · rw [Function.update_of_ne hji] at ha
    exact Or.inl ha

theorem nodup_update_insert (hf : f i = pre ++ post) (hnd : (f j).Nodup) (hx : x ∉ f j) :
    (Function.update f i (pre ++ x :: post) j).Nodup := by
  by_cases hji : j = i
  · subst hji
    rw [hf] at hnd hx
    rw [Function.update_self]
    exact List.nodup_middle.mpr (List.nodup_cons.mpr ⟨hx, hnd⟩)
  · rwa [Function.update_of_ne hji]

theorem disjoint_update_insert (hf : f i = pre ++ post) (hne : j ≠ j')
    (hsep : (f j).Disjoint (f j')) (hx : x ∉ f j) (hx' : x ∉ f j') :
    (Function.update f i (pre ++ x :: post) j).Disjoint
      (Function.update f i (pre ++ x :: post) j') := by
  intro a ha ha'
  rcases mem_update_insert hf ha with hm | ⟨hax, hji⟩ <;>
    rcases mem_update_insert hf ha' with hm' | ⟨hax', hji'⟩
  · exact hsep hm hm'
  · exact hx (hax' ▸ hm)
  · exact hx' (hax ▸ hm')
  · exact hne (hji.trans hji'.symm)

end Families

end LinkedSlots
