import Mathlib

/-! Half-open spans of an order, and lists of spans that lie one after another, as an
allocator that only moves forward hands them out. -/

namespace Spans

structure Span (α : Type*) where
  lo : α
  hi : α

variable {α : Type*} [LinearOrder α] {a b c : α} {s t : Span α} {l r : List (Span α)}

def Span.points (s : Span α) : Set α := Set.Ico s.lo s.hi

def Apart (s t : Span α) : Prop := Disjoint s.points t.points

theorem apart_of_le (h : s.hi ≤ t.lo) : Apart s t := by
  refine Set.disjoint_left.mpr fun x hs ht => ?_
  exact absurd (hs.2.trans_le h) (not_lt.mpr ht.1)

theorem not_apart_of_mem {x : α} (hs : x ∈ s.points) (ht : x ∈ t.points) : ¬Apart s t :=
  fun h => Set.disjoint_left.mp h hs ht

/-- The spans of the list lie in this order between `a` and `b`. -/
def Laid : α → List (Span α) → α → Prop
  | a, [], b => a ≤ b
  | a, s :: l, b => a ≤ s.lo ∧ s.lo ≤ s.hi ∧ Laid s.hi l b

namespace Laid

theorem le (h : Laid a l b) : a ≤ b := by
  induction l generalizing a with
  | nil => exact h
  | cons s l ih =>
    obtain ⟨hlo, hhi, hrest⟩ := h
    exact hlo.trans (hhi.trans (ih hrest))

theorem append (h : Laid a l b) (h' : Laid b r c) : Laid a (l ++ r) c := by
  induction l generalizing a with
  | nil =>
    cases r with
    | nil => exact h.trans h'
    | cons s r => exact ⟨h.trans h'.1, h'.2⟩
  | cons s l ih =>
    obtain ⟨hlo, hhi, hrest⟩ := h
    exact ⟨hlo, hhi, ih hrest⟩

theorem concat (h : Laid a l s.lo) (hs : s.lo ≤ s.hi) : Laid a (l ++ [s]) s.hi :=
  h.append ⟨le_rfl, hs, le_rfl⟩

theorem mono (h : Laid a l b) (hbc : b ≤ c) : Laid a l c := by
  simpa using h.append (r := []) hbc

theorem between (h : Laid a l b) (hs : s ∈ l) : a ≤ s.lo ∧ s.lo ≤ s.hi ∧ s.hi ≤ b := by
  induction l generalizing a with
  | nil => cases hs
  | cons t l ih =>
    obtain ⟨hlo, hhi, hrest⟩ := h
    rcases List.mem_cons.mp hs with rfl | hs
    · exact ⟨hlo, hhi, hrest.le⟩
    · obtain ⟨h₁, h₂, h₃⟩ := ih hrest hs
      exact ⟨hlo.trans (hhi.trans h₁), h₂, h₃⟩

theorem subset (h : Laid a l b) (hs : s ∈ l) : s.points ⊆ Set.Ico a b :=
  Set.Ico_subset_Ico (h.between hs).1 (h.between hs).2.2

theorem apart (h : Laid a l b) : l.Pairwise Apart := by
  induction l generalizing a with
  | nil => exact .nil
  | cons s l ih =>
    obtain ⟨-, -, hrest⟩ := h
    exact .cons (fun t ht => apart_of_le (hrest.between ht).1) (ih hrest)

end Laid
end Spans
