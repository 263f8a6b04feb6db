import Mathlib

/-!
A list cut into consecutive pieces. When no piece can take over the element behind it, no other cut
has fewer pieces.
-/

namespace GreedyCuts

variable {α : Type*} {fit good : List α → Prop} {pieces : List (List α)}

/-- No piece can take over the first element of the next one. -/
def Greedy (fit : List α → Prop) : List (List α) → Prop
  | [] => True
  | [_] => True
  | p :: q :: pieces => (∀ x ∈ q.head?, ¬fit (p ++ [x])) ∧ Greedy fit (q :: pieces)

theorem drop_flatten : ∀ {pieces : List (List α)} {n : ℕ}, n < pieces.flatten.length →
    ∃ (p : List α) (k : ℕ) (rest : List (List α)),
      pieces.flatten.drop n = p.drop k ++ rest.flatten ∧ p ∈ pieces ∧ (∀ q ∈ rest, q ∈ pieces) ∧
        rest.length < pieces.length := by
  intro pieces
  induction pieces with
  | nil =>
    intro n hn
    exact absurd hn (Nat.not_lt_zero n)
  | cons p pieces ih =>
    intro n hn
    rw [List.flatten_cons, List.length_append] at hn
    rcases lt_or_ge n p.length with hlt | hge
    · refine ⟨p, n, pieces, ?_, List.mem_cons_self, fun q hq => List.mem_cons_of_mem p hq,
        Nat.lt_succ_self _⟩
      rw [List.flatten_cons, List.drop_append_of_le_length hlt.le]
    · obtain ⟨q, k, rest, hdrop, hq, hrest, hlen⟩ := ih (n := n - p.length) (by omega)
      refine ⟨q, k, rest, ?_, List.mem_cons_of_mem p hq,
        fun q hq => List.mem_cons_of_mem p (hrest q hq), hlen.trans (Nat.lt_succ_self _)⟩
      rw [List.flatten_cons, List.drop_append, List.drop_eq_nil_of_le hge, List.nil_append, hdrop]

theorem length_le_of_not_fit {s q : List α} {x : α} (rest : List α) (hq : ∀ p, p <:+: q → fit p)
    (hx : ¬fit (s ++ [x])) (h : s ++ [x] <+: q ++ rest) : q.length ≤ s.length := by
  by_contra hlt
  have hle : (s ++ [x]).length ≤ q.length := by
    rw [List.length_append, List.length_singleton]
    omega
  exact hx (hq _ (List.prefix_of_prefix_length_le h (List.prefix_append q rest) hle).isInfix)

theorem Greedy.length_le_succ (hsub : ∀ p q, good p → q <:+: p → fit q) :
    ∀ {pieces : List (List α)} {q : List α} {rival : List (List α)}, Greedy fit pieces →
      (∀ p ∈ pieces, p ≠ []) → (∀ p, p <:+: q → fit p) →
      (∀ p ∈ rival, good p) → pieces.flatten = q ++ rival.flatten →
      pieces.length ≤ rival.length + 1 := by
  intro pieces
  induction pieces with
  | nil => exact fun _ _ _ _ _ => Nat.zero_le _
  | cons s pieces ih =>
    intro q rival hmax hne hq hrival hflat
    match pieces, hmax with
    | [], _ => exact Nat.le_add_left 1 _
    | t :: pieces, ⟨hx, hmax⟩ =>
      obtain ⟨x, t', rfl⟩ :=
        List.exists_cons_of_ne_nil (hne t (List.mem_cons_of_mem s List.mem_cons_self))
      rw [List.flatten_cons, List.flatten_cons] at hflat
      have hlen : q.length ≤ s.length := by
        refine length_le_of_not_fit rival.flatten hq (hx x rfl) ?_
        rw [← hflat]
        exact ⟨t' ++ pieces.flatten, by simp⟩
      -- what is behind `s` starts within one of the rival pieces
      have hdrop : ((x :: t') :: pieces).flatten = rival.flatten.drop (s.length - q.length) := by
        have hd := congrArg (List.drop s.length) hflat
        rwa [List.drop_left, List.drop_append, List.drop_eq_nil_of_le hlen, List.nil_append] at hd
      have hpos : s.length - q.length < rival.flatten.length := by
        have hl := congrArg List.length hdrop
        rw [List.length_drop, List.flatten_cons, List.length_append, List.length_cons] at hl
        omega
      obtain ⟨p, k, rest, hrest, hp, hmem, hlt⟩ := drop_flatten hpos
      have hle := ih hmax (fun p hp => hne p (List.mem_cons_of_mem s hp))
        (fun r hr => hsub p r (hrival p hp) (hr.trans (List.drop_suffix k p).isInfix))
        (fun r hr => hrival r (hmem r hr)) (hdrop.trans hrest)
      rw [List.length_cons]
      omega

/-- Every cut into good pieces, whose parts all fit, has at least as many pieces. -/
theorem Greedy.length_le (hsub : ∀ p q, good p → q <:+: p → fit q) (hmax : Greedy fit pieces)
    (hne : ∀ p ∈ pieces, p ≠ []) {rival : List (List α)} (hrival : ∀ p ∈ rival, good p)
    (hflat : rival.flatten = pieces.flatten) : pieces.length ≤ rival.length := by
  cases rival with
  | nil =>
    cases pieces with
    | nil => exact le_rfl
    | cons p pieces =>
      obtain ⟨hp, _⟩ := List.append_eq_nil_iff.mp hflat.symm
      exact absurd hp (hne p List.mem_cons_self)
  | cons q rival =>
    exact hmax.length_le_succ hsub hne (fun p hp => hsub q p (hrival q List.mem_cons_self) hp)
      (fun p hp => hrival p (List.mem_cons_of_mem q hp)) hflat.symm

theorem Greedy.length_piece {n : ℕ} (hshort : ∀ p : List α, p.length ≤ n → fit p) :
    ∀ {pieces : List (List α)}, Greedy fit pieces → (∀ p ∈ pieces, p ≠ []) →
      ∀ {i : ℕ} {p : List α}, pieces[i]? = some p →
      i + 1 < pieces.length → n ≤ p.length := by
  intro pieces
  induction pieces with
  | nil => exact fun _ _ i p hp _ => by cases hp
  | cons s pieces ih =>
    intro hmax hne i p hp hi
    match pieces, hmax with
    | [], _ =>
      rw [List.length_singleton] at hi
      omega
    | t :: pieces, ⟨hx, hmax⟩ =>
      cases i with
      | zero =>
        obtain rfl := Option.some.inj hp
        obtain ⟨x, t', rfl⟩ :=
          List.exists_cons_of_ne_nil (hne t (List.mem_cons_of_mem s List.mem_cons_self))
        by_contra hlt
        refine hx x rfl (hshort _ ?_)
        rw [List.length_append, List.length_singleton]
        omega
      | succ i =>
        exact ih hmax (fun p hp => hne p (List.mem_cons_of_mem s hp)) hp (Nat.lt_of_succ_lt_succ hi)

theorem Greedy.mul_lt {n : ℕ} (hshort : ∀ p : List α, p.length ≤ n → fit p)
    (hmax : Greedy fit pieces) (hne : ∀ p ∈ pieces, p ≠ []) (hnil : pieces ≠ []) :
    (pieces.length - 1) * n < pieces.flatten.length := by
  obtain ⟨front, last, rfl⟩ := (List.eq_nil_or_concat pieces).resolve_left hnil
  rw [List.concat_eq_append] at *
  have hlong : ∀ k ∈ front.map List.length, n ≤ k := fun k hk => by
    obtain ⟨p, hp, rfl⟩ := List.mem_map.mp hk
    obtain ⟨i, hi, rfl⟩ := List.mem_iff_getElem.mp hp
    refine hmax.length_piece hshort hne (i := i) ?_
      (by rw [List.length_append, List.length_singleton]; omega)
    rw [List.getElem?_append_left hi, List.getElem?_eq_getElem hi]
  have hsum := List.card_nsmul_le_sum (front.map List.length) n hlong
  have hlast := List.length_pos_iff.mpr (hne last (by simp))
  rw [List.length_map, smul_eq_mul] at hsum
  rw [List.length_append, List.length_singleton, Nat.add_sub_cancel, List.flatten_append,
    List.length_append, List.length_flatten, List.flatten_singleton]
  omega

end GreedyCuts
