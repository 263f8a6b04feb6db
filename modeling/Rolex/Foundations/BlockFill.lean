import Rolex.Foundations.BlockChain

/-! How full the blocks of a chain stay when nothing is removed. -/

namespace BlockChain
open AscendingMap

variable {K V : Type} [LinearOrder K] {n m : ℕ} {k : K} {bs pre post : List (List (K × V))}
  {b : List (K × V)}

/-- The first block holds at least `m` pairs, every later one at least `n`. -/
structure Fill (n m : ℕ) (bs : List (List (K × V))) : Prop where
  first : m ≤ (bs.headD []).length
  later : ∀ b ∈ bs.tail, n ≤ b.length

omit [LinearOrder K] in
theorem Fill.le_flatten (h : Fill n m bs) : m + (bs.length - 1) * n ≤ bs.flatten.length := by
  obtain ⟨hfirst, hlater⟩ := h
  cases bs with
  | nil => simpa using hfirst
  | cons b bs =>
    have hrest : bs.length * n ≤ bs.flatten.length := by
      rw [List.length_flatten, ← smul_eq_mul, ← List.length_map List.length]
      exact List.card_nsmul_le_sum _ n fun x hx => by
        obtain ⟨c, hc, rfl⟩ := List.mem_map.mp hx
        exact hlater c hc
    rw [List.flatten_cons, List.length_append, List.length_cons, Nat.add_sub_cancel]
    exact Nat.add_le_add hfirst hrest

theorem Fill.edit (h : Fill n m bs) (hm : m ≤ n) (hloc : Located k bs pre b post)
    {f : List (K × V) → List (List (K × V))} (hne : f b ≠ []) (hf : Fill n (min n b.length) (f b)) :
    Fill n m (edit k f bs) := by
  obtain ⟨hfirst, hlater⟩ := h
  obtain ⟨c, rest, hc⟩ := List.exists_cons_of_ne_nil hne
  obtain ⟨hcfirst, hclater⟩ := hf
  rw [hloc.edit_eq, hc]
  rw [hc] at hcfirst hclater
  rw [hloc.eq] at hfirst hlater
  cases pre with
  | nil =>
    refine ⟨(le_min hm hfirst).trans hcfirst, fun x hx => ?_⟩
    rcases List.mem_append.mp hx with hx | hx
    · exact hclater x hx
    · exact hlater x hx
  | cons p pre =>
    refine ⟨hfirst, fun x hx => ?_⟩
    have hb : n ≤ b.length := hlater b (List.mem_append_right pre List.mem_cons_self)
    rw [List.append_assoc, List.cons_append, List.tail_cons, List.mem_append, List.cons_append,
      List.mem_cons, List.mem_append] at hx
    rcases hx with hx | rfl | hx | hx
    · exact hlater x (List.mem_append_left _ hx)
    · rwa [min_eq_left hb] at hcfirst
    · exact hclater x hx
    · exact hlater x (List.mem_append_right _ (List.mem_cons_of_mem b hx))

theorem fill_grow (cap : ℕ) (k : K) (v : V) (b : List (K × V)) :
    Fill (cap / 2) (min (cap / 2) b.length) (grow cap k v b) := by
  rw [grow]
  split
  · refine ⟨?_, fun x hx => by cases hx⟩
    rw [List.headD_cons, length_put]
    omega
  · split
    · refine ⟨?_, fun x hx => ?_⟩
      · rw [List.headD_cons, List.length_take]
      · obtain rfl := List.mem_singleton.mp hx
        rw [length_put, List.length_drop]
        omega
    · refine ⟨?_, fun x hx => ?_⟩
      · rw [List.headD_cons, length_put, List.length_take]
        omega
      · obtain rfl := List.mem_singleton.mp hx
        rw [List.length_drop]
        omega

theorem length_grow (cap : ℕ) (k : K) (v : V) (b : List (K × V)) :
    (grow cap k v b).length = if b.length < cap then 1 else 2 := by
  rw [grow]
  split
  · rfl
  · split <;> rfl

theorem Fill.insert {cap : ℕ} (h : Fill (cap / 2) m bs) (hm : m ≤ cap / 2) (hne : bs ≠ []) (k : K)
    (v : V) : Fill (cap / 2) m (insert cap k v bs) := by
  obtain ⟨pre, b, post, hloc⟩ := exists_located k hne
  exact h.edit hm hloc (grow_ne_nil cap k v b) (fill_grow cap k v b)

theorem Fill.update (h : Fill n m bs) (hm : m ≤ n) (hne : bs ≠ []) (k : K) (v : V) :
    Fill n m (update k v bs) := by
  obtain ⟨pre, b, post, hloc⟩ := exists_located k hne
  refine h.edit hm hloc (List.cons_ne_nil _ _) ⟨?_, fun x hx => by cases hx⟩
  rw [List.headD_cons, length_assign]
  exact min_le_right _ _

theorem length_edit (hloc : Located k bs pre b post) (f : List (K × V) → List (List (K × V))) :
    (BlockChain.edit k f bs).length + 1 = bs.length + (f b).length := by
  rw [hloc.edit_eq, hloc.eq]
  simp only [List.length_append, List.length_cons]
  omega

end BlockChain
