import Rolex.Foundations.AscendingMap

/-! Ascending data cut into a chain of blocks. The first block may be empty,
every later block is not, so a later block is found by its first key alone.
A key belongs to the last later block that starts at or below it, else to the
first block. -/

namespace BlockChain
open AscendingMap

variable {K V : Type} [LinearOrder K]

/-- The block has a first key, and it is at or below `k`. -/
def opens (k : K) : List (K × V) → Bool
  | [] => false
  | e :: _ => decide (e.1 ≤ k)

def locate (k : K) (bs : List (List (K × V))) : ℕ :=
  Nat.findGreatest (fun i => opens k (bs.getD i []) = true) (bs.length - 1)

structure Ordered (bs : List (List (K × V))) : Prop where
  ne_nil : bs ≠ []
  ascending : Ascending bs.flatten
  later : ∀ b ∈ bs.tail, b ≠ []

/-- `b` is the block of `k`, between `pre` and `post`. -/
structure Located (k : K) (bs pre : List (List (K × V))) (b : List (K × V))
    (post : List (List (K × V))) : Prop where
  eq : bs = pre ++ b :: post
  index : locate k bs = pre.length

def edit (k : K) (f : List (K × V) → List (List (K × V))) (bs : List (List (K × V))) :
    List (List (K × V)) :=
  bs.take (locate k bs) ++ f (bs.getD (locate k bs) []) ++ bs.drop (locate k bs + 1)

/-- Blocks that hold `b` and the new entry: `b` itself while it has room, else its
halves, the entry going to the upper half when that half starts at or below `k`. -/
def grow (cap : ℕ) (k : K) (v : V) (b : List (K × V)) : List (List (K × V)) :=
  if b.length < cap then [put k v b]
  else if opens k (b.drop (cap / 2)) then [b.take (cap / 2), put k v (b.drop (cap / 2))]
  else [put k v (b.take (cap / 2)), b.drop (cap / 2)]

def insert (cap : ℕ) (k : K) (v : V) (bs : List (List (K × V))) : List (List (K × V)) :=
  edit k (grow cap k v) bs

def update (k : K) (v : V) (bs : List (List (K × V))) : List (List (K × V)) :=
  edit k (fun b => [assign k v b]) bs

/-- An emptied block leaves the chain unless it is the first one. -/
def remove (k : K) (bs : List (List (K × V))) : List (List (K × V)) :=
  edit k (fun b => if without k b = [] ∧ locate k bs ≠ 0 then [] else [without k b]) bs

/-! ### The block of a key -/

theorem opens_iff (k : K) (b : List (K × V)) :
    opens k b = true ↔ ∃ e rest, b = e :: rest ∧ e.1 ≤ k := by
  cases b with
  | nil => simp [opens]
  | cons e rest => simp [opens]

theorem opens_mono {k k' : K} {b : List (K × V)} (hk : k ≤ k') (h : opens k b = true) :
    opens k' b = true := by
  obtain ⟨e, rest, rfl, he⟩ := (opens_iff k b).mp h
  exact (opens_iff k' _).mpr ⟨e, rest, rfl, he.trans hk⟩

theorem opens_of_mem {k : K} {b : List (K × V)} {e : K × V} (hb : Ascending b) (he : e ∈ b)
    (hk : e.1 ≤ k) : opens k b = true := by
  cases b with
  | nil => simp at he
  | cons x rest =>
    refine (opens_iff k _).mpr ⟨x, rest, rfl, ?_⟩
    rcases List.mem_cons.mp he with rfl | hm
    · exact hk
    · exact ((List.pairwise_cons.mp hb).1 e hm).le.trans hk

theorem lt_of_not_opens {k : K} {b : List (K × V)} (hb : Ascending b)
    (h : opens k b = false) : ∀ e ∈ b, k < e.1 := by
  intro e he
  by_contra hk
  simp [opens_of_mem hb he (not_lt.mp hk)] at h

theorem locate_lt {k : K} {bs : List (List (K × V))} (h : bs ≠ []) : locate k bs < bs.length := by
  have hl := List.length_pos_iff.mpr h
  have hg : locate k bs ≤ bs.length - 1 := Nat.findGreatest_le _
  omega

theorem exists_located (k : K) {bs : List (List (K × V))} (h : bs ≠ []) :
    ∃ pre b post, Located k bs pre b post := by
  have hi := locate_lt (k := k) h
  refine ⟨bs.take (locate k bs), bs[locate k bs], bs.drop (locate k bs + 1), ?_, ?_⟩
  · rw [← List.drop_eq_getElem_cons hi, List.take_append_drop]
  · rw [List.length_take, min_eq_left hi.le]

namespace Located

variable {k : K} {bs pre post : List (List (K × V))} {b : List (K × V)}

theorem block (h : Located k bs pre b post) : bs.getD (locate k bs) [] = b := by
  rw [h.index, h.eq, List.getD_eq_getElem?_getD, List.getElem?_append_right le_rfl]
  simp

theorem unique {pre' post' : List (List (K × V))} {b' : List (K × V)} (h : Located k bs pre b post)
    (h' : Located k bs pre' b' post') : pre = pre' ∧ b = b' ∧ post = post' := by
  have hlen : pre.length = pre'.length := h.index.symm.trans h'.index
  obtain ⟨hpre, hrest⟩ := List.append_inj (h.eq.symm.trans h'.eq) hlen
  exact ⟨hpre, List.cons.inj hrest⟩

theorem edit_eq (h : Located k bs pre b post) (f : List (K × V) → List (List (K × V))) :
    edit k f bs = pre ++ f b ++ post := by
  have hd : pre ++ b :: post = (pre ++ [b]) ++ post := by simp
  rw [edit, h.block, h.index, h.eq, List.take_left, hd,
    List.drop_left' (by simp)]

theorem remove_eq (h : Located k bs pre b post) : remove k bs =
    pre ++ (if without k b = [] ∧ pre ≠ [] then [] else [without k b]) ++ post := by
  have hlen : pre.length = 0 ↔ pre = [] := List.length_eq_zero_iff
  rw [remove, h.edit_eq, h.index]
  simp only [ne_eq, hlen]

theorem opens_block (h : Located k bs pre b post) (hp : pre ≠ []) : opens k b = true := by
  have hne : locate k bs ≠ 0 := by
    rw [h.index]
    exact fun h0 => hp (List.length_eq_zero_iff.mp h0)
  have hs : opens k (bs.getD (locate k bs) []) = true := Nat.findGreatest_of_ne_zero rfl hne
  exact h.block ▸ hs

theorem not_opens (h : Located k bs pre b post) : ∀ p ∈ post, opens k p = false := by
  intro p hp
  obtain ⟨j, hj, rfl⟩ := List.getElem_of_mem hp
  have hlen : bs.length = pre.length + (post.length + 1) := by simp [h.eq]
  have hget : bs.getD (pre.length + 1 + j) [] = post[j] := by
    rw [h.eq, List.getD_eq_getElem?_getD, List.getElem?_append_right (by omega)]
    simp [show pre.length + 1 + j - pre.length = j + 1 by omega, hj]
  have hlt : locate k bs < pre.length + 1 + j := by
    have hi := h.index
    omega
  have hle : pre.length + 1 + j ≤ bs.length - 1 := by omega
  have hng : ¬opens k (bs.getD (pre.length + 1 + j) []) = true :=
    Nat.findGreatest_is_greatest hlt hle
  rw [hget] at hng
  exact Bool.eq_false_iff.mpr hng

theorem before (h : Located k bs pre b post) (ho : Ordered bs) :
    ∀ e ∈ pre.flatten, e.1 < k := by
  intro e he
  have hp : pre ≠ [] := by
    rintro rfl
    simp at he
  obtain ⟨x, rest, hb, hx⟩ := (opens_iff k b).mp (h.opens_block hp)
  have ha := ho.ascending
  rw [h.eq, List.flatten_append, ascending_append, List.flatten_cons] at ha
  exact (ha.2.2 e he x (by simp [hb])).trans_le hx

theorem after (h : Located k bs pre b post) (ho : Ordered bs) :
    ∀ e ∈ post.flatten, k < e.1 := by
  intro e he
  obtain ⟨p, hp, hep⟩ := List.mem_flatten.mp he
  refine lt_of_not_opens ?_ (h.not_opens p hp) e hep
  have ha := ho.ascending
  rw [h.eq] at ha
  exact (ascending_flatten.mp ha).1 p (by simp [hp])

theorem ascending (h : Located k bs pre b post) (ho : Ordered bs) : Ascending b := by
  have ha := ho.ascending
  rw [h.eq] at ha
  exact (ascending_flatten.mp ha).1 b (by simp)

theorem flatten_eq (h : Located k bs pre b post) :
    bs.flatten = pre.flatten ++ (b ++ post.flatten) := by
  rw [h.eq, List.flatten_append, List.flatten_cons]

theorem lookup_eq (h : Located k bs pre b post) (ho : Ordered bs) :
    bs.flatten.lookup k = b.lookup k := by
  rw [h.flatten_eq, lookup_append_right fun e he => (h.before ho e he).ne,
    lookup_append_left fun e he => (h.after ho e he).ne']

theorem flatten_edit (h : Located k bs pre b post) (f : List (K × V) → List (List (K × V))) :
    (edit k f bs).flatten = pre.flatten ++ ((f b).flatten ++ post.flatten) := by
  rw [h.edit_eq, List.flatten_append, List.flatten_append, List.append_assoc]

theorem ordered_edit (h : Located k bs pre b post) (ho : Ordered bs)
    {f : List (K × V) → List (List (K × V))} (ha : Ascending (edit k f bs).flatten)
    (hf : ∀ x ∈ (f b).tail, x ≠ []) (hhead : pre ≠ [] → ∀ x ∈ (f b).head?, x ≠ [])
    (hne : pre = [] → f b ≠ []) : Ordered (edit k f bs) := by
  have hl := ho.later
  rw [h.eq] at hl
  refine ⟨?_, ha, ?_⟩
  · rw [h.edit_eq]
    intro hnil
    simp only [List.append_eq_nil_iff] at hnil
    exact hne hnil.1.1 hnil.1.2
  · rw [h.edit_eq]
    intro x hx
    cases pre with
    | nil =>
      simp only [List.nil_append, List.tail_cons] at hl hx
      cases hfb : f b with
      | nil => exact absurd hfb (hne rfl)
      | cons y ys =>
        rw [hfb] at hf hx
        simp only [List.cons_append, List.tail_cons, List.mem_append] at hx
        exact hx.elim (fun hx => hf x hx) (hl x)
    | cons p pre =>
      simp only [List.cons_append, List.tail_cons, List.mem_append, List.mem_cons] at hl hx
      rcases hx with (hx | hx) | hx
      · exact hl x (Or.inl hx)
      · cases hfb : f b with
        | nil => simp [hfb] at hx
        | cons y ys =>
          rw [hfb] at hf hx hhead
          rcases List.mem_cons.mp hx with rfl | hx
          · exact hhead (by simp) x (by simp)
          · exact hf x hx
      · exact hl x (Or.inr (Or.inr hx))

end Located

/-! ### Inserting -/

theorem grow_ne_nil (cap : ℕ) (k : K) (v : V) (b : List (K × V)) : grow cap k v b ≠ [] := by
  unfold grow
  split_ifs <;> simp

theorem flatten_grow {cap : ℕ} {k : K} {b : List (K × V)} (hb : Ascending b) (v : V) :
    (grow cap k v b).flatten = put k v b := by
  have hcut := List.take_append_drop (cap / 2) b
  have hs := hb
  rw [← hcut, ascending_append] at hs
  unfold grow
  split_ifs with hroom hup
  · simp
  · obtain ⟨e, rest, hd, he⟩ := (opens_iff k _).mp hup
    have hlow : ∀ x ∈ b.take (cap / 2), x.1 < k := fun x hx =>
      (hs.2.2 x hx e (by simp [hd])).trans_le he
    have hput : put k v (b.take (cap / 2) ++ b.drop (cap / 2)) = _ := put_append_right hlow
    rw [hcut] at hput
    simp [hput]
  · have hhigh := lt_of_not_opens hs.2.1 (Bool.eq_false_iff.mpr hup)
    have hput : put k v (b.take (cap / 2) ++ b.drop (cap / 2)) = _ := put_append_left hhigh
    rw [hcut] at hput
    simp [hput]

theorem grow_ne_nil_of_mem {cap : ℕ} {k : K} {v : V} {b : List (K × V)} (hcap : 2 ≤ cap)
    : ∀ x ∈ grow cap k v b, x ≠ [] := by
  intro x hx
  unfold grow at hx
  split_ifs at hx with hroom hup
  · rw [List.mem_singleton] at hx
    exact hx ▸ put_ne_nil k v b
  all_goals
    have hlen : cap ≤ b.length := not_lt.mp hroom
    have hlow : b.take (cap / 2) ≠ [] := by
      rw [← List.length_pos_iff, List.length_take]
      omega
    have hhigh : b.drop (cap / 2) ≠ [] := by
      rw [← List.length_pos_iff, List.length_drop]
      omega
    simp only [List.mem_cons, List.not_mem_nil, or_false] at hx
  · rcases hx with rfl | rfl
    · exact hlow
    · exact put_ne_nil _ _ _
  · rcases hx with rfl | rfl
    · exact put_ne_nil _ _ _
    · exact hhigh

theorem flatten_insert {cap : ℕ} {k : K} {bs : List (List (K × V))} (ho : Ordered bs) (v : V) :
    (insert cap k v bs).flatten = put k v bs.flatten := by
  obtain ⟨pre, b, post, h⟩ := exists_located k ho.ne_nil
  rw [insert, h.flatten_edit, flatten_grow (h.ascending ho), h.flatten_eq,
    put_append_right (h.before ho), put_append_left (h.after ho)]

theorem ordered_insert {cap : ℕ} {k : K} {bs : List (List (K × V))} (hcap : 2 ≤ cap)
    (ho : Ordered bs) (hk : bs.flatten.lookup k = none) (v : V) : Ordered (insert cap k v bs) := by
  obtain ⟨pre, b, post, h⟩ := exists_located k ho.ne_nil
  refine h.ordered_edit ho ?_ (fun x hx => grow_ne_nil_of_mem hcap x (List.mem_of_mem_tail hx))
    (fun _ x hx => grow_ne_nil_of_mem hcap x (List.mem_of_mem_head? hx))
    (fun _ => grow_ne_nil cap k v b)
  have hf : (edit k (grow cap k v) bs).flatten = put k v bs.flatten := flatten_insert ho v
  rw [hf]
  exact ascending_put ho.ascending (lookup_eq_none.mp hk)

/-! ### Updating -/

theorem flatten_update {k : K} {bs : List (List (K × V))} (ho : Ordered bs) (v : V) :
    (update k v bs).flatten = assign k v bs.flatten := by
  obtain ⟨pre, b, post, h⟩ := exists_located k ho.ne_nil
  rw [update, h.flatten_edit, h.flatten_eq, assign_append, assign_append,
    assign_of_forall_ne fun e he => (h.before ho e he).ne,
    assign_of_forall_ne fun e he => (h.after ho e he).ne']
  simp

theorem ordered_update {k : K} {bs : List (List (K × V))} (ho : Ordered bs) (v : V) :
    Ordered (update k v bs) := by
  obtain ⟨pre, b, post, h⟩ := exists_located k ho.ne_nil
  refine h.ordered_edit ho ?_ (by simp) ?_ (by simp)
  · have hf : (edit k (fun b => [assign k v b]) bs).flatten = assign k v bs.flatten :=
      flatten_update ho v
    rw [hf]
    exact ascending_assign ho.ascending
  · intro hp x hx
    obtain ⟨e, rest, hb, _⟩ := (opens_iff k b).mp (h.opens_block hp)
    simp only [List.head?_cons, Option.mem_def, Option.some.injEq] at hx
    rw [← hx, ← List.length_pos_iff, length_assign, hb]
    simp

/-! ### Removing -/

theorem flatten_remove {k : K} {bs : List (List (K × V))} (ho : Ordered bs) :
    (remove k bs).flatten = without k bs.flatten := by
  obtain ⟨pre, b, post, h⟩ := exists_located k ho.ne_nil
  rw [remove, h.flatten_edit, h.flatten_eq, without_append, without_append,
    without_of_forall_ne fun e he => (h.before ho e he).ne,
    without_of_forall_ne fun e he => (h.after ho e he).ne']
  split_ifs with he
  · rw [he.1, List.flatten_nil]
  · simp

theorem ordered_remove {k : K} {bs : List (List (K × V))} (ho : Ordered bs) :
    Ordered (remove k bs) := by
  obtain ⟨pre, b, post, h⟩ := exists_located k ho.ne_nil
  refine h.ordered_edit ho ?_ ?_ ?_ ?_
  · have hf := flatten_remove (k := k) ho
    rw [remove] at hf
    rw [hf]
    exact ascending_without ho.ascending
  · split_ifs <;> simp
  · intro hp x hx
    have hi : locate k bs ≠ 0 := by
      rw [h.index]
      exact fun h0 => hp (List.length_eq_zero_iff.mp h0)
    split_ifs at hx with he
    · simp at hx
    · simp only [List.head?_cons, Option.mem_def, Option.some.injEq] at hx
      exact hx ▸ fun hw => he ⟨hw, hi⟩
  · intro hp
    have hi : locate k bs = 0 := by rw [h.index, hp, List.length_nil]
    simp [hi]

/-! ### The first block -/

theorem opens_head_of_mem {bs : List (List (K × V))} (ho : Ordered bs) {e : K × V}
    (he : e ∈ bs.flatten) (hne : bs.headD [] ≠ []) : opens e.1 (bs.headD []) = true := by
  obtain ⟨b, rest, rfl⟩ := List.exists_cons_of_ne_nil ho.ne_nil
  obtain ⟨x, xs, hx⟩ := List.exists_cons_of_ne_nil hne
  have ha := ho.ascending
  rw [List.headD_cons] at hx ⊢
  rw [List.flatten_cons, hx, List.cons_append] at ha he
  rw [hx, opens, decide_eq_true_iff]
  rcases List.mem_cons.mp he with rfl | he
  · exact le_rfl
  · exact ((List.pairwise_cons.mp ha).1 e he).le

theorem opens_put {k x : K} {v : V} {b : List (K × V)} (h : opens x (put k v b) = true) :
    opens x b = true ∨ opens k b = false ∧ k ≤ x := by
  cases b with
  | nil => exact Or.inr ⟨rfl, by simpa [put, opens] using h⟩
  | cons e es =>
    rw [put] at h
    split at h
    · rename_i hlt
      exact Or.inr ⟨by simpa [opens] using hlt, by simpa [opens] using h⟩
    · exact Or.inl h

theorem opens_put_of_opens {k x : K} {v : V} {b : List (K × V)} (h : opens x b = true) :
    opens x (put k v b) = true := by
  cases b with
  | nil => simp [opens] at h
  | cons e es =>
    rw [put]
    split
    · rename_i hlt
      simp only [opens, decide_eq_true_eq] at h ⊢
      exact hlt.le.trans h
    · exact h

theorem opens_take {x : K} {n : ℕ} (hn : 0 < n) (b : List (K × V)) :
    opens x (b.take n) = opens x b := by
  obtain ⟨m, rfl⟩ : ∃ m, n = m + 1 := ⟨n - 1, by omega⟩
  cases b <;> rfl

theorem headD_edit {k : K} {bs : List (List (K × V))} (ho : Ordered bs)
    (f : List (K × V) → List (List (K × V))) :
    (edit k f bs).headD [] = bs.headD [] ∧ locate k bs ≠ 0 ∨
      locate k bs = 0 ∧ (f (bs.headD []) ≠ [] →
        (edit k f bs).headD [] = (f (bs.headD [])).headD []) := by
  obtain ⟨pre, b, post, h⟩ := exists_located k ho.ne_nil
  cases pre with
  | nil =>
    refine Or.inr ⟨h.index, fun hne => ?_⟩
    have hb : bs.headD [] = b := by rw [h.eq]; rfl
    rw [hb] at hne ⊢
    obtain ⟨y, ys, hy⟩ := List.exists_cons_of_ne_nil hne
    rw [h.edit_eq, hy]
    rfl
  | cons p pre =>
    refine Or.inl ⟨?_, by rw [h.index]; simp⟩
    rw [h.edit_eq, h.eq]
    rfl

theorem opens_head_insert {cap : ℕ} (hcap : 2 ≤ cap) {k x : K} {v : V} {bs : List (List (K × V))}
    (ho : Ordered bs) (h : opens x ((insert cap k v bs).headD []) = true) :
    opens x (bs.headD []) = true ∨ opens k (bs.headD []) = false ∧ k ≤ x := by
  rw [insert] at h
  rcases headD_edit (k := k) ho (grow cap k v) with ⟨heq, _⟩ | ⟨_, heq⟩
  · exact Or.inl (heq ▸ h)
  · rw [heq (grow_ne_nil _ _ _ _), grow] at h
    split_ifs at h
    · exact opens_put h
    · rw [List.headD_cons, opens_take (by omega)] at h
      exact Or.inl h
    · have hp := opens_put h
      rwa [opens_take (by omega), opens_take (by omega)] at hp

theorem opens_head_insert_of_opens {cap : ℕ} (hcap : 2 ≤ cap) {k x : K} {v : V}
    {bs : List (List (K × V))} (ho : Ordered bs) (h : opens x (bs.headD []) = true) :
    opens x ((insert cap k v bs).headD []) = true := by
  rw [insert]
  rcases headD_edit (k := k) ho (grow cap k v) with ⟨heq, _⟩ | ⟨_, heq⟩
  · rwa [heq]
  · rw [heq (grow_ne_nil _ _ _ _), grow]
    split_ifs
    · exact opens_put_of_opens h
    · rwa [List.headD_cons, opens_take (by omega)]
    · refine opens_put_of_opens ?_
      rwa [opens_take (by omega)]

theorem opens_assign (x k : K) (v : V) (b : List (K × V)) : opens x (assign k v b) = opens x b := by
  cases b with
  | nil => rfl
  | cons e es =>
    rw [assign, List.map_cons, opens, opens]
    split
    · rename_i he
      rw [he]
    · rfl

theorem opens_head_update {k x : K} {v : V} {bs : List (List (K × V))} (ho : Ordered bs) :
    opens x ((update k v bs).headD []) = opens x (bs.headD []) := by
  rw [update]
  rcases headD_edit (k := k) ho (fun b => [assign k v b]) with ⟨heq, _⟩ | ⟨_, heq⟩
  · rw [heq]
  · rw [heq (by simp), List.headD_cons, opens_assign]

theorem head_remove {k : K} {bs : List (List (K × V))} (ho : Ordered bs) :
    (remove k bs).headD [] = without k (bs.headD []) := by
  obtain ⟨pre, b, post, h⟩ := exists_located k ho.ne_nil
  cases pre with
  | nil =>
    rw [remove, h.edit_eq, h.index, h.eq]
    simp
  | cons p pre =>
    rw [remove, h.edit_eq, h.eq]
    refine (without_of_forall_ne fun e he => (h.before ho e ?_).ne).symm
    exact List.mem_flatten.mpr ⟨p, List.mem_cons_self, he⟩

theorem mem_flatten_insert {cap : ℕ} {k : K} {v : V} {bs : List (List (K × V))} (ho : Ordered bs)
    {e : K × V} : e ∈ (insert cap k v bs).flatten ↔ e = (k, v) ∨ e ∈ bs.flatten := by
  rw [flatten_insert ho, mem_put]

theorem mem_flatten_remove {k : K} {bs : List (List (K × V))} (ho : Ordered bs) {e : K × V} :
    e ∈ (remove k bs).flatten ↔ e ∈ bs.flatten ∧ e.1 ≠ k := by
  rw [flatten_remove ho, mem_without]

end BlockChain
