import Mathlib

/-! Finite maps held as association lists with strictly ascending keys.
The list operations are stated over plain lists, so that a map may be cut
into consecutive blocks; `AscendingMap` packs a list with its order. -/

namespace AscendingMap

variable {K V : Type} [LinearOrder K]

abbrev Ascending (es : List (K × V)) : Prop := es.Pairwise (fun a b => a.1 < b.1)

def put (k : K) (v : V) : List (K × V) → List (K × V)
  | [] => [(k, v)]
  | e :: es => if k < e.1 then (k, v) :: e :: es else e :: put k v es

def assign (k : K) (v : V) (es : List (K × V)) : List (K × V) :=
  es.map (fun e => if e.1 = k then (k, v) else e)

def without (k : K) (es : List (K × V)) : List (K × V) :=
  es.filter (fun e => e.1 ≠ k)

def scan (k : K) (n : ℕ) (es : List (K × V)) : List V :=
  ((es.filter (fun e => k ≤ e.1)).take n).map Prod.snd

theorem ascending_append {xs ys : List (K × V)} :
    Ascending (xs ++ ys) ↔ Ascending xs ∧ Ascending ys ∧ ∀ a ∈ xs, ∀ b ∈ ys, a.1 < b.1 :=
  List.pairwise_append

theorem nodup_of_ascending {es : List (K × V)} (h : Ascending es) : es.Nodup := by
  refine List.Pairwise.imp (fun {a b} hab => ?_) h
  rintro rfl
  exact lt_irrefl _ hab

theorem ascending_flatten {bs : List (List (K × V))} :
    Ascending bs.flatten ↔
      (∀ b ∈ bs, Ascending b) ∧ bs.Pairwise (fun b b' => ∀ x ∈ b, ∀ y ∈ b', x.1 < y.1) :=
  List.pairwise_flatten

/-! ### Lookup -/

theorem lookup_cons (k : K) (e : K × V) (es : List (K × V)) :
    (e :: es).lookup k = if k = e.1 then some e.2 else es.lookup k := by
  obtain ⟨a, b⟩ := e
  rw [List.lookup]
  by_cases h : k = a
  · simp [h]
  · have hb : (k == a) = false := by simpa using h
    rw [hb, if_neg h]

theorem lookup_eq_some {es : List (K × V)} (h : Ascending es) (k : K) (v : V) :
    es.lookup k = some v ↔ (k, v) ∈ es := by
  induction es with
  | nil => simp
  | cons e es ih =>
    have hc := List.pairwise_cons.mp h
    rw [lookup_cons, List.mem_cons]
    split
    · rename_i he
      have hv : (k, v) ∉ es := fun hm => absurd (hc.1 _ hm) (by simp [he])
      constructor
      · intro hw
        exact Or.inl (Prod.ext he (Option.some.inj hw).symm)
      · intro hm
        rw [← hm.resolve_right hv]
    · rename_i he
      rw [ih hc.2]
      exact ⟨Or.inr, fun hm => hm.resolve_left fun h => he (congrArg Prod.fst h)⟩

theorem lookup_eq_none {es : List (K × V)} {k : K} :
    es.lookup k = none ↔ ∀ e ∈ es, e.1 ≠ k := by
  simp only [List.lookup_eq_none_iff, bne_iff_ne]
  exact forall₂_congr fun e _ => ne_comm

theorem lookup_append_left {xs ys : List (K × V)} {k : K} (h : ∀ e ∈ ys, e.1 ≠ k) :
    (xs ++ ys).lookup k = xs.lookup k := by
  rw [List.lookup_append, lookup_eq_none.mpr h, Option.or_none]

theorem lookup_append_right {xs ys : List (K × V)} {k : K} (h : ∀ e ∈ xs, e.1 ≠ k) :
    (xs ++ ys).lookup k = ys.lookup k := by
  rw [List.lookup_append, lookup_eq_none.mpr h, Option.none_or]

/-! ### Adding an entry -/

theorem put_perm (k : K) (v : V) (es : List (K × V)) : (put k v es).Perm ((k, v) :: es) := by
  induction es with
  | nil => exact List.Perm.refl _
  | cons e es ih =>
    rw [put]
    split
    · exact List.Perm.refl _
    · exact (ih.cons e).trans (List.Perm.swap _ _ _)

@[simp] theorem mem_put {k : K} {v : V} {es : List (K × V)} {e : K × V} :
    e ∈ put k v es ↔ e = (k, v) ∨ e ∈ es := by
  rw [(put_perm k v es).mem_iff, List.mem_cons]

@[simp] theorem length_put (k : K) (v : V) (es : List (K × V)) :
    (put k v es).length = es.length + 1 := by
  rw [(put_perm k v es).length_eq, List.length_cons]

theorem put_ne_nil (k : K) (v : V) (es : List (K × V)) : put k v es ≠ [] := by
  intro h
  simpa [h] using length_put k v es

theorem ascending_put {k : K} {v : V} {es : List (K × V)} (h : Ascending es)
    (hk : ∀ e ∈ es, e.1 ≠ k) : Ascending (put k v es) := by
  induction es with
  | nil => simp [put]
  | cons e es ih =>
    have hc := List.pairwise_cons.mp h
    rw [put]
    split
    · rename_i hlt
      refine List.pairwise_cons.mpr ⟨fun x hx => ?_, h⟩
      rcases List.mem_cons.mp hx with rfl | hx
      · exact hlt
      · exact hlt.trans (hc.1 x hx)
    · rename_i hlt
      have hek : e.1 < k := lt_of_le_of_ne (not_lt.mp hlt) (hk e List.mem_cons_self)
      refine List.pairwise_cons.mpr ⟨fun x hx => ?_,
        ih hc.2 fun x hx => hk x (List.mem_cons_of_mem _ hx)⟩
      rcases mem_put.mp hx with rfl | hx
      · exact hek
      · exact hc.1 x hx

theorem put_of_all_lt {k : K} {v : V} {es : List (K × V)} (h : ∀ e ∈ es, e.1 < k) :
    put k v es = es ++ [(k, v)] := by
  induction es with
  | nil => rfl
  | cons e es ih =>
    rw [put, if_neg (not_lt.mpr (h e List.mem_cons_self).le),
      ih fun x hx => h x (List.mem_cons_of_mem _ hx), List.cons_append]

theorem put_append_right {k : K} {v : V} {xs ys : List (K × V)} (h : ∀ e ∈ xs, e.1 < k) :
    put k v (xs ++ ys) = xs ++ put k v ys := by
  induction xs with
  | nil => rfl
  | cons e xs ih =>
    rw [List.cons_append, put, if_neg (not_lt.mpr (h e List.mem_cons_self).le),
      ih fun x hx => h x (List.mem_cons_of_mem _ hx), List.cons_append]

theorem put_append_left {k : K} {v : V} {xs ys : List (K × V)} (h : ∀ e ∈ ys, k < e.1) :
    put k v (xs ++ ys) = put k v xs ++ ys := by
  induction xs with
  | nil =>
    cases ys with
    | nil => rfl
    | cons e ys =>
      rw [List.nil_append, put.eq_2, if_pos (h e List.mem_cons_self)]
      rfl
  | cons e xs ih =>
    rw [List.cons_append, put, put]
    split
    · rfl
    · rw [ih, List.cons_append]

theorem put_of_cut {k : K} {v : V} {xs ys : List (K × V)} (hx : ∀ e ∈ xs, e.1 < k)
    (hy : ∀ e ∈ ys, k < e.1) : put k v (xs ++ ys) = xs ++ (k, v) :: ys := by
  have hleft : put k v ([] ++ ys) = put k v [] ++ ys := put_append_left hy
  rw [put_append_right hx]
  exact congrArg (xs ++ ·) hleft

theorem exists_cut {k : K} {es : List (K × V)} (h : Ascending es) (hk : ∀ e ∈ es, e.1 ≠ k) :
    ∃ xs ys, es = xs ++ ys ∧ (∀ e ∈ xs, e.1 < k) ∧ ∀ e ∈ ys, k < e.1 := by
  induction es with
  | nil => exact ⟨[], [], rfl, by simp, by simp⟩
  | cons e es ih =>
    have hc := List.pairwise_cons.mp h
    rcases lt_or_gt_of_ne (hk e List.mem_cons_self) with hlt | hgt
    · obtain ⟨xs, ys, rfl, hx, hy⟩ := ih hc.2 fun x hx => hk x (List.mem_cons_of_mem _ hx)
      refine ⟨e :: xs, ys, rfl, fun x hm => ?_, hy⟩
      rcases List.mem_cons.mp hm with rfl | hm
      · exact hlt
      · exact hx x hm
    · refine ⟨[], e :: es, rfl, by simp, fun x hm => ?_⟩
      rcases List.mem_cons.mp hm with rfl | hm
      · exact hgt
      · exact hgt.trans (hc.1 x hm)

theorem exists_mid {k : K} {v : V} {es : List (K × V)} (h : Ascending es)
    (hk : es.lookup k = some v) :
    ∃ xs ys, es = xs ++ (k, v) :: ys ∧ (∀ e ∈ xs, e.1 ≠ k) ∧ ∀ e ∈ ys, e.1 ≠ k := by
  obtain ⟨xs, ys, rfl⟩ := List.append_of_mem ((lookup_eq_some h k v).mp hk)
  obtain ⟨_, hy, hxy⟩ := ascending_append.mp h
  exact ⟨xs, ys, rfl, fun e he => (hxy e he (k, v) List.mem_cons_self).ne,
    fun e he => ((List.pairwise_cons.mp hy).1 e he).ne'⟩

theorem lookup_put {k k' : K} {v : V} {es : List (K × V)} (h : Ascending es)
    (hk : ∀ e ∈ es, e.1 ≠ k) :
    (put k v es).lookup k' = if k' = k then some v else es.lookup k' := by
  apply Option.ext
  intro w
  rw [lookup_eq_some (ascending_put h hk), mem_put]
  split
  · rename_i he
    subst he
    constructor
    · rintro (hm | hm)
      · exact congrArg some (Prod.ext_iff.mp hm).2.symm
      · exact absurd rfl (hk _ hm)
    · intro hw
      rw [Option.some.inj hw]
      exact Or.inl rfl
  · rename_i hne
    rw [lookup_eq_some h]
    exact ⟨fun hm => hm.resolve_left fun he => hne (congrArg Prod.fst he), Or.inr⟩

/-! ### Overwriting a value -/

@[simp] theorem map_fst_assign (k : K) (v : V) (es : List (K × V)) :
    (assign k v es).map Prod.fst = es.map Prod.fst := by
  rw [assign, List.map_map]
  refine List.map_congr_left fun e _ => ?_
  simp only [Function.comp]
  split
  · rename_i he
    exact he.symm
  · rfl

@[simp] theorem length_assign (k : K) (v : V) (es : List (K × V)) :
    (assign k v es).length = es.length := List.length_map _

theorem assign_append (k : K) (v : V) (xs ys : List (K × V)) :
    assign k v (xs ++ ys) = assign k v xs ++ assign k v ys := List.map_append

theorem assign_of_forall_ne {k : K} {v : V} {es : List (K × V)} (h : ∀ e ∈ es, e.1 ≠ k) :
    assign k v es = es := by
  conv_rhs => rw [← List.map_id es]
  exact List.map_congr_left fun e he => if_neg (h e he)

theorem mem_assign {k : K} {v : V} {es : List (K × V)} {e : K × V} :
    e ∈ assign k v es ↔ e = (k, v) ∧ (∃ x ∈ es, x.1 = k) ∨ e ∈ es ∧ e.1 ≠ k := by
  rw [assign, List.mem_map]
  constructor
  · rintro ⟨x, hx, rfl⟩
    split
    · rename_i he
      exact Or.inl ⟨rfl, x, hx, he⟩
    · rename_i he
      exact Or.inr ⟨hx, he⟩
  · rintro (⟨rfl, x, hx, he⟩ | ⟨hx, he⟩)
    · exact ⟨x, hx, if_pos he⟩
    · exact ⟨e, hx, if_neg he⟩

theorem ascending_iff_map_fst {es : List (K × V)} :
    Ascending es ↔ (es.map Prod.fst).Pairwise (· < ·) := List.pairwise_map.symm

theorem ascending_assign {k : K} {v : V} {es : List (K × V)} (h : Ascending es) :
    Ascending (assign k v es) := by
  rw [ascending_iff_map_fst, map_fst_assign]
  exact ascending_iff_map_fst.mp h

theorem lookup_assign (k k' : K) (v : V) (es : List (K × V)) :
    (assign k v es).lookup k' =
      if k' = k then (es.lookup k).map (fun _ => v) else es.lookup k' := by
  induction es with
  | nil => simp [assign]
  | cons e es ih =>
    rw [assign, List.map_cons, lookup_cons, lookup_cons, lookup_cons]
    rw [assign] at ih
    by_cases he : e.1 = k
    · by_cases hk : k' = k
      · simp [he, hk]
      · simpa [he, hk] using ih
    · by_cases hk : k' = k
      · simpa [he, hk, Ne.symm he] using ih
      · rw [if_neg he, if_neg hk, ih, if_neg hk]

/-! ### Dropping a key -/

theorem without_append (k : K) (xs ys : List (K × V)) :
    without k (xs ++ ys) = without k xs ++ without k ys := List.filter_append _ _

theorem mem_without {k : K} {es : List (K × V)} {e : K × V} :
    e ∈ without k es ↔ e ∈ es ∧ e.1 ≠ k := by
  simp [without]

theorem without_of_forall_ne {k : K} {es : List (K × V)} (h : ∀ e ∈ es, e.1 ≠ k) :
    without k es = es := by
  rw [without, List.filter_eq_self]
  exact fun e he => by simpa using h e he

theorem ascending_without {k : K} {es : List (K × V)} (h : Ascending es) :
    Ascending (without k es) := h.filter _

theorem lookup_without {k k' : K} {es : List (K × V)} (h : Ascending es) :
    (without k es).lookup k' = if k' = k then none else es.lookup k' := by
  apply Option.ext
  intro w
  rw [lookup_eq_some (ascending_without h), mem_without]
  split
  · rename_i he
    simp [he]
  · rename_i hne
    rw [lookup_eq_some h]
    exact ⟨And.left, fun hm => ⟨hm, hne⟩⟩

/-! ### Scanning -/

theorem scan_append_of_lt {k : K} {n : ℕ} {xs ys : List (K × V)} (h : ∀ e ∈ xs, e.1 < k) :
    scan k n (xs ++ ys) = scan k n ys := by
  have hx : xs.filter (fun e => decide (k ≤ e.1)) = [] := by
    rw [List.filter_eq_nil_iff]
    exact fun e he => by simpa using h e he
  rw [scan, List.filter_append, hx, List.nil_append, scan]

theorem scan_append (k : K) (n : ℕ) (xs ys : List (K × V)) :
    scan k n (xs ++ ys) = scan k n xs ++ scan k (n - (scan k n xs).length) ys := by
  simp only [scan, List.filter_append, List.take_append, List.map_append, List.length_map,
    List.length_take]
  congr 3
  omega

end AscendingMap

structure AscendingMap (K V : Type) [LinearOrder K] where
  entries : List (K × V)
  ascending : AscendingMap.Ascending entries

namespace AscendingMap

variable {K V : Type} [LinearOrder K]

def find (m : AscendingMap K V) (k : K) : Option V := m.entries.lookup k

/-- Add an absent key; a present one keeps its value. -/
def insert (m : AscendingMap K V) (k : K) (v : V) : AscendingMap K V :=
  if h : m.find k = none then ⟨put k v m.entries, ascending_put m.ascending (lookup_eq_none.mp h)⟩
  else m

def replace (m : AscendingMap K V) (k : K) (v : V) : AscendingMap K V :=
  ⟨assign k v m.entries, ascending_assign m.ascending⟩

def erase (m : AscendingMap K V) (k : K) : AscendingMap K V :=
  ⟨without k m.entries, ascending_without m.ascending⟩

theorem find_erase (m : AscendingMap K V) (k k' : K) :
    (m.erase k).find k' = if k' = k then none else m.find k' :=
  lookup_without m.ascending

end AscendingMap
