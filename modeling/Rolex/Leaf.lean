import Rolex.Foundations.AscendingMap
import Rolex.Foundations.Widths

/-! The data leaf of `leaf.hpp`: two parallel arrays, an unused slot being
marked by the greatest key. The array indices are `u8` in the source and do
not wrap for a capacity `N` of at most 255, so they are natural numbers here.
`Leaf.Holds` says which entries a leaf stores; every operation is described
by what it does to them. -/

namespace Rolex
open AscendingMap

/-- `std::copy` and `std::copy_backward`: the elements of `[first, last)` are
written from `dest` on. -/
def moveRange {α : Type} (xs : List α) (first last dest : ℕ) : List α :=
  xs.mapIdx fun p x => if dest ≤ p ∧
    p < dest + (last - first) then xs.getD (p - dest + first) x else x

@[simp] theorem length_moveRange {α : Type} (xs : List α) (first last dest : ℕ) :
    (moveRange xs first last dest).length = xs.length := List.length_mapIdx

theorem getElem?_moveRange {α : Type} (xs : List α) {first last dest p : ℕ}
    (hl : last ≤ xs.length) (hd : dest + (last - first) ≤ xs.length) :
    (moveRange xs first last dest)[p]? =
      if dest ≤ p ∧ p < dest + (last - first) then xs[p - dest + first]? else xs[p]? := by
  rw [moveRange, List.getElem?_mapIdx]
  by_cases hp : p < xs.length
  · rw [List.getElem?_eq_getElem hp, Option.map_some]
    split
    · rw [List.getD_eq_getElem?_getD, List.getElem?_eq_getElem (by omega)]
      rfl
    · rfl
  · rw [List.getElem?_eq_none (by omega)]
    split
    · omega
    · rfl

theorem getElem?_append_add {α : Type} (A L : List α) (q : ℕ) :
    (A ++ L)[A.length + q]? = L[q]? := by
  rw [List.getElem?_append_right (by omega), Nat.add_sub_cancel_left]

theorem set_moveRange_up {α : Type} (A B : List α) (x y : α) (rest : List α) :
    (moveRange (A ++ (B ++ y :: rest)) A.length (A.length + B.length) (A.length + 1)).set A.length
    x =
      A ++ x :: (B ++ rest) := by
  apply List.ext_getElem?
  intro p
  rw [List.getElem?_set, getElem?_moveRange _ (by simp) (by simp; omega), length_moveRange]
  by_cases h1 : p < A.length
  · rw [if_neg (by omega), if_neg (by omega), List.getElem?_append_left h1,
      List.getElem?_append_left h1]
  obtain ⟨q, rfl⟩ : ∃ q, p = A.length + q := ⟨p - A.length, by omega⟩
  cases q with
  | zero => simp
  | succ q =>
    rw [if_neg (by omega), show A.length + (q + 1) - (A.length + 1) + A.length =
      A.length + q by omega, getElem?_append_add, getElem?_append_add, getElem?_append_add,
      List.getElem?_cons_succ]
    by_cases h2 : q < B.length
    · rw [if_pos (by omega), List.getElem?_append_left h2, List.getElem?_append_left h2]
    · obtain ⟨r, rfl⟩ : ∃ r, q = B.length + r := ⟨q - B.length, by omega⟩
      rw [if_neg (by omega), Nat.add_assoc, getElem?_append_add, getElem?_append_add,
        List.getElem?_cons_succ]

theorem moveRange_down {α : Type} (A B : List α) (x : α) :
    ∃ z, moveRange (A ++ x :: B) (A.length + 1) (A ++ x :: B).length A.length =
      A ++ (B ++ [z]) := by
  refine ⟨(x :: B).getLast (List.cons_ne_nil x B), List.ext_getElem? fun p => ?_⟩
  rw [getElem?_moveRange _ le_rfl (by simp only [List.length_append, List.length_cons]; omega),
    List.length_append, List.length_cons]
  by_cases h1 : p < A.length
  · rw [if_neg (by omega), List.getElem?_append_left h1, List.getElem?_append_left h1]
  obtain ⟨q, rfl⟩ : ∃ q, p = A.length + q := ⟨p - A.length, by omega⟩
  rw [show A.length + q - A.length + (A.length + 1) = A.length + (q + 1) by omega,
    getElem?_append_add, getElem?_append_add, getElem?_append_add, List.getElem?_cons_succ]
  by_cases h2 : q < B.length
  · rw [if_pos (by omega), List.getElem?_append_left h2]
  · obtain ⟨r, rfl⟩ : ∃ r, q = B.length + r := ⟨q - B.length, by omega⟩
    rw [if_neg (by omega), getElem?_append_add]
    cases r with
    | zero => simp [List.getLast_eq_getElem]
    | succ r => simp

structure Leaf (K V : Type) (N : ℕ) where
  keys : List K
  vals : List V
  keysLength : keys.length = N
  valsLength : vals.length = N

namespace Leaf

variable {K V : Type} {N : ℕ} [LinearOrder K] [OrderTop K]

abbrev invalidKey (K : Type) [LinearOrder K] [OrderTop K] : K := ⊤

/-- The constructor sets the keys; `vals` keeps what the memory held. -/
def construct (raw : Leaf K V N) : Leaf K V N :=
  ⟨List.replicate N (invalidKey K), raw.vals, List.length_replicate, raw.valsLength⟩

def key (leaf : Leaf K V N) (i : ℕ) : K := leaf.keys.getD i (invalidKey K)

def isfull (leaf : Leaf K V N) : Bool := decide (leaf.key (N - 1) ≠ invalidKey K)

def isEmpty (leaf : Leaf K V N) : Bool := decide (leaf.key 0 = invalidKey K)

/-- `some v` is the answer `true` with `v` written to the caller's variable. -/
def search (leaf : Leaf K V N) (key : K) : Option V :=
  if leaf.key 0 > key then none
  else (leaf.keys.findIdx? (fun k => k = key)).bind (fun i => leaf.vals[i]?)

def contain (leaf : Leaf K V N) (key : K) : Bool :=
  if leaf.key 0 > key then false else leaf.keys.any (fun k => k = key)

def update (leaf : Leaf K V N) (key : K) (val : V) : Bool × Leaf K V N :=
  if leaf.key 0 > key then (false, leaf)
  else match leaf.keys.findIdx? (fun k => k = key) with
    | some i => (true, ⟨leaf.keys, leaf.vals.set i val, leaf.keysLength,
        by rw [List.length_set, leaf.valsLength]⟩)
    | none => (false, leaf)

def insertHere (leaf : Leaf K V N) (key : K) : Bool := decide (key ≥ leaf.key 0)

/-- The first loop stops at the key itself or at a greater one, the second at the
first unused slot. -/
def insertNotFull (leaf : Leaf K V N) (key : K) (val : V) : ℕ × Leaf K V N :=
  let i := leaf.keys.findIdx (fun k => k = key ∨ k > key)
  if leaf.keys[i]? = some key then (0, leaf)
  else
    let j := i + ((leaf.keys.drop i).takeWhile (fun k => k ≠ invalidKey K)).length
    if j ≥ N then (N, leaf)
    else (i, ⟨(moveRange leaf.keys i j (i + 1)).set i key,
      (moveRange leaf.vals i j (i + 1)).set i val, by simp [leaf.keysLength], by
      simp [leaf.valsLength]⟩)

def remove (leaf : Leaf K V N) (key : K) : Bool × Leaf K V N :=
  match leaf.keys.findIdx? (fun k => k = key) with
  | some i => (true, ⟨(moveRange leaf.keys (i + 1) N i).set (N - 1) (invalidKey K),
      moveRange leaf.vals (i + 1) N i, by simp [leaf.keysLength], by simp [leaf.valsLength]⟩)
  | none => (false, leaf)

def rangeFrom (key : K) (n : ℕ) : List (K × V) → List V → List V
  | [], vals => vals
  | slot :: slots, vals =>
    if vals.length < n then
      if slot.1 = invalidKey K then vals
      else rangeFrom key n slots (if slot.1 ≥ key then vals ++ [slot.2] else vals)
    else vals

def range (leaf : Leaf K V N) (key : K) (n : ℕ) (vals : List V) : List V :=
  rangeFrom key n (leaf.keys.zip leaf.vals) vals

/-- The half-copy of `LeafTable::insert_synonym`: slots `mid..2*mid` of `cur` become
slots `0..mid` of `n_leaf` and are marked unused. -/
def moveHalf (cur nLeaf : Leaf K V N) : Leaf K V N × Leaf K V N :=
  let mid := N / 2
  (⟨cur.keys.mapIdx fun p k => if mid ≤ p ∧ p < mid + mid then invalidKey K else k, cur.vals,
      by simp [cur.keysLength], cur.valsLength⟩,
    ⟨nLeaf.keys.mapIdx fun p k => if p < mid then cur.keys.getD (mid + p) k else k,
      nLeaf.vals.mapIdx fun p v => if p < mid then cur.vals.getD (mid + p) v else v,
      by simp [nLeaf.keysLength], by simp [nLeaf.valsLength]⟩)

/-- The leaf stores the entries `es` and nothing else. -/
structure Holds (leaf : Leaf K V N) (es : List (K × V)) : Prop where
  ascending : Ascending es
  below : ∀ e ∈ es, e.1 < ⊤
  keys : leaf.keys = es.map Prod.fst ++ List.replicate (N - es.length) ⊤
  vals : leaf.vals.take es.length = es.map Prod.snd

namespace Holds

variable {leaf : Leaf K V N} {es : List (K × V)}

theorem length_le (h : leaf.Holds es) : es.length ≤ N := by
  have hl := leaf.keysLength
  rw [h.keys] at hl
  simp only [List.length_append, List.length_map, List.length_replicate] at hl
  omega

theorem vals_eq (h : leaf.Holds es) :
    leaf.vals = es.map Prod.snd ++ leaf.vals.drop es.length := by
  rw [← h.vals, List.take_append_drop]

theorem key_zero (h : leaf.Holds es) : leaf.key 0 = (es.head?.map Prod.fst).getD ⊤ := by
  rw [key, List.getD_eq_getElem?_getD, h.keys]
  cases es with
  | nil => cases N <;> simp
  | cons e es => simp

theorem insertHere_iff (h : leaf.Holds es) {k : K} (hk : k < ⊤) :
    leaf.insertHere k = true ↔ ∃ e rest, es = e :: rest ∧ e.1 ≤ k := by
  rw [insertHere, decide_eq_true_iff, h.key_zero]
  cases es with
  | nil => simp [hk.ne]
  | cons e es => simp

theorem isEmpty_iff (h : leaf.Holds es) : leaf.isEmpty = true ↔ es = [] := by
  rw [isEmpty, decide_eq_true_iff, h.key_zero]
  cases es with
  | nil => simp
  | cons e es => simp [(h.below e List.mem_cons_self).ne]

theorem key_below (h : leaf.Holds es) {p : ℕ} (hp : p < es.length) : leaf.key p ≠ ⊤ := by
  have hlen : p < (es.map Prod.fst).length := by rw [List.length_map]; exact hp
  have hkey : leaf.key p = es[p].1 := by
    rw [key, List.getD_eq_getElem?_getD, h.keys, List.getElem?_append_left hlen,
      List.getElem?_eq_getElem hlen, List.getElem_map, Option.getD_some]
  rw [hkey]
  exact (h.below _ (List.getElem_mem hp)).ne

theorem key_unused (h : leaf.Holds es) {p : ℕ} (hp : es.length ≤ p) : leaf.key p = ⊤ := by
  rw [key, List.getD_eq_getElem?_getD, h.keys,
    List.getElem?_append_right (by rw [List.length_map]; exact hp), List.getElem?_replicate]
  split <;> rfl

theorem isfull_iff (h : leaf.Holds es) (hN : 0 < N) : leaf.isfull = true ↔ es.length = N := by
  have hle := h.length_le
  rw [isfull, decide_eq_true_iff]
  constructor
  · intro hne
    by_contra hlt
    exact hne (h.key_unused (by omega))
  · intro hfull
    exact h.key_below (by omega)

end Holds

theorem construct_holds (raw : Leaf K V N) : (construct raw).Holds [] where
  ascending := List.Pairwise.nil
  below := by simp
  keys := by simp [construct]
  vals := by simp

/-! ### Search, contain, update -/

omit [OrderTop K] in
theorem findIdx?_bind_getElem? (k : K) (es : List (K × V)) (ks : List K) (us : List V)
    (hks : ∀ x ∈ ks, x ≠ k) :
    ((es.map Prod.fst ++ ks).findIdx? (fun x => x = k)).bind
        (fun i => (es.map Prod.snd ++ us)[i]?) = es.lookup k := by
  induction es with
  | nil =>
    have hnone : ks.findIdx? (fun x => decide (x = k)) = none := by
      simpa [List.findIdx?_eq_none_iff] using hks
    simp [hnone]
  | cons e es ih =>
    rw [lookup_cons, List.map_cons, List.cons_append, List.findIdx?_cons]
    by_cases he : e.1 = k
    · simp [he]
    · rw [if_neg (by simpa using he), if_neg fun hk => he hk.symm, ← ih, Option.bind_map]
      rfl

theorem lookup_eq_none_of_first_gt {leaf : Leaf K V N} {es : List (K × V)} (h : leaf.Holds es)
    {k : K} (hk : leaf.key 0 > k) : es.lookup k = none := by
  rw [h.key_zero] at hk
  cases es with
  | nil => rfl
  | cons e es =>
    refine lookup_eq_none.mpr fun x hx => ?_
    rcases List.mem_cons.mp hx with rfl | hx
    · exact hk.ne'
    · exact (hk.trans ((List.pairwise_cons.mp h.ascending).1 x hx)).ne'

theorem sentinel_ne {k : K} (hk : k < ⊤) (n : ℕ) : ∀ x ∈ List.replicate n (⊤ : K), x ≠ k := by
  intro x hx
  rw [(List.mem_replicate.mp hx).2]
  exact hk.ne'

theorem search_eq {leaf : Leaf K V N} {es : List (K × V)} (h : leaf.Holds es) {k : K}
    (hk : k < ⊤) : leaf.search k = es.lookup k := by
  rw [search]
  split
  · rename_i hgt
    exact (lookup_eq_none_of_first_gt h hgt).symm
  · rw [h.keys, h.vals_eq]
    exact findIdx?_bind_getElem? k es _ _ (sentinel_ne hk _)

theorem contain_eq {leaf : Leaf K V N} {es : List (K × V)} (h : leaf.Holds es) {k : K}
    (hk : k < ⊤) : leaf.contain k = (es.lookup k).isSome := by
  rw [contain]
  split
  · rename_i hgt
    rw [lookup_eq_none_of_first_gt h hgt]
    rfl
  · rw [h.keys, Bool.eq_iff_iff, List.any_eq_true, ← Option.ne_none_iff_isSome, ne_eq,
      lookup_eq_none]
    push Not
    constructor
    · rintro ⟨x, hx, hxk⟩
      rcases List.mem_append.mp hx with hx | hx
      · obtain ⟨e, he, rfl⟩ := List.mem_map.mp hx
        exact ⟨e, he, by simpa using hxk⟩
      · exact absurd (by simpa using hxk) (sentinel_ne hk _ x hx)
    · rintro ⟨e, he, hek⟩
      exact ⟨e.1, List.mem_append_left _ (List.mem_map_of_mem he), by simpa using hek⟩

theorem findIdx?_keys {leaf : Leaf K V N} {es xs ys : List (K × V)} {k : K} {v : V}
    (h : leaf.Holds es) (he : es = xs ++ (k, v) :: ys) (hx : ∀ e ∈ xs, e.1 ≠ k) :
    leaf.keys.findIdx? (fun x => x = k) = some xs.length := by
  have hnone : (xs.map Prod.fst).findIdx? (fun x => decide (x = k)) = none := by
    simpa [List.findIdx?_eq_none_iff] using fun a b hab => hx (a, b) hab
  rw [h.keys, he, List.map_append, List.append_assoc, List.findIdx?_append, hnone]
  simp [List.findIdx?_cons]

theorem findIdx?_keys_none {leaf : Leaf K V N} {es : List (K × V)} {k : K} (h : leaf.Holds es)
    (hk : k < ⊤) (hn : es.lookup k = none) : leaf.keys.findIdx? (fun x => x = k) = none := by
  rw [h.keys, List.findIdx?_eq_none_iff]
  intro x hx
  rcases List.mem_append.mp hx with hx | hx
  · obtain ⟨e, he, rfl⟩ := List.mem_map.mp hx
    simpa using lookup_eq_none.mp hn e he
  · simpa using sentinel_ne hk _ x hx

theorem update_of_none {leaf : Leaf K V N} {es : List (K × V)} {k : K} (h : leaf.Holds es)
    (hk : k < ⊤) (hn : es.lookup k = none) (v : V) : leaf.update k v = (false, leaf) := by
  rw [update, findIdx?_keys_none h hk hn]
  split <;> rfl

theorem update_of_some {leaf : Leaf K V N} {es : List (K × V)} {k : K} {w : V} (h : leaf.Holds es)
    (hs : es.lookup k = some w) (v : V) :
    (leaf.update k v).1 = true ∧ (leaf.update k v).2.Holds (assign k v es) := by
  obtain ⟨xs, ys, he, hx, hy⟩ := exists_mid h.ascending hs
  have hgt : ¬ leaf.key 0 > k := fun hgt => by
    rw [lookup_eq_none_of_first_gt h hgt] at hs
    simp at hs
  have hu : leaf.update k v = (true, ⟨leaf.keys, leaf.vals.set xs.length v, leaf.keysLength,
      by rw [List.length_set, leaf.valsLength]⟩) := by
    rw [update, if_neg hgt, findIdx?_keys h he hx]
  rw [hu]
  refine ⟨rfl, ascending_assign h.ascending, fun e hm => ?_, ?_, ?_⟩
  · have hm' := List.mem_map_of_mem (f := Prod.fst) hm
    rw [map_fst_assign] at hm'
    obtain ⟨x, hxm, hxe⟩ := List.mem_map.mp hm'
    exact hxe ▸ h.below x hxm
  · rw [map_fst_assign, length_assign]
    exact h.keys
  · have ha : assign k v es = xs ++ (k, v) :: ys := by
      rw [he, assign_append, assign_of_forall_ne hx, assign, List.map_cons, if_pos rfl, ← assign,
        assign_of_forall_ne hy]
    have hv := h.vals
    rw [length_assign, List.take_set, hv, ha, he]
    simp

theorem update_holds {leaf : Leaf K V N} {es : List (K × V)} {k : K} (h : leaf.Holds es)
    (hk : k < ⊤) (v : V) :
    (leaf.update k v).1 = (es.lookup k).isSome ∧ (leaf.update k v).2.Holds (assign k v es) := by
  cases hs : es.lookup k with
  | none =>
    rw [update_of_none h hk hs, assign_of_forall_ne (lookup_eq_none.mp hs)]
    exact ⟨rfl, h⟩
  | some w => exact update_of_some h hs v

/-! ### insert_not_full, remove -/

theorem Holds.drop_keys {leaf : Leaf K V N} {es xs ys : List (K × V)} (h : leaf.Holds es)
    (he : es = xs ++ ys) :
    leaf.keys.drop xs.length = ys.map Prod.fst ++ List.replicate (N - es.length) ⊤ := by
  have hkeys : leaf.keys =
      xs.map Prod.fst ++ (ys.map Prod.fst ++ List.replicate (N - es.length) ⊤) := by
    rw [h.keys, he, List.map_append, List.append_assoc]
  exact hkeys ▸ List.drop_left' (List.length_map _)

theorem findIdx_of_below {leaf : Leaf K V N} {es xs ys : List (K × V)} {k : K} (h : leaf.Holds es)
    (he : es = xs ++ ys) (hx : ∀ e ∈ xs, e.1 < k)
    (hy : ∀ z ∈ (ys.map Prod.fst ++ List.replicate (N - es.length) ⊤).head?, z = k ∨ z > k) :
    leaf.keys.findIdx (fun x => x = k ∨ x > k) = xs.length := by
  have hkeys : leaf.keys =
      xs.map Prod.fst ++ (ys.map Prod.fst ++ List.replicate (N - es.length) ⊤) := by
    rw [h.keys, he, List.map_append, List.append_assoc]
  rw [hkeys, List.findIdx_append, if_neg]
  · cases hrest : ys.map Prod.fst ++ List.replicate (N - es.length) ⊤ with
    | nil => simp
    | cons z zs =>
      have hz : z = k ∨ z > k := hy z (by rw [hrest]; rfl)
      rw [List.findIdx_cons, decide_eq_true hz, cond_true, Nat.zero_add, List.length_map]
  · simp only [List.findIdx_lt_length, List.mem_map, decide_eq_true_eq]
    rintro ⟨_, ⟨e, hem, rfl⟩, hek⟩
    exact hek.elim (hx e hem).ne (hx e hem).asymm

theorem findIdx_of_absent {leaf : Leaf K V N} {es xs ys : List (K × V)} {k : K} (h : leaf.Holds es)
    (hk : k < ⊤) (he : es = xs ++ ys) (hx : ∀ e ∈ xs, e.1 < k) (hy : ∀ e ∈ ys, k < e.1) :
    leaf.keys.findIdx (fun x => x = k ∨ x > k) = xs.length ∧ leaf.keys[xs.length]? ≠ some k := by
  have hgt : ∀ z ∈ (ys.map Prod.fst ++ List.replicate (N - es.length) ⊤).head?, z > k := by
    intro z hz
    rcases List.mem_append.mp (List.mem_of_mem_head? hz) with hz | hz
    · obtain ⟨e, hem, rfl⟩ := List.mem_map.mp hz
      exact hy e hem
    · rw [(List.mem_replicate.mp hz).2]
      exact hk
  refine ⟨findIdx_of_below h he hx fun z hz => Or.inr (hgt z hz), fun heq => ?_⟩
  rw [← Nat.add_zero xs.length, ← List.getElem?_drop, h.drop_keys he,
    ← List.head?_eq_getElem?] at heq
  exact lt_irrefl k (hgt k heq)

theorem findIdx_of_present {leaf : Leaf K V N} {es xs ys : List (K × V)} {k : K} {w : V}
    (h : leaf.Holds es) (he : es = xs ++ (k, w) :: ys) :
    leaf.keys.findIdx (fun x => x = k ∨ x > k) = xs.length ∧ leaf.keys[xs.length]? = some k := by
  have hx : ∀ e ∈ xs, e.1 < k := fun e hem =>
    (ascending_append.mp (he ▸ h.ascending)).2.2 e hem (k, w) List.mem_cons_self
  refine ⟨findIdx_of_below h he hx fun z hz => Or.inl (Option.some.inj hz).symm, ?_⟩
  rw [← Nat.add_zero xs.length, ← List.getElem?_drop, h.drop_keys he]
  rfl

theorem length_takeWhile_keys {leaf : Leaf K V N} {es xs ys : List (K × V)} (h : leaf.Holds es)
    (he : es = xs ++ ys) :
    ((leaf.keys.drop xs.length).takeWhile (fun x => x ≠ invalidKey K)).length = ys.length := by
  rw [h.drop_keys he, List.takeWhile_append_of_pos]
  · have hunused : (List.replicate (N - es.length) (⊤ : K)).takeWhile (fun x => x ≠ invalidKey K) =
        [] := by
      cases N - es.length <;> simp [List.replicate_succ]
    rw [hunused, List.append_nil, List.length_map]
  · intro x hxm
    obtain ⟨e, hem, rfl⟩ := List.mem_map.mp hxm
    simpa using (h.below e (he ▸ List.mem_append_right _ hem)).ne

theorem Holds.arrays_of_room {leaf : Leaf K V N} {es xs ys : List (K × V)} (h : leaf.Holds es)
    (he : es = xs ++ ys) (hroom : es.length < N) : ∃ m w us, N - es.length = m + 1 ∧
      leaf.keys = xs.map Prod.fst ++ (ys.map Prod.fst ++ ⊤ :: List.replicate m ⊤) ∧
      leaf.vals = xs.map Prod.snd ++ (ys.map Prod.snd ++ w :: us) := by
  obtain ⟨m, hm⟩ : ∃ m, N - es.length = m + 1 := ⟨N - es.length - 1, by omega⟩
  obtain ⟨w, us, hus⟩ : ∃ w us, leaf.vals.drop es.length = w :: us := by
    cases hd : leaf.vals.drop es.length with
    | nil =>
      have hlen := congrArg List.length hd
      simp only [List.length_drop, leaf.valsLength, List.length_nil] at hlen
      omega
    | cons w us => exact ⟨w, us, rfl⟩
  refine ⟨m, w, us, hm, ?_, ?_⟩
  · rw [h.keys, hm, he, List.map_append, List.append_assoc, List.replicate_succ]
  · rw [h.vals_eq, hus, he, List.map_append, List.append_assoc]

theorem holds_put {leaf leaf' : Leaf K V N} {es xs ys : List (K × V)} {k : K} {v : V} {m : ℕ}
    {us : List V} (h : leaf.Holds es) (hk : k < ⊤) (he : es = xs ++ ys) (hx : ∀ e ∈ xs, e.1 < k)
    (hy : ∀ e ∈ ys, k < e.1) (hm : N - es.length = m + 1)
    (hkeys : leaf'.keys = xs.map Prod.fst ++ k :: (ys.map Prod.fst ++ List.replicate m ⊤))
    (hvals : leaf'.vals = xs.map Prod.snd ++ v :: (ys.map Prod.snd ++ us)) :
    leaf'.Holds (put k v es) := by
  have hput : put k v es = xs ++ (k, v) :: ys := he ▸ put_of_cut hx hy
  have habs : ∀ e ∈ es, e.1 ≠ k := fun e hem => by
    rcases List.mem_append.mp (he ▸ hem) with hem | hem
    · exact (hx e hem).ne
    · exact (hy e hem).ne'
  refine ⟨ascending_put h.ascending habs, fun e hem => ?_, ?_, ?_⟩
  · rcases mem_put.mp hem with rfl | hem
    · exact hk
    · exact h.below e hem
  · rw [length_put, show N - (es.length + 1) = m by omega, hput, hkeys]
    simp
  · have hcut : xs.map Prod.snd ++ v :: (ys.map Prod.snd ++ us) =
      (xs ++ (k, v) :: ys).map Prod.snd ++ us := by simp
    rw [hput, hvals, hcut]
    exact List.take_left' (List.length_map _)

theorem insertNotFull_holds {leaf : Leaf K V N} {es : List (K × V)} {k : K} (h : leaf.Holds es)
    (hk : k < ⊤) (hn : es.lookup k = none) (hroom : es.length < N) (v : V) :
    (leaf.insertNotFull k v).2.Holds (put k v es) := by
  obtain ⟨xs, ys, he, hx, hy⟩ := exists_cut h.ascending (lookup_eq_none.mp hn)
  obtain ⟨m, w, us, hm, hkeys, hvals⟩ := h.arrays_of_room he hroom
  obtain ⟨hi, hne⟩ := findIdx_of_absent h hk he hx hy
  have hj := length_takeWhile_keys h he
  have hlen : xs.length + ys.length < N := by
    rw [he, List.length_append] at hroom
    exact hroom
  have hup := set_moveRange_up (xs.map Prod.fst) (ys.map Prod.fst) k ⊤ (List.replicate m ⊤)
  have hvp := set_moveRange_up (xs.map Prod.snd) (ys.map Prod.snd) v w us
  rw [← hkeys] at hup
  rw [← hvals] at hvp
  simp only [List.length_map] at hup hvp
  rw [insertNotFull]
  simp only [hi, hj, if_neg hne, if_neg (not_le.mpr hlen), ge_iff_le]
  exact holds_put h hk he hx hy hm hup hvp

theorem insertNotFull_of_some {leaf : Leaf K V N} {es : List (K × V)} {k : K} {w : V}
    (h : leaf.Holds es) (hs : es.lookup k = some w) (v : V) :
    leaf.insertNotFull k v = (0, leaf) := by
  obtain ⟨xs, ys, he, -, -⟩ := exists_mid h.ascending hs
  obtain ⟨hi, hkey⟩ := findIdx_of_present h he
  rw [insertNotFull]
  simp only [hi, if_pos hkey]

theorem insertNotFull_of_full {leaf : Leaf K V N} {es : List (K × V)} {k : K} (h : leaf.Holds es)
    (hk : k < ⊤) (hn : es.lookup k = none) (hfull : es.length = N) (v : V) :
    leaf.insertNotFull k v = (N, leaf) := by
  obtain ⟨xs, ys, he, hx, hy⟩ := exists_cut h.ascending (lookup_eq_none.mp hn)
  obtain ⟨hi, hne⟩ := findIdx_of_absent h hk he hx hy
  have hj := length_takeWhile_keys h he
  have hlen : N ≤ xs.length + ys.length := by
    rw [he, List.length_append] at hfull
    exact hfull.ge
  rw [insertNotFull]
  simp only [hi, hj, if_neg hne, if_pos hlen, ge_iff_le]

theorem remove_of_none {leaf : Leaf K V N} {es : List (K × V)} {k : K} (h : leaf.Holds es)
    (hk : k < ⊤) (hn : es.lookup k = none) : leaf.remove k = (false, leaf) := by
  rw [remove, findIdx?_keys_none h hk hn]

theorem remove_of_some {leaf : Leaf K V N} {es : List (K × V)} {k : K} {w : V} (h : leaf.Holds es)
    (hs : es.lookup k = some w) :
    (leaf.remove k).1 = true ∧ (leaf.remove k).2.Holds (without k es) := by
  obtain ⟨xs, ys, he, hx, hy⟩ := exists_mid h.ascending hs
  have hw : without k es = xs ++ ys := by
    rw [he, without_append, without_of_forall_ne hx, without, List.filter_cons_of_neg (by simp),
      ← without, without_of_forall_ne hy]
  have hle := h.length_le
  have hkeys : leaf.keys =
      xs.map Prod.fst ++ k :: (ys.map Prod.fst ++ List.replicate (N - es.length) ⊤) := by
    rw [h.keys, he, List.map_append, List.append_assoc]
    rfl
  have hvals : leaf.vals =
      xs.map Prod.snd ++ w :: (ys.map Prod.snd ++ leaf.vals.drop es.length) := by
    conv_lhs => rw [h.vals_eq, he, List.map_append, List.append_assoc]
    rw [he]
    rfl
  obtain ⟨a, ha⟩ := moveRange_down (xs.map Prod.fst)
    (ys.map Prod.fst ++ List.replicate (N - es.length) ⊤) k
  obtain ⟨b, hb⟩ := moveRange_down (xs.map Prod.snd)
    (ys.map Prod.snd ++ leaf.vals.drop es.length) w
  rw [← hkeys, leaf.keysLength, List.length_map] at ha
  rw [← hvals, leaf.valsLength, List.length_map] at hb
  have hN : N - 1 = xs.length + (ys.length + (N - es.length)) := by
    have hlen := congrArg List.length he
    simp only [List.length_append, List.length_cons] at hlen
    omega
  rw [remove, findIdx?_keys h he hx]
  refine ⟨rfl, ascending_without h.ascending, fun e hm => h.below e (mem_without.mp hm).1, ?_, ?_⟩
  · have hlast : xs.map Prod.fst ++ (ys.map Prod.fst ++ List.replicate (N - es.length) ⊤ ++ [a]) =
        (xs.map Prod.fst ++ ys.map Prod.fst ++ List.replicate (N - es.length) ⊤) ++ [a] := by simp
    have hlen : N - (xs ++ ys).length = N - es.length + 1 := by
      have := congrArg List.length he
      simp only [List.length_append, List.length_cons] at this ⊢
      omega
    simp only [ha, hlast]
    rw [List.set_append_right _ _ (by simp; omega), hw, hlen, List.replicate_succ']
    simp [hN]
  · have hcut : xs.map Prod.snd ++ (ys.map Prod.snd ++ leaf.vals.drop es.length ++ [b]) =
        (xs ++ ys).map Prod.snd ++ (leaf.vals.drop es.length ++ [b]) := by simp
    simp only [hb, hw, hcut]
    exact List.take_left' (by simp)

theorem remove_holds {leaf : Leaf K V N} {es : List (K × V)} {k : K} (h : leaf.Holds es)
    (hk : k < ⊤) :
    (leaf.remove k).1 = (es.lookup k).isSome ∧ (leaf.remove k).2.Holds (without k es) := by
  cases hs : es.lookup k with
  | none =>
    rw [remove_of_none h hk hs, without_of_forall_ne (lookup_eq_none.mp hs)]
    exact ⟨rfl, h⟩
  | some w => exact remove_of_some h hs

/-! ### range -/

theorem rangeFrom_eq (key : K) (n : ℕ) {es : List (K × V)} (hb : ∀ e ∈ es, e.1 < ⊤)
    {unused : List (K × V)} (hu : ∀ e ∈ unused, e.1 = ⊤) (vals : List V) :
    rangeFrom key n (es ++ unused) vals = vals ++ scan key (n - vals.length) es := by
  induction es generalizing vals with
  | nil =>
    cases unused with
    | nil => simp [rangeFrom, scan]
    | cons u us =>
      rw [List.nil_append, rangeFrom, hu u List.mem_cons_self]
      simp [scan]
  | cons e es ih =>
    have ih := ih fun x hx => hb x (List.mem_cons_of_mem _ hx)
    rw [List.cons_append, rangeFrom, if_neg (hb e List.mem_cons_self).ne]
    split
    · rename_i hlt
      rw [ih]
      by_cases hk : key ≤ e.1
      · obtain ⟨m, hm⟩ : ∃ m, n - vals.length = m + 1 := ⟨n - vals.length - 1, by omega⟩
        simp [scan, hk, hm, show n - (vals.length + 1) = m by omega]
      · simp [scan, hk]
    · rename_i hge
      simp [scan, show n - vals.length = 0 by omega]

theorem Holds.zip_eq {leaf : Leaf K V N} {es : List (K × V)} (h : leaf.Holds es) :
    ∃ unused, leaf.keys.zip leaf.vals = es ++ unused ∧ ∀ e ∈ unused, e.1 = ⊤ := by
  refine ⟨(List.replicate (N - es.length) ⊤).zip (leaf.vals.drop es.length), ?_, fun e he => ?_⟩
  · conv_lhs => rw [h.keys, h.vals_eq]
    rw [List.zip_append (by simp), List.zip_map']
    simp
  · exact (List.mem_replicate.mp (List.of_mem_zip (a := e.1) (b := e.2) he).1).2

theorem range_eq {leaf : Leaf K V N} {es : List (K × V)} (h : leaf.Holds es) (key : K) (n : ℕ)
    (vals : List V) : leaf.range key n vals = vals ++ scan key (n - vals.length) es := by
  obtain ⟨unused, hzip, hunused⟩ := h.zip_eq
  rw [range, hzip]
  exact rangeFrom_eq key n h.below hunused vals

/-! ### The half-copy -/

theorem moveHalf_holds {cur nLeaf : Leaf K V N} {es : List (K × V)} (h : cur.Holds es)
    (hn : nLeaf.Holds []) (hN : Even N) (hfull : es.length = N) :
    (moveHalf cur nLeaf).1.Holds (es.take (N / 2)) ∧
      (moveHalf cur nLeaf).2.Holds (es.drop (N / 2)) := by
  obtain ⟨mid, rfl⟩ := hN
  have hmid : (mid + mid) / 2 = mid := by omega
  have hck : cur.keys = es.map Prod.fst := by simpa [hfull] using h.keys
  have hcv : cur.vals = es.map Prod.snd := by
    rw [← h.vals, List.take_of_length_le (by rw [cur.valsLength, hfull])]
  have hnk : nLeaf.keys = List.replicate (mid + mid) ⊤ := by simpa using hn.keys
  rw [hmid]
  constructor
  · refine ⟨h.ascending.sublist (List.take_sublist _ _),
      fun e he => h.below e (List.mem_of_mem_take he), ?_, ?_⟩
    · simp only [moveHalf, hmid, hck]
      apply List.ext_getElem (by simp; omega)
      intro p hp _
      simp only [List.length_mapIdx, List.length_map] at hp
      simp only [List.getElem_mapIdx, List.getElem_map, List.getElem_append, List.length_map,
        List.length_take, List.getElem_take, List.getElem_replicate]
      by_cases hlow : p < mid
      · rw [if_neg (by omega), dif_pos (by omega)]
      · rw [if_pos (by omega), dif_neg (by omega)]
    · simp only [moveHalf, hcv, List.length_take, List.map_take]
      congr 1
      omega
  · have hlen : (es.drop mid).length = mid := by rw [List.length_drop]; omega
    refine ⟨h.ascending.sublist (List.drop_sublist _ _),
      fun e he => h.below e (List.mem_of_mem_drop he), ?_, ?_⟩
    · simp only [moveHalf, hmid, hck, hnk, hlen]
      apply List.ext_getElem (by simp; omega)
      intro p hp _
      simp only [List.length_mapIdx, List.length_replicate] at hp
      simp only [List.getElem_mapIdx, List.getElem_map, List.getElem_append, List.length_map,
        hlen, List.getElem_drop, List.getElem_replicate]
      by_cases hlow : p < mid
      · rw [if_pos hlow, dif_pos hlow, List.getD_eq_getElem _ _ (by simp; omega), List.getElem_map]
      · rw [if_neg hlow, dif_neg hlow]
    · simp only [moveHalf, hmid, hcv, hlen]
      apply List.ext_getElem (by simp [nLeaf.valsLength, hfull])
      intro p hp _
      simp only [List.length_take, List.length_mapIdx] at hp
      simp only [List.getElem_take, List.getElem_mapIdx, List.getElem_map, List.getElem_drop]
      rw [if_pos (by omega), List.getD_eq_getElem _ _ (by simp; omega), List.getElem_map]

end Leaf
end Rolex
