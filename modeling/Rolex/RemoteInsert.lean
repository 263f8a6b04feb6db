import Rolex.LeafLoops

/-!
`insert_to_remote` of `leaf.hpp`, the insertion that compute nodes ask for. It moves the slots one
by one and may drop the last entry of a full leaf.
-/

namespace Rolex.Leaf
open AscendingMap

variable {K V : Type} {N : ℕ} [LinearOrder K] [OrderTop K]

/-- `while(this->keys[j]!=invalidKey()) j++`, for at most `fuel` turns. -/
def scanUsed (leaf : Leaf K V N) : ℕ → UInt8 → Except LeafFault UInt8
  | 0, _ => .error .hang
  | fuel + 1, j =>
    if j.toNat < N then if leaf.key j.toNat = invalidKey K then
      .ok j else leaf.scanUsed fuel (j + 1)
    else .error .outOfBounds

def copyBelow (leaf : Leaf K V N) (j : ℕ) : Except LeafFault (Leaf K V N) :=
  if h : 0 < j ∧ j < N then
    .ok ⟨leaf.keys.set j (leaf.keys.get ⟨j - 1, by rw [leaf.keysLength]; omega⟩),
      leaf.vals.set j (leaf.vals.get ⟨j - 1, by rw [leaf.valsLength]; omega⟩),
      by rw [List.length_set, leaf.keysLength], by rw [List.length_set, leaf.valsLength]⟩
  else .error .outOfBounds

/-- `while(i!=j)`, for at most `fuel` turns. -/
def shiftSlots (i : UInt8) : ℕ → UInt8 → Leaf K V N → Except LeafFault (Leaf K V N)
  | 0, _, _ => .error .hang
  | fuel + 1, j, leaf =>
    if i ≠ j then do
      let leaf ← leaf.copyBelow j.toNat
      shiftSlots i fuel (j - 1) leaf
    else .ok leaf

def setSlot (leaf : Leaf K V N) (i : ℕ) (key : K) (val : V) : Except LeafFault (Leaf K V N) :=
  if i < N then
    .ok ⟨leaf.keys.set i key, leaf.vals.set i val, by rw [List.length_set, leaf.keysLength],
      by rw [List.length_set, leaf.valsLength]⟩
  else .error .outOfBounds

/-- The state of an insertion at slot `i`, and the slot that its last moved entry goes to. -/
def shiftEnd (leaf : Leaf K V N) (i : UInt8) : Except LeafFault (UInt8 × UInt8) :=
  if leaf.isfull then .ok (2, UInt8.ofNat (N - 1))
  else do
    let j ← leaf.scanUsed 256 i
    .ok (1, j)

def insertToRemote (leaf : Leaf K V N) (key : K) (val : V) :
    Except LeafFault ((UInt8 × UInt8) × Leaf K V N) := do
  let i ← scanSlots N (fun p => leaf.key p = key ∨ leaf.key p > key) 256 0
  if i.toNat < N ∧ leaf.key i.toNat = key then .ok ((0, i), leaf)
  else if i.toNat ≥ N then .ok ((3, 0), leaf)
  else do
    let last ← leaf.shiftEnd i
    if last.2.toNat < N then do
      let moved ← shiftSlots i 256 last.2 leaf
      let leaf ← moved.setSlot i.toNat key val
      .ok ((last.1, 0), leaf)
    else .error .wrongLeaf

/-! ### The loops -/

theorem toNat_pred {j : UInt8} (h : 0 < j.toNat) : (j - 1).toNat = j.toNat - 1 := by
  have hle : 1 ≤ j := UInt8.le_iff_toNat_le.mpr (by rw [UInt8.toNat_one]; exact h)
  rw [UInt8.toNat_sub_of_le _ _ hle, UInt8.toNat_one]

theorem scanUsed_ok (leaf : Leaf K V N) (hN : N ≤ 255) {u : ℕ} (hu : u < N)
    (hunused : leaf.key u = ⊤) (fuel : ℕ) :
    ∀ {j : UInt8}, j.toNat ≤ u → (∀ p, j.toNat ≤ p → p < u → leaf.key p ≠ ⊤) → u - j.toNat < fuel →
      ∃ r, leaf.scanUsed fuel j = .ok r ∧ r.toNat = u := by
  induction fuel with
  | zero => exact fun _ _ hfuel => absurd hfuel (Nat.not_lt_zero _)
  | succ fuel ih =>
    intro j hj hused hfuel
    unfold scanUsed
    rw [if_pos (hj.trans_lt hu)]
    by_cases hju : j.toNat = u
    · rw [if_pos (by rw [hju]; exact hunused)]
      exact ⟨j, rfl, hju⟩
    · have hnext := toNat_succ (j := j) (by omega)
      rw [if_neg (hused _ le_rfl (by omega))]
      exact ih (by omega) (fun p hp hpu => hused p (by omega) hpu) (by omega)

omit [LinearOrder K] [OrderTop K] in
theorem copyBelow_ok {leaf : Leaf K V N} {A rest : List K} {b y : K} {A' us : List V} {c w : V}
    (hkeys : leaf.keys = A ++ b :: y :: rest) (hvals : leaf.vals = A' ++ c :: w :: us)
    (hA : A'.length = A.length) :
    ∃ leaf', leaf.copyBelow (A.length + 1) = .ok leaf' ∧ leaf'.keys = A ++ b :: b :: rest ∧
      leaf'.vals = A' ++ c :: c :: us := by
  have hlen : A.length + 1 < N := by
    rw [← leaf.keysLength, hkeys, List.length_append, List.length_cons, List.length_cons]
    omega
  refine ⟨_, dif_pos ⟨Nat.succ_pos _, hlen⟩, ?_, ?_⟩
  · simp only [List.get_eq_getElem, hkeys, Nat.add_sub_cancel]
    simp
  · simp only [List.get_eq_getElem, hvals, Nat.add_sub_cancel, ← hA]
    simp

omit [LinearOrder K] [OrderTop K] in
theorem setSlot_ok {leaf : Leaf K V N} {A rest : List K} {y : K} {A' us : List V} {w : V}
    (hkeys : leaf.keys = A ++ y :: rest) (hvals : leaf.vals = A' ++ w :: us)
    (hA : A'.length = A.length) (k : K) (v : V) : ∃ leaf', leaf.setSlot A.length k v = .ok leaf' ∧
    leaf'.keys = A ++ k :: rest ∧ leaf'.vals = A' ++ v :: us := by
  have hlen : A.length < N := by
    rw [← leaf.keysLength, hkeys, List.length_append, List.length_cons]
    omega
  refine ⟨_, if_pos hlen, ?_, ?_⟩
  · simp [hkeys]
  · simp [hvals, ← hA]

omit [LinearOrder K] [OrderTop K] in
/-- The moving loop takes the entries `ys` one slot up; what stands at slot `i` then is overwritten
by its caller. -/
theorem shiftSlots_ok {i : UInt8} {xs : List (K × V)} (hi : i.toNat = xs.length)
    {ys : List (K × V)} :
    ∀ (fuel : ℕ) {j : UInt8} {leaf : Leaf K V N} {y : K} {rest : List K} {w : V} {us : List V},
      j.toNat = xs.length + ys.length → ys.length < fuel →
      leaf.keys = xs.map Prod.fst ++ (ys.map Prod.fst ++ y :: rest) →
      leaf.vals = xs.map Prod.snd ++ (ys.map Prod.snd ++ w :: us) →
      ∃ leaf' z u, shiftSlots i fuel j leaf = .ok leaf' ∧
        leaf'.keys = xs.map Prod.fst ++ z :: (ys.map Prod.fst ++ rest) ∧
        leaf'.vals = xs.map Prod.snd ++ u :: (ys.map Prod.snd ++ us) := by
  induction ys using List.reverseRecOn with
  | nil =>
    intro fuel j leaf y rest w us hj hfuel hkeys hvals
    obtain ⟨fuel, rfl⟩ : ∃ n, fuel = n + 1 := ⟨fuel - 1, by omega⟩
    have hij : i = j := UInt8.toNat_inj.mp (hi.trans hj.symm)
    exact ⟨leaf, y, w, if_neg (not_not.mpr hij), hkeys, hvals⟩
  | append_singleton ys e ih =>
    intro fuel j leaf y rest w us hj hfuel hkeys hvals
    rw [List.length_append, List.length_singleton] at hj hfuel
    obtain ⟨fuel, rfl⟩ : ∃ n, fuel = n + 1 := ⟨fuel - 1, by omega⟩
    have hij : i ≠ j := fun heq => by
      rw [heq, hj] at hi
      omega
    have hkeys' : leaf.keys = (xs.map Prod.fst ++ ys.map Prod.fst) ++ e.1 :: y :: rest := by
      rw [hkeys]
      simp
    have hvals' : leaf.vals = (xs.map Prod.snd ++ ys.map Prod.snd) ++ e.2 :: w :: us := by
      rw [hvals]
      simp
    obtain ⟨leaf₁, hcopy, hk₁, hv₁⟩ := copyBelow_ok hkeys' hvals' (by simp)
    have hat : (xs.map Prod.fst ++ ys.map Prod.fst).length + 1 = j.toNat := by
      rw [hj, List.length_append, List.length_map, List.length_map, Nat.add_assoc]
    have hpred := toNat_pred (j := j) (by omega)
    rw [List.append_assoc] at hk₁ hv₁
    obtain ⟨leaf', z, u, hrest, hk', hv'⟩ := ih fuel (j := j - 1) (by omega) (by omega) hk₁ hv₁
    refine ⟨leaf', z, u, ?_, ?_, ?_⟩
    · rw [shiftSlots, if_pos hij, ← hat, hcopy, ok_bind, hrest]
    · rw [hk']
      simp
    · rw [hv']
      simp

/-! ### What insert_to_remote does -/

section Insertion

variable {leaf : Leaf K V N} {es xs ys : List (K × V)} {k : K} {v : V}

theorem insertToRemote_of_some (h : leaf.Holds es) (hN : N ≤ 255) {w : V}
    (hs : es.lookup k = some w) : ∃ i, leaf.insertToRemote k v = .ok ((0, i), leaf) := by
  obtain ⟨ps, qs, he, -, -⟩ := exists_mid h.ascending hs
  obtain ⟨i, hi, -, hival⟩ := leaf.scanSlots_zero hN (fun x => x = k ∨ x > k)
  obtain ⟨hfind, hkey⟩ := findIdx_of_present h he
  rw [hfind] at hival
  rw [← hival] at hkey
  refine ⟨i, ?_⟩
  unfold insertToRemote
  rw [hi, ok_bind, if_pos ((leaf.getElem?_keys_eq_iff _ _).mp hkey)]

theorem insertToRemote_of_moved (h : leaf.Holds es) (hN : N ≤ 255) (hk : k < ⊤) (he : es = xs ++ ys)
    (hx : ∀ e ∈ xs, e.1 < k) (hy : ∀ e ∈ ys, k < e.1) {zs : List (K × V)} {y : K} {rest : List K}
    {w : V} {us : List V} (hkeys : leaf.keys = xs.map Prod.fst ++ (zs.map Prod.fst ++ y :: rest))
    (hvals : leaf.vals = xs.map Prod.snd ++ (zs.map Prod.snd ++ w :: us)) {st : UInt8}
    (hend : ∀ i : UInt8, i.toNat = xs.length → ∃ j, leaf.shiftEnd i = .ok (st, j) ∧
      j.toNat = xs.length + zs.length) :
    ∃ leaf', leaf.insertToRemote k v = .ok ((st, 0), leaf') ∧
      leaf'.keys = xs.map Prod.fst ++ k :: (zs.map Prod.fst ++ rest) ∧
      leaf'.vals = xs.map Prod.snd ++ v :: (zs.map Prod.snd ++ us) := by
  obtain ⟨i, hi, -, hival⟩ := leaf.scanSlots_zero hN (fun x => x = k ∨ x > k)
  obtain ⟨hfind, hne⟩ := findIdx_of_absent h hk he hx hy
  rw [hfind] at hival
  rw [← hival] at hne
  obtain ⟨j, hj, hjval⟩ := hend i hival
  have hlen : xs.length + zs.length < N := by
    rw [← leaf.keysLength, hkeys]
    simp
  obtain ⟨leaf₁, z, u, hshift, hk₁, hv₁⟩ := shiftSlots_ok hival 256 hjval (by omega) hkeys hvals
  obtain ⟨leaf', hset, hk', hv'⟩ := setSlot_ok hk₁ hv₁ (by simp) k v
  rw [List.length_map, ← hival] at hset
  have hjN : j.toNat < N := by omega
  refine ⟨leaf', ?_, hk', hv'⟩
  unfold insertToRemote
  rw [hi, ok_bind, if_neg fun hc => hne ((leaf.getElem?_keys_eq_iff _ _).mpr hc), if_neg (by omega),
    hj, ok_bind, if_pos hjN, hshift, ok_bind, hset, ok_bind]

theorem insertToRemote_of_room (h : leaf.Holds es) (hN0 : 0 < N) (hN : N ≤ 255) (hk : k < ⊤)
    (hn : es.lookup k = none) (hroom : es.length < N) :
    ∃ leaf', leaf.insertToRemote k v = .ok ((1, 0), leaf') ∧ leaf'.Holds (put k v es) := by
  obtain ⟨xs, ys, he, hx, hy⟩ := exists_cut h.ascending (lookup_eq_none.mp hn)
  obtain ⟨m, w, us, hm, hkeys, hvals⟩ := h.arrays_of_room he hroom
  have hlen : es.length = xs.length + ys.length := by rw [he, List.length_append]
  have hnot : leaf.isfull = false := by
    rw [Bool.eq_false_iff]
    exact fun hfull => hroom.ne ((h.isfull_iff hN0).mp hfull)
  have hend : ∀ i : UInt8, i.toNat = xs.length →
      ∃ j, leaf.shiftEnd i = .ok (1, j) ∧ j.toNat = xs.length + ys.length := by
    intro i hi
    obtain ⟨j, hj, hjval⟩ := leaf.scanUsed_ok hN hroom (h.key_unused le_rfl) 256 (j := i) (by omega)
      (fun p _ hp => h.key_below hp) (by omega)
    refine ⟨j, ?_, hjval.trans hlen⟩
    unfold shiftEnd
    rw [hnot, hj]
    rfl
  obtain ⟨leaf', hok, hk', hv'⟩ :=
    insertToRemote_of_moved (v := v) h hN hk he hx hy hkeys hvals hend
  exact ⟨leaf', hok, holds_put h hk he hx hy hm hk' hv'⟩

theorem insertToRemote_of_full (h : leaf.Holds es) (hN0 : 0 < N) (hN : N ≤ 255) (hk : k < ⊤)
    (hn : es.lookup k = none) (hfull : es.length = N) :
    leaf.insertToRemote k v = .ok ((3, 0), leaf) ∨
      ∃ leaf', leaf.insertToRemote k v = .ok ((2, 0), leaf') ∧
        leaf'.Holds ((put k v es).take N) := by
  obtain ⟨xs, ys, he, hx, hy⟩ := exists_cut h.ascending (lookup_eq_none.mp hn)
  have hlen : es.length = xs.length + ys.length := by rw [he, List.length_append]
  rcases List.eq_nil_or_concat' ys with rfl | ⟨zs, e, rfl⟩
  · left
    obtain ⟨i, hi, -, hival⟩ := leaf.scanSlots_zero hN (fun x => x = k ∨ x > k)
    obtain ⟨hfind, hne⟩ := findIdx_of_absent h hk he hx hy
    rw [hfind] at hival
    rw [List.length_nil] at hlen
    unfold insertToRemote
    rw [hi, ok_bind, if_neg fun hc => absurd hc.1 (by omega), if_pos (by omega)]
  · right
    rw [List.length_append, List.length_singleton] at hlen
    have hkeys : leaf.keys = xs.map Prod.fst ++ (zs.map Prod.fst ++ e.1 :: []) := by
      rw [h.keys, hfull, Nat.sub_self, he]
      simp
    have hvals : leaf.vals = xs.map Prod.snd ++ (zs.map Prod.snd ++ e.2 :: []) := by
      rw [h.vals_eq, hfull, List.drop_eq_nil_of_le leaf.valsLength.le, he]
      simp
    have hend : ∀ i : UInt8, i.toNat = xs.length →
        ∃ j, leaf.shiftEnd i = .ok (2, j) ∧ j.toNat = xs.length + zs.length := by
      intro i _
      refine ⟨UInt8.ofNat (N - 1), if_pos ((h.isfull_iff hN0).mpr hfull), ?_⟩
      rw [UInt8.toNat_ofNat', Nat.mod_eq_of_lt (by omega)]
      omega
    obtain ⟨leaf', hok, hk', hv'⟩ :=
      insertToRemote_of_moved (v := v) h hN hk he hx hy hkeys hvals hend
    have hput : put k v es = (xs ++ (k, v) :: zs) ++ [e] := by
      rw [he, put_of_cut hx hy]
      simp
    have htake : (put k v es).take N = xs ++ (k, v) :: zs := by
      rw [hput]
      exact List.take_left' (by rw [List.length_append, List.length_cons]; omega)
    have hsub := List.take_sublist N (put k v es)
    refine ⟨leaf', hok, ?_⟩
    refine ⟨(ascending_put h.ascending (lookup_eq_none.mp hn)).sublist hsub, fun x hm => ?_, ?_, ?_⟩
    · rcases mem_put.mp (hsub.mem hm) with rfl | hm
      · exact hk
      · exact h.below x hm
    · have hrest : N - (xs ++ (k, v) :: zs).length = 0 := by
        rw [List.length_append, List.length_cons]
        omega
      rw [htake, hrest, hk']
      simp
    · rw [htake, hv']
      have hcut : xs.map Prod.snd ++ v :: (zs.map Prod.snd ++ []) =
        (xs ++ (k, v) :: zs).map Prod.snd := by simp
      rw [hcut]
      exact List.take_of_length_le (by rw [List.length_map])

end Insertion

/-- On a leaf with room the two insertions leave the same keys and the same live values. On a full
one the leaf stays, or holds the `N` smallest of its entries and the new one. -/
theorem insertToRemote_refines (hN0 : 0 < N) (hN : N ≤ 255) {leaf : Leaf K V N} {es : List (K × V)}
    (h : leaf.Holds es) {k : K} (hk : k < ⊤) (v : V) :
    (es.length < N → ∃ st pos leaf₁ i leaf₂ live, leaf.insertToRemote k v = .ok ((st, pos), leaf₁) ∧
        leaf.insertNotFullU8 k v = .ok (i, leaf₂) ∧ leaf₁.keys = leaf₂.keys ∧ leaf₁.Holds live ∧
        leaf₁.vals.take live.length = leaf₂.vals.take live.length ∧
        st = if (es.lookup k).isSome then 0 else 1) ∧
      (es.length = N → ∃ st pos leaf₁, leaf.insertToRemote k v = .ok ((st, pos), leaf₁) ∧
        ((st = 0 ∨ st = 3) ∧ leaf₁ = leaf ∨
          st = 2 ∧ (put k v es).Perm ((k, v) :: es) ∧ Ascending (put k v es) ∧
          leaf₁.Holds ((put k v es).take N))) := by
  cases hs : es.lookup k with
  | some w =>
    obtain ⟨i, hok⟩ := insertToRemote_of_some (v := v) h hN hs
    have hnot := leaf.insertNotFullU8_eq hN k v
    rw [insertNotFull_of_some h hs] at hnot
    exact ⟨fun _ => ⟨0, i, leaf, _, leaf, es, hok, hnot, rfl, h, rfl, rfl⟩,
      fun _ => ⟨0, i, leaf, hok, Or.inl ⟨Or.inl rfl, rfl⟩⟩⟩
  | none =>
    refine ⟨fun hroom => ?_, fun hfull => ?_⟩
    · obtain ⟨leaf₁, hok, h₁⟩ := insertToRemote_of_room (v := v) h hN0 hN hk hs hroom
      have hnot := leaf.insertNotFullU8_eq hN k v
      have h₂ := insertNotFull_holds h hk hs hroom v
      exact ⟨1, 0, leaf₁, _, _, put k v es, hok, hnot, h₁.keys.trans h₂.keys.symm, h₁,
        h₁.vals.trans h₂.vals.symm, rfl⟩
    · rcases insertToRemote_of_full (v := v) h hN0 hN hk hs hfull with hok | ⟨leaf₁, hok, h₁⟩
      · exact ⟨3, 0, leaf, hok, Or.inl ⟨Or.inr rfl, rfl⟩⟩
      · exact ⟨2, 0, leaf₁, hok,
          Or.inr ⟨rfl, put_perm k v es, ascending_put h.ascending (lookup_eq_none.mp hs), h₁⟩⟩

def fullLeaf : Leaf (Fin 256) ℕ 2 := ⟨[5, 7], [50, 70], rfl, rfl⟩

theorem fullLeaf_holds : fullLeaf.Holds [(5, 50), (7, 70)] :=
  ⟨by decide, by decide, rfl, rfl⟩

def roomyLeaf : Leaf (Fin 256) ℕ 3 := ⟨[5, 7, 255], [50, 70, 0], rfl, rfl⟩

theorem roomyLeaf_holds : roomyLeaf.Holds [(5, 50), (7, 70)] :=
  ⟨by decide, by decide, rfl, rfl⟩

theorem insertToRemote_refines_six :
    (∃ st pos leaf₁ i leaf₂ live, roomyLeaf.insertToRemote 6 60 = .ok ((st, pos), leaf₁) ∧
      roomyLeaf.insertNotFullU8 6 60 = .ok (i, leaf₂) ∧ leaf₁.keys = leaf₂.keys ∧
      leaf₁.Holds live ∧ leaf₁.vals.take live.length = leaf₂.vals.take live.length ∧ st = 1) ∧
    ∃ st pos leaf₁, fullLeaf.insertToRemote 6 60 = .ok ((st, pos), leaf₁) ∧
      ((st = 0 ∨ st = 3) ∧ leaf₁ = fullLeaf ∨
        st = 2 ∧ (put (6 : Fin 256) 60 [(5, 50), (7, 70)]).Perm [(6, 60), (5, 50), (7, 70)] ∧
          Ascending (put (6 : Fin 256) 60 [(5, 50), (7, 70)]) ∧
          leaf₁.Holds ((put 6 60 [(5, 50), (7, 70)]).take 2)) :=
  ⟨(insertToRemote_refines (by decide) (by decide) roomyLeaf_holds (by decide) 60).1 (by decide),
    (insertToRemote_refines (by decide) (by decide) fullLeaf_holds (by decide) 60).2 rfl⟩

end Rolex.Leaf
