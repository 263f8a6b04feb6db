import Rolex.IndexHomes

/-! `range` of a table and of an index: the scan of all pairs from the start key on. -/

namespace Rolex
open AscendingMap BlockChain

theorem append_scan_append {K V : Type} [LinearOrder K] (k : K) (n : ℕ) (vals : List V)
    (xs ys : List (K × V)) :
    vals ++ scan k (n - vals.length) (xs ++ ys) = (vals ++ scan k (n - vals.length) xs) ++
      scan k (n - (vals ++ scan k (n - vals.length) xs).length) ys := by
  rw [scan_append, List.append_assoc, List.length_append, Nat.sub_add_eq]

theorem append_scan_of_le {K V : Type} [LinearOrder K] {k : K} {n : ℕ} {vals : List V}
    (h : n ≤ vals.length) (es : List (K × V)) : vals ++ scan k (n - vals.length) es = vals := by
  simp [Nat.sub_eq_zero_of_le h, scan]

theorem range_eq_append {m n : ℕ} (h : m ≤ n) :
    List.range n = List.range m ++ List.range' m (n - m) := by
  have happ := List.range'_append_1 (s := 0) (m := m) (n := n - m)
  rw [Nat.zero_add, Nat.add_sub_cancel' h] at happ
  rw [List.range_eq_range', List.range_eq_range', happ]

section Table

variable {K V : Type} {N : ℕ} [LinearOrder K] [OrderTop K] {t : LeafTable}
  {alloc : LeafAllocator K V N} {slots : ℕ → List ℕ} {chains : ℕ → List (List (K × V))} {k : K}
  {lo hi : ℕ}

/-- The loop from the end of the window down finds the entry of `target`, or nothing when that is
the start of the window. -/
theorem Represents.rangeEntry_ok (h : Represents t alloc slots chains) (hk : k < ⊤) {d : ℕ}
    (hlt : lo + d < t.size) : ∃ p, t.rangeEntry alloc k lo (d + 1) = .ok p ∧
      (p = some (target chains k lo (lo + d), t.entryNum (target chains k lo (lo + d))) ∨
        p = none ∧ target chains k lo (lo + d) = lo) := by
  have hstep : ∀ d, lo + d < t.size → t.rangeEntry alloc k lo (d + 1) =
      if opens k ((chains (lo + d)).headD []) = true then .ok (some (lo + d, t.entryNum (lo + d)))
      else t.rangeEntry alloc k lo d := fun d hd => by
    rw [LeafTable.rangeEntry, h.entryLeaf_ok hd, ok_bind, h.insertHere_entry hd hk]
  induction d with
  | zero =>
    have htarget : target chains k lo (lo + 0) = lo := (target_eq_iff le_rfl).mpr
      ⟨le_rfl, le_rfl, Or.inl rfl, fun j hj hj' => by omega⟩
    rw [hstep 0 hlt, htarget]
    split
    · exact ⟨_, rfl, Or.inl rfl⟩
    · exact ⟨_, rfl, Or.inr ⟨rfl, rfl⟩⟩
  | succ d ih =>
    have htarget : target chains k lo (lo + (d + 1)) =
        if opens k ((chains (lo + (d + 1))).headD []) = true then lo + (d + 1)
          else target chains k lo (lo + d) := by
      have hlo : lo + d + 1 > lo := by omega
      rw [← Nat.add_assoc, target, if_pos hlo]
    rw [hstep (d + 1) hlt, htarget]
    by_cases hopen : opens k ((chains (lo + (d + 1))).headD []) = true
    · rw [if_pos hopen, if_pos hopen]
      exact ⟨_, rfl, Or.inl rfl⟩
    · rw [if_neg hopen, if_neg hopen]
      exact ih (by omega)

theorem Sound.rangeEntries_ok (h : Sound t alloc slots chains) (n : ℕ) {left : ℕ} :
    ∀ {idx : ℕ}, idx + left = t.size → ∀ vals : List V,
    t.rangeEntries alloc k n left idx vals =
      .ok (vals ++ scan k (n - vals.length)
        ((List.range' idx left).flatMap fun a => (chains a).flatten)) := by
  induction left with
  | zero =>
    intro idx _ vals
    simp [LeafTable.rangeEntries, scan]
  | succ left ih =>
    intro idx hidx vals
    have hi : idx < t.size := by omega
    rw [LeafTable.rangeEntries]
    by_cases hn : vals.length < n
    · have hchain : (chains idx).flatten = (chains idx).headD [] ++ (chains idx).tail.flatten := by
        obtain ⟨b, rest, hc⟩ := List.exists_cons_of_ne_nil (h.chain_ne_nil hi)
        rw [hc, List.flatten_cons, List.headD_cons, List.tail_cons]
      rw [if_pos hn, h.entryLeaf_ok hi, ok_bind, Leaf.range_eq (h.holds_entry hi), List.range'_succ,
        List.flatMap_cons, hchain, List.append_assoc, append_scan_append]
      generalize vals ++ scan k (n - vals.length) ((chains idx).headD []) = vals'
      dsimp only
      by_cases hfull : vals'.length ≥ n
      · rw [if_pos hfull, append_scan_of_le hfull]
      · rw [if_neg hfull, h.nextRange_ok hi, ok_bind, ih (by omega), ← append_scan_append]
    · rw [if_neg hn, append_scan_of_le (not_lt.mp hn)]

theorem Sound.range_ok (h : Sound t alloc slots chains) (hk : k < ⊤) (hle : lo ≤ hi)
    (hlt : hi < t.size) (hbefore : ∀ a < target chains k lo hi, ∀ e ∈ (chains a).flatten, e.1 < k)
    (n : ℕ) (vals : List V) : t.range alloc k n vals lo hi =
      .ok (vals ++ scan k (n - vals.length)
        ((List.range t.size).flatMap fun a => (chains a).flatten)) := by
  obtain ⟨d, rfl⟩ := Nat.exists_eq_add_of_le hle
  have ht : target chains k lo (lo + d) < t.size := (target_le hle).trans_lt hlt
  obtain ⟨p, hp, hcase⟩ := h.toRepresents.rangeEntry_ok hk hlt
  have hskip : ∀ e ∈ (List.range (target chains k lo (lo + d))).flatMap
      (fun a => (chains a).flatten), e.1 < k := by
    intro e he
    obtain ⟨a, ha, he⟩ := List.mem_flatMap.mp he
    exact hbefore a (List.mem_range.mp ha) e he
  rw [LeafTable.range, if_pos hlt, show lo + d + 1 - lo = d + 1 by omega, hp, ok_bind,
    range_eq_append ht.le, List.flatMap_append, scan_append_of_lt hskip]
  rcases hcase with rfl | ⟨rfl, hlo⟩
  · dsimp only
    rw [h.rangeSynonym_ok ht hk, ok_bind, show t.size - target chains k lo (lo + d) =
      (t.table.length - (target chains k lo (lo + d) + 1)) + 1 by
      rw [LeafTable.size] at ht ⊢; omega, List.range'_succ, List.flatMap_cons, append_scan_append]
    exact h.rangeEntries_ok n (by rw [LeafTable.size] at ht ⊢; omega) _
  · dsimp only
    rw [hlo]
    exact h.rangeEntries_ok n (by rw [LeafTable.size] at hlt ⊢; omega) vals

end Table

section Index

variable {F V : Type} {N : ℕ} {fmt : DoubleFormat F} {epsilon : ℕ} {r : RolexIndex F V N}
  {slots : ℕ → ℕ → List ℕ} {chains₀ chains : ℕ → ℕ → List (List (Key × V))} {key : Key}

theorem modelForKey_lt (hne : r.models ≠ []) : r.modelForKey key < r.models.length := by
  have := List.length_pos_iff.mpr hne
  rw [RolexIndex.modelForKey, modelForKey]
  split_ifs <;> omega

theorem Homes.range_model (h : Homes r chains₀ chains) (hs : IndexSound r slots chains)
    (hg : Guided fmt epsilon r chains₀) {i : ℕ} {m : SubModel F} (hm : r.models[i]? = some m)
    (hk : key < ⊤) (n : ℕ) (vals : List V) : m.range fmt epsilon r.RM.leafAllocator key n vals =
      .ok (vals ++ scan key (n - vals.length) (tablePairs r chains i)) := by
  obtain ⟨hlo, hhi, hsize⟩ := hg i m hm key hk
  have hi := (List.getElem?_eq_some_iff.mp hm).1
  rw [SubModel.range, tablePairs, r.tableSize_eq hm]
  refine (hs.sound i m hm).range_ok hk (hlo.trans hhi) hsize (fun a ha e he => ?_) n vals
  rw [h.target_eq hg hm hk] at ha
  have ha' : a < r.tableSize i := by
    rw [r.tableSize_eq hm]
    omega
  by_contra hle
  have hmono := entryFor_mono (chains₀ i) m.ltable.size (not_lt.mp hle)
  have hentry := (h.home i hi a ha' e he).2.2
  rw [r.tableSize_eq hm] at hentry
  omega

theorem rangeModels_ok {alloc : LeafAllocator Key V N} {n : ℕ} {ms : List (SubModel F)}
    {ess : List (List (Key × V))}
    (h : List.Forall₂ (fun m es => ∀ vals, m.range fmt epsilon alloc key n vals =
      .ok (vals ++ scan key (n - vals.length) es)) ms ess) (vals : List V) :
    RolexIndex.rangeModels fmt epsilon alloc key n ms vals = .ok
    (vals ++ scan key (n - vals.length) ess.flatten) := by
  induction h generalizing vals with
  | nil => simp [RolexIndex.rangeModels, scan]
  | @cons m es ms ess hm _ ih =>
    rw [RolexIndex.rangeModels]
    by_cases hn : vals.length < n
    · rw [if_pos hn, hm, ok_bind, ih, List.flatten_cons, append_scan_append]
    · rw [if_neg hn, append_scan_of_le (not_lt.mp hn)]

/-- `range` of an index is the scan of its pairs. -/
theorem Homes.range_ok (h : Homes r chains₀ chains) (hs : IndexSound r slots chains)
    (hg : Guided fmt epsilon r chains₀) (hne : r.models ≠ []) (hk : key < ⊤) (n : ℕ)
    (vals : List V) : r.range fmt epsilon key n vals =
    .ok (vals ++ scan key (n - vals.length) (pairs r chains)) := by
  have hi : r.modelForKey key < r.models.length := modelForKey_lt hne
  generalize hroute : r.modelForKey key = i at hi
  have hm := List.getElem?_eq_getElem hi
  have hlater : List.Forall₂ (fun m es => ∀ vals,
    m.range fmt epsilon r.RM.leafAllocator key n vals =
      .ok (vals ++ scan key (n - vals.length) es)) (r.models.drop (i + 1))
      ((List.range' (i + 1) (r.models.length - (i + 1))).map (tablePairs r chains)) := by
    refine List.forall₂_iff_get.mpr ⟨by simp, fun j hj hj' vals => ?_⟩
    rw [List.length_drop] at hj
    have hmj := List.getElem?_eq_getElem (show i + 1 + j < r.models.length by omega)
    rw [List.get_eq_getElem, List.get_eq_getElem, List.getElem_drop, List.getElem_map,
      List.getElem_range', Nat.one_mul]
    exact h.range_model hs hg hmj hk n vals
  have hskip : ∀ e ∈ (List.range i).flatMap (tablePairs r chains), e.1 < key := by
    intro e he
    obtain ⟨j, hj, he⟩ := List.mem_flatMap.mp he
    obtain ⟨a, ha, he⟩ := List.mem_flatMap.mp he
    have hj := List.mem_range.mp hj
    by_contra hle
    have hmono := modelForKey_mono (r := r) (not_lt.mp hle)
    rw [(h.home j (hj.trans hi) a (List.mem_range.mp ha) e he).2.1] at hmono
    omega
  rw [RolexIndex.range, model_of_some (by rw [hroute]; exact hm), ok_bind,
    h.range_model hs hg hm hk, ok_bind, hroute, rangeModels_ok hlater, pairs, range_eq_append hi.le,
    List.flatMap_append, scan_append_of_lt hskip,
    show r.models.length - i = r.models.length - (i + 1) + 1 by
      omega, List.range'_succ, List.flatMap_cons,
    append_scan_append, List.flatMap_def]

end Index

end Rolex
