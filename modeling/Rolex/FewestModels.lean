import Rolex.Foundations.GreedyCuts
import Rolex.ModelLookup

/-!
How many submodels `train` makes: no cut of the data into pieces that keep within half the tolerance
of a line has fewer, and every submodel but the last covers a fixed number of keys.
-/

namespace Rolex
open GreedyCuts

variable {F V : Type} {N : ℕ} {fmt : DoubleFormat F} {epsilon : ℕ}
  {raw : ℕ → Fin kSynonymMax → TableEntry}

def HasLine (epsilon : ℕ) (seg : List (Key × V)) : Prop := ∃ a b : ℚ, Fits epsilon (points seg) a b

def LineWithin (δ : ℚ) (seg : List (Key × V)) : Prop :=
  ∃ a b : ℚ, ∀ q ∈ points seg, |a * q.1 + b - q.2| ≤ δ

/-- A part of a piece has a line: the one of the piece, moved by its first position and up by the
tolerance. -/
theorem hasLine_of_lineWithin {seg part : List (Key × V)} (h : LineWithin ((epsilon : ℚ) / 2) seg)
    (hpart : part <:+: seg) : HasLine epsilon part := by
  obtain ⟨a, b, hline⟩ := h
  obtain ⟨pre, post, rfl⟩ := hpart
  refine ⟨a, b - pre.length + epsilon / 2, fun q hq => ?_⟩
  obtain ⟨j, hj, rfl⟩ := exists_of_mem_points hq
  have hlen : pre.length + j < (pre ++ part ++ post).length := by
    rw [List.length_append, List.length_append]
    omega
  have hget : (pre ++ part ++ post)[pre.length + j] = part[j] := by
    rw [List.getElem_append_left (by rw [List.length_append]; omega),
      List.getElem_append_right (by omega)]
    simp only [Nat.add_sub_cancel_left]
  have hmem : (part[j].1.val, pre.length + j) ∈ points (pre ++ part ++ post) := by
    rw [← hget, ← getElem_points hlen (by rwa [length_points])]
    exact List.getElem_mem _
  obtain ⟨hlo, hhi⟩ := abs_le.mp (hline _ hmem)
  have hj0 : (0 : ℚ) ≤ j := Nat.cast_nonneg j
  push_cast at hlo hhi
  refine ⟨max_le ?_ ?_, ?_⟩ <;> dsimp only <;> linarith

theorem hasLine_of_short {seg : List (Key × V)} (h : seg.length ≤ 2 * epsilon + 1) :
    HasLine epsilon seg := by
  refine ⟨0, epsilon, fun q hq => ?_⟩
  obtain ⟨j, hj, rfl⟩ := exists_of_mem_points hq
  have hle : (j : ℚ) ≤ 2 * epsilon := by exact_mod_cast (by omega : j ≤ 2 * epsilon)
  have hj0 : (0 : ℚ) ≤ j := Nat.cast_nonneg j
  have he0 : (0 : ℚ) ≤ epsilon := Nat.cast_nonneg epsilon
  rw [zero_mul, zero_add]
  exact ⟨max_le he0 (by dsimp only; linarith), by dsimp only; linarith⟩

/-! ### The segments of train -/

theorem not_hasLine_of_rejected {seg : List (Key × V)} {opt opt' : PLR}
    (h : PLR.Accepted epsilon (points seg) opt) (hlen : seg.length < 2 ^ 31)
    (hepsilon : epsilon < 2 ^ 61) {e : Key × V}
    (hok : opt.addPoint e.1 seg.length = .ok (false, opt')) : ¬HasLine epsilon (seg ++ [e]) := by
  have hy : ∀ q ∈ points seg, q.2 + epsilon < 2 ^ 62 := fun q hq => by
    obtain ⟨j, hj, rfl⟩ := exists_of_mem_points hq
    dsimp only
    omega
  have hno := addPoint_rejects h hy (by omega) hok
  rwa [← points_append] at hno

namespace RolexIndex

theorem appendSegment_capacity {r r' : RolexIndex F V N} {opt : PLR} {seg : List (Key × V)}
    (hok : r.appendSegment fmt raw opt seg = .ok r') :
    r'.models.map SubModel.capacity = r.models.map SubModel.capacity ++ [seg.length] := by
  obtain ⟨m, hm, _, hmodels, _⟩ := appendSegment_ok hok
  rw [hmodels, List.map_append, List.map_singleton, (SubModel.construct_model hm).2]

/-- The loop adds one submodel for each of its segments, and none of them could have been
longer. -/
theorem trainLoop_greedy (hepsilon : epsilon - 1 < 2 ^ 61) {rest : List (Key × V)} :
    ∀ {cur : List (Key × V)} {p : Key} {opt : PLR} {pos : ℕ} {r r' : RolexIndex F V N},
      InSegment epsilon cur p opt pos → (cur ++ rest).length < 2 ^ 31 →
      trainLoop fmt epsilon raw rest p opt (cur ++ rest) pos r = .ok r' →
      ∃ segs, segs.flatten = cur ++ rest ∧ (∀ seg ∈ segs, seg ≠ []) ∧
        Greedy (HasLine (epsilon - 1)) segs ∧
        r'.models.map SubModel.capacity =
        r.models.map SubModel.capacity ++ segs.map List.length := by
  induction rest with
  | nil =>
    intro cur p opt pos r r' h _ hok
    rw [h.trainLoop_nil] at hok
    exact ⟨[cur], by simp, by simpa using h.ne_nil, trivial, appendSegment_capacity hok⟩
  | cons e rest ih =>
    intro cur p opt pos r r' h hbound hok
    rcases h.step e rest r with ⟨_, f, _, hloop⟩ | ⟨_, opt', _, h', hloop⟩ |
      ⟨_, opt', opt₀, hadd, h₀, hloop⟩ <;> rw [hloop] at hok
    · cases hok
    · have hcut : cur ++ e :: rest = cur ++ [e] ++ rest := by
        rw [List.append_assoc, List.singleton_append]
      rw [hcut] at hbound ⊢
      exact ih h' hbound hok
    · obtain ⟨r₁, happ, hok⟩ := bind_eq_ok hok
      have hlen := h.length
      rw [List.length_append] at hbound
      obtain ⟨segs, hflat, hne, hmax, hcount⟩ :=
        ih h₀ (by rw [List.singleton_append]; omega) hok
      refine ⟨cur :: segs, by rw [List.flatten_cons, hflat, List.singleton_append],
        List.forall_mem_cons.mpr ⟨h.ne_nil, hne⟩, ?_, ?_⟩
      · -- the next segment starts with the key that was turned down
        cases segs with
        | nil => trivial
        | cons q segs =>
          obtain ⟨x, q, rfl⟩ := List.exists_cons_of_ne_nil (hne q List.mem_cons_self)
          obtain rfl : x = e := (List.cons.inj hflat).1
          refine ⟨fun y hy => ?_, hmax⟩
          obtain rfl := Option.some.inj hy
          exact not_hasLine_of_rejected h.accepted (by omega) hepsilon (hlen ▸ hadd)
      · rw [hcount, appendSegment_capacity happ, List.append_assoc]
        rfl

theorem train_greedy (hepsilon : epsilon - 1 < 2 ^ 61) {r r' : RolexIndex F V N}
    {data : List (Key × V)} (hne : data ≠ []) (hok : r.train fmt epsilon raw data = .ok r') :
    ∃ segs, segs.flatten = data ∧ segs ≠ [] ∧ (∀ seg ∈ segs, seg ≠ []) ∧
      Greedy (HasLine (epsilon - 1)) segs ∧
      r'.models.map SubModel.capacity = r.models.map SubModel.capacity ++ segs.map List.length := by
  obtain ⟨e, rest, rfl⟩ := List.exists_cons_of_ne_nil hne
  obtain ⟨hlen, opt₀, r₁, alloc, _, h₀, hloop, _, rfl⟩ := train_eq_ok hok
  obtain ⟨segs, hflat, hsegs, hmax, hcount⟩ := trainLoop_greedy hepsilon h₀ hlen hloop
  refine ⟨segs, hflat, ?_, hsegs, hmax, hcount⟩
  rintro rfl
  cases hflat

end RolexIndex

/-- Training makes at most as many submodels as any cut of the data has pieces, when every piece
keeps within half the tolerance of a line. -/
theorem train_fewest_models (hepsilon : epsilon - 1 < 2 ^ 61) {r r' : RolexIndex F V N}
    (hmodels : r.models = []) {data : List (Key × V)} (hok : r.train fmt epsilon raw data = .ok r')
    {pieces : List (List (Key × V))} (hflat : pieces.flatten = data)
    (hpieces : ∀ piece ∈ pieces, LineWithin (((epsilon - 1 : ℕ) : ℚ) / 2) piece) :
    r'.models.length ≤ pieces.length := by
  rcases eq_or_ne data [] with rfl | hne
  · obtain rfl := Except.ok.inj hok
    rw [hmodels]
    exact Nat.zero_le _
  · obtain ⟨segs, hsegs, _, hnonempty, hmax, hcount⟩ := RolexIndex.train_greedy hepsilon hne hok
    have hlen : r'.models.length = segs.length := by
      rw [← List.length_map SubModel.capacity, hcount, hmodels, List.map_nil, List.nil_append,
        List.length_map]
    rw [hlen]
    exact hmax.length_le (fun _ _ h hpart => hasLine_of_lineWithin h hpart) hnonempty hpieces
      (hflat.trans hsegs.symm)

theorem train_fewest_models_four : ∃ r', emptyIndex.train exactFormat 1 noEntries gapData = .ok r' ∧
    r'.models.length ≤ [[((0 : Key), 0), (1, 10)], [(10, 100), (11, 110)]].length := by
  obtain ⟨r', hok, _⟩ := exists_ok (p := fun _ => true)
    (by decide +kernel : (emptyIndex.train exactFormat 1 noEntries gapData).toOption.any _ = true)
  refine ⟨r', hok, train_fewest_models (by norm_num) rfl hok rfl fun piece hpiece => ?_⟩
  rcases List.mem_cons.mp hpiece with rfl | hpiece
  · exact ⟨1, 0, fun q hq => by fin_cases hq <;> norm_num⟩
  · obtain rfl := List.mem_singleton.mp hpiece
    exact ⟨1, -10, fun q hq => by fin_cases hq <;> norm_num⟩

/-- Every key is covered by one submodel, and every submodel but the last covers at least
`2 * (Epsilon - 1) + 1`. -/
theorem train_models_bound (hepsilon : epsilon - 1 < 2 ^ 61) {r r' : RolexIndex F V N}
    (hmodels : r.models = []) {data : List (Key × V)} (hne : data ≠ [])
    (hok : r.train fmt epsilon raw data = .ok r') :
    (r'.models.map SubModel.capacity).sum = data.length ∧
    (∀ (i : ℕ) (m : SubModel F), r'.models[i]? = some m → i + 1 < r'.models.length →
      2 * (epsilon - 1) + 1 ≤ m.capacity) ∧
    (r'.models.length - 1) * (2 * (epsilon - 1) + 1) < data.length := by
  obtain ⟨segs, rfl, hsegs, hnonempty, hmax, hcount⟩ := RolexIndex.train_greedy hepsilon hne hok
  rw [hmodels, List.map_nil, List.nil_append] at hcount
  have hlen : r'.models.length = segs.length := by
    rw [← List.length_map SubModel.capacity, hcount, List.length_map]
  refine ⟨by rw [hcount, List.length_flatten], fun i m hm hi => ?_, ?_⟩
  · rw [hlen] at hi
    have hseg := List.getElem?_eq_getElem (Nat.lt_of_succ_lt hi)
    have hcap := congrArg (fun l : List ℕ => l[i]?) hcount
    simp only [List.getElem?_map, hm, hseg, Option.map_some, Option.some.injEq] at hcap
    rw [hcap]
    exact hmax.length_piece (fun _ h => hasLine_of_short h) hnonempty hseg hi
  · rw [hlen]
    exact hmax.mul_lt (fun _ h => hasLine_of_short h) hnonempty hsegs

def stepData : List (Key × ℕ) := [(0, 0), (1, 10), (2, 20), (3, 30), (1000, 40), (1001, 50)]

theorem train_models_bound_step : ∃ r', emptyIndex.train exactFormat 2 noEntries stepData = .ok r' ∧
    r'.models.length = 2 ∧ (r'.models.map SubModel.capacity).sum = 6 ∧
    (∀ (i : ℕ) (m : SubModel ℚ), r'.models[i]? = some m → i + 1 < 2 → 3 ≤ m.capacity) ∧
    (2 - 1) * 3 < 6 := by
  obtain ⟨r', hok, hlen⟩ :=
    exists_ok (p := fun r' : RolexIndex ℚ ℕ 2 => decide (r'.models.length = 2))
    (by decide +kernel : (emptyIndex.train exactFormat 2 noEntries stepData).toOption.any _ = true)
  have hlen := of_decide_eq_true hlen
  have hbound := train_models_bound (by norm_num) rfl (by decide) hok
  rw [hlen] at hbound
  exact ⟨r', hok, hlen, hbound⟩

end Rolex
