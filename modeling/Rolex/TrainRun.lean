import Rolex.Index
import Rolex.SegmentLines

/-! What a run of `train` does: the pairs are cut into segments, and the segments are appended
one after the other. -/

namespace Rolex
open AscendingMap

variable {F V : Type} {N : ℕ}

def points (seg : List (Key × V)) : List (ℕ × ℕ) := seg.zipIdx.map fun q => (q.1.1.val, q.2)

theorem points_append (seg : List (Key × V)) (e : Key × V) :
    points (seg ++ [e]) = points seg ++ [(e.1.val, seg.length)] := by
  simp [points, List.zipIdx_append]

theorem length_points (seg : List (Key × V)) : (points seg).length = seg.length := by
  rw [points, List.length_map, List.length_zipIdx]

theorem getElem_points {seg : List (Key × V)} {j : ℕ} (hj : j < seg.length)
    (hj' : j < (points seg).length) : (points seg)[j] = (seg[j].1.val, j) := by
  simp [points]

theorem exists_of_mem_points {seg : List (Key × V)} {q : ℕ × ℕ} (hq : q ∈ points seg) :
    ∃ (j : ℕ) (hj : j < seg.length), q = (seg[j].1.val, j) := by
  obtain ⟨j, hj, rfl⟩ := List.mem_iff_getElem.mp hq
  have hj' : j < seg.length := by rwa [length_points] at hj
  exact ⟨j, hj', getElem_points hj' hj⟩

namespace PLR

variable {s : PLR} {x y : ℕ}

theorem addPoint_ok (h : s.pointsInHull = 0 ∨ s.lastX < x) : ∃ res, s.addPoint x y = .ok res := by
  have hinc : ¬(s.pointsInHull > 0 ∧ x ≤ s.lastX) := by omega
  exact ⟨_, if_neg hinc⟩

theorem addLater_lastX (s : PLR) (p1 p2 : Point) : (s.addLater p1 p2).2.lastX = s.lastX := by
  rw [addLater]
  split
  · rfl
  · dsimp only
    split <;> split <;> rfl

theorem addPoint_lastX {res : Bool × PLR} (hok : s.addPoint x y = .ok res) : res.2.lastX = x := by
  rw [addPoint_eq] at hok
  split at hok
  · cases hok
  obtain rfl := Except.ok.inj hok
  split
  · rfl
  split
  · rfl
  rw [addLater_lastX]

theorem addLater_pos {p1 p2 : Point} (h : (s.addLater p1 p2).1 = true) :
    0 < (s.addLater p1 p2).2.pointsInHull := by
  rw [addLater] at h ⊢
  split at h
  · cases h
  · rename_i hin
    rw [if_neg hin]
    exact Nat.succ_pos _

theorem addPoint_pos {s' : PLR} (hok : s.addPoint x y = .ok (true, s')) : 0 < s'.pointsInHull := by
  rw [addPoint_eq] at hok
  split at hok
  · cases hok
  have hok := Except.ok.inj hok
  split at hok
  · obtain ⟨_, rfl⟩ := Prod.mk.inj hok
    exact Nat.succ_pos _
  split at hok
  · obtain ⟨_, rfl⟩ := Prod.mk.inj hok
    exact Nat.succ_pos _
  · have hpos := addLater_pos (congrArg Prod.fst hok)
    rwa [hok] at hpos

theorem addPoint_not_lt (hpos : 0 < s.pointsInHull) (h : x ≤ s.lastX) :
    s.addPoint x y = .error .pointsNotIncreasing := if_pos ⟨hpos, h⟩

theorem addPoint_construct (epsilon x : ℕ) : ∃ s, (construct epsilon).addPoint x 0 = .ok (true, s) ∧
    Accepted epsilon [(x, 0)] s ∧ s.lastX = x := by
  have hok : ∃ s, (construct epsilon).addPoint x 0 = .ok (true, s) := ⟨_, rfl⟩
  obtain ⟨s, hs⟩ := hok
  exact ⟨s, hs, (Accepted.start rfl rfl).add hs, addPoint_lastX hs⟩

end PLR

/-- `opt` stands at the end of a segment that has accepted the keys of `seg`. -/
def SegmentEnd (epsilon : ℕ) (seg : List (Key × V)) (opt : PLR) : Prop :=
  ∃ s, PLR.Accepted epsilon (points seg) s ∧ (opt = s ∨ ∃ x y, s.addPoint x y = .ok (false, opt))

variable {fmt : DoubleFormat F} {epsilon : ℕ} {raw : ℕ → Fin kSynonymMax → TableEntry}

/-- From `r` on, the segments `segs` were appended one after the other. -/
inductive Appended (fmt : DoubleFormat F) (epsilon : ℕ) (raw : ℕ → Fin kSynonymMax → TableEntry)
    (r : RolexIndex F V N) : List (List (Key × V)) → RolexIndex F V N → Prop where
  | none : Appended fmt epsilon raw r [] r
  | append {segs : List (List (Key × V))} {seg : List (Key × V)} {r₁ r₂ : RolexIndex F V N}
      {opt : PLR} (h : Appended fmt epsilon raw r segs r₁) (hne : seg ≠ [])
      (hend : SegmentEnd (epsilon - 1) seg opt) (hok : r₁.appendSegment fmt raw opt seg =
      .ok r₂) : Appended fmt epsilon raw r (segs ++ [seg]) r₂

namespace RolexIndex

/-- The loop between two keys: the segment under way holds the pairs `cur`, and `p` is the last
key read. -/
structure InSegment (epsilon : ℕ) (cur : List (Key × V)) (p : Key) (opt : PLR) (pos : ℕ) :
    Prop where
  accepted : PLR.Accepted (epsilon - 1) (points cur) opt
  inHull : 0 < opt.pointsInHull
  lastX : opt.lastX = p
  length : cur.length = pos + 1
  ascending : Ascending cur
  last : ∃ x ∈ cur, x.1 = p
  le : ∀ x ∈ cur, x.1 ≤ p

def OrderFault (f : Fault) : Prop := f = .duplicateKeys ∨ f = .pointsNotIncreasing

namespace InSegment

variable {cur rest : List (Key × V)} {e : Key × V} {p : Key} {opt opt' : PLR} {pos : ℕ}
  {r : RolexIndex F V N}

theorem first (epsilon : ℕ) (e : Key × V) :
    ∃ opt, (PLR.construct (epsilon - 1)).addPoint e.1 0 = .ok (true, opt) ∧
      InSegment epsilon [e] e.1 opt 0 := by
  obtain ⟨opt, hfirst, hacc, hlast⟩ := PLR.addPoint_construct (epsilon - 1) e.1
  exact ⟨opt, hfirst, hacc, PLR.addPoint_pos hfirst, hlast, rfl, List.pairwise_singleton ..,
    ⟨e, List.mem_singleton_self e, rfl⟩, fun x hx => by rw [List.mem_singleton.mp hx]⟩

theorem ne_nil (h : InSegment epsilon cur p opt pos) : cur ≠ [] :=
  List.length_pos_iff.mp (by rw [h.length]; exact Nat.succ_pos _)

theorem ascending_append (h : InSegment epsilon cur p opt pos) (he : p < e.1)
    (hrest : Ascending (e :: rest)) : Ascending (cur ++ e :: rest) := by
  refine AscendingMap.ascending_append.mpr ⟨h.ascending, hrest, fun x hx y hy => ?_⟩
  rcases List.mem_cons.mp hy with rfl | hy
  · exact (h.le x hx).trans_lt he
  · exact ((h.le x hx).trans_lt he).trans ((List.pairwise_cons.mp hrest).1 y hy)

theorem not_ascending (h : InSegment epsilon cur p opt pos) (he : e.1 ≤ p) :
    ¬Ascending (cur ++ e :: rest) := by
  intro hall
  obtain ⟨x, hx, hxp⟩ := h.last
  have hlt := (AscendingMap.ascending_append.mp hall).2.2 x hx e List.mem_cons_self
  exact absurd (hxp ▸ hlt) (not_lt.mpr he)

theorem add (h : InSegment epsilon cur p opt pos) (he : p < e.1)
    (hadd : opt.addPoint e.1 (pos + 1) = .ok (true, opt')) :
    InSegment epsilon (cur ++ [e]) e.1 opt' (pos + 1) where
  accepted := by
    rw [points_append, h.length]
    exact h.accepted.add hadd
  inHull := PLR.addPoint_pos hadd
  lastX := PLR.addPoint_lastX hadd
  length := by rw [List.length_append, List.length_singleton, h.length]
  ascending := h.ascending_append he (List.pairwise_singleton ..)
  last := ⟨e, List.mem_append_right _ (List.mem_singleton_self e), rfl⟩
  le := by
    intro x hx
    rcases List.mem_append.mp hx with hx | hx
    · exact ((h.le x hx).trans_lt he).le
    · rw [List.mem_singleton.mp hx]

theorem trainLoop_nil (h : InSegment epsilon cur p opt pos) :
    trainLoop fmt epsilon raw [] p opt (cur ++ []) pos r = r.appendSegment fmt raw opt cur := by
  rw [trainLoop, List.append_nil, List.take_of_length_le h.length.le]

/-- What the loop does with the next key: it stops, puts the key into the segment under way, or
appends that segment and starts the next one with the key. -/
theorem step (h : InSegment epsilon cur p opt pos) (e : Key × V) (rest : List (Key × V))
    (r : RolexIndex F V N) :
    (e.1 ≤ p ∧ ∃ f, OrderFault f ∧
      trainLoop fmt epsilon raw (e :: rest) p opt (cur ++ e :: rest) pos r = .error f) ∨
    (p < e.1 ∧ ∃ opt', opt.addPoint e.1 (pos + 1) = .ok (true, opt') ∧
      InSegment epsilon (cur ++ [e]) e.1 opt' (pos + 1) ∧
      trainLoop fmt epsilon raw (e :: rest) p opt (cur ++ e :: rest) pos r =
        trainLoop fmt epsilon raw rest e.1 opt' (cur ++ [e] ++ rest) (pos + 1) r) ∨
    (p < e.1 ∧ ∃ opt' opt₀, opt.addPoint e.1 (pos + 1) = .ok (false, opt') ∧
      InSegment epsilon [e] e.1 opt₀ 0 ∧
      trainLoop fmt epsilon raw (e :: rest) p opt (cur ++ e :: rest) pos r =
        (r.appendSegment fmt raw opt' cur >>= fun r' =>
          trainLoop fmt epsilon raw rest e.1 opt₀ ([e] ++ rest) 0 r')) := by
  rcases le_or_gt e.1 p with hle | hlt
  · refine Or.inl ⟨hle, ?_⟩
    rw [trainLoop]
    split
    · exact ⟨_, Or.inl rfl, rfl⟩
    · dsimp only
      rw [PLR.addPoint_not_lt h.inHull (by rw [h.lastX]; exact hle), error_bind]
      exact ⟨_, Or.inr rfl, rfl⟩
  obtain ⟨⟨b, opt'⟩, hadd⟩ := PLR.addPoint_ok (s := opt) (x := e.1) (y := pos + 1)
    (Or.inr (by rw [h.lastX]; exact hlt))
  rw [trainLoop, if_neg hlt.ne']
  cases b with
  | true =>
    refine Or.inr (Or.inl ⟨hlt, opt', hadd, h.add hlt hadd, ?_⟩)
    simp only [hadd, ok_bind, if_true]
    rw [List.append_assoc, List.singleton_append]
  | false =>
    obtain ⟨opt₀, hfirst, h₀⟩ := first epsilon e
    refine Or.inr (Or.inr ⟨hlt, opt', opt₀, hadd, h₀, ?_⟩)
    simp only [hadd, hfirst, ok_bind, Bool.false_eq_true, if_false]
    rw [← h.length, List.take_left, List.drop_left, List.singleton_append]

end InSegment

theorem trainLoop_appended {r r₂ : RolexIndex F V N} {rest : List (Key × V)} :
    ∀ {segs : List (List (Key × V))} {cur : List (Key × V)} {p : Key} {opt : PLR} {pos : ℕ}
      {r₁ : RolexIndex F V N}, Appended fmt epsilon raw r segs r₁ →
      InSegment epsilon cur p opt pos →
      trainLoop fmt epsilon raw rest p opt (cur ++ rest) pos r₁ = .ok r₂ →
      ∃ segs', Appended fmt epsilon raw r (segs ++ segs') r₂ ∧ segs'.flatten = cur ++ rest := by
  induction rest with
  | nil =>
    intro segs cur p opt pos r₁ happ h hok
    rw [h.trainLoop_nil] at hok
    exact ⟨[cur], happ.append h.ne_nil ⟨opt, h.accepted, Or.inl rfl⟩ hok, by simp⟩
  | cons e rest ih =>
    intro segs cur p opt pos r₁ happ h hok
    rcases h.step e rest r₁ with ⟨_, f, _, hloop⟩ | ⟨_, opt', _, h', hloop⟩ |
      ⟨_, opt', opt₀, hadd, h₀, hloop⟩ <;> rw [hloop] at hok
    · cases hok
    · obtain ⟨segs', hsegs, hflat⟩ := ih happ h' hok
      exact ⟨segs', hsegs, by rw [hflat, List.append_assoc, List.singleton_append]⟩
    · obtain ⟨r₃, hseg, hok⟩ := bind_eq_ok hok
      have happ' := happ.append h.ne_nil ⟨opt, h.accepted, Or.inr ⟨_, _, hadd⟩⟩ hseg
      obtain ⟨segs', hsegs, hflat⟩ := ih happ' h₀ hok
      refine ⟨cur :: segs', by rwa [List.append_assoc] at hsegs, ?_⟩
      rw [List.flatten_cons, hflat, List.singleton_append]

theorem trainLoop_ascending {rest : List (Key × V)} :
    ∀ {cur : List (Key × V)} {p : Key} {opt : PLR} {pos : ℕ} {r₁ r₂ : RolexIndex F V N},
      InSegment epsilon cur p opt pos →
      trainLoop fmt epsilon raw rest p opt (cur ++ rest) pos r₁ = .ok r₂ →
      Ascending (cur ++ rest) := by
  induction rest with
  | nil =>
    intro cur p opt pos r₁ r₂ h _
    rw [List.append_nil]
    exact h.ascending
  | cons e rest ih =>
    intro cur p opt pos r₁ r₂ h hok
    rcases h.step e rest r₁ with ⟨_, f, _, hloop⟩ | ⟨_, opt', _, h', hloop⟩ |
      ⟨hlt, opt', opt₀, _, h₀, hloop⟩ <;> rw [hloop] at hok
    · cases hok
    · have hasc := ih h' hok
      rwa [List.append_assoc, List.singleton_append] at hasc
    · obtain ⟨r₃, _, hok⟩ := bind_eq_ok hok
      exact h.ascending_append hlt (ih h₀ hok)

/-- The loop stops at a key that is out of order, else only where `append_model` does. -/
theorem trainLoop_error {r : RolexIndex F V N} {f : Fault} {rest : List (Key × V)} :
    ∀ {segs : List (List (Key × V))} {cur : List (Key × V)} {p : Key} {opt : PLR} {pos : ℕ}
      {r₁ : RolexIndex F V N}, Appended fmt epsilon raw r segs r₁ →
      InSegment epsilon cur p opt pos →
      trainLoop fmt epsilon raw rest p opt (cur ++ rest) pos r₁ = .error f →
      OrderFault f ∧ ¬Ascending (cur ++ rest) ∨
      ∃ segs' seg r₃ opt', Appended fmt epsilon raw r (segs ++ segs') r₃ ∧ seg ≠ [] ∧
        SegmentEnd (epsilon - 1) seg opt' ∧ segs'.flatten ++ seg <+: cur ++ rest ∧
        Ascending (segs'.flatten ++ seg) ∧ r₃.appendSegment fmt raw opt' seg = .error f := by
  induction rest with
  | nil =>
    intro segs cur p opt pos r₁ happ h hok
    rw [h.trainLoop_nil] at hok
    refine Or.inr ⟨[], cur, r₁, opt, by rwa [List.append_nil], h.ne_nil,
      ⟨opt, h.accepted, Or.inl rfl⟩, ?_, h.ascending, hok⟩
    rw [List.append_nil]
    exact List.prefix_rfl
  | cons e rest ih =>
    intro segs cur p opt pos r₁ happ h hok
    rcases h.step e rest r₁ with ⟨hle, f', hf', hloop⟩ | ⟨_, opt', _, h', hloop⟩ |
      ⟨hlt, opt', opt₀, hadd, h₀, hloop⟩ <;> rw [hloop] at hok
    · obtain rfl := Except.error.inj hok
      exact Or.inl ⟨hf', h.not_ascending hle⟩
    · have hrest := ih happ h' hok
      rwa [List.append_assoc, List.singleton_append] at hrest
    have hend : SegmentEnd (epsilon - 1) cur opt' := ⟨opt, h.accepted, Or.inr ⟨_, _, hadd⟩⟩
    rcases bind_eq_error hok with hseg | ⟨r₃, hseg, hok⟩
    · exact Or.inr ⟨[], cur, r₁, opt', by rwa [List.append_nil], h.ne_nil, hend,
        List.prefix_append _ _, h.ascending, hseg⟩
    rcases ih (happ.append h.ne_nil hend hseg) h₀ hok with ⟨hf, hdis⟩ |
      ⟨segs', seg, r₄, opt₁, hsegs, hne', hend', hpre, hasc', herr⟩
    · exact Or.inl ⟨hf, fun hall => hdis (ascending_append.mp hall).2.1⟩
    refine Or.inr ⟨cur :: segs', seg, r₄, opt₁, by rwa [List.append_assoc] at hsegs, hne', hend',
      ?_, ?_, herr⟩
    · rw [List.flatten_cons, List.append_assoc]
      exact (List.prefix_append_right_inj cur).mpr hpre
    · -- what was read of the later segments starts with the key turned down
      obtain ⟨w, ws, hw⟩ :=
        List.exists_cons_of_ne_nil (List.append_ne_nil_of_right_ne_nil segs'.flatten hne')
      rw [List.flatten_cons, List.append_assoc, hw]
      rw [hw] at hasc' hpre
      obtain rfl : w = e := (List.cons_prefix_cons.mp hpre).1
      exact h.ascending_append hlt hasc'

theorem eq_of_train_nil {r r' : RolexIndex F V N} (hok : r.train fmt epsilon raw [] = .ok r') :
    r = r' := Except.ok.inj hok

/-- A training is its loop from the first key on, and the number of submodels stored. -/
theorem train_cons (fmt : DoubleFormat F) (raw : ℕ → Fin kSynonymMax → TableEntry)
    (r : RolexIndex F V N) {e : Key × V} {rest : List (Key × V)}
    (hlen : (e :: rest).length < 2 ^ 31) :
    ∃ opt₀, (PLR.construct (epsilon - 1)).addPoint e.1 0 = .ok (true, opt₀) ∧
      InSegment epsilon [e] e.1 opt₀ 0 ∧
      r.train fmt epsilon raw (e :: rest) =
        (trainLoop fmt epsilon raw rest e.1 opt₀ ([e] ++ rest) 0 r >>= fun r₁ =>
          r₁.RM.modelAllocator.put 0 (Bytes.toBytes 8 r₁.models.length) >>= fun alloc =>
            .ok { r₁ with RM := { r₁.RM with modelAllocator := alloc } }) := by
  obtain ⟨opt₀, hfirst, h₀⟩ := InSegment.first epsilon e
  refine ⟨opt₀, hfirst, h₀, ?_⟩
  rw [train, if_neg (by omega)]
  simp only [hfirst, ok_bind]
  rfl

theorem train_eq_ok {r r' : RolexIndex F V N} {e : Key × V} {rest : List (Key × V)}
    (hok : r.train fmt epsilon raw (e :: rest) = .ok r') :
    (e :: rest).length < 2 ^ 31 ∧ ∃ opt₀ r₁ alloc,
      (PLR.construct (epsilon - 1)).addPoint e.1 0 = .ok (true, opt₀) ∧
      InSegment epsilon [e] e.1 opt₀ 0 ∧
      trainLoop fmt epsilon raw rest e.1 opt₀ ([e] ++ rest) 0 r = .ok r₁ ∧
      r₁.RM.modelAllocator.put 0 (Bytes.toBytes 8 r₁.models.length) = .ok alloc ∧
      r' = { r₁ with RM := { r₁.RM with modelAllocator := alloc } } := by
  by_cases hlen : (e :: rest).length < 2 ^ 31
  · obtain ⟨opt₀, hfirst, h₀, htrain⟩ := train_cons fmt raw r hlen
    rw [htrain] at hok
    obtain ⟨r₁, hloop, hok⟩ := bind_eq_ok hok
    obtain ⟨alloc, hput, hok⟩ := bind_eq_ok hok
    exact ⟨hlen, opt₀, r₁, alloc, hfirst, h₀, hloop, hput, (Except.ok.inj hok).symm⟩
  · rw [train, if_pos (not_lt.mp hlen)] at hok
    cases hok

theorem train_appended {r r' : RolexIndex F V N} {data : List (Key × V)} (hne : data ≠ [])
    (hok : r.train fmt epsilon raw data = .ok r') :
    data.length < 2 ^ 31 ∧ ∃ segs r₁ alloc, Appended fmt epsilon raw r segs r₁ ∧
    segs.flatten = data ∧
      r₁.RM.modelAllocator.put 0 (Bytes.toBytes 8 r₁.models.length) = .ok alloc ∧
      r' = { r₁ with RM := { r₁.RM with modelAllocator := alloc } } := by
  obtain ⟨e, rest, rfl⟩ := List.exists_cons_of_ne_nil hne
  obtain ⟨hlen, opt₀, r₁, alloc, _, h₀, hloop, hput, hr'⟩ := train_eq_ok hok
  obtain ⟨segs, hsegs, hflat⟩ := trainLoop_appended .none h₀ hloop
  exact ⟨hlen, segs, r₁, alloc, hsegs, hflat, hput, hr'⟩

end RolexIndex
end Rolex
