import Rolex.Foundations.Stabbing
import Rolex.PiecewiseLinear

/-! What `add_point` keeps: the vectors from their starts on are the chains of a hull, and
the rectangle gives its two extreme lines. -/

namespace Rolex
open Stabbing

def Point.toRat (p : Point) : ℚ × ℚ := (p.x, p.y)

def upperPoint (epsilon : ℕ) (q : ℕ × ℕ) : Point := ⟨q.1, min (q.2 + epsilon) PLR.maxY⟩

def lowerPoint (epsilon : ℕ) (q : ℕ × ℕ) : Point := ⟨q.1, q.2 - epsilon⟩

def uppers (epsilon : ℕ) (pts : List (ℕ × ℕ)) : List (ℚ × ℚ) :=
  pts.map fun q => (upperPoint epsilon q).toRat

def lowers (epsilon : ℕ) (pts : List (ℕ × ℕ)) : List (ℚ × ℚ) :=
  pts.map fun q => (lowerPoint epsilon q).toRat

/-! ### Slopes -/

theorem toRat_x_lt {p q : Point} : p.toRat.1 < q.toRat.1 ↔ p.x < q.x := Nat.cast_lt

theorem toRat_x_le {p q : Point} : p.toRat.1 ≤ q.toRat.1 ↔ p.x ≤ q.x := Nat.cast_le

theorem toRat_y_le {p q : Point} : p.toRat.2 ≤ q.toRat.2 ↔ p.y ≤ q.y := Nat.cast_le

theorem cast_cross (O A B : Point) : ((cross O A B : ℤ) : ℚ) = turn O.toRat A.toRat B.toRat := by
  simp [cross, turn, Point.sub, Point.toRat]

theorem eval_through (a b : ℚ × ℚ) (hab : a.1 ≠ b.1) (x : ℚ) :
    (through a b).eval x * (b.1 - a.1) = a.2 * (b.1 - a.1) + (x - a.1) * (b.2 - a.2) := by
  have hne : b.1 - a.1 ≠ 0 := sub_ne_zero.mpr hab.symm
  rw [Line.eval, through]
  field_simp
  ring

section Side

variable {p a b : Point} (hab : a.x < b.x)

include hab

theorem scaled_side_iff : (p.toRat.2 - a.toRat.2) * (b.toRat.1 - a.toRat.1) <
      (p.toRat.1 - a.toRat.1) * (b.toRat.2 - a.toRat.2) ↔
    p.toRat.2 < (through a.toRat b.toRat).eval p.toRat.1 := by
  have hpos : 0 < b.toRat.1 - a.toRat.1 := sub_pos.mpr (toRat_x_lt.mpr hab)
  rw [← mul_lt_mul_iff_left₀ (b := p.toRat.2) hpos, eval_through _ _ (toRat_x_lt.mpr hab).ne]
  constructor <;> intro h <;> linarith

theorem scaled_side_iff' : (p.toRat.1 - a.toRat.1) * (b.toRat.2 - a.toRat.2) <
      (p.toRat.2 - a.toRat.2) * (b.toRat.1 - a.toRat.1) ↔
    (through a.toRat b.toRat).eval p.toRat.1 < p.toRat.2 := by
  have hpos : 0 < b.toRat.1 - a.toRat.1 := sub_pos.mpr (toRat_x_lt.mpr hab)
  rw [← mul_lt_mul_iff_left₀ (c := p.toRat.2) hpos, eval_through _ _ (toRat_x_lt.mpr hab).ne]
  constructor <;> intro h <;> linarith

theorem lt_from_left : (p.sub a).lt (b.sub a) = true ↔
    p.toRat.2 < (through a.toRat b.toRat).eval p.toRat.1 := by
  rw [← scaled_side_iff hab, Slope.lt, decide_eq_true_eq, ← Int.cast_lt (R := ℚ)]
  simp only [Point.sub, Point.toRat]
  push_cast
  rfl

theorem gt_from_left : (p.sub a).gt (b.sub a) = true ↔
    (through a.toRat b.toRat).eval p.toRat.1 < p.toRat.2 := by
  rw [← scaled_side_iff' hab, Slope.gt, decide_eq_true_eq, gt_iff_lt, ← Int.cast_lt (R := ℚ)]
  simp only [Point.sub, Point.toRat]
  push_cast
  rfl

theorem lt_from_right : (p.sub b).lt (b.sub a) = true ↔
    p.toRat.2 < (through a.toRat b.toRat).eval p.toRat.1 := by
  rw [← scaled_side_iff hab, Slope.lt, decide_eq_true_eq, ← Int.cast_lt (R := ℚ)]
  simp only [Point.sub, Point.toRat]
  push_cast
  constructor <;> intro h <;> linarith

theorem gt_from_right : (p.sub b).gt (b.sub a) = true ↔
    (through a.toRat b.toRat).eval p.toRat.1 < p.toRat.2 := by
  rw [← scaled_side_iff' hab, Slope.gt, decide_eq_true_eq, gt_iff_lt, ← Int.cast_lt (R := ℚ)]
  simp only [Point.sub, Point.toRat]
  push_cast
  constructor <;> intro h <;> linarith

theorem gt_backwards : (p.sub b).gt (a.sub b) = true ↔
    p.toRat.2 < (through a.toRat b.toRat).eval p.toRat.1 := by
  rw [← lt_from_right hab, Slope.gt, Slope.lt, decide_eq_true_eq, decide_eq_true_eq, gt_iff_lt]
  simp only [Point.sub]
  constructor <;> intro h <;> linarith

theorem lt_backwards : (p.sub b).lt (a.sub b) = true ↔
    (through a.toRat b.toRat).eval p.toRat.1 < p.toRat.2 := by
  rw [← gt_from_right hab, Slope.gt, Slope.lt, decide_eq_true_eq, decide_eq_true_eq, gt_iff_lt]
  simp only [Point.sub]
  constructor <;> intro h <;> linarith

end Side

/-! ### The loops -/

theorem findExtreme_eq {better : Slope → Slope → Bool} {f : Point → ℚ × ℚ} (hx : ∀ p, (f p).1 = p.x)
    (hbetter : ∀ {a b q : Point}, a.x < q.x →
      (better (b.sub q) (a.sub q) = true ↔ (through (f a) (f q)).eval (f b).1 < (f b).2))
      {q : Point} {rest : List Point} :
    ∀ {a : Point}, a.x < q.x → (∀ b ∈ rest, b.x < q.x ∨ b.x = q.x ∧ (f q).2 < (f b).2) → ∀ i,
      PLR.findExtreme better q rest (a.sub q) i = i + passed (f q) (f a) (rest.map f) := by
  induction rest with
  | nil => exact fun _ _ _ => rfl
  | cons b rest ih =>
    intro a ha hrest i
    rw [PLR.findExtreme, List.map_cons, passed]
    by_cases hstop : (through (f a) (f q)).eval (f b).1 < (f b).2
    · rw [if_pos ((hbetter ha).mpr hstop), if_pos hstop]
      rfl
    · rw [if_neg (mt (hbetter ha).mp hstop), if_neg hstop]
      have hb : b.x < q.x := by
        rcases hrest b List.mem_cons_self with hb | ⟨hb, hqb⟩
        · exact hb
        · refine absurd ?_ hstop
          have hne : (f a).1 ≠ (f q).1 := by
            rw [hx, hx]
            exact Nat.cast_injective.ne ha.ne
          have hbq : (f b).1 = (f q).1 := by rw [hx, hx, hb]
          rw [hbq, eval_through_right hne]
          exact hqb
      rw [ih hb fun x hx => hrest x (List.mem_cons_of_mem _ hx)]
      omega

theorem findExtreme_lt {q : Point} {rest : List Point} {a : Point} (ha : a.x < q.x)
    (hrest : ∀ b ∈ rest, b.x < q.x ∨ b.x = q.x ∧ q.y < b.y) (i : ℕ) :
    PLR.findExtreme Slope.lt q rest (a.sub q) i =
    i + passed q.toRat a.toRat (rest.map Point.toRat) :=
  findExtreme_eq (fun _ => rfl) lt_backwards ha
    (fun b hb => (hrest b hb).imp_right fun h => h.imp_right fun hlt => Nat.cast_lt.mpr hlt) i

theorem findExtreme_gt {q : Point} {rest : List Point} {a : Point} (ha : a.x < q.x)
    (hrest : ∀ b ∈ rest, b.x < q.x) (i : ℕ) : PLR.findExtreme Slope.gt q rest (a.sub q) i =
      i + passed (flip q.toRat) (flip a.toRat) ((rest.map Point.toRat).map flip) := by
  have hbetter : ∀ {a b q : Point}, a.x < q.x → ((b.sub q).gt (a.sub q) = true ↔
      (through (flip a.toRat) (flip q.toRat)).eval (flip b.toRat).1 < (flip b.toRat).2) := by
    intro a b q ha
    rw [gt_backwards ha, through_flip, eval_flip]
    exact neg_lt_neg_iff.symm
  rw [List.map_map]
  exact findExtreme_eq (f := flip ∘ Point.toRat) (fun _ => rfl) hbetter ha
    (fun b hb => Or.inl (hrest b hb)) i

theorem hullEnd_eq {bad : Point → Point → Bool} {p : ℚ × ℚ} {f : Point → ℚ × ℚ}
    (hbad : ∀ a b, bad a b = true ↔ turn (f a) (f b) p ≤ 0) (pts : List Point) (start : ℕ) {n : ℕ}
    (hn : 0 < n) (hlen : start + n ≤ pts.length) :
    PLR.hullEnd bad pts start (start + n) = start + kept p ((pts.drop start).map f) n := by
  induction n with
  | zero => exact absurd hn (lt_irrefl 0)
  | succ n ih =>
    cases n with
    | zero =>
      rw [PLR.hullEnd, if_neg (by omega), kept]
    | succ n =>
      have hget : ∀ m, m < n + 2 →
          ((pts.drop start).map f).getD m p = f (pts.getD (start + m) PLR.origin) := by
        intro m hm
        have hm' : start + m < pts.length := by omega
        have hd : m < ((pts.drop start).map f).length := by
          rw [List.length_map, List.length_drop]
          omega
        rw [List.getD_eq_getElem _ _ hd, List.getD_eq_getElem _ _ hm', List.getElem_map,
          List.getElem_drop]
      rw [kept, hget n (by omega), hget (n + 1) (by omega)]
      change (if start + (n + 1) + 1 ≥ start + 2 ∧ bad (pts.getD (start + n) PLR.origin)
        (pts.getD (start + (n + 1)) PLR.origin) = true then
        PLR.hullEnd bad pts start (start + (n + 1))
        else start + (n + 1) + 1) = _
      by_cases hb : bad (pts.getD (start + n) PLR.origin) (pts.getD (start + (n + 1)) PLR.origin) =
        true
      · rw [if_pos ⟨by omega, hb⟩, if_pos ((hbad _ _).mp hb), ih (Nat.succ_pos n) (by omega)]
      · rw [if_neg (fun h => hb h.2), if_neg (mt (hbad _ _).mpr hb)]
        rfl

/-! ### The invariant -/

theorem toRat_injective : Function.Injective Point.toRat := by
  rintro ⟨x, y⟩ ⟨x', y'⟩ h
  obtain ⟨hx, hy⟩ := Prod.mk.inj h
  exact (Point.mk.injEq ..).mpr ⟨Nat.cast_injective hx, Nat.cast_injective hy⟩

/-- The vectors of `s` are the chains of a hull, the rectangle gives its lines. -/
abbrev PLR.Swept (s : PLR) (ups lows : List (ℚ × ℚ)) : Prop :=
  Hull ups lows ((s.upper.drop s.upperStart).map Point.toRat)
    ((s.lower.drop s.lowerStart).map Point.toRat) s.rectangle.r0.toRat s.rectangle.r1.toRat
    s.rectangle.r2.toRat s.rectangle.r3.toRat

theorem exists_drop_of_head {pts : List Point} {start : ℕ} {p : Point}
    (h : ((pts.drop start).map Point.toRat).head? = some p.toRat) :
    pts.drop start = p :: pts.drop (start + 1) ∧ pts.getD start PLR.origin = p ∧
    start < pts.length := by
  have hlt : start < pts.length := by
    by_contra hge
    rw [List.drop_eq_nil_of_le (not_lt.mp hge)] at h
    cases h
  rw [List.drop_eq_getElem_cons hlt, List.map_cons, List.head?_cons, Option.some.injEq] at h
  have hp := toRat_injective h
  refine ⟨?_, ?_, hlt⟩
  · rw [List.drop_eq_getElem_cons hlt, hp]
  · rw [List.getD_eq_getElem _ _ hlt, hp]

theorem getD_of_drop {pts : List Point} {i : ℕ} {p : Point} {tail : List Point}
    (h : pts.drop i = p :: tail) : pts.getD i PLR.origin = p := by
  have hp : (pts.drop i).head? = some p := by rw [h]; rfl
  rw [List.head?_drop] at hp
  rw [List.getD_eq_getElem?_getD, hp]
  rfl

theorem drop_take_concat (pts : List Point) {start : ℕ} (hs : start ≤ pts.length) (n : ℕ)
    (p : Point) : ((pts.take (start + n) ++ [p]).drop start).map Point.toRat =
      ((pts.drop start).map Point.toRat).take n ++ [p.toRat] := by
  rw [List.drop_append_of_le_length (by rw [List.length_take]; omega), List.drop_take,
    Nat.add_sub_cancel_left, List.map_append, List.map_take]
  rfl

namespace PLR

variable {s : PLR} {ups lows : List (ℚ × ℚ)}

theorem Swept.addUpper (h : s.Swept ups lows) {p1 : Point} (hups : ∀ a ∈ ups, a.1 < p1.toRat.1)
    (hlows : ∀ b ∈ lows, b.1 < p1.toRat.1)
    (hm : (through s.rectangle.r0.toRat s.rectangle.r2.toRat).eval p1.toRat.1 ≤ p1.toRat.2)
    (hp : p1.toRat.2 ≤ (through s.rectangle.r1.toRat s.rectangle.r3.toRat).eval p1.toRat.1) :
    (s.addUpper p1).Swept (ups ++ [p1.toRat]) lows := by
  obtain ⟨hl, hl0, _⟩ := exists_drop_of_head h.lowerHead
  obtain ⟨_, _, hut⟩ := exists_drop_of_head h.upperHead
  have hr1 : s.rectangle.r1.x < p1.x := toRat_x_lt.mp (hlows _ h.lowerHead_mem)
  have hB : ∀ b ∈ s.lower.drop (s.lowerStart + 1), b.x < p1.x := by
    intro b hb
    refine toRat_x_lt.mp (hlows _ (h.lowerMem _ (List.mem_map_of_mem ?_)))
    rw [hl]
    exact List.mem_cons_of_mem _ hb
  set k := passed (flip p1.toRat) (flip s.rectangle.r1.toRat)
    (((s.lower.drop (s.lowerStart + 1)).map Point.toRat).map flip) with hk
  have hmin : findExtreme Slope.gt p1 (s.lower.drop (s.lowerStart + 1))
      ((s.lower.getD s.lowerStart origin).sub p1) s.lowerStart = s.lowerStart + k := by
    rw [hl0]
    exact findExtreme_gt hr1 hB _
  have hend : hullEnd (fun a b => decide (cross a b p1 ≤ 0)) s.upper s.upperStart s.upper.length =
      s.upperStart + kept p1.toRat ((s.upper.drop s.upperStart).map Point.toRat)
        ((s.upper.drop s.upperStart).map Point.toRat).length := by
    have hn : s.upper.length = s.upperStart + (s.upper.length - s.upperStart) := by omega
    rw [List.length_map, List.length_drop]
    conv_lhs => rw [hn]
    refine hullEnd_eq (fun a b => ?_) _ _ (by omega) hn.ge
    rw [decide_eq_true_eq, ← Int.cast_le (R := ℚ), cast_cross, Int.cast_zero]
  have hcons : (s.lower.drop s.lowerStart).map Point.toRat =
      s.rectangle.r1.toRat :: (s.lower.drop (s.lowerStart + 1)).map Point.toRat := by rw [hl]; rfl
  rw [Swept, hcons] at h
  obtain ⟨c, tail, hdrop, _, hhull⟩ :=
    h.push (fun a ha => hups a (h.upperMem a ha)) (toRat_x_lt.mpr hr1)
    (fun b hb => by
      obtain ⟨d, hd, rfl⟩ := List.mem_map.mp hb
      exact Or.inl (toRat_x_lt.mpr (hB d hd)))
    (fun a ha => (hups a ha).le) hm hp
  rw [← hk, ← hcons, ← List.map_drop, List.drop_drop] at hdrop
  obtain ⟨c, tail, hdrop', rfl, rfl⟩ := List.map_eq_cons_iff.mp hdrop
  rw [Swept, PLR.addUpper]
  simp only [hmin, hend, getD_of_drop hdrop', drop_take_concat _ hut.le, hdrop', List.map_cons]
  exact hhull

theorem Swept.addLower (h : s.Swept ups lows) {p2 : Point}
    (hups : ∀ a ∈ ups, a.1 < p2.toRat.1 ∨ a.1 = p2.toRat.1 ∧ p2.toRat.2 < a.2)
    (hlows : ∀ b ∈ lows, b.1 < p2.toRat.1)
    (hm : p2.toRat.2 ≤ (through s.rectangle.r1.toRat s.rectangle.r3.toRat).eval p2.toRat.1)
    (hp : (through s.rectangle.r0.toRat s.rectangle.r2.toRat).eval p2.toRat.1 ≤ p2.toRat.2) :
    (s.addLower p2).Swept ups (lows ++ [p2.toRat]) := by
  obtain ⟨_, _, hlt⟩ := exists_drop_of_head h.lowerHead
  obtain ⟨hu, hu0, _⟩ := exists_drop_of_head h.upperHead
  have hr0 : s.rectangle.r0.x < p2.x :=
    toRat_x_lt.mp (h.touchLower.2.trans (hlows _ h.touchLower.1))
  have hA : ∀ a ∈ s.upper.drop (s.upperStart + 1), a.x < p2.x ∨ a.x = p2.x ∧ p2.y < a.y := by
    intro a ha
    have hmem : a ∈ s.upper.drop s.upperStart := by
      rw [hu]
      exact List.mem_cons_of_mem _ ha
    exact (hups _ (h.upperMem _ (List.mem_map_of_mem hmem))).imp toRat_x_lt.mp fun hlt =>
      ⟨Nat.cast_injective hlt.1, Nat.cast_lt.mp hlt.2⟩
  set k := passed p2.toRat s.rectangle.r0.toRat
    ((s.upper.drop (s.upperStart + 1)).map Point.toRat) with hk
  have hmax : findExtreme Slope.lt p2 (s.upper.drop (s.upperStart + 1))
      ((s.upper.getD s.upperStart origin).sub p2) s.upperStart = s.upperStart + k := by
    rw [hu0]
    exact findExtreme_lt hr0 hA _
  have hend : hullEnd (fun a b => decide (cross a b p2 ≥ 0)) s.lower s.lowerStart s.lower.length =
      s.lowerStart + kept (flip p2.toRat) (((s.lower.drop s.lowerStart).map Point.toRat).map flip)
        ((s.lower.drop s.lowerStart).map Point.toRat).length := by
    have hn : s.lower.length = s.lowerStart + (s.lower.length - s.lowerStart) := by omega
    rw [List.length_map, List.length_drop, List.map_map]
    conv_lhs => rw [hn]
    refine hullEnd_eq (fun a b => ?_) _ _ (by omega) hn.ge
    rw [decide_eq_true_eq, ge_iff_le, ← Int.cast_le (R := ℚ), cast_cross, Int.cast_zero,
      Function.comp_apply, Function.comp_apply, turn_flip, neg_nonpos]
  have hcons : (s.upper.drop s.upperStart).map Point.toRat =
      s.rectangle.r0.toRat :: (s.upper.drop (s.upperStart + 1)).map Point.toRat := by rw [hu]; rfl
  rw [Swept, hcons] at h
  obtain ⟨c, tail, hdrop, _, hhull⟩ :=
    h.pushLower (fun b hb => hlows b (h.lowerMem b hb)) (toRat_x_lt.mpr hr0)
    (fun a ha => by
      obtain ⟨d, hd, rfl⟩ := List.mem_map.mp ha
      exact (hA d hd).imp toRat_x_lt.mpr fun hlt =>
        ⟨congrArg Nat.cast hlt.1, Nat.cast_lt.mpr hlt.2⟩)
    (fun b hb => (hlows b hb).le) hm hp
  rw [← hk, ← hcons, ← List.map_drop, List.drop_drop] at hdrop
  obtain ⟨c, tail, hdrop', rfl, rfl⟩ := List.map_eq_cons_iff.mp hdrop
  rw [Swept, PLR.addLower]
  simp only [hmax, hend, getD_of_drop hdrop', drop_take_concat _ hlt.le, hdrop', List.map_cons]
  exact hhull

/-- With `p1` above `p2`, or on it when all points are bounds from both sides. -/
theorem Swept.addLater (h : s.Swept ups lows) (p1 p2 : Point) (hx : p1.x = p2.x)
    (hups : ∀ a ∈ ups, a.1 < p1.toRat.1) (hlows : ∀ b ∈ lows, b.1 < p1.toRat.1)
    (hy : p2.y < p1.y ∨ p2 = p1 ∧ ups = lows) {s' : PLR} (hok : s.addLater p1 p2 = (true, s')) :
    s'.Swept (ups ++ [p1.toRat]) (lows ++ [p2.toRat]) ∧ s'.pointsInHull = s.pointsInHull + 1 ∧
      s'.epsilon = s.epsilon ∧ s'.lastX = s.lastX := by
  have h02 := toRat_x_lt.mp h.touchLower.2
  have h13 := toRat_x_lt.mp h.touchUpper.2
  have h2 : s.rectangle.r2.toRat.1 ≤ p1.toRat.1 := (hlows _ h.touchLower.1).le
  have h3 : s.rectangle.r3.toRat.1 ≤ p1.toRat.1 := (hups _ h.touchUpper.1).le
  have hxq : p1.toRat.1 = p2.toRat.1 := congrArg Nat.cast hx
  have hyq : p2.toRat.2 ≤ p1.toRat.2 := by
    rcases hy with hlt | ⟨heq, _⟩
    · exact Nat.cast_le.mpr hlt.le
    · rw [heq]
  rw [PLR.addLater] at hok
  simp only [Bool.or_eq_true, lt_from_right h02, gt_from_right h13, lt_from_left h13] at hok
  split at hok
  · cases hok
  · rename_i hin
    push Not at hin
    obtain ⟨hin1, hin2⟩ := hin
    obtain rfl := (Prod.mk.inj hok).2
    -- the upper point
    obtain ⟨t, ht, hsw, hm, hr0, hr2, hkeep⟩ : ∃ t : PLR,
        (if p1.toRat.2 < (through s.rectangle.r1.toRat s.rectangle.r3.toRat).eval p1.toRat.1 then
        s.addUpper p1
          else s) = t ∧ t.Swept (ups ++ [p1.toRat]) lows ∧
        (p2.toRat.2 ≤ (through t.rectangle.r1.toRat t.rectangle.r3.toRat).eval p2.toRat.1) ∧
        t.rectangle.r0 = s.rectangle.r0 ∧ t.rectangle.r2 = s.rectangle.r2 ∧
        t.pointsInHull = s.pointsInHull ∧ t.epsilon = s.epsilon ∧ t.lastX = s.lastX := by
      refine ⟨_, rfl, ?_⟩
      split
      · rename_i hlt
        have hu := h.addUpper hups hlows hin1 hlt.le
        refine ⟨hu, ?_, rfl, rfl, rfl, rfl, rfl⟩
        rw [← hxq]
        have hr3 : (s.addUpper p1).rectangle.r3 = p1 := rfl
        rw [hr3, eval_through_right (hr3 ▸ hu.touchUpper.2).ne]
        exact hyq
      · rename_i hge
        exact ⟨h.skip h3 hin1 (not_lt.mp hge), hin2, rfl, rfl, rfl, rfl, rfl⟩
    rw [ht]
    rw [hr0]
    have hm' : (through t.rectangle.r0.toRat t.rectangle.r2.toRat).eval p2.toRat.1 =
        (through s.rectangle.r0.toRat s.rectangle.r2.toRat).eval p2.toRat.1 := by rw [hr0, hr2]
    -- the lower point
    have hlow : (if (through s.rectangle.r0.toRat s.rectangle.r2.toRat).eval p2.toRat.1 < p2.toRat.2
      then
        t.addLower p2 else t).Swept (ups ++ [p1.toRat]) (lows ++ [p2.toRat]) := by
      split
      · rename_i hlt
        refine hsw.addLower (fun a ha => ?_) (fun b hb => hxq ▸ hlows b hb) hm (hm'.le.trans hlt.le)
        rcases List.mem_append.mp ha with ha | ha
        · exact Or.inl (hxq ▸ hups a ha)
        · obtain rfl := List.mem_singleton.mp ha
          rcases hy with hlt' | ⟨rfl, rfl⟩
          · exact Or.inr ⟨hxq, Nat.cast_lt.mpr hlt'⟩
          · -- one line is left, and the point would be above it
            exact absurd (hin2.trans (h.eval_le_of_common h2)) (not_le.mpr hlt)
      · rename_i hge
        refine hsw.skipLower ?_ hm (hm'.symm ▸ not_lt.mp hge)
        rw [hr2, ← hxq]
        exact h2
    simp only [gt_from_left h02]
    split at hlow
    · rename_i hlt
      rw [if_pos hlt]
      exact ⟨hlow, congrArg (· + 1) hkeep.1, hkeep.2⟩
    · rename_i hge
      rw [if_neg hge]
      exact ⟨hlow, congrArg (· + 1) hkeep.1, hkeep.2⟩

end PLR
end Rolex
