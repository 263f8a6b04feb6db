import Rolex.PlrHull

/-! The segment that `get_segment` returns fits all points that `add_point` has accepted, and a
point is rejected only when no line fits it with them. -/

namespace Rolex
open Stabbing

inductive PLR.Accepted (epsilon : ℕ) : List (ℕ × ℕ) → PLR → Prop where
  | start {s : PLR} (hs : s.pointsInHull = 0) (he : s.epsilon = epsilon) : Accepted epsilon [] s
  | add {pts : List (ℕ × ℕ)} {s s' : PLR} {x y : ℕ} (h : Accepted epsilon pts s)
      (hok : s.addPoint x y = .ok (true, s')) : Accepted epsilon (pts ++ [(x, y)]) s'

/-- The line `a * x + b` keeps within `epsilon` of the points, and above 0. -/
def Fits (epsilon : ℕ) (pts : List (ℕ × ℕ)) (a b : ℚ) : Prop :=
  ∀ q ∈ pts, max 0 ((q.2 : ℚ) - epsilon) ≤ a * q.1 + b ∧ a * q.1 + b ≤ q.2 + epsilon

theorem cast_sub_eq_max (y epsilon : ℕ) : ((y - epsilon : ℕ) : ℚ) = max 0 ((y : ℚ) - epsilon) := by
  rcases le_total y epsilon with h | h
  · rw [Nat.sub_eq_zero_of_le h, max_eq_left (sub_nonpos.mpr (Nat.cast_le.mpr h)), Nat.cast_zero]
  · rw [Nat.cast_sub h, max_eq_right (sub_nonneg.mpr (Nat.cast_le.mpr h))]

theorem Fits.of_stabs {epsilon : ℕ} {pts : List (ℕ × ℕ)} {l : Line ℚ}
    (h : Stabs (uppers epsilon pts) (lowers epsilon pts) l) :
    Fits epsilon pts l.slope l.intercept := by
  intro q hq
  have hu : l.slope * (q.1 : ℚ) + l.intercept ≤ ((min (q.2 + epsilon) PLR.maxY : ℕ) : ℚ) :=
    h.le _ (List.mem_map_of_mem hq)
  have hl : ((q.2 - epsilon : ℕ) : ℚ) ≤ l.slope * (q.1 : ℚ) + l.intercept :=
    h.ge _ (List.mem_map_of_mem hq)
  have hmin : ((min (q.2 + epsilon) PLR.maxY : ℕ) : ℚ) ≤ ((q.2 + epsilon : ℕ) : ℚ) :=
    Nat.cast_le.mpr (min_le_left _ _)
  rw [Nat.cast_add] at hmin
  rw [cast_sub_eq_max] at hl
  exact ⟨hl, hu.trans hmin⟩

theorem Fits.stabs {epsilon : ℕ} {pts : List (ℕ × ℕ)} {a b : ℚ} (h : Fits epsilon pts a b)
    (hy : ∀ q ∈ pts, q.2 + epsilon ≤ PLR.maxY) :
    Stabs (uppers epsilon pts) (lowers epsilon pts) ⟨a, b⟩ := by
  constructor <;> intro p hp <;> obtain ⟨q, hq, rfl⟩ := List.mem_map.mp hp
  · change a * (q.1 : ℚ) + b ≤ ((min (q.2 + epsilon) PLR.maxY : ℕ) : ℚ)
    rw [min_eq_left (hy q hq), Nat.cast_add]
    exact (h q hq).2
  · change ((q.2 - epsilon : ℕ) : ℚ) ≤ a * (q.1 : ℚ) + b
    rw [cast_sub_eq_max]
    exact (h q hq).1

namespace PLR

variable {epsilon : ℕ} {pts : List (ℕ × ℕ)} {s s' : PLR}

theorem addPoint_eq (s : PLR) (x y : ℕ) :
    s.addPoint x y = if s.pointsInHull > 0 ∧ x ≤ s.lastX then .error .pointsNotIncreasing
      else .ok (if s.pointsInHull = 0 then
          (true, { s with lastX := x }.addFirst (upperPoint s.epsilon (x, y))
            (lowerPoint s.epsilon (x, y)))
        else if s.pointsInHull = 1 then
          (true, { s with lastX := x }.addSecond (upperPoint s.epsilon (x, y))
            (lowerPoint s.epsilon (x, y)))
        else { s with lastX := x }.addLater (upperPoint s.epsilon (x, y))
          (lowerPoint s.epsilon (x, y))) := by
  have hmax : (if y ≥ maxY - s.epsilon then maxY else y + s.epsilon) =
      min (y + s.epsilon) maxY := by
    split <;> omega
  have hsub : (if y ≤ s.epsilon then 0 else y - s.epsilon) = y - s.epsilon := by
    split <;> omega
  rw [addPoint]
  simp only [hmax, hsub]
  rfl

/-- What the fields hold when `pts` have been accepted. -/
def Tracked (s : PLR) : List (ℕ × ℕ) → Prop
  | [] => s.pointsInHull = 0
  | [q] => s.pointsInHull = 1 ∧ s.lastX = q.1 ∧ s.upper = [upperPoint s.epsilon q] ∧
      s.lower = [lowerPoint s.epsilon q] ∧ s.upperStart = 0 ∧ s.lowerStart = 0 ∧
      s.rectangle.r0 = upperPoint s.epsilon q ∧ s.rectangle.r1 = lowerPoint s.epsilon q
  | q :: q' :: rest => 2 ≤ s.pointsInHull ∧ (∀ p ∈ q :: q' :: rest, p.1 ≤ s.lastX) ∧
      s.Swept (uppers s.epsilon (q :: q' :: rest)) (lowers s.epsilon (q :: q' :: rest))

theorem lowerPoint_le (epsilon : ℕ) {q : ℕ × ℕ} (hq : q.2 < 2 ^ 63) :
    (lowerPoint epsilon q).y ≤ (upperPoint epsilon q).y := by
  change q.2 - epsilon ≤ min (q.2 + epsilon) maxY
  rw [maxY]
  omega

theorem lowerPoint_lt (epsilon : ℕ) {q : ℕ × ℕ} (hq : q.2 < 2 ^ 63) :
    (lowerPoint epsilon q).y < (upperPoint epsilon q).y ∨
    lowerPoint epsilon q = upperPoint epsilon q ∧ epsilon = 0 := by
  have hy : q.2 ≤ maxY := by rw [maxY]; omega
  rcases Nat.eq_zero_or_pos epsilon with rfl | hpos
  · right
    rw [lowerPoint, upperPoint, Nat.add_zero, Nat.sub_zero, min_eq_left hy]
    exact ⟨rfl, rfl⟩
  · left
    change q.2 - epsilon < min (q.2 + epsilon) maxY
    rw [maxY]
    omega

theorem uppers_zero {pts : List (ℕ × ℕ)} (hy : ∀ q ∈ pts, q.2 < 2 ^ 63) :
    uppers 0 pts = lowers 0 pts := by
  refine List.map_congr_left fun q hq => ?_
  have hq' : q.2 ≤ maxY := (hy q hq).le.trans (by norm_num [maxY])
  rw [lowerPoint, upperPoint, Nat.add_zero, Nat.sub_zero, min_eq_left hq']

theorem Tracked.addPoint (h : s.Tracked pts) (hpts : ∀ q ∈ pts, q.2 < 2 ^ 63) {x y : ℕ}
    (hy : y < 2 ^ 63) (hok : s.addPoint x y = .ok (true, s')) :
    s'.Tracked (pts ++ [(x, y)]) ∧ s'.epsilon = s.epsilon := by
  rw [addPoint_eq] at hok
  split at hok
  · cases hok
  rename_i hinc
  have hok' := Except.ok.inj hok
  match pts, h with
  | [], h =>
    have h0 : s.pointsInHull = 0 := h
    rw [if_pos h0] at hok'
    obtain rfl := (Prod.mk.inj hok').2
    exact ⟨⟨congrArg (· + 1) h0, rfl, rfl, rfl, rfl, rfl, rfl, rfl⟩, rfl⟩
  | [q], ⟨hn, hlast, hu, hl, hus, hls, hr0, hr1⟩ =>
    rw [if_neg (by omega), if_pos hn] at hok'
    obtain rfl := (Prod.mk.inj hok').2
    have hlt : q.1 < x := by omega
    refine ⟨⟨?_, ?_, ?_⟩, rfl⟩
    · change 2 ≤ s.pointsInHull + 1
      omega
    · intro p hp
      rcases List.mem_cons.mp hp with rfl | hp
      · exact hlt.le
      · obtain rfl := List.mem_singleton.mp hp
        exact le_rfl
    · have hstart := Hull.start (upperPoint s.epsilon q).toRat (lowerPoint s.epsilon q).toRat
        (upperPoint s.epsilon (x, y)).toRat (lowerPoint s.epsilon (x, y)).toRat rfl rfl
        (Nat.cast_lt.mpr hlt)
        (Nat.cast_le.mpr (lowerPoint_le _ (hpts q (List.mem_singleton_self q))))
        (Nat.cast_le.mpr (lowerPoint_le _ hy))
      rw [Swept, addSecond]
      simp only [hus, hls, hu, hl, hr0, hr1, List.drop_zero]
      exact hstart
  | q :: q' :: rest, ⟨hn, hlast, hsw⟩ =>
    rw [if_neg (by omega), if_neg (by omega)] at hok'
    have hlt : ∀ p ∈ q :: q' :: rest, p.1 < x := fun p hp => by
      have := hlast p hp
      omega
    obtain ⟨hsw', hn', he', hl'⟩ := Swept.addLater (s := { s with lastX := x }) hsw
      (upperPoint s.epsilon (x, y)) (lowerPoint s.epsilon (x, y)) rfl
      (fun a ha => by
        obtain ⟨p, hp, rfl⟩ := List.mem_map.mp ha
        exact Nat.cast_lt.mpr (hlt p hp))
      (fun b hb => by
        obtain ⟨p, hp, rfl⟩ := List.mem_map.mp hb
        exact Nat.cast_lt.mpr (hlt p hp))
      ((lowerPoint_lt _ hy).imp_right fun h => h.imp_right fun h0 => by rw [h0, uppers_zero hpts])
        hok'
    refine ⟨⟨?_, ?_, ?_⟩, he'⟩
    · rw [hn']
      change 2 ≤ s.pointsInHull + 1
      omega
    · intro p hp
      rw [hl']
      rcases List.mem_append.mp (show p ∈ (q :: q' :: rest) ++ [(x, y)] from hp) with hp | hp
      · exact (hlt p hp).le
      · obtain rfl := List.mem_singleton.mp hp
        exact le_rfl
    · have hup : uppers s.epsilon ((q :: q' :: rest) ++ [(x, y)]) =
          uppers s.epsilon (q :: q' :: rest) ++ [(upperPoint s.epsilon (x, y)).toRat] := by
          simp [uppers]
      have hlow : lowers s.epsilon ((q :: q' :: rest) ++ [(x, y)]) =
          lowers s.epsilon (q :: q' :: rest) ++ [(lowerPoint s.epsilon (x, y)).toRat] := by
          simp [lowers]
      rw [he']
      change s'.Swept (uppers s.epsilon ((q :: q' :: rest) ++ [(x, y)]))
        (lowers s.epsilon ((q :: q' :: rest) ++ [(x, y)]))
      rw [hup, hlow]
      exact hsw'

theorem Accepted.tracked (h : Accepted epsilon pts s) (hy : ∀ q ∈ pts, q.2 < 2 ^ 63) :
    s.Tracked pts ∧ s.epsilon = epsilon := by
  induction h with
  | start hs he => exact ⟨hs, he⟩
  | add h hok ih =>
    have hold := fun q hq => hy q (List.mem_append_left _ hq)
    obtain ⟨ht, he⟩ := ih hold
    obtain ⟨ht', he'⟩ :=
      ht.addPoint hold (hy _ (List.mem_append_right _ (List.mem_singleton_self _))) hok
    exact ⟨ht', he'.trans he⟩

theorem Accepted.increasing (h : Accepted epsilon pts s) (hy : ∀ q ∈ pts, q.2 < 2 ^ 63) :
    pts.Pairwise fun p q => p.1 < q.1 := by
  induction h with
  | start => exact List.Pairwise.nil
  | @add pts s s' x y h hok ih =>
    have hold : ∀ q ∈ pts, q.2 < 2 ^ 63 := fun q hq => hy q (List.mem_append_left _ hq)
    obtain ⟨ht, he⟩ := h.tracked hold
    rw [addPoint_eq] at hok
    split at hok
    · cases hok
    rename_i hinc
    rw [List.pairwise_append]
    refine ⟨ih hold, List.pairwise_singleton .., fun p hp q hq => ?_⟩
    obtain rfl := List.mem_singleton.mp hq
    match pts, ht with
    | [r], ⟨hn, hlast, _⟩ =>
      obtain rfl := List.mem_singleton.mp hp
      omega
    | _ :: _ :: _, ⟨hn, hlast, _⟩ =>
      have := hlast p hp
      omega

theorem addLater_false {p1 p2 : Point} (hok : s.addLater p1 p2 = (false, s')) :
    ((p1.sub s.rectangle.r2).lt (s.rectangle.r2.sub s.rectangle.r0) = true ∨
      (p2.sub s.rectangle.r3).gt (s.rectangle.r3.sub s.rectangle.r1) = true) ∧
      s' = { s with pointsInHull := 0 } := by
  rw [addLater] at hok
  by_cases hout : ((p1.sub s.rectangle.r2).lt (s.rectangle.r2.sub s.rectangle.r0) ||
      (p2.sub s.rectangle.r3).gt (s.rectangle.r3.sub s.rectangle.r1)) = true
  · rw [if_pos hout] at hok
    exact ⟨Bool.or_eq_true_iff.mp hout, (Prod.mk.inj hok).2.symm⟩
  · rw [if_neg hout] at hok
    cases (Prod.mk.inj hok).1

theorem addPoint_false {x y : ℕ} (hok : s.addPoint x y = .ok (false, s')) :
    s.pointsInHull ≠ 0 ∧ s.pointsInHull ≠ 1 ∧ s'.pointsInHull = 0 ∧ s'.rectangle = s.rectangle := by
  rw [addPoint] at hok
  by_cases hinc : s.pointsInHull > 0 ∧ x ≤ s.lastX
  · rw [if_pos hinc] at hok
    cases hok
  rw [if_neg hinc] at hok
  have hok' := Except.ok.inj hok
  by_cases h0 : s.pointsInHull = 0
  · rw [if_pos h0] at hok'
    cases (Prod.mk.inj hok').1
  by_cases h1 : s.pointsInHull = 1
  · rw [if_neg h0, if_pos h1] at hok'
    cases (Prod.mk.inj hok').1
  rw [if_neg h0, if_neg h1] at hok'
  obtain ⟨_, rfl⟩ := addLater_false hok'
  exact ⟨h0, h1, rfl, rfl⟩

end PLR

/-! ### The line of the segment -/

namespace CanonicalSegment

variable {F : Type} {fmt : DoubleFormat F} {c : CanonicalSegment}

theorem toLongDouble_eq (hfmt : fmt.Exact) (p q : Point) :
    (q.sub p).toLongDouble fmt = (through p.toRat q.toRat).slope := by
  rw [Slope.toLongDouble]
  simp only [hfmt.extended, Point.sub, through, Point.toRat]
  push_cast
  rfl

theorem midline {x0 y0 x1 y1 dx dy dx' dy' b : ℚ} (h : dx ≠ 0) (h' : dx' ≠ 0)
    (hb : b * (dx * dy' - dy * dx') = (x1 - x0) * dy' - (y1 - y0) * dx') :
    y0 + b * dy - (x0 + b * dx) * ((dy / dx + dy' / dx') / 2) =
      (1 - 1 / 2) * (y0 - dy / dx * x0) + 1 / 2 * (y1 - dy' / dx' * x1) := by
  field_simp
  linear_combination (-dx) * hb

theorem getSlopeIntercept_eq (hfmt : fmt.Exact) (h02 : c.rectangle.r0.x < c.rectangle.r2.x)
    (h13 : c.rectangle.r1.x < c.rectangle.r3.x) :
    (∃ t, 0 ≤ t ∧ t ≤ 1 ∧ (⟨(c.getSlopeIntercept fmt).1, (c.getSlopeIntercept fmt).2⟩ : Line ℚ) =
      mix t (through c.rectangle.r0.toRat c.rectangle.r2.toRat)
        (through c.rectangle.r1.toRat c.rectangle.r3.toRat)) ∧
    2 * (c.getSlopeIntercept fmt).1 = (through c.rectangle.r0.toRat c.rectangle.r2.toRat).slope +
      (through c.rectangle.r1.toRat c.rectangle.r3.toRat).slope := by
  have hone : c.onePoint = false := by
    refine decide_eq_false fun h => h02.ne ?_
    rw [h.1]
  have hslope₁ := toLongDouble_eq hfmt c.rectangle.r0 c.rectangle.r2
  have hslope₂ := toLongDouble_eq hfmt c.rectangle.r1 c.rectangle.r3
  have hd02 : (c.rectangle.r2.x : ℚ) - c.rectangle.r0.x ≠ 0 :=
    sub_ne_zero.mpr (Nat.cast_lt.mpr h02).ne'
  have hd13 : (c.rectangle.r3.x : ℚ) - c.rectangle.r1.x ≠ 0 :=
    sub_ne_zero.mpr (Nat.cast_lt.mpr h13).ne'
  rw [getSlopeIntercept, getIntersection, getSlopeRange, hone]
  cases hpar : (c.rectangle.r2.sub c.rectangle.r0).eq (c.rectangle.r3.sub c.rectangle.r1) with
  | true =>
    simp only [Bool.false_eq_true, if_false, Bool.or_true, if_true, hfmt.extended, hslope₁, hslope₂]
    have heq : ((c.rectangle.r2.y : ℚ) - c.rectangle.r0.y) * (c.rectangle.r3.x - c.rectangle.r1.x) =
        (c.rectangle.r2.x - c.rectangle.r0.x) * (c.rectangle.r3.y - c.rectangle.r1.y) := by
      have hz := of_decide_eq_true hpar
      simp only [Point.sub] at hz
      exact_mod_cast hz
    refine ⟨⟨0, le_rfl, zero_le_one, ?_⟩, by ring⟩
    rw [mix, Line.mk.injEq]
    simp only [through, Point.toRat]
    have hslope : ((c.rectangle.r3.y : ℚ) - c.rectangle.r1.y) /
      (c.rectangle.r3.x - c.rectangle.r1.x) =
        (c.rectangle.r2.y - c.rectangle.r0.y) / (c.rectangle.r2.x - c.rectangle.r0.x) := by
      rw [div_eq_div_iff hd13 hd02]
      linarith
    rw [hslope]
    constructor <;> ring
  | false =>
    simp only [Bool.false_eq_true, if_false, Bool.or_false, hfmt.extended, hslope₁, hslope₂]
    have hne : ((c.rectangle.r2.x : ℚ) - c.rectangle.r0.x) * (c.rectangle.r3.y - c.rectangle.r1.y) -
        (c.rectangle.r2.y - c.rectangle.r0.y) * (c.rectangle.r3.x - c.rectangle.r1.x) ≠ 0 := by
      refine fun h => of_decide_eq_false hpar ?_
      have h' := (sub_eq_zero.mp h).symm
      simp only [Point.sub]
      exact_mod_cast h'
    refine ⟨⟨1 / 2, by norm_num, by norm_num, ?_⟩, by ring⟩
    rw [mix, Line.mk.injEq]
    simp only [through, Point.toRat, Point.sub]
    push_cast
    exact ⟨by ring, midline hd02 hd13 (div_mul_cancel₀ _ hne)⟩

end CanonicalSegment

/-! ### What the segment is good for -/

variable {F : Type} {fmt : DoubleFormat F} {epsilon : ℕ} {pts : List (ℕ × ℕ)} {s s' : PLR}

theorem PLR.Swept.fits (hfmt : fmt.Exact) (h : s.Swept (uppers epsilon pts) (lowers epsilon pts))
    {c : CanonicalSegment} (hc : c.rectangle = s.rectangle) :
    Fits epsilon pts (c.getSlopeIntercept fmt).1 (c.getSlopeIntercept fmt).2 := by
  have h02 : c.rectangle.r0.x < c.rectangle.r2.x := by rw [hc]; exact toRat_x_lt.mp h.touchLower.2
  have h13 : c.rectangle.r1.x < c.rectangle.r3.x := by rw [hc]; exact toRat_x_lt.mp h.touchUpper.2
  obtain ⟨⟨t, h0, h1, hmix⟩, _⟩ := CanonicalSegment.getSlopeIntercept_eq hfmt h02 h13
  rw [hc] at hmix
  have hstabs := h.least.mix h.greatest h0 h1
  rw [← hmix] at hstabs
  exact Fits.of_stabs (l := ⟨_, _⟩) hstabs

/-- Values that do not fall give a line that does not fall: if the flattest line falls, its mirror
image is no steeper than the steepest line. -/
theorem PLR.Swept.slope_nonneg (hfmt : fmt.Exact)
    (h : s.Swept (uppers epsilon pts) (lowers epsilon pts)) {c : CanonicalSegment}
    (hc : c.rectangle = s.rectangle) {first last : ℕ × ℕ} (hfirst : first ∈ pts)
    (hlast : last ∈ pts) (hfirst' : ∀ q ∈ pts, first.1 ≤ q.1 ∧ first.2 ≤ q.2)
    (hlast' : ∀ q ∈ pts, q.1 ≤ last.1 ∧ q.2 ≤ last.2) : 0 ≤ (c.getSlopeIntercept fmt).1 := by
  have h02 : c.rectangle.r0.x < c.rectangle.r2.x := by rw [hc]; exact toRat_x_lt.mp h.touchLower.2
  have h13 : c.rectangle.r1.x < c.rectangle.r3.x := by rw [hc]; exact toRat_x_lt.mp h.touchUpper.2
  obtain ⟨_, hslope⟩ := CanonicalSegment.getSlopeIntercept_eq hfmt h02 h13
  rw [hc] at hslope
  have hle := h.slope_le h.least
  by_cases hneg : (through s.rectangle.r0.toRat s.rectangle.r2.toRat).slope ≤ 0
  · have hups : ∀ a ∈ uppers epsilon pts, (upperPoint epsilon first).toRat.1 ≤ a.1 ∧
        a.1 ≤ (lowerPoint epsilon last).toRat.1 ∧ (upperPoint epsilon first).toRat.2 ≤ a.2 := by
      intro a ha
      obtain ⟨q, hq, rfl⟩ := List.mem_map.mp ha
      exact ⟨toRat_x_le.mpr (hfirst' q hq).1, toRat_x_le.mpr (hlast' q hq).1,
        toRat_y_le.mpr (min_le_min_right _ (Nat.add_le_add_right (hfirst' q hq).2 _))⟩
    have hlows : ∀ b ∈ lowers epsilon pts, (upperPoint epsilon first).toRat.1 ≤ b.1 ∧
        b.1 ≤ (lowerPoint epsilon last).toRat.1 ∧ b.2 ≤ (lowerPoint epsilon last).toRat.2 := by
      intro b hb
      obtain ⟨q, hq, rfl⟩ := List.mem_map.mp hb
      exact ⟨toRat_x_le.mpr (hfirst' q hq).1, toRat_x_le.mpr (hlast' q hq).1,
        toRat_y_le.mpr (Nat.sub_le_sub_right (hlast' q hq).2 _)⟩
    have hmirror := h.least.mirror hneg (List.mem_map_of_mem hfirst)
      (List.mem_map_of_mem hlast) hups hlows
    have hle' : -(through s.rectangle.r0.toRat s.rectangle.r2.toRat).slope ≤ _ := h.slope_le hmirror
    linarith
  · linarith

theorem exists_ends {R : ℕ × ℕ → ℕ × ℕ → Prop} (hrefl : ∀ p, R p p) (hne : pts ≠ [])
    (h : pts.Pairwise R) :
    ∃ first ∈ pts, ∃ last ∈ pts, (∀ q ∈ pts, R first q) ∧ ∀ q ∈ pts, R q last := by
  refine ⟨pts.head hne, List.head_mem hne, pts.getLast hne, List.getLast_mem hne, fun q hq => ?_,
    fun q hq => ?_⟩
  · obtain ⟨p, rest, rfl⟩ := List.exists_cons_of_ne_nil hne
    rcases List.mem_cons.mp hq with rfl | hq
    · exact hrefl q
    · exact (List.pairwise_cons.mp h).1 q hq
  · rw [← List.dropLast_append_getLast hne] at hq h
    rcases List.mem_append.mp hq with hq | hq
    · exact (List.pairwise_append.mp h).2.2 q hq _ (List.mem_singleton_self _)
    · obtain rfl := List.mem_singleton.mp hq
      exact hrefl _

theorem getSegment_of_one {q : ℕ × ℕ} (h : s.Tracked [q]) :
    s.getSegment.rectangle =
    ⟨upperPoint s.epsilon q, lowerPoint s.epsilon q, upperPoint s.epsilon q,
      lowerPoint s.epsilon q⟩ := by
  obtain ⟨hn, _, _, _, _, _, hr0, hr1⟩ := h
  rw [PLR.getSegment, if_pos hn, hr0, hr1]

theorem getSlopeIntercept_of_one (hfmt : fmt.Exact) {c : CanonicalSegment} {q : ℕ × ℕ}
    (hc : c.rectangle = ⟨upperPoint epsilon q, lowerPoint epsilon q, upperPoint epsilon q,
      lowerPoint epsilon q⟩)
    (hy : q.2 < 2 ^ 63) :
    c.getSlopeIntercept fmt =
    (0, ((((upperPoint epsilon q).y + (lowerPoint epsilon q).y) / 2 : ℕ) : ℚ)) := by
  have hone : c.onePoint = true := by
    rw [CanonicalSegment.onePoint, hc]
    exact decide_eq_true ⟨rfl, rfl⟩
  have hlt : (upperPoint epsilon q).y + (lowerPoint epsilon q).y < 2 ^ 64 := by
    simp only [upperPoint, lowerPoint, PLR.maxY]
    omega
  rw [CanonicalSegment.getSlopeIntercept, if_pos hone, hfmt.extended, hc, Nat.mod_eq_of_lt hlt]

/-- The segment fits all points that were accepted since it started, also after a further one was
rejected, and does not fall when their values do not. -/
theorem PLR.Accepted.fits (hfmt : fmt.Exact) (h : PLR.Accepted epsilon pts s) (hne : pts ≠ [])
    (hy : ∀ q ∈ pts, q.2 < 2 ^ 63) (hs' : s' = s ∨ ∃ x y, s.addPoint x y = .ok (false, s')) :
    Fits epsilon pts (s'.getSegment.getSlopeIntercept fmt).1
    (s'.getSegment.getSlopeIntercept fmt).2 ∧
      ((pts.Pairwise fun p q => p.2 ≤ q.2) → 0 ≤ (s'.getSegment.getSlopeIntercept fmt).1) := by
  obtain ⟨ht, rfl⟩ := h.tracked hy
  match pts, ht with
  | [q], ht =>
    have hq := hy q (List.mem_singleton_self q)
    obtain rfl : s' = s := by
      rcases hs' with rfl | ⟨x, y, hok⟩
      · rfl
      · exact absurd ht.1 (PLR.addPoint_false hok).2.1
    rw [getSlopeIntercept_of_one hfmt (getSegment_of_one ht) hq]
    refine ⟨fun p hp => ?_, fun _ => le_rfl⟩
    obtain rfl := List.mem_singleton.mp hp
    have hle := PLR.lowerPoint_le s'.epsilon hq
    simp only [upperPoint, lowerPoint] at hle ⊢
    rw [← cast_sub_eq_max, zero_mul, zero_add, ← Nat.cast_add]
    exact ⟨Nat.cast_le.mpr (by omega), Nat.cast_le.mpr (by omega)⟩
  | q :: q' :: rest, ⟨hn, hlast, hsw⟩ =>
    have hc : s'.getSegment.rectangle = s.rectangle := by
      rcases hs' with rfl | ⟨x, y, hok⟩
      · rw [PLR.getSegment, if_neg (by omega)]
      · obtain ⟨_, _, h0, hr⟩ := PLR.addPoint_false hok
        rw [PLR.getSegment, if_neg (by omega), hr]
    refine ⟨hsw.fits hfmt hc, fun hmono => ?_⟩
    have hboth := (h.increasing hy).and hmono
    obtain ⟨first, hf, last, hl, hfirst, hlast⟩ :=
      exists_ends (R := fun p q => p.1 ≤ q.1 ∧ p.2 ≤ q.2)
      (fun _ => ⟨le_rfl, le_rfl⟩) hne (hboth.imp fun hpq => ⟨hpq.1.le, hpq.2⟩)
    exact hsw.slope_nonneg hfmt hc hf hl hfirst hlast

theorem getSegment_fits (hfmt : fmt.Exact) (h : PLR.Accepted epsilon pts s) (hne : pts ≠ [])
    (hy : ∀ q ∈ pts, q.2 + epsilon < 2 ^ 62)
    (hs' : s' = s ∨ ∃ x y, s.addPoint x y = .ok (false, s')) :
    Fits epsilon pts (s'.getSegment.getSlopeIntercept fmt).1
    (s'.getSegment.getSlopeIntercept fmt).2 ∧
      ((pts.Pairwise fun p q => p.2 ≤ q.2) → 0 ≤ (s'.getSegment.getSlopeIntercept fmt).1) :=
  h.fits hfmt hne (fun q hq => by have := hy q hq; omega) hs'

def exactFormat : DoubleFormat ℚ := ⟨id, id, id, fun _ => 0, fun _ => 0⟩

theorem exactFormat_exact : exactFormat.Exact := ⟨fun _ => rfl, fun _ => rfl⟩

theorem accepted_three : ∃ s s', PLR.Accepted 1 [(1, 0), (3, 1), (4, 2)] s ∧
    s.addPoint 5 9 = .ok (false, s') := by
  have h₀ : PLR.Accepted 1 [] (PLR.construct 1) := .start rfl rfl
  have h₁ : PLR.Accepted 1 [(1, 0)] _ := h₀.add (x := 1) (y := 0) rfl
  have h₂ : PLR.Accepted 1 [(1, 0), (3, 1)] _ := h₁.add (x := 3) (y := 1) rfl
  have h₃ : PLR.Accepted 1 [(1, 0), (3, 1), (4, 2)] _ := h₂.add (x := 4) (y := 2) rfl
  exact ⟨_, _, h₃, rfl⟩

theorem getSegment_fits_three : ∃ s s', PLR.Accepted 1 [(1, 0), (3, 1), (4, 2)] s ∧
    s.addPoint 5 9 = .ok (false, s') ∧
    Fits 1 [(1, 0), (3, 1), (4, 2)] (s'.getSegment.getSlopeIntercept exactFormat).1
      (s'.getSegment.getSlopeIntercept exactFormat).2 ∧
    0 ≤ (s'.getSegment.getSlopeIntercept exactFormat).1 := by
  obtain ⟨s, s', h, hok⟩ := accepted_three
  have hfits := getSegment_fits exactFormat_exact h (by simp) (by decide) (Or.inr ⟨5, 9, hok⟩)
  exact ⟨s, s', h, hok, hfits.1, hfits.2 (by decide)⟩

/-! ### Segments are as long as they can be -/

theorem addPoint_rejects (h : PLR.Accepted epsilon pts s) (hy : ∀ q ∈ pts, q.2 + epsilon < 2 ^ 62)
    {x y : ℕ} (hxy : y + epsilon < 2 ^ 62) (hok : s.addPoint x y = .ok (false, s')) :
    ¬∃ a b : ℚ, Fits epsilon (pts ++ [(x, y)]) a b := by
  obtain ⟨ht, rfl⟩ := h.tracked fun q hq => by have := hy q hq; omega
  obtain ⟨h0, h1, _, _⟩ := PLR.addPoint_false hok
  rintro ⟨a, b, hfit⟩
  have hstabs := hfit.stabs fun q hq => by
    rw [PLR.maxY]
    rcases List.mem_append.mp hq with hq | hq
    · have := hy q hq
      omega
    · obtain rfl := List.mem_singleton.mp hq
      omega
  rw [uppers, lowers, List.map_append, List.map_append] at hstabs
  match pts, ht with
  | [], ht => exact h0 ht
  | [_], ht => exact h1 ht.1
  | q :: q' :: rest, ⟨hn, hlast, hsw⟩ =>
    rw [PLR.addPoint_eq, if_neg h0, if_neg h1] at hok
    split at hok
    · cases hok
    rename_i hinc
    have hlt : ∀ p ∈ q :: q' :: rest, p.1 ≤ x := fun p hp => by
      have := hlast p hp
      omega
    have hx : ∀ a ∈ uppers s.epsilon (q :: q' :: rest),
        a.1 ≤ (upperPoint s.epsilon (x, y)).toRat.1 := by
      intro a ha
      obtain ⟨p, hp, rfl⟩ := List.mem_map.mp ha
      exact toRat_x_le.mpr (hlt p hp)
    have hx' : ∀ b ∈ lowers s.epsilon (q :: q' :: rest),
        b.1 ≤ (lowerPoint s.epsilon (x, y)).toRat.1 := by
      intro b hb
      obtain ⟨p, hp, rfl⟩ := List.mem_map.mp hb
      exact toRat_x_le.mpr (hlt p hp)
    obtain ⟨hout, _⟩ := PLR.addLater_false (Except.ok.inj hok)
    rcases hout with hout | hout
    · refine hsw.not_stabs_of_lt (p := (upperPoint s.epsilon (x, y)).toRat) (hx' _ hsw.touchLower.1)
        ((lt_from_right (toRat_x_lt.mp hsw.touchLower.2)).mp hout) ⟨a, b⟩ ⟨hstabs.le,
        fun p hp => ?_⟩
      exact hstabs.ge p (List.mem_append_left _ hp)
    · refine hsw.not_stabs_of_gt (p := (lowerPoint s.epsilon (x, y)).toRat) (hx _ hsw.touchUpper.1)
        ((gt_from_right (toRat_x_lt.mp hsw.touchUpper.2)).mp hout) ⟨a, b⟩ ⟨fun p hp => ?_,
        hstabs.ge⟩
      exact hstabs.le p (List.mem_append_left _ hp)

theorem addPoint_rejects_three : ∃ s s', PLR.Accepted 1 [(1, 0), (3, 1), (4, 2)] s ∧
    s.addPoint 5 9 = .ok (false, s') ∧ ¬∃ a b : ℚ, Fits 1 [(1, 0), (3, 1), (4, 2), (5, 9)] a b := by
  obtain ⟨s, s', h, hok⟩ := accepted_three
  exact ⟨s, s', h, hok, addPoint_rejects h (by decide) (by norm_num) hok⟩

end Rolex
