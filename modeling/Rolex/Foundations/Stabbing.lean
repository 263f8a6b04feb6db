import Mathlib

/-! Lines that pass above given lower points and below given upper points. Only the
points of two chains matter, one hanging down between the upper points, one
arching over the lower points: a line that respects them respects all. -/

namespace Stabbing

variable {𝕜 : Type} [Field 𝕜] [LinearOrder 𝕜] [IsStrictOrderedRing 𝕜]

structure Line (𝕜 : Type) where
  slope : 𝕜
  intercept : 𝕜

def Line.eval (l : Line 𝕜) (x : 𝕜) : 𝕜 := l.slope * x + l.intercept

def through (p q : 𝕜 × 𝕜) : Line 𝕜 :=
  ⟨(q.2 - p.2) / (q.1 - p.1), p.2 - (q.2 - p.2) / (q.1 - p.1) * p.1⟩

structure Stabs (ups lows : List (𝕜 × 𝕜)) (l : Line 𝕜) : Prop where
  le : ∀ p ∈ ups, l.eval p.1 ≤ p.2
  ge : ∀ p ∈ lows, p.2 ≤ l.eval p.1

/-! ### Two lines -/

omit [LinearOrder 𝕜] [IsStrictOrderedRing 𝕜] in
@[simp] theorem eval_through_left (p q : 𝕜 × 𝕜) : (through p q).eval p.1 = p.2 := by
  rw [Line.eval, through]
  ring

omit [LinearOrder 𝕜] [IsStrictOrderedRing 𝕜] in
theorem eval_through_right {p q : 𝕜 × 𝕜} (h : p.1 ≠ q.1) : (through p q).eval q.1 = q.2 := by
  have hne : q.1 - p.1 ≠ 0 := sub_ne_zero.mpr h.symm
  rw [Line.eval, through]
  field_simp
  ring

theorem slope_le_of_cross {l l' : Line 𝕜} {a b : 𝕜} (hab : a < b) (ha : l'.eval a ≤ l.eval a)
    (hb : l.eval b ≤ l'.eval b) : l.slope ≤ l'.slope := by
  rw [Line.eval, Line.eval] at ha hb
  by_contra hlt
  nlinarith [mul_pos (sub_pos.mpr (not_le.mp hlt)) (sub_pos.mpr hab)]

theorem eval_le_of_cross {l l' : Line 𝕜} {a b x : 𝕜} (hab : a < b) (ha : l'.eval a ≤ l.eval a)
    (hb : l.eval b ≤ l'.eval b) (hx : b ≤ x) : l.eval x ≤ l'.eval x := by
  have hs := mul_nonneg (sub_nonneg.mpr (slope_le_of_cross hab ha hb)) (sub_nonneg.mpr hx)
  rw [Line.eval, Line.eval] at hb ⊢
  linarith

theorem eval_le_of_cross_left {l l' : Line 𝕜} {a b x : 𝕜} (hab : a < b) (ha : l'.eval a ≤ l.eval a)
    (hb : l.eval b ≤ l'.eval b) (hx : x ≤ a) : l'.eval x ≤ l.eval x := by
  have hs := mul_nonneg (sub_nonneg.mpr (slope_le_of_cross hab ha hb)) (sub_nonneg.mpr hx)
  rw [Line.eval, Line.eval] at ha ⊢
  linarith

def mix (t : 𝕜) (l l' : Line 𝕜) : Line 𝕜 :=
  ⟨(1 - t) * l.slope + t * l'.slope, (1 - t) * l.intercept + t * l'.intercept⟩

omit [LinearOrder 𝕜] [IsStrictOrderedRing 𝕜] in
theorem eval_mix (t : 𝕜) (l l' : Line 𝕜) (x : 𝕜) :
    (mix t l l').eval x = (1 - t) * l.eval x + t * l'.eval x := by
  rw [Line.eval, Line.eval, Line.eval, mix]
  ring

variable {ups lows : List (𝕜 × 𝕜)}

theorem Stabs.mix {l l' : Line 𝕜} (h : Stabs ups lows l) (h' : Stabs ups lows l') {t : 𝕜}
    (h0 : 0 ≤ t) (h1 : t ≤ 1) : Stabs ups lows (mix t l l') where
  le := fun p hp => by
    rw [eval_mix]
    have h₁ := mul_le_mul_of_nonneg_left (h.le p hp) (sub_nonneg.mpr h1)
    have h₂ := mul_le_mul_of_nonneg_left (h'.le p hp) h0
    linarith
  ge := fun p hp => by
    rw [eval_mix]
    have h₁ := mul_le_mul_of_nonneg_left (h.ge p hp) (sub_nonneg.mpr h1)
    have h₂ := mul_le_mul_of_nonneg_left (h'.ge p hp) h0
    linarith

theorem Stabs.exists_between {l l' : Line 𝕜} (h : Stabs ups lows l) (h' : Stabs ups lows l')
    {x y : 𝕜} (hy : l.eval x ≤ y) (hy' : y ≤ l'.eval x) :
    ∃ l₀, Stabs ups lows l₀ ∧ l₀.eval x = y := by
  rcases hy.eq_or_lt with heq | hlt
  · exact ⟨l, h, heq⟩
  · have hpos : 0 < l'.eval x - l.eval x := by linarith
    refine ⟨Stabbing.mix ((y - l.eval x) / (l'.eval x - l.eval x)) l l',
      h.mix h' (div_nonneg (by linarith) hpos.le) ((div_le_one hpos).mpr (by linarith)), ?_⟩
    rw [eval_mix]
    field_simp
    ring

/-! ### Upside down -/

def flip (p : 𝕜 × 𝕜) : 𝕜 × 𝕜 := (p.1, -p.2)

def Line.flip (l : Line 𝕜) : Line 𝕜 := ⟨-l.slope, -l.intercept⟩

omit [LinearOrder 𝕜] [IsStrictOrderedRing 𝕜] in
@[simp] theorem flip_flip (p : 𝕜 × 𝕜) : flip (flip p) = p := by simp [flip]

omit [LinearOrder 𝕜] [IsStrictOrderedRing 𝕜] in
@[simp] theorem flip_comp_flip : (flip ∘ flip : 𝕜 × 𝕜 → 𝕜 × 𝕜) = id := funext flip_flip

omit [LinearOrder 𝕜] [IsStrictOrderedRing 𝕜] in
@[simp] theorem eval_flip (l : Line 𝕜) (x : 𝕜) : l.flip.eval x = -l.eval x := by
  rw [Line.eval, Line.eval, Line.flip]
  ring

omit [LinearOrder 𝕜] [IsStrictOrderedRing 𝕜] in
theorem through_flip (p q : 𝕜 × 𝕜) : through (flip p) (flip q) = (through p q).flip := by
  rw [through, through, Line.flip, flip, flip, Line.mk.injEq]
  constructor <;> ring

omit [IsStrictOrderedRing 𝕜] in
theorem Stabs.flip [IsStrictOrderedRing 𝕜] {l : Line 𝕜} (h : Stabs ups lows l) :
    Stabs (lows.map flip) (ups.map flip) l.flip where
  le := fun p hp => by
    obtain ⟨q, hq, rfl⟩ := List.mem_map.mp hp
    rw [eval_flip]
    exact neg_le_neg (h.ge q hq)
  ge := fun p hp => by
    obtain ⟨q, hq, rfl⟩ := List.mem_map.mp hp
    rw [eval_flip]
    exact neg_le_neg (h.le q hq)

/-! ### Chains -/

def turn (a b c : 𝕜 × 𝕜) : 𝕜 := (b.1 - a.1) * (c.2 - a.2) - (b.2 - a.2) * (c.1 - a.1)

omit [LinearOrder 𝕜] [IsStrictOrderedRing 𝕜] in
theorem turn_flip (a b c : 𝕜 × 𝕜) : turn (flip a) (flip b) (flip c) = -turn a b c := by
  simp only [turn, flip]
  ring

/-- From left to right, turning left at every point. -/
structure Chain (c : List (𝕜 × 𝕜)) : Prop where
  places : c.Pairwise fun p q => p.1 < q.1
  turns : ∀ p q r, [p, q, r] <:+: c → 0 < turn p q r

omit [IsStrictOrderedRing 𝕜] in
theorem Chain.of_infix {c d : List (𝕜 × 𝕜)} (h : Chain c) (hd : d <:+: c) : Chain d where
  places := h.places.sublist hd.sublist
  turns := fun p q r hi => h.turns p q r (hi.trans hd)

omit [IsStrictOrderedRing 𝕜] in
theorem Chain.concat {c : List (𝕜 × 𝕜)} {p : 𝕜 × 𝕜} (h : Chain c) (hp : ∀ a ∈ c, a.1 < p.1)
    (hturn : ∀ a b, [a, b] <:+ c → 0 < turn a b p) : Chain (c ++ [p]) where
  places := by
    rw [List.pairwise_append]
    refine ⟨h.places, List.pairwise_singleton .., fun a ha b hb => ?_⟩
    obtain rfl := List.mem_singleton.mp hb
    exact hp a ha
  turns := fun a b r hi => by
    rcases List.infix_concat_iff.mp hi with hs | hs
    · obtain ⟨pre, hpre⟩ := hs
      have heq : (pre ++ [a, b]) ++ [r] = c ++ [p] := by rw [← hpre]; simp
      obtain ⟨hc, hr⟩ := List.append_inj' heq rfl
      obtain rfl := List.cons.inj hr |>.1
      exact hturn a b ⟨pre, hc⟩
    · exact h.turns a b r hs

theorem Chain.above {l : Line 𝕜} {rest : List (𝕜 × 𝕜)} : ∀ {a b : 𝕜 × 𝕜}, Chain (a :: b :: rest) →
    l.slope * (b.1 - a.1) ≤ b.2 - a.2 → l.eval b.1 ≤ b.2 → ∀ d ∈ rest, l.eval d.1 ≤ d.2 := by
  induction rest with
  | nil => exact fun _ _ _ d hd => by cases hd
  | cons c rest ih =>
    intro a b h hs hb
    have hturn := h.turns a b c (List.IsPrefix.isInfix ⟨rest, rfl⟩)
    have hpl := h.places
    simp only [List.pairwise_cons, List.mem_cons] at hpl
    have hab : a.1 < b.1 := hpl.1 b (Or.inl rfl)
    have hbc : b.1 < c.1 := hpl.2.1 c (Or.inl rfl)
    have hs' : l.slope * (c.1 - b.1) ≤ c.2 - b.2 := by
      rw [turn] at hturn
      have h₁ := mul_le_mul_of_nonneg_right hs (sub_nonneg.mpr hbc.le)
      refine le_of_mul_le_mul_left ?_ (sub_pos.mpr hab)
      linarith
    have hc : l.eval c.1 ≤ c.2 := by
      rw [Line.eval] at hb ⊢
      linarith
    intro d hd
    rcases List.mem_cons.mp hd with rfl | hd
    · exact hc
    · exact ih (h.of_infix (List.IsSuffix.isInfix ⟨[a], rfl⟩)) hs' hc d hd

/-! ### The tangent from a point on the right -/

/-- How many points of the chain are passed before the next one lies above the line from the
current one to `q`. -/
def passed (q : 𝕜 × 𝕜) : 𝕜 × 𝕜 → List (𝕜 × 𝕜) → ℕ
  | _, [] => 0
  | a, b :: rest => if (through a q).eval b.1 < b.2 then 0 else passed q b rest + 1

theorem exists_tangent {q : 𝕜 × 𝕜} {rest : List (𝕜 × 𝕜)} :
    ∀ {a : 𝕜 × 𝕜}, Chain (a :: rest) → a.1 < q.1 →
    (∀ b ∈ rest, b.1 < q.1 ∨ b.1 = q.1 ∧ q.2 < b.2) →
    ∃ c tail, (a :: rest).drop (passed q a rest) = c :: tail ∧ c.1 < q.1 ∧
      ∀ d ∈ a :: rest, (through c q).eval d.1 ≤ d.2 := by
  induction rest with
  | nil =>
    intro a _ ha _
    refine ⟨a, [], rfl, ha, fun d hd => ?_⟩
    obtain rfl := List.mem_singleton.mp hd
    exact (eval_through_left d q).le
  | cons b rest ih =>
    intro a h ha hrest
    have hpl := h.places
    simp only [List.pairwise_cons, List.mem_cons] at hpl
    have hab : a.1 < b.1 := hpl.1 b (Or.inl rfl)
    by_cases hstop : (through a q).eval b.1 < b.2
    · refine ⟨a, b :: rest, by rw [passed, if_pos hstop]; rfl, ha, fun d hd => ?_⟩
      have hl := eval_through_left a q
      rcases List.mem_cons.mp hd with rfl | hd
      · exact hl.le
      rcases List.mem_cons.mp hd with rfl | hd
      · exact hstop.le
      refine h.above ?_ hstop.le d hd
      rw [Line.eval] at hl hstop
      linarith
    · have hb : b.1 < q.1 := by
        rcases hrest b List.mem_cons_self with hb | ⟨hb, hqb⟩
        · exact hb
        · rw [hb, eval_through_right ha.ne] at hstop
          exact absurd hqb hstop
      obtain ⟨c, tail, hdrop, hc, hall⟩ := ih (h.of_infix (List.IsSuffix.isInfix ⟨[a], rfl⟩)) hb
        fun x hx => hrest x (List.mem_cons_of_mem _ hx)
      refine ⟨c, tail, by rw [passed, if_neg hstop, List.drop_succ_cons, hdrop], hc, fun d hd => ?_⟩
      rcases List.mem_cons.mp hd with rfl | hd
      · -- both lines end in `q`, and at `b` the one from `c` is the lower one
        have hq : (through c q).eval q.1 = (through d q).eval q.1 := by
          rw [eval_through_right hc.ne, eval_through_right ha.ne]
        have hle := eval_le_of_cross_left hb
          ((hall b List.mem_cons_self).trans (not_lt.mp hstop)) hq.ge hab.le
        exact hle.trans (eval_through_left d q).le
      · exact hall d hd

/-! ### Appending a point -/

def kept (p : 𝕜 × 𝕜) (c : List (𝕜 × 𝕜)) : ℕ → ℕ
  | 0 => 0
  | 1 => 1
  | n + 2 => if turn (c.getD n p) (c.getD (n + 1) p) p ≤ 0 then kept p c (n + 1) else n + 2

theorem eval_le_of_turn {l : Line 𝕜} {a b p : 𝕜 × 𝕜} (hab : a.1 < b.1) (hbp : b.1 < p.1)
    (ht : turn a b p ≤ 0) (ha : l.eval a.1 ≤ a.2) (hp : l.eval p.1 ≤ p.2) : l.eval b.1 ≤ b.2 := by
  rw [turn] at ht
  rw [Line.eval] at *
  have h₁ := mul_le_mul_of_nonneg_right ha (sub_nonneg.mpr hbp.le)
  have h₂ := mul_le_mul_of_nonneg_right hp (sub_nonneg.mpr hab.le)
  have hpos : 0 < p.1 - a.1 := by linarith
  refine le_of_mul_le_mul_right ?_ hpos
  linarith

theorem kept_spec {p : 𝕜 × 𝕜} {ps : List (𝕜 × 𝕜)} (h : Chain ps) (hp : ∀ a ∈ ps, a.1 < p.1) {n : ℕ}
    (hn : 0 < n) (hlen : n ≤ ps.length) :
    0 < kept p ps n ∧ kept p ps n ≤ n ∧ Chain (ps.take (kept p ps n) ++ [p]) ∧
      ∀ l : Line 𝕜, (∀ a ∈ ps.take (kept p ps n) ++ [p], l.eval a.1 ≤ a.2) →
        ∀ a ∈ ps.take n, l.eval a.1 ≤ a.2 := by
  induction n with
  | zero => exact absurd hn (lt_irrefl 0)
  | succ n ih =>
    have hstay : ∀ k, (∀ a b, [a, b] <:+ ps.take k → 0 < turn a b p) → Chain (ps.take k ++ [p]) :=
      fun k hk =>
      (h.of_infix (List.take_prefix ..).isInfix).concat
        (fun a ha => hp a (List.mem_of_mem_take ha)) hk
    cases n with
    | zero =>
      refine ⟨Nat.one_pos, le_rfl, hstay 1 fun a b hs => ?_, fun l hl a ha =>
        hl a (List.mem_append_left _ ha)⟩
      have := hs.length_le
      rw [List.length_take] at this
      simp only [List.length_cons, List.length_nil] at this
      omega
    | succ n =>
      have h₀ : n < ps.length := by omega
      have h₁ : n + 1 < ps.length := by omega
      rw [kept]
      rw [List.getD_eq_getElem _ _ h₀, List.getD_eq_getElem _ _ h₁]
      have htake : ps.take (n + 2) = ps.take (n + 1) ++ [ps[n + 1]] :=
        List.take_succ_eq_append_getElem h₁
      by_cases ht : turn ps[n] ps[n + 1] p ≤ 0
      · rw [if_pos ht]
        obtain ⟨hpos, hle, hchain, himp⟩ := ih (Nat.succ_pos n) (by omega)
        refine ⟨hpos, hle.trans (Nat.le_succ _), hchain, fun l hl a ha => ?_⟩
        rw [htake] at ha
        rcases List.mem_append.mp ha with ha | ha
        · exact himp l hl a ha
        · obtain rfl := List.mem_singleton.mp ha
          have hmem : ps[n] ∈ ps.take (n + 1) := by
            rw [List.take_succ_eq_append_getElem h₀]
            exact List.mem_append_right _ (List.mem_singleton_self _)
          exact eval_le_of_turn
            (List.pairwise_iff_getElem.mp h.places n (n + 1) h₀ h₁ (Nat.lt_succ_self n))
            (hp _ (List.getElem_mem h₁)) ht (himp l hl _ hmem)
            (hl p (List.mem_append_right _ (List.mem_singleton_self p)))
      · rw [if_neg ht]
        refine ⟨Nat.succ_pos _, le_rfl, hstay _ fun a b hs => ?_, fun l hl a ha =>
          hl a (List.mem_append_left _ ha)⟩
        obtain ⟨pre, hpre⟩ := hs
        rw [htake, List.take_succ_eq_append_getElem h₀] at hpre
        have heq : (pre ++ [a]) ++ [b] = (ps.take n ++ [ps[n]]) ++ [ps[n + 1]] := by
          rw [← hpre]; simp
        obtain ⟨hl, hb⟩ := List.append_inj' heq rfl
        obtain ⟨_, ha⟩ := List.append_inj' hl rfl
        obtain rfl := (List.cons.inj hb).1
        obtain rfl := (List.cons.inj ha).1
        exact not_le.mp ht

/-! ### The state of the sweep -/

/-- The chains `A` under the upper points and `B` over the lower points. The line of least slope
touches `A` at its first point and then a lower point, the one of greatest slope `B` at its
first point and then an upper point. -/
structure Hull (ups lows A B : List (𝕜 × 𝕜)) (r0 r1 r2 r3 : 𝕜 × 𝕜) : Prop where
  upper : Chain A
  lower : Chain (B.map flip)
  upperMem : ∀ a ∈ A, a ∈ ups
  lowerMem : ∀ b ∈ B, b ∈ lows
  upperHead : A.head? = some r0
  lowerHead : B.head? = some r1
  touchLower : r2 ∈ lows ∧ r0.1 < r2.1
  touchUpper : r3 ∈ ups ∧ r1.1 < r3.1
  least : Stabs ups lows (through r0 r2)
  greatest : Stabs ups lows (through r1 r3)
  enough : ∀ l : Line 𝕜, (∀ a ∈ A, l.eval a.1 ≤ a.2) → (∀ b ∈ B, b.2 ≤ l.eval b.1) →
    Stabs ups lows l

namespace Hull

variable {A B : List (𝕜 × 𝕜)} {r0 r1 r2 r3 p : 𝕜 × 𝕜}

omit [IsStrictOrderedRing 𝕜] in
theorem upperHead_mem (h : Hull ups lows A B r0 r1 r2 r3) : r0 ∈ ups :=
  h.upperMem r0 (List.mem_of_mem_head? h.upperHead)

omit [IsStrictOrderedRing 𝕜] in
theorem lowerHead_mem (h : Hull ups lows A B r0 r1 r2 r3) : r1 ∈ lows :=
  h.lowerMem r1 (List.mem_of_mem_head? h.lowerHead)

theorem flip (h : Hull ups lows A B r0 r1 r2 r3) :
    Hull (lows.map flip) (ups.map flip) (B.map flip) (A.map flip) (flip r1) (flip r0) (flip r3)
    (flip r2) where
  upper := h.lower
  lower := by
    rw [List.map_map, flip_comp_flip, List.map_id]
    exact h.upper
  upperMem := fun a ha => by
    obtain ⟨b, hb, rfl⟩ := List.mem_map.mp ha
    exact List.mem_map_of_mem (h.lowerMem b hb)
  lowerMem := fun b hb => by
    obtain ⟨a, ha, rfl⟩ := List.mem_map.mp hb
    exact List.mem_map_of_mem (h.upperMem a ha)
  upperHead := by rw [List.head?_map, h.lowerHead]; rfl
  lowerHead := by rw [List.head?_map, h.upperHead]; rfl
  touchLower := ⟨List.mem_map_of_mem h.touchUpper.1, h.touchUpper.2⟩
  touchUpper := ⟨List.mem_map_of_mem h.touchLower.1, h.touchLower.2⟩
  least := by rw [through_flip]; exact h.greatest.flip
  greatest := by rw [through_flip]; exact h.least.flip
  enough := fun l hA hB => by
    have hl : Stabs ups lows l.flip := h.enough l.flip
      (fun a ha => by
        rw [eval_flip]
        exact neg_le.mp (hB _ (List.mem_map_of_mem ha)))
      (fun b hb => by
        rw [eval_flip]
        exact le_neg.mp (hA _ (List.mem_map_of_mem hb)))
    simpa [Line.flip] using hl.flip

theorem slope_le (h : Hull ups lows A B r0 r1 r2 r3) {l : Line 𝕜} (hl : Stabs ups lows l) :
    l.slope ≤ (through r1 r3).slope := by
  refine slope_le_of_cross h.touchUpper.2 ?_ ?_
  · rw [eval_through_left]
    exact hl.ge _ h.lowerHead_mem
  · rw [eval_through_right h.touchUpper.2.ne]
    exact hl.le _ h.touchUpper.1

theorem eval_le (h : Hull ups lows A B r0 r1 r2 r3) {l : Line 𝕜} (hl : Stabs ups lows l) {x : 𝕜}
    (hx : r3.1 ≤ x) : l.eval x ≤ (through r1 r3).eval x := by
  refine eval_le_of_cross h.touchUpper.2 ?_ ?_ hx
  · rw [eval_through_left]
    exact hl.ge _ h.lowerHead_mem
  · rw [eval_through_right h.touchUpper.2.ne]
    exact hl.le _ h.touchUpper.1

theorem le_eval (h : Hull ups lows A B r0 r1 r2 r3) {l : Line 𝕜} (hl : Stabs ups lows l) {x : 𝕜}
    (hx : r2.1 ≤ x) : (through r0 r2).eval x ≤ l.eval x := by
  have hf := h.flip.eval_le hl.flip hx
  rw [through_flip, eval_flip, eval_flip] at hf
  exact neg_le_neg_iff.mp hf

theorem eval_le_of_common (h : Hull ups ups A B r0 r1 r2 r3) {x : 𝕜} (hx : r2.1 ≤ x) :
    (through r1 r3).eval x ≤ (through r0 r2).eval x := by
  have hr0 := h.upperHead_mem
  have hr2 := h.touchLower.1
  exact eval_le_of_cross h.touchLower.2 ((h.least.le r0 hr0).trans (h.greatest.ge r0 hr0))
    ((h.greatest.le r2 hr2).trans (h.least.ge r2 hr2)) hx

/-! ### A new upper point -/

theorem skip (h : Hull ups lows A B r0 r1 r2 r3) (hx : r3.1 ≤ p.1)
    (hm : (through r0 r2).eval p.1 ≤ p.2) (hp : (through r1 r3).eval p.1 ≤ p.2) :
    Hull (ups ++ [p]) lows A B r0 r1 r2 r3 := by
  have hstabs : ∀ l : Line 𝕜, Stabs ups lows l → l.eval p.1 ≤ p.2 → Stabs (ups ++ [p]) lows l := by
    refine fun l hl hle => ⟨fun a ha => ?_, hl.ge⟩
    rcases List.mem_append.mp ha with ha | ha
    · exact hl.le a ha
    · obtain rfl := List.mem_singleton.mp ha
      exact hle
  exact ⟨h.upper, h.lower, fun a ha => List.mem_append_left _ (h.upperMem a ha), h.lowerMem,
    h.upperHead, h.lowerHead, h.touchLower, ⟨List.mem_append_left _ h.touchUpper.1, h.touchUpper.2⟩,
    hstabs _ h.least hm, hstabs _ h.greatest hp, fun l hA hB =>
      hstabs l (h.enough l hA hB) ((h.eval_le (h.enough l hA hB) hx).trans hp)⟩

/-- A new upper point lies below the steepest line: the chain over the lower points is searched for
its tangent, and the point joins the chain under the upper points. -/
theorem push {bs : List (𝕜 × 𝕜)} (h : Hull ups lows A (r1 :: bs) r0 r1 r2 r3)
    (hA : ∀ a ∈ A, a.1 < p.1) (hr1 : r1.1 < p.1) (hB : ∀ b ∈ bs, b.1 < p.1 ∨ b.1 = p.1 ∧ b.2 < p.2)
    (hups : ∀ a ∈ ups, a.1 ≤ p.1) (hm : (through r0 r2).eval p.1 ≤ p.2)
    (hp : p.2 ≤ (through r1 r3).eval p.1) :
    ∃ c tail, (r1 :: bs).drop (passed (Stabbing.flip p) (Stabbing.flip r1) (bs.map Stabbing.flip)) =
      c :: tail ∧
      c.1 < p.1 ∧ Hull (ups ++ [p]) lows (A.take (kept p A A.length) ++ [p])
      (c :: tail) r0 c r2 p := by
  obtain ⟨fc, ftail, hdrop, hc, hall⟩ :=
    exists_tangent (q := Stabbing.flip p) h.lower hr1 fun b hb => by
    obtain ⟨d, hd, rfl⟩ := List.mem_map.mp hb
    exact (hB d hd).imp_right fun hlt => ⟨hlt.1, neg_lt_neg hlt.2⟩
  set k := passed (Stabbing.flip p) (Stabbing.flip r1) (bs.map Stabbing.flip) with hk
  have hmap : ((r1 :: bs).drop k).map Stabbing.flip = fc :: ftail := by
    rw [List.map_drop]; exact hdrop
  obtain ⟨c, tail, hct, rfl, rfl⟩ := List.map_eq_cons_iff.mp hmap
  change c.1 < p.1 at hc
  have hmem : ∀ b ∈ c :: tail, b ∈ r1 :: bs := fun b hb => List.mem_of_mem_drop (hct ▸ hb)
  have hcl : c ∈ lows := h.lowerMem c (hmem c List.mem_cons_self)
  have htan : ∀ b ∈ r1 :: bs, b.2 ≤ (through c p).eval b.1 := by
    intro b hb
    have hle := hall (Stabbing.flip b) (List.mem_map_of_mem hb)
    rw [through_flip, eval_flip] at hle
    exact neg_le_neg_iff.mp hle
  have hcp := eval_through_right (p := c) (q := p) hc.ne
  -- the tangent lies below a line through `p` that stabs everything
  obtain ⟨l₀, hl₀, hl₀p⟩ := h.least.exists_between h.greatest hm hp
  have hslope : l₀.slope ≤ (through c p).slope := by
    refine slope_le_of_cross hc ?_ (hl₀p.trans hcp.symm).le
    rw [eval_through_left]
    exact hl₀.ge c hcl
  have hbelow : ∀ x ≤ p.1, (through c p).eval x ≤ l₀.eval x := by
    intro x hx
    have hs := mul_le_mul_of_nonneg_right hslope (sub_nonneg.mpr hx)
    have heq := hl₀p.trans hcp.symm
    rw [Line.eval, Line.eval] at heq ⊢
    linarith
  have htangent : Stabs ups lows (through c p) := h.enough _ (fun a ha =>
    (hbelow _ (hups a (h.upperMem a ha))).trans (hl₀.le a (h.upperMem a ha))) htan
  have hstabs : ∀ l : Line 𝕜, Stabs ups lows l → l.eval p.1 ≤ p.2 → Stabs (ups ++ [p]) lows l := by
    refine fun l hl hle => ⟨fun a ha => ?_, hl.ge⟩
    rcases List.mem_append.mp ha with ha | ha
    · exact hl.le a ha
    · obtain rfl := List.mem_singleton.mp ha
      exact hle
  have hne : A ≠ [] := fun he => by
    have hh := h.upperHead
    rw [he] at hh
    cases hh
  obtain ⟨hpos, _, hchain, himp⟩ := kept_spec h.upper hA (List.length_pos_iff.mpr hne) le_rfl
  refine ⟨c, tail, hct, hc, hchain, ?_, fun a ha => ?_, fun b hb => h.lowerMem b (hmem b hb), ?_,
    rfl, h.touchLower, ⟨List.mem_append_right _ (List.mem_singleton_self p), hc⟩,
    hstabs _ h.least hm, hstabs _ htangent hcp.le, fun l hl hl' => ?_⟩
  · rw [← hct, List.map_drop]
    exact h.lower.of_infix (List.drop_suffix ..).isInfix
  · rcases List.mem_append.mp ha with ha | ha
    · exact List.mem_append_left _ (h.upperMem a (List.mem_of_mem_take ha))
    · exact List.mem_append_right _ ha
  · obtain ⟨rest, rfl⟩ := List.head?_eq_some_iff.mp h.upperHead
    obtain ⟨m, hm⟩ := Nat.exists_eq_add_of_le hpos
    rw [hm, Nat.add_comm]
    rfl
  · rw [List.take_length] at himp
    have hlp := hl p (List.mem_append_right _ (List.mem_singleton_self p))
    refine hstabs l (h.enough l (himp l hl) fun b hb => ?_) hlp
    -- the points before `c` lie below the tangent
    rw [← List.take_append_drop k (r1 :: bs), hct] at hb
    rcases List.mem_append.mp hb with hb | hb
    · have hbc : b.1 ≤ c.1 := by
        have hpl := h.lower.places
        rw [List.pairwise_map, ← List.take_append_drop k (r1 :: bs), hct,
          List.pairwise_append] at hpl
        exact (hpl.2.2 b hb c List.mem_cons_self).le
      refine (htan b (List.mem_of_mem_take hb)).trans (eval_le_of_cross_left hc ?_ ?_ hbc)
      · rw [eval_through_left]
        exact hl' c List.mem_cons_self
      · exact hlp.trans hcp.ge
    · exact hl' b hb

/-! ### A new lower point -/

theorem skipLower (h : Hull ups lows A B r0 r1 r2 r3) (hx : r2.1 ≤ p.1)
    (hm : p.2 ≤ (through r1 r3).eval p.1) (hp : p.2 ≤ (through r0 r2).eval p.1) :
    Hull ups (lows ++ [p]) A B r0 r1 r2 r3 := by
  have hf := h.flip.skip (p := Stabbing.flip p) hx
    (by rw [through_flip, eval_flip]; exact neg_le_neg hm)
    (by rw [through_flip, eval_flip]; exact neg_le_neg hp)
  simpa using hf.flip

theorem pushLower {as : List (𝕜 × 𝕜)} (h : Hull ups lows (r0 :: as) B r0 r1 r2 r3)
    (hB : ∀ b ∈ B, b.1 < p.1) (hr0 : r0.1 < p.1) (hA : ∀ a ∈ as, a.1 < p.1 ∨ a.1 = p.1 ∧ p.2 < a.2)
    (hlows : ∀ b ∈ lows, b.1 ≤ p.1) (hm : p.2 ≤ (through r1 r3).eval p.1)
    (hp : (through r0 r2).eval p.1 ≤ p.2) :
    ∃ c tail, (r0 :: as).drop (passed p r0 as) = c :: tail ∧ c.1 < p.1 ∧
      Hull ups (lows ++ [p]) (c :: tail)
        (B.take (kept (Stabbing.flip p) (B.map Stabbing.flip) B.length) ++ [p]) c r1 p r3 := by
  obtain ⟨c, tail, hdrop, hc, hf⟩ := h.flip.push (p := Stabbing.flip p)
    (fun b hb => by
      obtain ⟨d, hd, rfl⟩ := List.mem_map.mp hb
      exact hB d hd) hr0
    (fun b hb => by
      obtain ⟨d, hd, rfl⟩ := List.mem_map.mp hb
      exact (hA d hd).imp_right fun hlt => ⟨hlt.1, neg_lt_neg hlt.2⟩)
    (fun b hb => by
      obtain ⟨d, hd, rfl⟩ := List.mem_map.mp hb
      exact hlows d hd)
    (by rw [through_flip, eval_flip]; exact neg_le_neg hm)
    (by rw [through_flip, eval_flip]; exact neg_le_neg hp)
  have hback := congrArg (List.map Stabbing.flip) hdrop
  simp only [List.map_drop, List.map_cons, List.map_map, flip_comp_flip, List.map_id,
    flip_flip] at hback
  exact ⟨_, _, hback, hc, by simpa using hf.flip⟩

/-! ### The beginning, and the end -/

omit [IsStrictOrderedRing 𝕜] in
theorem start (p q p' q' : 𝕜 × 𝕜) (hx : p.1 = q.1) (hx' : p'.1 = q'.1) (hlt : p.1 < p'.1)
    (hy : q.2 ≤ p.2) (hy' : q'.2 ≤ p'.2) : Hull [p, p'] [q, q'] [p, p'] [q, q'] p q q' p' := by
  have hpair : ∀ {a b : 𝕜 × 𝕜}, a.1 < b.1 → Chain [a, b] := fun hab =>
    ⟨by simpa using hab, fun _ _ _ hi => absurd hi.length_le (by simp)⟩
  have hl : p.1 < q'.1 := hx' ▸ hlt
  have hr : q.1 < p'.1 := hx ▸ hlt
  have hq : (through p q').eval q.1 = p.2 := by rw [← hx, eval_through_left]
  have hp' : (through p q').eval p'.1 = q'.2 := by rw [hx', eval_through_right hl.ne]
  have hp : (through q p').eval p.1 = q.2 := by rw [hx, eval_through_left]
  have hq' : (through q p').eval q'.1 = p'.2 := by rw [← hx', eval_through_right hr.ne]
  refine ⟨hpair hlt, hpair (by change q.1 < q'.1; rwa [← hx]), fun _ => id, fun _ => id, rfl, rfl,
    ⟨by simp, hl⟩, ⟨by simp, hr⟩, ⟨?_, ?_⟩, ⟨?_, ?_⟩, fun l hA hB => ⟨hA, hB⟩⟩
  · simp [hp', hy']
  · simp [hq, hy, eval_through_right hl.ne]
  · simp [hp, hy, eval_through_right hr.ne]
  · simp [hq', hy']

theorem not_stabs_of_lt (h : Hull ups lows A B r0 r1 r2 r3) (hx : r2.1 ≤ p.1)
    (hp : p.2 < (through r0 r2).eval p.1) (l : Line 𝕜) : ¬Stabs (ups ++ [p]) lows l := by
  intro hl
  have hold : Stabs ups lows l := ⟨fun a ha => hl.le a (List.mem_append_left _ ha), hl.ge⟩
  exact absurd ((h.le_eval hold hx).trans
    (hl.le p (List.mem_append_right _ (List.mem_singleton_self p)))) (not_le.mpr hp)

theorem not_stabs_of_gt (h : Hull ups lows A B r0 r1 r2 r3) (hx : r3.1 ≤ p.1)
    (hp : (through r1 r3).eval p.1 < p.2) (l : Line 𝕜) : ¬Stabs ups (lows ++ [p]) l := by
  intro hl
  have hold : Stabs ups lows l := ⟨hl.le, fun a ha => hl.ge a (List.mem_append_left _ ha)⟩
  exact absurd ((hl.ge p (List.mem_append_right _ (List.mem_singleton_self p))).trans
    (h.eval_le hold hx)) (not_le.mpr hp)

end Hull

/-- Mirrored between its ends, a falling line keeps to bounds that do not fall. -/
theorem Stabs.mirror {l : Line 𝕜} (h : Stabs ups lows l) (hl : l.slope ≤ 0) {a b : 𝕜 × 𝕜}
    (ha : a ∈ ups) (hb : b ∈ lows) (hups : ∀ p ∈ ups, a.1 ≤ p.1 ∧ p.1 ≤ b.1 ∧ a.2 ≤ p.2)
    (hlows : ∀ p ∈ lows, a.1 ≤ p.1 ∧ p.1 ≤ b.1 ∧ p.2 ≤ b.2) :
    Stabs ups lows ⟨-l.slope, l.slope * (a.1 + b.1) + l.intercept⟩ := by
  have hva := h.le a ha
  have hvb := h.ge b hb
  rw [Line.eval] at hva hvb
  constructor
  · intro p hp
    obtain ⟨h₁, h₂, h₃⟩ := hups p hp
    have hs := mul_nonneg (neg_nonneg.mpr hl) (sub_nonneg.mpr h₂)
    rw [Line.eval]
    linarith
  · intro p hp
    obtain ⟨h₁, h₂, h₃⟩ := hlows p hp
    have hs := mul_nonneg (neg_nonneg.mpr hl) (sub_nonneg.mpr h₁)
    rw [Line.eval]
    linarith

end Stabbing
