import Mathlib.Algebra.BigOperators.Group.List.Basic
import Rolex.Foundations.Spans
import Rolex.ModelAllocator

/-! The blocks that `ModelAllocator` hands out. The key slots, the offset slots and the submodels
have an area of the region each; the test of `alloc_upper` lets through one slot more than the
area of the keys holds. -/

namespace Rolex
open Bytes Spans

namespace ModelAllocator

inductive Request where
  | upper
  | submodel (allocSize : UInt32)
  deriving DecidableEq

def Request.size : Request → ℕ
  | .upper => 0
  | .submodel allocSize => allocSize.toNat

/-- What the calls have returned so far. A block is a span of offsets from `mem_pool`. -/
structure Granted where
  uppers : List (ℕ × ℕ)
  submodels : List (Span ℕ)

namespace Granted

def keySlots (g : Granted) : List (Span ℕ) := g.uppers.map fun p => ⟨p.1, p.1 + 8⟩

def offsetSlots (g : Granted) : List (Span ℕ) := g.uppers.map fun p => ⟨p.2, p.2 + 8⟩

def blocks (g : Granted) : List (Span ℕ) := ⟨0, 8⟩ :: (g.keySlots ++ g.offsetSlots ++ g.submodels)

/-- No two blocks share a byte, all are in the region, and `get_upper` finds the slots again. -/
structure Separate (g : Granted) (totalSz : ℕ) : Prop where
  apart : g.blocks.Pairwise Apart
  inside : ∀ s ∈ g.blocks, s.points ⊆ Set.Ico 0 totalSz
  found : ∀ i p, g.uppers[i]? = some p → getUpper i = p

end Granted

def grant (s : ModelAllocator × Granted) : Request → Except Fault (ModelAllocator × Granted)
  | .upper => do
    let res ← s.1.allocUpper
    .ok (res.2, { s.2 with uppers := s.2.uppers ++ [res.1] })
  | .submodel n => do
    let res ← s.1.allocSubmodel n.toNat
    .ok (res.2, { s.2 with submodels := s.2.submodels ++ [⟨res.1, res.1 + n.toNat⟩] })

def grants (s : ModelAllocator × Granted) : List Request → Except Fault (ModelAllocator × Granted)
  | [] => .ok s
  | r :: rs => do
    let s' ← grant s r
    grants s' rs

theorem grant_cases {s s' : ModelAllocator × Granted} {r : Request} (h : grant s r = .ok s') :
    (r = .upper ∧ s.1.upperAllocNum ≤ s.1.maxUpperNum ∧
      s' = ({ s.1 with upperAllocNum := s.1.upperAllocNum + 1 },
        { s.2 with uppers := s.2.uppers ++ [getUpper s.1.upperAllocNum] })) ∨
    ∃ n : UInt32, r = .submodel n ∧ (s.1.curAllocSz + n.toNat) % 2 ^ 64 ≤ s.1.totalSz ∧
      s' = ({ s.1 with curAllocSz := (s.1.curAllocSz + n.toNat) % 2 ^ 64 },
        { s.2 with
          submodels := s.2.submodels ++ [⟨s.1.curAllocSz, s.1.curAllocSz + n.toNat⟩] }) := by
  cases r with
  | upper =>
    rw [grant, allocUpper] at h
    by_cases hmax : s.1.upperAllocNum > s.1.maxUpperNum
    · rw [if_pos hmax] at h
      cases h
    · rw [if_neg hmax, ok_bind] at h
      refine .inl ⟨rfl, not_lt.mp hmax, ?_⟩
      rw [← Except.ok.inj h, getUpper, Nat.mul_comm 8, Nat.add_comm (kUpperModel / 2)]
  | submodel n =>
    rw [grant, allocSubmodel, Nat.mod_eq_of_lt n.toNat_lt] at h
    dsimp only at h
    by_cases hsz : (s.1.curAllocSz + n.toNat) % 2 ^ 64 > s.1.totalSz
    · rw [if_pos hsz] at h
      cases h
    · rw [if_neg hsz, ok_bind] at h
      exact .inr ⟨n, rfl, not_lt.mp hsz, (Except.ok.inj h).symm⟩

/-! ### The slots of the upper models -/

def SlotsTo (s : ModelAllocator × Granted) (n : ℕ) : Prop :=
  s.1.upperAllocNum = n ∧ s.2.uppers = (List.range n).map getUpper

theorem grant_totalSz {s s' : ModelAllocator × Granted} {r : Request} (h : grant s r = .ok s') :
    s'.1.totalSz = s.1.totalSz := by
  obtain ⟨-, -, rfl⟩ | ⟨n, -, -, rfl⟩ := grant_cases h <;> rfl

theorem grant_slots {s s' : ModelAllocator × Granted} {r : Request} {n : ℕ} (hs : SlotsTo s n)
    (h : grant s r = .ok s') : SlotsTo s' (n + [r].count .upper) := by
  obtain ⟨hnum, hups⟩ := hs
  obtain ⟨rfl, -, rfl⟩ | ⟨m, rfl, -, rfl⟩ := grant_cases h
  · refine ⟨by simp [hnum], ?_⟩
    rw [hups, hnum]
    simp [List.range_succ]
  · exact ⟨by simpa using hnum, by simpa using hups⟩

theorem grants_slots {rs : List Request} {s s' : ModelAllocator × Granted} {n : ℕ}
    (hs : SlotsTo s n) (h : grants s rs = .ok s') : SlotsTo s' (n + rs.count .upper) := by
  induction rs generalizing s n with
  | nil => exact Except.ok.inj h ▸ hs
  | cons r rs ih =>
    obtain ⟨s₁, hr, hrs⟩ := bind_eq_ok h
    have h₁ := ih (grant_slots hs hr) hrs
    rwa [Nat.add_assoc, ← List.count_append, List.singleton_append] at h₁

theorem grants_upper_ok {k : ℕ} {s : ModelAllocator × Granted}
    (h : s.1.upperAllocNum + k ≤ s.1.maxUpperNum + 1) :
    ∃ s', grants s (List.replicate k .upper) = .ok s' := by
  induction k generalizing s with
  | zero => exact ⟨s, rfl⟩
  | succ k ih =>
    obtain ⟨s₁, hr, hnum, hmax⟩ : ∃ s₁, grant s .upper = .ok s₁ ∧
        s₁.1.upperAllocNum = s.1.upperAllocNum + 1 ∧ s₁.1.maxUpperNum = s.1.maxUpperNum := by
      rw [grant, allocUpper, if_neg (by omega), ok_bind]
      exact ⟨_, rfl, rfl, rfl⟩
    obtain ⟨s', hs'⟩ := ih (s := s₁) (by omega)
    exact ⟨s', by rw [List.replicate_succ, grants, hr, ok_bind, hs']⟩

theorem slots_laid {slot : ℕ × ℕ → ℕ} {base : ℕ} (hslot : ∀ n, slot (getUpper n) = base + 8 * n)
    (n : ℕ) : Laid base (((List.range n).map getUpper).map fun p => (⟨slot p, slot p + 8⟩ : Span ℕ))
    (base + 8 * n) := by
  induction n with
  | zero => exact le_rfl
  | succ n ih =>
    rw [List.range_succ, List.map_append, List.map_append, Nat.mul_succ, ← Nat.add_assoc,
      ← hslot n] at *
    exact Laid.concat ih (Nat.le_add_right _ 8)

/-! ### The submodels -/

theorem grant_submodels {s s' : ModelAllocator × Granted} {r : Request} (h : grant s r = .ok s')
    (hfit : s.1.curAllocSz + r.size < 2 ^ 64) (hs : Laid kUpperModel s.2.submodels s.1.curAllocSz) :
    s'.1.curAllocSz = s.1.curAllocSz + r.size ∧
    Laid kUpperModel s'.2.submodels s'.1.curAllocSz := by
  obtain ⟨rfl, -, rfl⟩ | ⟨n, rfl, -, rfl⟩ := grant_cases h
  · exact ⟨rfl, hs⟩
  · have hcur : (s.1.curAllocSz + n.toNat) % 2 ^ 64 = s.1.curAllocSz + n.toNat :=
      Nat.mod_eq_of_lt hfit
    refine ⟨hcur, ?_⟩
    dsimp only
    rw [hcur]
    exact hs.concat (Nat.le_add_right _ n.toNat)

theorem grants_submodels {rs : List Request} {s s' : ModelAllocator × Granted}
    (h : grants s rs = .ok s') (hfit : s.1.curAllocSz + (rs.map Request.size).sum < 2 ^ 64)
    (hs : Laid kUpperModel s.2.submodels s.1.curAllocSz) :
    s'.1.curAllocSz = s.1.curAllocSz + (rs.map Request.size).sum ∧
      Laid kUpperModel s'.2.submodels s'.1.curAllocSz := by
  induction rs generalizing s with
  | nil => exact Except.ok.inj h ▸ ⟨rfl, hs⟩
  | cons r rs ih =>
    obtain ⟨s₁, hr, hrs⟩ := bind_eq_ok h
    rw [List.map_cons, List.sum_cons, ← Nat.add_assoc] at hfit ⊢
    obtain ⟨hcur, hlaid⟩ := grant_submodels hr (by omega) hs
    rw [← hcur] at hfit ⊢
    exact ih hrs hfit hlaid

theorem grant_submodels_subset {s s' : ModelAllocator × Granted} {r : Request}
    (h : grant s r = .ok s') : s.2.submodels ⊆ s'.2.submodels := by
  obtain ⟨-, -, rfl⟩ | ⟨n, -, -, rfl⟩ := grant_cases h
  · exact List.Subset.refl _
  · exact List.subset_append_left _ _

theorem grants_submodels_subset {rs : List Request} {s s' : ModelAllocator × Granted}
    (h : grants s rs = .ok s') : s.2.submodels ⊆ s'.2.submodels := by
  induction rs generalizing s with
  | nil => exact Except.ok.inj h ▸ List.Subset.refl _
  | cons r rs ih =>
    obtain ⟨s₁, hr, hrs⟩ := bind_eq_ok h
    exact fun b hb => ih hrs (grant_submodels_subset hr hb)

theorem grant_fits {s s' : ModelAllocator × Granted} {r : Request} (h : grant s r = .ok s')
    (ht : s.1.totalSz < 2 ^ 64) (hcur : s.1.curAllocSz ≤ s.1.totalSz)
    (hin : ∀ b ∈ s'.2.submodels, b.points ⊆ Set.Ico 0 s.1.totalSz) :
    s.1.curAllocSz + r.size ≤ s.1.totalSz ∧ s'.1.curAllocSz = s.1.curAllocSz + r.size := by
  obtain ⟨rfl, -, rfl⟩ | ⟨n, rfl, -, rfl⟩ := grant_cases h
  · exact ⟨hcur, rfl⟩
  · have hle : s.1.curAllocSz + n.toNat ≤ s.1.totalSz := by
      rcases Nat.eq_zero_or_pos n.toNat with hz | hpos
      · omega
      · have hsub := hin ⟨s.1.curAllocSz, s.1.curAllocSz + n.toNat⟩ (by simp)
        exact ((Set.Ico_subset_Ico_iff (Nat.lt_add_of_pos_right hpos)).mp hsub).2
    exact ⟨hle, Nat.mod_eq_of_lt (hle.trans_lt ht)⟩

theorem grants_fit {rs : List Request} {s s' : ModelAllocator × Granted} (h : grants s rs = .ok s')
    (ht : s.1.totalSz < 2 ^ 64) (hcur : s.1.curAllocSz ≤ s.1.totalSz)
    (hin : ∀ b ∈ s'.2.submodels, b.points ⊆ Set.Ico 0 s.1.totalSz) :
    s.1.curAllocSz + (rs.map Request.size).sum ≤ s.1.totalSz := by
  induction rs generalizing s with
  | nil => exact hcur
  | cons r rs ih =>
    obtain ⟨s₁, hr, hrs⟩ := bind_eq_ok h
    obtain ⟨hle, hcur'⟩ := grant_fits hr ht hcur fun b hb => hin b (grants_submodels_subset hrs hb)
    have htot := grant_totalSz hr
    have h₁ := ih hrs (htot ▸ ht) (by omega) (htot ▸ hin)
    rw [List.map_cons, List.sum_cons]
    omega

/-! ### Separate blocks -/

/-- Slot `2 ^ 21 - 1` passes the check, and its key slot is the first offset slot. -/
theorem not_separate_of_gt {s : ModelAllocator × Granted} {n t : ℕ} (hs : SlotsTo s n)
    (hn : kUpperModel / 2 / 8 - 1 < n) : ¬s.2.Separate t := by
  intro h
  have hmem : ∀ i < n, getUpper i ∈ s.2.uppers := by
    intro i hi
    rw [hs.2]
    exact List.mem_map_of_mem (List.mem_range.mpr hi)
  have hkey : (⟨8 + (kUpperModel / 2 / 8 - 1) * 8,
      8 + (kUpperModel / 2 / 8 - 1) * 8 + 8⟩ : Span ℕ) ∈ s.2.keySlots :=
    List.mem_map.mpr ⟨_, hmem _ hn, rfl⟩
  have hoff : (⟨kUpperModel / 2 + 8 * 0, kUpperModel / 2 + 8 * 0 + 8⟩ : Span ℕ) ∈ s.2.offsetSlots :=
    List.mem_map.mpr ⟨_, hmem 0 (by omega), rfl⟩
  have happ :=
    (List.pairwise_append.mp (List.pairwise_append.mp (List.pairwise_cons.mp h.apart).2).1).2.2
  exact not_apart_of_mem (x := kUpperModel / 2) ⟨by norm_num, by norm_num⟩ ⟨by norm_num,
    by norm_num⟩ (happ _ hkey _ hoff)

theorem separate_of_le {s : ModelAllocator × Granted} {n t : ℕ} (hs : SlotsTo s n)
    (hn : n ≤ kUpperModel / 2 / 8 - 1) (hsub : Laid kUpperModel s.2.submodels s.1.curAllocSz)
    (ht : s.1.curAllocSz ≤ t) : s.2.Separate t := by
  have hk : kUpperModel = 32 * 1024 * 1024 := rfl
  have hkeys : Laid 8 s.2.keySlots (kUpperModel / 2) := by
    rw [Granted.keySlots, hs.2]
    have hslot : ∀ n, (getUpper n).1 = 8 + 8 * n := fun n => by rw [getUpper, Nat.mul_comm]
    exact (slots_laid hslot n).mono (by omega)
  have hoffs : Laid (kUpperModel / 2) s.2.offsetSlots kUpperModel := by
    rw [Granted.offsetSlots, hs.2]
    exact (slots_laid (fun _ => rfl) n).mono (by omega)
  have hall : Laid 0 s.2.blocks t :=
    ⟨le_rfl, Nat.zero_le 8, (hkeys.append hoffs).append (hsub.mono ht)⟩
  refine ⟨hall.apart, fun b hb => hall.subset hb, fun i p hp => ?_⟩
  rw [hs.2, List.getElem?_map, Option.map_eq_some_iff] at hp
  obtain ⟨j, hj, rfl⟩ := hp
  obtain ⟨hi, rfl⟩ := List.getElem?_eq_some_iff.mp hj
  rw [List.getElem_range]

theorem construct_eq_ok {m : Memory} {t : ℕ} {a : ModelAllocator} (h : construct m t = .ok a) :
    a.totalSz = t ∧ a.curAllocSz = kUpperModel ∧ kUpperModel < t ∧ SlotsTo (a, ⟨[], []⟩) 0 := by
  rw [construct] at h
  by_cases ht : t > kUpperModel
  · rw [if_pos ht] at h
    obtain rfl := Except.ok.inj h
    exact ⟨rfl, rfl, ht, rfl, rfl⟩
  · rw [if_neg ht] at h
    cases h

/-- The blocks are separate exactly when at most `2 ^ 21 - 1` upper models were asked for and no
sum of `alloc_submodel` wrapped. -/
theorem separate_iff {m : Memory} {t : ℕ} {a a' : ModelAllocator} {g : Granted} {rs : List Request}
    (ht : t < 2 ^ 64) (hnew : construct m t = .ok a)
    (hrun : grants (a, ⟨[], []⟩) rs = .ok (a', g)) :
    g.Separate t ↔ rs.count .upper ≤ kUpperModel / 2 / 8 - 1 ∧
      kUpperModel + (rs.map Request.size).sum ≤ t := by
  obtain ⟨htot, hcur, hlt, hslots⟩ := construct_eq_ok hnew
  have hslots' := grants_slots hslots hrun
  rw [Nat.zero_add] at hslots'
  constructor
  · intro h
    refine ⟨le_of_not_gt fun hgt => not_separate_of_gt hslots' hgt h, ?_⟩
    have hin : ∀ b ∈ g.submodels, b.points ⊆ Set.Ico 0 t :=
      fun b hb => h.inside b (List.mem_cons_of_mem _ (List.mem_append_right _ hb))
    have hfit := grants_fit hrun (htot ▸ ht) (by dsimp only; omega) (htot ▸ hin)
    rwa [hcur, htot] at hfit
  · rintro ⟨hups, hsizes⟩
    obtain ⟨hcur', hlaid⟩ :=
      grants_submodels hrun (by dsimp only; omega) (show Laid _ _ _ from hcur.ge)
    exact separate_of_le hslots' hups hlaid (by rw [hcur', hcur]; exact hsizes)

theorem separate_iff_two : ∃ a a' g, construct (fun _ => 0) (2 ^ 26) = .ok a ∧
    grants (a, ⟨[], []⟩) [.upper, .submodel 40, .upper, .submodel 60] = .ok (a', g) ∧
    g.Separate (2 ^ 26) := by
  obtain ⟨a, hnew, hrun⟩ : ∃ a, construct (fun _ => 0) (2 ^ 26) = .ok a ∧
      ∃ s, grants (a, ⟨[], []⟩) [.upper, .submodel 40, .upper, .submodel 60] = .ok s :=
      ⟨_, rfl, _, rfl⟩
  obtain ⟨⟨a', g⟩, hrun⟩ := hrun
  exact ⟨a, a', g, hnew, hrun, (separate_iff (by norm_num) hnew hrun).mpr ⟨by decide, by decide⟩⟩

/-- `2 ^ 21` upper models, of which the last one gets the offset slot of the first. -/
theorem uppers_overlap : ∃ a a' g, construct (fun _ => 0) (2 ^ 26) = .ok a ∧
    grants (a, ⟨[], []⟩) (List.replicate (2 ^ 21) .upper) = .ok (a', g) ∧ ¬g.Separate (2 ^ 26) := by
  obtain ⟨a, hnew, hnum, hmax⟩ : ∃ a, construct (fun _ => 0) (2 ^ 26) = .ok a ∧
    a.upperAllocNum = 0 ∧
      a.maxUpperNum = kUpperModel / 2 / 8 - 1 := ⟨_, rfl, rfl, rfl⟩
  obtain ⟨⟨a', g⟩, hrun⟩ := grants_upper_ok (k := kUpperModel / 2 / 8) (s := (a, ⟨[], []⟩))
    (by rw [hnum, hmax, Nat.zero_add]; norm_num)
  have hslots := grants_slots (construct_eq_ok hnew).2.2.2 hrun
  rw [Nat.zero_add, List.count_replicate_self] at hslots
  exact ⟨a, a', g, hnew, hrun, not_separate_of_gt hslots (by norm_num)⟩

end ModelAllocator
end Rolex
