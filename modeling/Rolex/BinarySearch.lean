import Rolex.LeafAllocator
import Mathlib.Data.Nat.Log
import Mathlib.Order.Basic

/-! The binary search of `rolex_util.hh`. It compares one element from the end first and then
halves its step, so that its loop has no branch on the size of what is left. -/

namespace Rolex

def builtinClz (x : ℕ) : Except Fault ℕ :=
  if x = 0 then .error .clzOfZero else .ok (31 - Nat.log2 x)

def bsr (x : ℕ) : Except Fault ℕ := do
  let zeros ← builtinClz x
  .ok (31 - zeros)

section Search

variable {α : Type} [LinearOrder α]

def elemAt (arr : List α) (pos : ℤ) : Except Fault α :=
  if pos < 0 then .error .outOfBounds
  else match arr[pos.toNat]? with
    | some x => .ok x
    | none => .error .outOfBounds

def stepDown (arr : List α) (key : α) (step : ℕ) (pos : ℤ) : Except Fault ℤ :=
  if step > 0 then do
    let x ← elemAt arr (pos + step)
    stepDown arr key (step / 2) (if x < key then pos + step else pos)
  else .ok pos
termination_by step

/-- `n` is an `int`, and so is the result. -/
def binarySearchBranchless (arr : List α) (n : ℤ) (key : α) : Except Fault ℤ := do
  let logstep ← bsr ((n - 1) % 2 ^ 32).toNat
  let step := 2 ^ logstep
  let x ← elemAt arr (-1 + n - (step : ℕ))
  let pos ← stepDown arr key (step / 2) (if x < key then -1 + n - (step : ℕ) else -1)
  let pos := pos + 1
  let y ← elemAt arr pos
  .ok (if y ≥ key then pos else n)

omit [LinearOrder α] in
theorem elemAt_natCast {arr : List α} {i : ℕ} (h : i < arr.length) : elemAt arr i = .ok arr[i] := by
  rw [elemAt, if_neg (by omega), Int.toNat_natCast, List.getElem?_eq_getElem h]

abbrev lowerBound (arr : List α) (key : α) : ℕ := arr.findIdx fun x => decide (key ≤ x)

theorem lt_lowerBound_iff {arr : List α} (hasc : arr.Pairwise (· < ·)) (key : α) {i : ℕ}
    (hi : i < arr.length) : arr[i] < key ↔ i < lowerBound arr key := by
  constructor
  · intro hlt
    by_contra hle
    have hb : lowerBound arr key < arr.length := (not_lt.mp hle).trans_lt hi
    have hkey : key ≤ arr[lowerBound arr key] := of_decide_eq_true (List.findIdx_getElem (w := hb))
    rcases (not_lt.mp hle).eq_or_lt with heq | hlt'
    · simp only [heq] at hkey
      exact absurd hlt (not_lt.mpr hkey)
    · exact absurd (hlt.trans_le hkey) (List.pairwise_iff_getElem.mp hasc _ _ hb hi hlt').asymm
  · exact fun h => not_le.mp (of_decide_eq_false (List.not_of_lt_findIdx h))

/-- The loop with the step `2 ^ l / 2`. It ends before the bound, or before the last position where
the bound is the length; it reads no position behind the last one. -/
theorem stepDown_ok {arr : List α} (hasc : arr.Pairwise (· < ·)) (key : α) {goal : ℕ}
    (hgoal : goal = min (lowerBound arr key) (arr.length - 1)) {l : ℕ} :
    ∀ {pos : ℤ}, -1 ≤ pos → pos + 1 ≤ goal →
      goal ≤ pos + 2 ^ l → pos + 2 ^ l ≤ arr.length - 1 →
      stepDown arr key (2 ^ l / 2) pos = .ok (goal - 1) := by
  induction l with
  | zero =>
    intro pos _ hlow hhigh _
    rw [stepDown, if_neg (by norm_num), pow_zero] at *
    congr 1
    omega
  | succ l ih =>
    intro pos hpos hlow hhigh hend
    have hhalf : 2 ^ (l + 1) / 2 = 2 ^ l := by rw [pow_succ, Nat.mul_div_cancel _ (by norm_num)]
    have htwo : (2 : ℤ) ^ (l + 1) = 2 ^ l + 2 ^ l := by ring
    have hone : (0 : ℤ) < 2 ^ l := by positivity
    rw [htwo] at hhigh hend
    obtain ⟨i, hi⟩ : ∃ i : ℕ, pos + 2 ^ l = i := ⟨(pos + 2 ^ l).toNat, by omega⟩
    have hlen : i < arr.length := by omega
    have hread : elemAt arr (pos + (2 ^ l : ℕ)) = .ok arr[i] := by
      rw [Nat.cast_pow, Nat.cast_ofNat, hi, elemAt_natCast hlen]
    rw [stepDown, hhalf, if_pos (by positivity), hread, ok_bind, Nat.cast_pow, Nat.cast_ofNat]
    have hiff := lt_lowerBound_iff hasc key hlen
    split
    · rename_i hlt
      have := hiff.mp hlt
      exact ih (by omega) (by omega) (by omega) (by omega)
    · rename_i hge
      have := mt hiff.mpr hge
      exact ih hpos hlow (by omega) (by omega)

/-- The search finds the first element that is not below the key, and stays in the array. -/
theorem binarySearchBranchless_eq {arr : List α} (hasc : arr.Pairwise (· < ·))
    (htwo : 2 ≤ arr.length) (hlt : arr.length < 2 ^ 31) (key : α) :
    binarySearchBranchless arr arr.length key = .ok (lowerBound arr key : ℕ) := by
  set n := arr.length with hn
  set goal := min (lowerBound arr key) (n - 1) with hgoal
  have hmod : (((n : ℤ) - 1) % 2 ^ 32).toNat = n - 1 := by omega
  have hle : 2 ^ Nat.log2 (n - 1) ≤ n - 1 := Nat.log2_self_le (by omega)
  have hgt : n - 1 < 2 ^ (Nat.log2 (n - 1) + 1) := Nat.lt_log2_self
  have hlog : Nat.log2 (n - 1) < 32 := (Nat.log2_lt (by omega)).mpr (by omega)
  have hbsr : bsr (n - 1) = .ok (Nat.log2 (n - 1)) := by
    rw [bsr, builtinClz, if_neg (by omega), ok_bind]
    congr 1
    omega
  set l := Nat.log2 (n - 1) with hl
  rw [pow_succ] at hgt
  have hcast : ((2 ^ l : ℕ) : ℤ) = 2 ^ l := by push_cast; rfl
  have hfirst : n - 1 - 2 ^ l < arr.length := by omega
  have hpos : -1 + (n : ℤ) - (2 ^ l : ℕ) = (n - 1 - 2 ^ l : ℕ) := by omega
  have hiff := lt_lowerBound_iff hasc key hfirst
  have hle' : lowerBound arr key ≤ n := List.findIdx_le_length
  have hloop : stepDown arr key (2 ^ l / 2) (if arr[n - 1 - 2 ^ l] < key then
    ((n - 1 - 2 ^ l : ℕ) : ℤ) else -1) =
      .ok (goal - 1) := by
    split
    · rename_i hbelow
      have := hiff.mp hbelow
      exact stepDown_ok hasc key hgoal (by omega) (by omega) (by omega) (by omega)
    · rename_i habove
      have := mt hiff.mpr habove
      exact stepDown_ok hasc key hgoal (by omega) (by omega) (by omega) (by omega)
  have hlast : goal < arr.length := by omega
  rw [binarySearchBranchless, hmod, hbsr, ok_bind]
  simp only [hpos]
  rw [elemAt_natCast hfirst, ok_bind, hloop, ok_bind]
  simp only [Int.sub_add_cancel]
  rw [elemAt_natCast hlast, ok_bind]
  have hlastiff := lt_lowerBound_iff hasc key hlast
  congr 1
  split
  · rename_i hge
    have := mt hlastiff.mpr (not_lt.mpr hge)
    omega
  · rename_i hlt'
    have := hlastiff.mp (not_le.mp hlt')
    omega

theorem binarySearchBranchless_eq_five :
    binarySearchBranchless [1, 3, 5, 7, 9] ([1, 3, 5, 7, 9] : List ℕ).length 6 = .ok 3 :=
  binarySearchBranchless_eq (by decide) (by decide) (by decide) 6

end Search
end Rolex
