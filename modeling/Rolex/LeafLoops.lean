import Rolex.Leaf
import Rolex.LeafAllocator

/-!
The loops of `leaf.hpp` that count slots with a `u8`. Such a counter has 256 values, so a loop that
has not stopped after 256 turns never does; for a capacity of at most 255 the loops are the
operations of `Leaf`.
-/

namespace Rolex
open AscendingMap

inductive LeafFault where
  | hang -- A loop that never ends
  | outOfBounds -- An access outside the arrays, which nothing checks
  | wrongLeaf -- "Something wrong in data leaves"
  deriving DecidableEq, Repr

namespace Leaf

/-- `for(; i<N; i++)` up to the first slot that meets `stop`, for at most `fuel` turns. -/
def scanSlots (N : ℕ) (stop : ℕ → Bool) : ℕ → UInt8 → Except LeafFault UInt8
  | 0, _ => .error .hang
  | fuel + 1, i =>
    if i.toNat < N then if stop i.toNat then .ok i else scanSlots N stop fuel (i + 1) else .ok i

variable {K V : Type} {N : ℕ} [LinearOrder K] [OrderTop K]

/-- `insert_not_full`; a returned `N` becomes a `u8`. -/
def insertNotFullU8 (leaf : Leaf K V N) (key : K) (val : V) :
    Except LeafFault (UInt8 × Leaf K V N) := do
  let i ← scanSlots N (fun p => leaf.key p = key ∨ leaf.key p > key) 256 0
  if i.toNat < N ∧ leaf.key i.toNat = key then .ok (0, leaf)
  else do
    let j ← scanSlots N (fun p => leaf.key p = invalidKey K) 256 i
    if j.toNat ≥ N then .ok (UInt8.ofNat N, leaf)
    else .ok (i, ⟨(moveRange leaf.keys i.toNat j.toNat (i.toNat + 1)).set i.toNat key,
      (moveRange leaf.vals i.toNat j.toNat (i.toNat + 1)).set i.toNat val, by
      simp [leaf.keysLength], by simp [leaf.valsLength]⟩)

def removeU8 (leaf : Leaf K V N) (key : K) : Except LeafFault (Bool × Leaf K V N) := do
  let i ← scanSlots N (fun p => leaf.key p = key) 256 0
  if i.toNat < N then
    .ok (true, ⟨(moveRange leaf.keys (i.toNat + 1) N i.toNat).set (N - 1) (invalidKey K),
      moveRange leaf.vals (i.toNat + 1) N i.toNat, by simp [leaf.keysLength], by
      simp [leaf.valsLength]⟩)
  else .ok (false, leaf)

/-! ### The counters do not wrap -/

theorem toNat_succ {j : UInt8} (h : j.toNat < 255) : (j + 1).toNat = j.toNat + 1 := by
  rw [UInt8.toNat_add]
  exact Nat.mod_eq_of_lt (by rw [UInt8.toNat_one]; omega)

theorem scanSlots_ok (leaf : Leaf K V N) (hN : N ≤ 255) (stop : K → Bool) (fuel : ℕ) :
    ∀ {i : UInt8}, i.toNat ≤ N →
    N - i.toNat < fuel → ∃ r, scanSlots N (fun p => stop (leaf.key p)) fuel i = .ok r ∧
    r.toNat ≤ N ∧
      r.toNat = i.toNat + (leaf.keys.drop i.toNat).findIdx stop := by
  induction fuel with
  | zero => exact fun _ hfuel => absurd hfuel (Nat.not_lt_zero _)
  | succ fuel ih =>
    intro i hi hfuel
    unfold scanSlots
    by_cases hlt : i.toNat < N
    · have hlen : i.toNat < leaf.keys.length := by rw [leaf.keysLength]; exact hlt
      have hkey : leaf.key i.toNat = leaf.keys[i.toNat] := List.getD_eq_getElem _ _ hlen
      rw [if_pos hlt, List.drop_eq_getElem_cons hlen, List.findIdx_cons, ← hkey]
      cases hstop : stop (leaf.key i.toNat) with
      | true => exact ⟨i, rfl, hi, rfl⟩
      | false =>
        have hnext := toNat_succ (j := i) (by omega)
        obtain ⟨r, hr, hle, hval⟩ := ih (i := i + 1) (by omega) (by omega)
        refine ⟨r, hr, hle, ?_⟩
        rw [hval, hnext, cond_false]
        omega
    · have hdrop : leaf.keys.drop i.toNat = [] :=
        List.drop_eq_nil_of_le (by rw [leaf.keysLength]; omega)
      rw [if_neg hlt, hdrop]
      exact ⟨i, rfl, hi, rfl⟩

theorem scanSlots_zero (leaf : Leaf K V N) (hN : N ≤ 255) (stop : K → Bool) :
    ∃ r, scanSlots N (fun p => stop (leaf.key p)) 256 0 = .ok r ∧ r.toNat ≤ N ∧
      r.toNat = leaf.keys.findIdx stop := by
  obtain ⟨r, hr, hle, hval⟩ := leaf.scanSlots_ok hN stop 256 (i := 0) (Nat.zero_le _)
    (by rw [UInt8.toNat_zero]; omega)
  rw [UInt8.toNat_zero, Nat.zero_add, List.drop_zero] at hval
  exact ⟨r, hr, hle, hval⟩

theorem getElem?_keys_eq_iff (leaf : Leaf K V N) (i : ℕ) (k : K) :
    leaf.keys[i]? = some k ↔ i < N ∧ leaf.key i = k := by
  rw [key, List.getD_eq_getElem?_getD]
  by_cases hi : i < N
  · have hlen : i < leaf.keys.length := by rw [leaf.keysLength]; exact hi
    rw [List.getElem?_eq_getElem hlen, Option.some_inj, Option.getD_some]
    exact (and_iff_right hi).symm
  · have hnone : leaf.keys[i]? = none :=
      List.getElem?_eq_none (by rw [leaf.keysLength]; exact not_lt.mp hi)
    rw [hnone]
    exact iff_of_false (Option.some_ne_none k).symm fun h => hi h.1

omit [OrderTop K] in
theorem length_takeWhile_ne (xs : List K) (k : K) :
    (xs.takeWhile (fun x => x ≠ k)).length = xs.findIdx (fun x => x = k) := by
  induction xs with
  | nil => rfl
  | cons x xs ih =>
    rw [List.takeWhile_cons, List.findIdx_cons]
    by_cases hx : x = k
    · simp [hx]
    · simpa [hx] using ih

theorem insertNotFullU8_eq (leaf : Leaf K V N) (hN : N ≤ 255) (key : K) (val : V) :
    leaf.insertNotFullU8 key val =
    .ok (UInt8.ofNat (leaf.insertNotFull key val).1, (leaf.insertNotFull key val).2) := by
  obtain ⟨i, hi, hle, hival⟩ := leaf.scanSlots_zero hN (fun k => k = key ∨ k > key)
  obtain ⟨j, hj, -, hjval⟩ := leaf.scanSlots_ok hN (fun k => k = invalidKey K) 256 hle (by omega)
  unfold insertNotFullU8 insertNotFull
  simp only [hi, ok_bind, hj, hival.symm, length_takeWhile_ne, hjval.symm]
  by_cases hkey : leaf.keys[i.toNat]? = some key
  · rw [if_pos hkey, if_pos ((leaf.getElem?_keys_eq_iff _ _).mp hkey)]
    rfl
  · rw [if_neg hkey, if_neg fun h => hkey ((leaf.getElem?_keys_eq_iff _ _).mpr h)]
    by_cases hfull : j.toNat ≥ N
    · rw [if_pos hfull, if_pos hfull]
    · rw [if_neg hfull, if_neg hfull, UInt8.ofNat_toNat]

theorem removeU8_eq (leaf : Leaf K V N) (hN : N ≤ 255) (key : K) :
    leaf.removeU8 key = .ok (leaf.remove key) := by
  obtain ⟨i, hi, -, hival⟩ := leaf.scanSlots_zero hN (fun k => k = key)
  unfold removeU8 remove
  rw [hi, ok_bind, List.findIdx?_eq_guard_findIdx_lt, ← hival]
  by_cases hlt : i.toNat < N
  · have hguard : Option.guard (fun p => p < leaf.keys.length) i.toNat = some i.toNat := by
      rw [leaf.keysLength]
      exact Option.guard_eq_some_iff.mpr ⟨rfl, decide_eq_true hlt⟩
    rw [if_pos hlt, hguard]
  · have hguard : Option.guard (fun p => p < leaf.keys.length) i.toNat = none := by
      rw [leaf.keysLength]
      exact Option.guard_eq_none_iff.mpr (decide_eq_false hlt)
    rw [if_neg hlt, hguard]

end Leaf
end Rolex
