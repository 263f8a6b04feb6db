import Mathlib

/-!
The numbers below `N` in a circle, where 0 comes after `N - 1`: runs of them, and the chain of links
that leads through a run.
-/

namespace CyclicRange

variable {N h n a b : ℕ}

def cyc (N h n : ℕ) : List ℕ := (List.range n).map fun k => (h + k) % N

@[simp] theorem length_cyc : (cyc N h n).length = n := by
  rw [cyc, List.length_map, List.length_range]

theorem cyc_succ : cyc N h (n + 1) = h % N :: cyc N (h + 1) n := by
  rw [cyc, List.range_succ_eq_map, List.map_cons, List.map_map, cyc]
  refine congrArg₂ List.cons rfl (List.map_congr_left fun k _ => ?_)
  rw [Function.comp_apply]
  congr 1
  omega

theorem cyc_add : cyc N h (a + b) = cyc N h a ++ cyc N (h + a) b := by
  rw [cyc, List.range_add, List.map_append, List.map_map, cyc, cyc]
  refine congrArg₂ HAppend.hAppend rfl (List.map_congr_left fun k _ => ?_)
  rw [Function.comp_apply, Nat.add_assoc]

theorem cyc_mod : cyc N (h % N) n = cyc N h n := by
  rw [cyc, cyc]
  exact List.map_congr_left fun k _ => Nat.mod_add_mod ..

theorem mem_cyc (hN : 0 < N) {i : ℕ} (hi : i ∈ cyc N h n) : i < N := by
  obtain ⟨k, _, rfl⟩ := List.mem_map.mp hi
  exact Nat.mod_lt _ hN

theorem nodup_cyc (hn : n ≤ N) : (cyc N h n).Nodup := by
  refine List.nodup_range.map_on fun j hj k hk heq => ?_
  have hj := List.mem_range.mp hj
  have hk := List.mem_range.mp hk
  exact (Nat.ModEq.add_left_cancel' h heq).eq_of_lt_of_lt (hj.trans_le hn) (hk.trans_le hn)

theorem cyc_perm (hN : 0 < N) : (cyc N h N).Perm (List.range N) := by
  have hsub : cyc N h N ⊆ List.range N := fun i hi => List.mem_range.mpr (mem_cyc hN hi)
  exact ((nodup_cyc le_rfl).subperm hsub).perm_of_length_le (by rw [length_cyc, List.length_range])

theorem cyc_split {xs ys : List ℕ} (hxs : xs ++ ys = cyc N h n) :
    xs = cyc N h xs.length ∧ ys = cyc N (h + xs.length) ys.length := by
  have hlength : xs.length + ys.length = n := by rw [← List.length_append, hxs, length_cyc]
  refine List.append_inj ?_ (by rw [length_cyc])
  rw [← cyc_add, hlength, hxs]

theorem cyc_turn {xs ys : List ℕ} (hxs : xs ++ ys = cyc N h N) :
    ys ++ xs = cyc N (h + xs.length) N := by
  have hlength : xs.length + ys.length = N := by rw [← List.length_append, hxs, length_cyc]
  obtain ⟨hx, hy⟩ := cyc_split hxs
  have hcycle : cyc N (h + xs.length + ys.length) xs.length = cyc N h xs.length := by
    rw [Nat.add_assoc, hlength, ← cyc_mod, Nat.add_mod_right, cyc_mod]
  have hturn : cyc N (h + xs.length) (ys.length + xs.length) = ys ++ xs := by
    rw [cyc_add, hcycle, ← hy, ← hx]
  rw [← hturn, Nat.add_comm ys.length, hlength]

/-- The nodes from `i` on, as far as the links lead; `none` if `fuel` nodes do not reach an end. -/
def walk (next : ℕ → Option ℕ) : (fuel i : ℕ) → Option (List ℕ)
  | 0, _ => none
  | fuel + 1, i =>
    match next i with
    | none => some [i]
    | some j => (walk next fuel j).map (i :: ·)

theorem walk_cyc {next : ℕ → Option ℕ} {fuel : ℕ} (hfuel : n < fuel)
    (hnext : ∀ k < n, next ((h + k) % N) = some ((h + k + 1) % N))
    (hlast : next ((h + n) % N) = none) : walk next fuel (h % N) = some (cyc N h (n + 1)) := by
  induction n generalizing fuel h with
  | zero =>
    obtain ⟨fuel, rfl⟩ := Nat.exists_eq_add_one_of_ne_zero hfuel.ne'
    rw [walk, show next (h % N) = none from hlast]
    rfl
  | succ n ih =>
    obtain ⟨fuel, rfl⟩ := Nat.exists_eq_add_one_of_ne_zero (Nat.zero_lt_of_lt hfuel).ne'
    have hfirst : next (h % N) = some ((h + 1) % N) := hnext 0 (Nat.succ_pos n)
    have hrest : walk next fuel ((h + 1) % N) = some (cyc N (h + 1) (n + 1)) := by
      refine ih (Nat.lt_of_succ_lt_succ hfuel) (fun k hk => ?_) ?_
      · rw [Nat.add_right_comm h 1 k]
        exact hnext (k + 1) (Nat.succ_lt_succ hk)
      · rw [Nat.add_right_comm h 1 n]
        exact hlast
    rw [walk, hfirst]
    dsimp only
    rw [hrest, cyc_succ (n := n + 1)]
    rfl

end CyclicRange
