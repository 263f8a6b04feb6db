import Rolex.ClientInsert

/-!
The search of a compute node that waits for its READ in a coroutine. Of the leaves of the window it
reads the first one only, and then walks as many leaves of its buffer as the window has.
-/

namespace Rolex

variable {F V : Type} {N : ℕ} {fmt : DoubleFormat F} {epsilon : ℕ}

/-- `read_leaves_asyn`. The buffer is the local memory from `leaf_buf` on, by leaves. -/
def LocalConnection.readLeavesAsyn (alloc : LeafAllocator Key V N) (leaves : List LeafAddr)
    (buf : ℕ → Leaf Key V N) : Except Fault (ℕ → Leaf Key V N) :=
  match leaves with
  | [] => .error .outOfBounds
  | a :: _ => do
    let leaf ← LearnedCache.readLeaf alloc a.addr.leafNum
    .ok (Function.update buf 0 leaf)

namespace LearnedCache

def searchBuf (buf : ℕ → Leaf Key V N) (key : Key) : (count i : ℕ) → Option V
  | 0, _ => none
  | count + 1, i =>
    match (buf i).search key with
    | some v => some v
    | none => searchBuf buf key count (i + 1)

def searchAsyn (fmt : DoubleFormat F) (epsilon : ℕ) (c : LearnedCache F)
    (alloc : LeafAllocator Key V N) (buf : ℕ → Leaf Key V N) (key : Key) :
    Except Fault (Option V) := do
  let leaves ← c.leaves fmt epsilon N key
  let buf ← LocalConnection.readLeavesAsyn alloc leaves buf
  .ok (searchBuf buf key leaves.length 0)

/-! ### The two orders of reading -/

def firstHit (key : Key) (leaves : List (Leaf Key V N)) : Option V :=
  leaves.findSome? fun leaf => leaf.search key

section Orders

variable {alloc : LeafAllocator Key V N} {buf : ℕ → Leaf Key V N} {key : Key}

theorem firstHit_cons (leaf : Leaf Key V N) (leaves : List (Leaf Key V N)) :
    firstHit key (leaf :: leaves) = (leaf.search key).or (firstHit key leaves) := by
  rw [firstHit, List.findSome?_cons, firstHit]
  cases leaf.search key <;> rfl

theorem firstHit_concat (leaves : List (Leaf Key V N)) (leaf : Leaf Key V N) :
    firstHit key (leaves ++ [leaf]) = (firstHit key leaves).or (leaf.search key) := by
  rw [firstHit, List.findSome?_append, firstHit, List.findSome?_cons, List.findSome?_nil]
  cases leaf.search key <;> rfl

theorem searchLeaves_eq {leaves : List LeafAddr}
    (hin : ∀ a ∈ leaves, a.addr.leafNum.val < alloc.allocated) :
    searchLeaves alloc key leaves =
    .ok (firstHit key (leaves.map fun a => alloc.leaves a.addr.leafNum)) := by
  induction leaves with
  | nil => rfl
  | cons a rest ih =>
    have hread : readLeaf alloc a.addr.leafNum = .ok (alloc.leaves a.addr.leafNum) :=
      if_pos (hin a List.mem_cons_self)
    rw [searchLeaves, hread, ok_bind, ih fun b hb => hin b (List.mem_cons_of_mem _ hb),
      List.map_cons, firstHit_cons]
    cases (alloc.leaves a.addr.leafNum).search key <;> rfl

theorem searchBuf_eq {count : ℕ} : ∀ {i : ℕ},
    searchBuf buf key count i = firstHit key ((List.range' i count).map buf) := by
  induction count with
  | zero => exact fun {i} => rfl
  | succ count ih =>
    intro i
    rw [searchBuf, List.range'_succ, List.map_cons, firstHit_cons, ih]
    cases (buf i).search key <;> rfl

theorem map_update_tail (leaf : Leaf Key V N) (count : ℕ) :
    (List.range' 1 count).map (Function.update buf 0 leaf) = (List.range' 1 count).map buf := by
  refine List.map_congr_left fun i hi => Function.update_of_ne ?_ _ _
  have := List.left_le_of_mem_range' hi
  omega

end Orders

/-- The leaves behind the first one, read from the back, against what the buffer held. -/
def Agree (first later stale : Option V) : Prop :=
  match first with
  | some v => later = none ∨ later = some v
  | none => stale = later

instance [DecidableEq V] (first later stale : Option V) : Decidable (Agree first later stale) :=
  match first with
  | some v => inferInstanceAs (Decidable (later = none ∨ later = some v))
  | none => inferInstanceAs (Decidable (stale = later))

theorem agree_iff {first later stale : Option V} :
    first.or stale = later.or first ↔ Agree first later stale := by
  cases first with
  | none => simp [Agree]
  | some v => cases later <;> simp [Agree, eq_comm]

/-- Both searches answer alike exactly when the first leaf of the window has the key and no later
one has it with another value, or when it does not and the buffer answers as the later leaves do. -/
theorem search_asyn_iff {c : LearnedCache F} {alloc : LeafAllocator Key V N}
    {buf : ℕ → Leaf Key V N} {key : Key} {a : LeafAddr} {rest : List LeafAddr}
    (hleaves : c.leaves fmt epsilon N key = .ok (a :: rest))
    (hin : ∀ b ∈ a :: rest, b.addr.leafNum.val < alloc.allocated) :
    c.searchAsyn fmt epsilon alloc buf key = c.search fmt epsilon alloc key ↔
      Agree ((alloc.leaves a.addr.leafNum).search key)
        (firstHit key (rest.reverse.map fun b => alloc.leaves b.addr.leafNum))
        (firstHit key ((List.range' 1 rest.length).map buf)) := by
  have hread : readLeaf alloc a.addr.leafNum = .ok (alloc.leaves a.addr.leafNum) :=
    if_pos (hin a List.mem_cons_self)
  have hsearch : c.search fmt epsilon alloc key =
      .ok ((firstHit key (rest.reverse.map fun b => alloc.leaves b.addr.leafNum)).or
        ((alloc.leaves a.addr.leafNum).search key)) := by
    rw [search, hleaves, ok_bind, searchLeaves_eq fun b hb => hin b (List.mem_reverse.mp hb),
      List.reverse_cons, List.map_append, List.map_singleton, firstHit_concat]
  have hasyn : c.searchAsyn fmt epsilon alloc buf key =
    .ok (((alloc.leaves a.addr.leafNum).search key).or
      (firstHit key ((List.range' 1 rest.length).map buf))) := by
    rw [searchAsyn, hleaves, ok_bind, LocalConnection.readLeavesAsyn, hread, ok_bind, ok_bind,
      searchBuf_eq, List.length_cons, List.range'_succ, List.map_cons, Function.update_self,
      map_update_tail, firstHit_cons]
  rw [hsearch, hasyn, Except.ok.injEq, agree_iff]

def fourData : List (Key × ℕ) := [(1, 10), (2, 20), (3, 30), (4, 40)]

theorem search_asyn_iff_three : ∃ r c a b, emptyStored.train binary64 1 noEntries fourData = .ok r ∧
    readRemoteIndex binary64 noEntries r.RM.modelAllocator = .ok c ∧
    c.leaves binary64 1 2 3 = .ok [a, b] ∧
    c.searchAsyn binary64 1 r.RM.leafAllocator r.RM.leafAllocator.leaves 3 =
    c.search binary64 1 r.RM.leafAllocator 3 := by
  obtain ⟨r, hr, hp⟩ := exists_ok (p := fun r : RolexIndex (Fin (2 ^ 64)) ℕ 2 =>
      decide (r.RM.leafAllocator.allocated = 200 ∧ Agree ((r.RM.leafAllocator.leaves 0).search 3)
        (firstHit 3 [r.RM.leafAllocator.leaves 1])
        (firstHit 3 ((List.range' 1 1).map r.RM.leafAllocator.leaves))) &&
      (readRemoteIndex binary64 noEntries r.RM.modelAllocator).toOption.any fun c =>
        (c.leaves binary64 1 2 3).toOption.any fun leaves =>
          decide (leaves = [⟨0, 0, 0, 0, 0⟩, ⟨1, 0, 0, 0, 1⟩]))
    (by decide +kernel : (emptyStored.train binary64 1 noEntries fourData).toOption.any _ = true)
  obtain ⟨hregion, hc⟩ := Bool.and_eq_true_iff.mp hp
  obtain ⟨hall, hagree⟩ := of_decide_eq_true hregion
  obtain ⟨c, hc, hleaves⟩ := exists_ok hc
  obtain ⟨leaves, hleaves, heq⟩ := exists_ok hleaves
  rw [of_decide_eq_true heq] at hleaves
  refine ⟨r, c, _, _, hr, hc, hleaves, (search_asyn_iff hleaves fun b hb => ?_).mpr hagree⟩
  rw [hall]
  fin_cases hb <;> decide

/-- The buffer holds nothing, and the second leaf of the window is not read. -/
theorem search_asyn_misses : ∃ (r : RolexIndex (Fin (2 ^ 64)) ℕ 2) (c : LearnedCache (Fin (2 ^ 64)))
    (leaves : List LeafAddr), emptyStored.train binary64 1 noEntries fourData = .ok r ∧
    readRemoteIndex binary64 noEntries r.RM.modelAllocator = .ok c ∧
    c.leaves binary64 1 2 3 = .ok leaves ∧ leaves.length = 2 ∧
    c.searchAsyn binary64 1 r.RM.leafAllocator (fun _ => zeroLeaf 2) 3 = .ok none ∧
    c.search binary64 1 r.RM.leafAllocator 3 = .ok (some 30) := by
  obtain ⟨r, hr, hp⟩ := exists_ok (p := fun r : RolexIndex (Fin (2 ^ 64)) ℕ 2 =>
      (readRemoteIndex binary64 noEntries r.RM.modelAllocator).toOption.any fun c =>
        ((c.leaves binary64 1 2 3).toOption.any fun leaves => decide (leaves.length = 2)) &&
        ((c.searchAsyn binary64 1 r.RM.leafAllocator (fun _ => zeroLeaf 2) 3).toOption.any fun v =>
        decide (v = none)) &&
          ((c.search binary64 1 r.RM.leafAllocator 3).toOption.any fun v => decide (v = some 30)))
    (by decide +kernel : (emptyStored.train binary64 1 noEntries fourData).toOption.any _ = true)
  obtain ⟨c, hc, hall⟩ := exists_ok hp
  obtain ⟨hall, hsyn⟩ := Bool.and_eq_true_iff.mp hall
  obtain ⟨hleaves, hasyn⟩ := Bool.and_eq_true_iff.mp hall
  obtain ⟨leaves, hleaves, hlen⟩ := exists_ok hleaves
  obtain ⟨v, hasyn, hv⟩ := exists_ok hasyn
  obtain ⟨w, hsyn, hw⟩ := exists_ok hsyn
  obtain rfl := of_decide_eq_true hv
  obtain rfl := of_decide_eq_true hw
  exact ⟨r, c, leaves, hr, hc, hleaves, of_decide_eq_true hlen, hasyn, hsyn⟩

end LearnedCache
end Rolex
