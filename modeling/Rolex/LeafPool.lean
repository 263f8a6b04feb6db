import Rolex.Foundations.Bytes
import Rolex.Foundations.Interleaving
import Rolex.Foundations.Spans
import Rolex.LeafAllocator

/-!
The leaf pool of `leaf_allocator.hpp` in memory: two header words and the leaves behind them.
Placing the leaves, handing them out on the memory node and finding them from a compute node are
three computations of one address.
-/

namespace Rolex
open Bytes Interleaving Spans

inductive PoolFault where
  | smallLeafRegion -- "Small leaf region for allocating"
  | alreadyUsed -- "LeafAllocator has been used since cur_alloc_sz != 0."
  | noValue -- `alloc().value()` without a value
  | intOverflow -- The counter of a loop of type `int` overflows
  | exceedsPreallocated -- "Exceed the Preallocated leaves."
  deriving DecidableEq, Repr

/-- The template parameters `Leaf` and `S`: the size of a leaf, and its constructor on the bytes of
its slot. -/
structure LeafType where
  size : ℕ
  init : List Byte → List Byte
  length_init : ∀ bs, (init bs).length = bs.length

def leafOf (N : ℕ) : LeafType where
  size := 16 * N
  init bs := List.replicate (min (8 * N) bs.length) 255 ++ bs.drop (8 * N)
  length_init bs := by
    rw [List.length_append, List.length_replicate, List.length_drop]
    omega

def wordAt (m : Memory) (p : ℕ) : ℕ := ofBytes (m.read p 8)

/-- Pointers are addresses. -/
structure LeafPool where
  mem : Memory
  memPool : ℕ
  totalSz : ℕ
  curAllocSz : ℕ
  curAllocNum : ℕ

namespace LeafPool

def alloc (S : ℕ) (pool : LeafPool) : Option (ℕ × LeafPool) :=
  if (pool.curAllocSz + S) % 2 ^ 64 ≤ pool.totalSz then
    some (pool.memPool + pool.curAllocSz,
      { pool with
        curAllocSz := (pool.curAllocSz + S) % 2 ^ 64
        curAllocNum := (pool.curAllocNum + 1) % 2 ^ 32 })
  else none

def newLeaf (leaf : LeafType) (ptr : ℕ) (pool : LeafPool) : LeafPool :=
  { pool with mem := pool.mem.write ptr (leaf.init (pool.mem.read ptr leaf.size)) }

def constructLeaves (leaf : LeafType) : ℕ → ℕ → LeafPool → Except PoolFault (LeafPool × List ℕ)
  | 0, _, pool => .ok (pool, [])
  | count + 1, i, pool =>
    match pool.alloc leaf.size with
    | none => .error .noValue
    | some (ptr, pool) =>
      if i + 1 < 2 ^ 31 then do
        let rest ← constructLeaves leaf count (i + 1) (pool.newLeaf leaf ptr)
        .ok (rest.1, ptr :: rest.2)
      else .error .intOverflow

def preallocLeaves (leaf : LeafType) (leafNum : ℕ) (pool : LeafPool) :
    Except PoolFault (LeafPool × List ℕ) :=
  if pool.curAllocSz = 0 then
    let mem := (pool.mem.write pool.memPool (toBytes 8 0)).write (pool.memPool + 8)
      (toBytes 8 leafNum)
    constructLeaves leaf leafNum 0 { pool with mem := mem, curAllocSz := 16 }
  else .error .alreadyUsed

def Passes (S t leafNum : ℕ) : Prop := leafNum < (t + (2 ^ 64 - 8)) % 2 ^ 64 / S

instance (S t leafNum : ℕ) : Decidable (Passes S t leafNum) :=
  inferInstanceAs (Decidable (leafNum < (t + (2 ^ 64 - 8)) % 2 ^ 64 / S))

def construct (leaf : LeafType) (m : Memory) (memPool t leafNum : ℕ) :
    Except PoolFault (LeafPool × List ℕ) :=
  if Passes leaf.size t leafNum then preallocLeaves leaf leafNum ⟨m, memPool, t, 0, 0⟩
    else .error .smallLeafRegion

def leafPtr (memPool S num : ℕ) : ℕ := memPool + 16 + num * S % 2 ^ 64

def getLeaf (memPool S : ℕ) (m : Memory) (num : ℕ) : Except PoolFault ℕ :=
  if num ≤ wordAt m memPool then .ok (leafPtr memPool S num) else .error .exceedsPreallocated

end LeafPool

def remoteLeafOffsets (S num : ℕ) : ℕ := (16 + num * S) % 2 ^ 64

namespace LeafPool

/-! ### Preallocation -/

theorem leaf_le_of_passes {S t leafNum num : ℕ} (hS : 8 ≤ S) (ht8 : 8 ≤ t) (ht : t < 2 ^ 64)
    (hpass : Passes S t leafNum) (hnum : num ≤ leafNum) : 16 + num * S ≤ t := by
  have hsub : (t + (2 ^ 64 - 8)) % 2 ^ 64 = t - 8 := by omega
  unfold Passes at hpass
  rw [hsub] at hpass
  have hfit : (leafNum + 1) * S ≤ t - 8 := (Nat.le_div_iff_mul_le (by omega)).mp hpass
  have hmul : num * S ≤ leafNum * S := Nat.mul_le_mul_right S hnum
  rw [Nat.succ_mul] at hfit
  omega

theorem leafPtr_eq {memPool S num : ℕ} (h : num * S < 2 ^ 64) :
    leafPtr memPool S num = memPool + (16 + num * S) := by
  rw [leafPtr, Nat.mod_eq_of_lt h, Nat.add_assoc]

theorem remoteLeafOffsets_eq {S num : ℕ} (h : 16 + num * S < 2 ^ 64) :
    remoteLeafOffsets S num = 16 + num * S :=
  Nat.mod_eq_of_lt h

theorem constructLeaves_ok (leaf : LeafType) (count : ℕ) :
    ∀ {i : ℕ} (pool : LeafPool), i + count < 2 ^ 31 →
    pool.totalSz < 2 ^ 64 → pool.curAllocSz = 16 + i * leaf.size →
    16 + (i + count) * leaf.size ≤ pool.totalSz →
    ∃ pool' addrs, constructLeaves leaf count i pool = .ok (pool', addrs) ∧
      addrs = (List.range' i count).map (fun n => pool.memPool + (16 + n * leaf.size)) ∧
      (∀ ptr ∈ addrs, pool'.mem.read ptr leaf.size = leaf.init (pool.mem.read ptr leaf.size)) ∧
      ∀ p, p < pool.memPool + (16 + i * leaf.size) → pool'.mem p = pool.mem p := by
  induction count with
  | zero => exact fun _ _ _ _ _ =>
      ⟨_, _, rfl, rfl, fun _ h => absurd h List.not_mem_nil, fun _ _ => rfl⟩
  | succ count ih =>
    intro i pool hi ht hcur hfit
    have hnext : (i + 1) * leaf.size = i * leaf.size + leaf.size := Nat.succ_mul i leaf.size
    have hlast : (i + 1) * leaf.size ≤ (i + (count + 1)) * leaf.size :=
      Nat.mul_le_mul_right _ (by omega)
    have hmod : (pool.curAllocSz + leaf.size) % 2 ^ 64 = 16 + (i + 1) * leaf.size := by
      rw [Nat.mod_eq_of_lt (by omega)]
      omega
    have halloc : pool.alloc leaf.size = some (pool.memPool + pool.curAllocSz,
        { pool with
          curAllocSz := 16 + (i + 1) * leaf.size
          curAllocNum := (pool.curAllocNum + 1) % 2 ^ 32 }) := by
      rw [alloc, hmod]
      exact if_pos (by omega)
    set ptr := pool.memPool + pool.curAllocSz with hptr
    set next : LeafPool :=
      { pool with
        curAllocSz := 16 + (i + 1) * leaf.size
        curAllocNum := (pool.curAllocNum + 1) % 2 ^ 32 }
    have hlen : (leaf.init (next.mem.read ptr leaf.size)).length = leaf.size := by
      rw [leaf.length_init, Memory.length_read]
    obtain ⟨pool', addrs, hrest, haddrs, hread, hframe⟩ :=
      ih (i := i + 1) (next.newLeaf leaf ptr) (by omega) ht rfl
      (by rw [Nat.add_right_comm, Nat.add_assoc]; exact hfit)
    refine ⟨pool', ptr :: addrs, ?_, ?_, fun q hq => ?_, fun p hp => ?_⟩
    · rw [constructLeaves, halloc]
      dsimp only
      rw [if_pos (by omega), hrest, ok_bind]
    · rw [haddrs, List.range'_succ, List.map_cons, hptr, hcur]
      rfl
    · rcases List.mem_cons.mp hq with rfl | hq
      · -- the later leaves lie behind this one
        have hself := Memory.read_write_self next.mem ptr (leaf.init (next.mem.read ptr leaf.size))
        rw [hlen] at hself
        refine (Memory.read_congr fun p _ hp => ?_).trans hself
        exact hframe p (by change p < pool.memPool + (16 + (i + 1) * leaf.size); omega)
      · have hge : ptr + leaf.size ≤ q := by
          rw [haddrs] at hq
          obtain ⟨n, hn, rfl⟩ := List.mem_map.mp hq
          have hin : (i + 1) * leaf.size ≤ n * leaf.size :=
            Nat.mul_le_mul_right _ (List.left_le_of_mem_range' hn)
          change pool.memPool + pool.curAllocSz + leaf.size ≤ pool.memPool + (16 + n * leaf.size)
          omega
        rw [hread q hq]
        exact congrArg leaf.init (Memory.read_write_apart _ _ (Or.inr (by rw [hlen]; exact hge)))
    · have hbefore : p < pool.memPool + (16 + (i + 1) * leaf.size) := by omega
      rw [hframe p hbefore]
      exact pool.mem.write_outside _ (Or.inl (by omega))

/-- The pool that the constructor leaves behind: no leaf is used yet. -/
structure Preallocated (leaf : LeafType) (memPool t leafNum : ℕ) (mem : Memory)
    (addrs : List ℕ) : Prop where
  length : addrs.length = leafNum
  ptr : ∀ n < leafNum, addrs[n]? = some (memPool + (16 + n * leaf.size))
  inside : ∀ n < leafNum, 16 + n * leaf.size + leaf.size ≤ t
  used : wordAt mem memPool = 0
  allocated : wordAt mem (memPool + 8) = leafNum

theorem wordAt_write_self (m : Memory) (p : ℕ) {n : ℕ} (hn : n < 2 ^ 64) :
    wordAt (m.write p (toBytes 8 n)) p = n := by
  have hread := m.read_write_self p (toBytes 8 n)
  rw [length_toBytes] at hread
  unfold wordAt
  rw [hread]
  exact ofBytes_toBytes (hn.trans_eq (by norm_num))

theorem wordAt_congr {m m' : Memory} {p : ℕ} (h : ∀ q, p ≤ q → q < p + 8 → m' q = m q) :
    wordAt m' p = wordAt m p :=
  congrArg ofBytes (Memory.read_congr h)

theorem construct_ok (leaf : LeafType) (hS : 16 ≤ leaf.size) (memPool : ℕ) {t leafNum : ℕ}
    (m : Memory) (ht16 : 16 ≤ t) (ht : t < 2 ^ 64) (hnum : leafNum < 2 ^ 31)
    (hpass : Passes leaf.size t leafNum) :
    ∃ pool addrs, construct leaf m memPool t leafNum = .ok (pool, addrs) ∧
      Preallocated leaf memPool t leafNum pool.mem addrs ∧
      ∀ ptr ∈ addrs, pool.mem.read ptr leaf.size = leaf.init (m.read ptr leaf.size) := by
  have hle : ∀ n ≤ leafNum, 16 + n * leaf.size ≤ t := fun n hn =>
    leaf_le_of_passes (by omega) (by omega) ht hpass hn
  set m₀ := (m.write memPool (toBytes 8 0)).write (memPool + 8) (toBytes 8 leafNum) with hm₀
  obtain ⟨pool, addrs, hok, haddrs, hread, hframe⟩ := constructLeaves_ok leaf leafNum (i := 0)
    ⟨m₀, memPool, t, 16, 0⟩ (by omega) ht (by rw [Nat.zero_mul])
    (by rw [Nat.zero_add]; exact hle _ le_rfl)
  rw [Nat.zero_mul] at hframe
  refine ⟨pool, addrs, ?_, ⟨?_, fun n hn => ?_, fun n hn => ?_, ?_, ?_⟩, fun ptr hptr => ?_⟩
  · rw [construct, if_pos hpass, preallocLeaves]
    exact (if_pos rfl).trans hok
  · rw [haddrs, List.length_map, List.length_range']
  · rw [haddrs, List.getElem?_map, List.getElem?_range' hn]
    simp
  · have hn := hle (n + 1) hn
    rw [Nat.succ_mul] at hn
    omega
  · rw [wordAt_congr fun q _ hq => hframe q (by dsimp only; omega),
      wordAt_congr fun q _ hq => Memory.write_outside _ _ (Or.inl hq)]
    exact wordAt_write_self _ _ (by norm_num)
  · rw [wordAt_congr fun q _ hq => hframe q (by dsimp only; omega)]
    exact wordAt_write_self _ _ (hnum.trans (by norm_num))
  · rw [hread ptr hptr]
    have hge : memPool + 16 ≤ ptr := by
      rw [haddrs] at hptr
      obtain ⟨n, _, rfl⟩ := List.mem_map.mp hptr
      dsimp only
      omega
    refine congrArg leaf.init ?_
    dsimp only
    rw [hm₀, Memory.read_write_apart _ _ (Or.inr (by rw [length_toBytes]; omega)),
      Memory.read_write_apart _ _ (Or.inr (by rw [length_toBytes]; omega))]

end LeafPool
end Rolex
