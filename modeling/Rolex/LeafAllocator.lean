import Rolex.Leaf

/-! The allocator of `leaf_allocator.hpp`, which hands out preallocated leaves
by number. A leaf pointer is the number of the leaf it points to; how numbers
and addresses correspond is not part of this file. -/

namespace Rolex

inductive Fault where
  | windowOutsideTable -- `ASSERT(hi<table.size())`, in `insert` also `hi>=lo`
  | exceedsPreallocated -- "Exceed the Preallocated leaves."
  | leavesInsufficient -- "Preallocated ... leaves are insufficient"
  | outOfBounds -- An access outside an array or a vector, which nothing checks
  | hang -- A loop that never ends
  | pointsNotIncreasing -- "Points must be increasing by x."
  | duplicateKeys -- "DUPLICATE keys"
  | intOverflow -- The counter of a loop of type `int` overflows
  | modelsTooMany -- "Too small size to store models!"
  | upperModelsTooMany -- "Too small size to store upper models!"
  | submodelsTooLarge -- "Too small size to store submodels!"
  | badSerialization -- An `ASSERT` on the size of a serialization, or a negative size of a string
  | clzOfZero -- `__builtin_clz(0)`, "undefined for x == 0"
  | localAllocatorTooSmall -- "Local Allocator too small."
  deriving DecidableEq, Repr

@[simp] theorem ok_bind {ε α β : Type} (a : α) (f : α → Except ε β) :
    (Except.ok a >>= f) = f a := rfl

@[simp] theorem error_bind {ε α β : Type} (e : ε) (f : α → Except ε β) :
    (Except.error e >>= f) = Except.error e := rfl

theorem bind_eq_ok {ε α β : Type} {x : Except ε α} {f : α → Except ε β} {b : β}
    (h : (x >>= f) = .ok b) : ∃ a, x = .ok a ∧ f a = .ok b := by
  cases x with
  | error e => cases h
  | ok a => exact ⟨a, rfl, h⟩

theorem bind_eq_error {ε α β : Type} {x : Except ε α} {g : α → Except ε β} {f : ε}
    (h : (x >>= g) = .error f) : x = .error f ∨ ∃ a, x = .ok a ∧ g a = .error f := by
  cases x with
  | error e => exact Or.inl (congrArg Except.error (Except.error.inj h))
  | ok a => exact Or.inr ⟨a, rfl, h⟩

theorem exists_ok {ε α : Type} {x : Except ε α} {p : α → Bool} (h : x.toOption.any p = true) :
    ∃ a, x = .ok a ∧ p a = true := by
  cases x with
  | error e => cases h
  | ok a => exact ⟨a, rfl, h⟩

/-- The two header words and the leaves of the pool. A pool of more than `2 ^ 48`
leaves of at least 16 bytes does not fit the address space. -/
structure LeafAllocator (K V : Type) (N : ℕ) where
  used : ℕ
  allocated : ℕ
  leaves : ℕ → Leaf K V N
  addressable : allocated ≤ 2 ^ 48

namespace LeafAllocator

variable {K V : Type} {N : ℕ}

def prealloc [LinearOrder K] [OrderTop K] (raw : ℕ → Leaf K V N) (leafNum : ℕ)
    (h : leafNum ≤ 2 ^ 48) : LeafAllocator K V N :=
  ⟨0, leafNum, fun p => Leaf.construct (raw p), h⟩

/-- The pointer to leaf `num`. A number at or past `allocated` passes the `ASSERT` when
it equals `used`, but then lies behind the pool. -/
def getLeaf (alloc : LeafAllocator K V N) (num : ℕ) : Except Fault ℕ :=
  if num > alloc.used then .error .exceedsPreallocated
  else if num ≥ alloc.allocated then .error .outOfBounds
  else .ok num

def fetchNewLeaf (alloc : LeafAllocator K V N) : Except Fault (ℕ × LeafAllocator K V N) :=
  if alloc.used < alloc.allocated then .ok (alloc.used, { alloc with used := alloc.used + 1 })
  else .error .leavesInsufficient

def write (alloc : LeafAllocator K V N) (p : ℕ) (leaf : Leaf K V N) : LeafAllocator K V N :=
  { alloc with leaves := Function.update alloc.leaves p leaf }

@[simp] theorem write_used (alloc : LeafAllocator K V N) (p : ℕ) (leaf : Leaf K V N) :
    (alloc.write p leaf).used = alloc.used := rfl

@[simp] theorem write_allocated (alloc : LeafAllocator K V N) (p : ℕ) (leaf : Leaf K V N) :
    (alloc.write p leaf).allocated = alloc.allocated := rfl

@[simp] theorem write_leaves_self (alloc : LeafAllocator K V N) (p : ℕ) (leaf : Leaf K V N) :
    (alloc.write p leaf).leaves p = leaf := Function.update_self _ _ _

theorem write_leaves_ne (alloc : LeafAllocator K V N) {p q : ℕ} (h : q ≠ p) (leaf : Leaf K V N) :
    (alloc.write p leaf).leaves q = alloc.leaves q := Function.update_of_ne h _ _

@[simp] theorem write_self (alloc : LeafAllocator K V N) (p : ℕ) :
    alloc.write p (alloc.leaves p) = alloc := by
  simp [write]

theorem getLeaf_ok {alloc : LeafAllocator K V N} {num : ℕ} (hu : num < alloc.used)
    (ha : alloc.used ≤ alloc.allocated) : alloc.getLeaf num = .ok num := by
  rw [getLeaf, if_neg (by omega), if_neg (by omega)]

theorem fetchNewLeaf_ok {alloc : LeafAllocator K V N} (h : alloc.used < alloc.allocated) :
    alloc.fetchNewLeaf = .ok (alloc.used, { alloc with used := alloc.used + 1 }) := if_pos h

theorem fetchNewLeaf_eq_ok {alloc : LeafAllocator K V N} {res : ℕ × LeafAllocator K V N}
    (h : alloc.fetchNewLeaf = .ok res) :
    alloc.used < alloc.allocated ∧ res = (alloc.used, { alloc with used := alloc.used + 1 }) := by
  have hlt : alloc.used < alloc.allocated := by
    by_contra hno
    rw [fetchNewLeaf, if_neg hno] at h
    cases h
  rw [fetchNewLeaf_ok hlt] at h
  exact ⟨hlt, (Except.ok.inj h).symm⟩

end LeafAllocator
end Rolex
