import Rolex.Index
import Rolex.LeafAddresses

/-! `LearnedCache` of `learned_cache.hpp`: a compute node's copy of the models, read from the model
region, and its operations on the leaves of the memory node. An RDMA READ or WRITE moves one whole
leaf. -/

namespace Rolex
open Bytes

structure LearnedCache (F : Type) where
  modelKeys : List Key
  modelOffs : List ℕ
  models : List (SubModel F)

namespace LearnedCache

variable {F V : Type} {N : ℕ} (fmt : DoubleFormat F) (epsilon : ℕ)

/-! ### read_remote_index -/

def readSyn (a : ModelAllocator) (off len : ℕ) : Except Fault (List Byte) :=
  a.get off (len % 2 ^ 32)

def wordAt (buf : List Byte) (i : ℕ) : Except Fault ℕ :=
  if 8 * i + 8 ≤ buf.length then .ok (ofBytes ((buf.drop (8 * i)).take 8)) else .error .outOfBounds

def words (buf : List Byte) : ℕ → ℕ → Except Fault (List ℕ)
  | 0, _ => .ok []
  | n + 1, i => do
    let w ← wordAt buf i
    let rest ← words buf n (i + 1)
    .ok (w :: rest)

/-- "read submodels", `raw i` being the memory of the `i`-th one. -/
def readModels (raw : ℕ → Fin kSynonymMax → TableEntry) (a : ModelAllocator) : List ℕ → ℕ →
    Except Fault (List (SubModel F))
  | [], _ => .ok []
  | off :: offs, i => do
    let size ← readSyn a off 4
    let curMs := toInt32 (ofBytes size)
    if curMs < 0 then .error .badSerialization
    else do
      let rSeria ← readSyn a (off + 4) curMs.toNat
      let model ← SubModel.deserialize fmt (raw i) rSeria
      let rest ← readModels raw a offs (i + 1)
      .ok (model :: rest)

def readRemoteIndex (raw : ℕ → Fin kSynonymMax → TableEntry) (a : ModelAllocator) :
    Except Fault (LearnedCache F) := do
  let total ← readSyn a 0 8
  let totalSize := ofBytes total
  let keysBuf ← readSyn a 8 (8 * totalSize)
  let offsBuf ← readSyn a (kUpperModel / 2) (8 * totalSize)
  let keys ← words keysBuf totalSize 0
  let offs ← words offsBuf totalSize 0
  let models ← readModels fmt raw a offs 0
  .ok ⟨keys.map (Fin.ofNat _), offs, models⟩

/-! ### The operations -/

def modelForKey (c : LearnedCache F) (key : Key) : ℕ :=
  Rolex.modelForKey c.modelKeys c.models.length key

def leaves (c : LearnedCache F) (N : ℕ) (key : Key) : Except Fault (List LeafAddr) :=
  match c.models[c.modelForKey key]? with
  | some m => m.getLeafAddr fmt epsilon N key
  | none => .error .outOfBounds

def readLeaf (alloc : LeafAllocator Key V N) (num : ℕ) : Except Fault (Leaf Key V N) :=
  if num < alloc.allocated then .ok (alloc.leaves num) else .error .outOfBounds

def searchLeaves (alloc : LeafAllocator Key V N) (key : Key) :
    List LeafAddr → Except Fault (Option V)
  | [] => .ok none
  | a :: rest => do
    let leaf ← readLeaf alloc a.addr.leafNum
    match leaf.search key with
    | some v => .ok (some v)
    | none => searchLeaves alloc key rest

def search (c : LearnedCache F) (alloc : LeafAllocator Key V N) (key : Key) :
    Except Fault (Option V) := do
  let leaves ← c.leaves fmt epsilon N key
  searchLeaves alloc key leaves.reverse

/-- The loop of `insert`. A full leaf only takes a new leaf number, "fixme: read synonym leaf". -/
def insertLeaves (alloc : LeafAllocator Key V N) (key : Key) (val : V) :
    List LeafAddr → Except Fault (Bool × LeafAllocator Key V N)
  | [] => .ok (false, alloc)
  | a :: rest => do
    let leaf ← readLeaf alloc a.addr.leafNum
    if leaf.insertHere key then
      if leaf.isfull then .ok (false, { alloc with used := (alloc.used + 1) % 2 ^ 64 })
      else .ok (true, alloc.write a.addr.leafNum (leaf.insertNotFull key val).2)
    else insertLeaves alloc key val rest

def insert (c : LearnedCache F) (alloc : LeafAllocator Key V N) (key : Key) (val : V) :
    Except Fault (Bool × LeafAllocator Key V N) := do
  let leaves ← c.leaves fmt epsilon N key
  insertLeaves alloc key val leaves.reverse

end LearnedCache
end Rolex
