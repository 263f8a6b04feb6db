import Rolex.LeafAllocator

/-! The leaf table of `leaf_table.hpp`: the vector of table entries, the array of
synonym entries, whose slot 0 counts the slots handed out, and one spin lock
object per table entry. A call runs alone here: a lock that is taken on entry
stays taken, so waiting for it is a loop that never ends. -/

namespace Rolex

abbrev kSynonymMax : ℕ := 128

structure TableEntry where
  lock : Fin 2
  leafRegion : Fin (2 ^ 7)
  synonymLeaf : Fin (2 ^ 8)
  leafNum : Fin (2 ^ 48)
  deriving DecidableEq

structure LeafTable where
  table : List TableEntry
  synonymTable : Fin kSynonymMax → TableEntry
  csLocks : List Bool

namespace LeafTable

/-! ### Access to entries and slots -/

def entry (t : LeafTable) (i : ℕ) : Except Fault TableEntry :=
  match t.table[i]? with
  | some te => .ok te
  | none => .error .outOfBounds

def slot (t : LeafTable) (s : ℕ) : Except Fault TableEntry :=
  if h : s < kSynonymMax then .ok (t.synonymTable ⟨s, h⟩) else .error .outOfBounds

def modifyEntry (t : LeafTable) (i : ℕ) (f : TableEntry → TableEntry) : LeafTable :=
  { t with table := t.table.modify i f }

def modifySlot (t : LeafTable) (s : ℕ) (f : TableEntry → TableEntry) : LeafTable :=
  { t with synonymTable := fun j => if j.val = s then f (t.synonymTable j) else t.synonymTable j }

/-- `SynonymTable[0].leaf_num`, the next slot to hand out. -/
def available (t : LeafTable) : ℕ := (t.synonymTable 0).leafNum.val

/-- The constructor; the synonym table keeps what the memory held but for the counter. -/
def construct (raw : Fin kSynonymMax → TableEntry) : LeafTable :=
  ({ table := [], synonymTable := raw, csLocks := [] } : LeafTable).modifySlot 0
    fun te => { te with leafNum := 1 }

def trainEmplaceBack (t : LeafTable) (leafNum : ℕ) : LeafTable :=
  { t with
    table := t.table ++ [⟨0, 0, 0, Fin.ofNat _ leafNum⟩]
    csLocks := t.csLocks ++ [false] }

def synonymEmplaceBack (t : LeafTable) (inTable : Bool) (lIdx leafNum : ℕ) :
    Except Fault (ℕ × LeafTable) :=
  if t.available = kSynonymMax - 1 then .ok (0, t)
  else do
    let idx := t.available
    let t := t.modifySlot 0 fun te => { te with leafNum := Fin.ofNat _ (idx + 1) }
    let before ← if inTable then t.entry lIdx else t.slot lIdx
    let link := fun te : TableEntry => { te with synonymLeaf := Fin.ofNat _ idx }
    let t := if inTable then t.modifyEntry lIdx link else t.modifySlot lIdx link
    let _ ← t.slot idx
    .ok (idx, t.modifySlot idx fun _ => ⟨0, 0, before.synonymLeaf, Fin.ofNat _ leafNum⟩)

def synonymTableRemove (t : LeafTable) (sLeaves : List ℕ) (lIdx idx : ℕ) :
    Except Fault LeafTable := do
  let te ← t.slot (sLeaves.getD idx 0)
  let link := fun e : TableEntry => { e with synonymLeaf := te.synonymLeaf }
  .ok (if idx = 0 then t.modifyEntry lIdx link else t.modifySlot (sLeaves.getD (idx - 1) 0) link)

/-! ### Locks -/

def csLock (t : LeafTable) (lIdx : ℕ) : Except Fault LeafTable :=
  match t.csLocks[lIdx]? with
  | some false => .ok { t with csLocks := t.csLocks.set lIdx true }
  | some true => .error .hang
  | none => .error .outOfBounds

def csUnlock (t : LeafTable) (lIdx : ℕ) : LeafTable :=
  { t with csLocks := t.csLocks.set lIdx false }

def lockLeaf (t : LeafTable) (idx : ℕ) : Except Fault LeafTable := do
  let te ← t.entry idx
  if te.lock ≠ 0 then .error .hang else .ok (t.modifyEntry idx fun te => { te with lock := 1 })

def unlockLeaf (t : LeafTable) (idx : ℕ) : LeafTable :=
  t.modifyEntry idx fun te => { te with lock := 0 }

/-! ### The loops shared by the operations -/

def walk (t : LeafTable) : ℕ → ℕ → Except Fault (List ℕ)
  | 0, sIdx => if sIdx = 0 then .ok [] else .error .hang
  | fuel + 1, sIdx =>
    if sIdx = 0 then .ok []
    else do
      let te ← t.slot sIdx
      let rest ← t.walk fuel te.synonymLeaf
      .ok (sIdx :: rest)

/-- The slots behind entry `lIdx`. A walk over `kSynonymMax` slots that has not met 0
is on a cycle (`walk_of_walk`). -/
def synonymLeaves (t : LeafTable) (lIdx : ℕ) : Except Fault (List ℕ) := do
  let te ← t.entry lIdx
  t.walk kSynonymMax te.synonymLeaf

variable {K V : Type} {N : ℕ} [LinearOrder K] [OrderTop K]

def entryLeaf (t : LeafTable) (alloc : LeafAllocator K V N) (i : ℕ) : Except Fault ℕ := do
  let te ← t.entry i
  alloc.getLeaf te.leafNum

def slotLeaf (t : LeafTable) (alloc : LeafAllocator K V N) (s : ℕ) : Except Fault ℕ := do
  let te ← t.slot s
  alloc.getLeaf te.leafNum

/-- `for(int i=hi; i>lo; i--)` with the step to `table[lo]` behind it: the entry an
operation works on, and its leaf. -/
def pickEntry (t : LeafTable) (alloc : LeafAllocator K V N) (key : K) (lo : ℕ) :
    ℕ → Except Fault (ℕ × ℕ)
  | 0 => do
    let leaf ← t.entryLeaf alloc lo
    .ok (lo, leaf)
  | i + 1 =>
    if i + 1 > lo then do
      let leaf ← t.entryLeaf alloc (i + 1)
      if (alloc.leaves leaf).insertHere key then .ok (i + 1, leaf)
      else t.pickEntry alloc key lo i
    else do
      let leaf ← t.entryLeaf alloc lo
      .ok (lo, leaf)

/-- `for(int i=s_leaves.size()-1; i>=0; i--)` over the first slots of the chain: the
position of the last synonym leaf that starts at or below the key, and that leaf. -/
def pickSynonym (t : LeafTable) (alloc : LeafAllocator K V N) (key : K) (sLeaves : List ℕ) :
    ℕ → Except Fault (Option (ℕ × ℕ))
  | 0 => .ok none
  | i + 1 => do
    let temLeaf ← t.slotLeaf alloc (sLeaves.getD i 0)
    if (alloc.leaves temLeaf).insertHere key then .ok (some (i, temLeaf))
    else t.pickSynonym alloc key sLeaves i

def pickedLeaf (leaf : ℕ) (picked : Option (ℕ × ℕ)) : ℕ :=
  match picked with
  | some p => p.2
  | none => leaf

def behindPicked (picked : Option (ℕ × ℕ)) : ℕ :=
  match picked with
  | some p => p.1 + 1
  | none => 0

/-! ### search -/

def searchFromBack (t : LeafTable) (alloc : LeafAllocator K V N) (key : K) (sLeaves : List ℕ) :
    ℕ → Except Fault (Option V)
  | 0 => .ok none
  | i + 1 => do
    let temLeaf ← t.slotLeaf alloc (sLeaves.getD i 0)
    match (alloc.leaves temLeaf).search key with
    | some v => .ok (some v)
    | none => t.searchFromBack alloc key sLeaves i

def searchSynonym (t : LeafTable) (alloc : LeafAllocator K V N) (key : K) (lIdx : ℕ) :
    Except Fault (Option V) := do
  let sLeaves ← t.synonymLeaves lIdx
  t.searchFromBack alloc key sLeaves sLeaves.length

def searchEntry (t : LeafTable) (alloc : LeafAllocator K V N) (key : K) (lIdx leaf : ℕ) :
    Except Fault (Option V) :=
  match (alloc.leaves leaf).search key with
  | some v => .ok (some v)
  | none => t.searchSynonym alloc key lIdx

/-- `some v` is the answer `true` with `v` written to `val`. -/
def search (t : LeafTable) (alloc : LeafAllocator K V N) (key : K) (lo hi : ℕ) :
    Except Fault (Option V) :=
  if hi < t.table.length then do
    let picked ← t.pickEntry alloc key lo hi
    t.searchEntry alloc key picked.1 picked.2
  else .error .windowOutsideTable

/-! ### range -/

def rangeSlots (t : LeafTable) (alloc : LeafAllocator K V N) (key : K) (n : ℕ) :
    List ℕ → List V → Except Fault (List V)
  | [], vals => .ok vals
  | s :: slots, vals =>
    if vals.length < n then do
      let temLeaf ← t.slotLeaf alloc s
      t.rangeSlots alloc key n slots ((alloc.leaves temLeaf).range key n vals)
    else .ok vals

def rangeSynonym (t : LeafTable) (alloc : LeafAllocator K V N) (key : K) (n : ℕ) (vals : List V)
    (lIdx leaf : ℕ) : Except Fault (List V) := do
  let sLeaves ← t.synonymLeaves lIdx
  let picked ← t.pickSynonym alloc key sLeaves sLeaves.length
  let vals := (alloc.leaves (pickedLeaf leaf picked)).range key n vals
  t.rangeSlots alloc key n (sLeaves.drop (behindPicked picked)) vals

def nextRange (t : LeafTable) (alloc : LeafAllocator K V N) (key : K) (n : ℕ) (vals : List V)
    (lIdx : ℕ) : Except Fault (List V) := do
  let sLeaves ← t.synonymLeaves lIdx
  t.rangeSlots alloc key n sLeaves vals

def rangeEntry (t : LeafTable) (alloc : LeafAllocator K V N) (key : K) (lo : ℕ) :
    ℕ → Except Fault (Option (ℕ × ℕ))
  | 0 => .ok none
  | count + 1 => do
    let leaf ← t.entryLeaf alloc (lo + count)
    if (alloc.leaves leaf).insertHere key then .ok (some (lo + count, leaf))
    else t.rangeEntry alloc key lo count

def rangeEntries (t : LeafTable) (alloc : LeafAllocator K V N) (key : K) (n : ℕ) :
    (left idx : ℕ) → List V → Except Fault (List V)
  | 0, _, vals => .ok vals
  | left + 1, idx, vals =>
    if vals.length < n then do
      let leaf ← t.entryLeaf alloc idx
      let vals := (alloc.leaves leaf).range key n vals
      if vals.length ≥ n then .ok vals
      else do
        let vals ← t.nextRange alloc key n vals idx
        t.rangeEntries alloc key n left (idx + 1) vals
    else .ok vals

def range (t : LeafTable) (alloc : LeafAllocator K V N) (key : K) (n : ℕ) (vals : List V)
    (lo hi : ℕ) : Except Fault (List V) :=
  if hi < t.table.length then do
    let picked ← t.rangeEntry alloc key lo (hi + 1 - lo)
    match picked with
    | some p => do
      let vals ← t.rangeSynonym alloc key n vals p.1 p.2
      t.rangeEntries alloc key n (t.table.length - (p.1 + 1)) (p.1 + 1) vals
    | none => t.rangeEntries alloc key n (t.table.length - lo) lo vals
  else .error .windowOutsideTable

/-! ### update -/

def updateSynonym (t : LeafTable) (alloc : LeafAllocator K V N) (key : K) (val : V)
    (lIdx leaf : ℕ) : Except Fault (Bool × LeafTable × LeafAllocator K V N) := do
  let t ← t.lockLeaf lIdx
  let sLeaves ← t.synonymLeaves lIdx
  let picked ← t.pickSynonym alloc key sLeaves sLeaves.length
  let cur := pickedLeaf leaf picked
  let res := (alloc.leaves cur).update key val
  .ok (res.1, t.unlockLeaf lIdx, alloc.write cur res.2)

def update (t : LeafTable) (alloc : LeafAllocator K V N) (key : K) (val : V) (lo hi : ℕ) :
    Except Fault (Bool × LeafTable × LeafAllocator K V N) :=
  if hi < t.table.length then do
    let picked ← t.pickEntry alloc key lo hi
    t.updateSynonym alloc key val picked.1 picked.2
  else .error .windowOutsideTable

/-! ### insert -/

/-- `if(idx==-1)`: the new slot goes behind the table entry, else behind slot `idx`. -/
def emplaceBehind (t : LeafTable) (lIdx : ℕ) (idx : Option ℕ) (leafNum : ℕ) :
    Except Fault (ℕ × LeafTable) :=
  match idx with
  | none => t.synonymEmplaceBack true lIdx leafNum
  | some s => t.synonymEmplaceBack false s leafNum

/-- A full leaf `cur` is split: a new leaf is linked behind it and takes its upper half.
Returns the leaf that takes the key. -/
def splitLeaf (t : LeafTable) (alloc : LeafAllocator K V N) (key : K) (lIdx cur : ℕ)
    (idx : Option ℕ) : Except Fault (ℕ × LeafTable × LeafAllocator K V N) := do
  let res ← alloc.fetchNewLeaf
  let linked ← t.emplaceBehind lIdx idx res.1
  let halves := Leaf.moveHalf (res.2.leaves cur) (res.2.leaves res.1)
  let alloc := (res.2.write cur halves.1).write res.1 halves.2
  .ok (if (alloc.leaves res.1).insertHere key then res.1 else cur, linked.2, alloc)

def insertSynonym (t : LeafTable) (alloc : LeafAllocator K V N) (key : K) (val : V)
    (lIdx leaf : ℕ) : Except Fault (Bool × LeafTable × LeafAllocator K V N) :=
  if t.available = kSynonymMax - 1 then .ok (false, t, alloc)
  else do
    let t ← t.csLock lIdx
    let sLeaves ← t.synonymLeaves lIdx
    let picked ← t.pickSynonym alloc key sLeaves sLeaves.length
    let cur := pickedLeaf leaf picked
    if (alloc.leaves cur).contain key then .ok (false, t.csUnlock lIdx, alloc)
    else if (alloc.leaves cur).isfull then
      if t.available = kSynonymMax - 1 then .ok (false, t.csUnlock lIdx, alloc)
      else do
        let split ← t.splitLeaf alloc key lIdx cur (picked.map fun p => sLeaves.getD p.1 0)
        let cur := split.1
        let alloc := split.2.2
        .ok (true, split.2.1.csUnlock lIdx,
          alloc.write cur ((alloc.leaves cur).insertNotFull key val).2)
    else .ok (true, t.csUnlock lIdx, alloc.write cur ((alloc.leaves cur).insertNotFull key val).2)

def insert (t : LeafTable) (alloc : LeafAllocator K V N) (key : K) (val : V) (lo hi : ℕ) :
    Except Fault (Bool × LeafTable × LeafAllocator K V N) :=
  if hi < t.table.length ∧ hi ≥ lo then do
    let picked ← t.pickEntry alloc key lo hi
    t.insertSynonym alloc key val picked.1 picked.2
  else .error .windowOutsideTable

/-! ### remove -/

/-- `if(cur->isEmpty())`, `if(idx!=-1)`: an emptied synonym leaf is unlinked, an emptied
leaf of a table entry is not. -/
def unlinkEmptied (t : LeafTable) (sLeaves : List ℕ) (lIdx : ℕ) (isEmpty : Bool)
    (picked : Option (ℕ × ℕ)) : Except Fault LeafTable :=
  match isEmpty, picked with
  | true, some p => t.synonymTableRemove sLeaves lIdx p.1
  | _, _ => .ok t

def removeSynonym (t : LeafTable) (alloc : LeafAllocator K V N) (key : K) (lIdx leaf : ℕ) :
    Except Fault (Bool × LeafTable × LeafAllocator K V N) := do
  let t ← t.lockLeaf lIdx
  let sLeaves ← t.synonymLeaves lIdx
  let picked ← t.pickSynonym alloc key sLeaves sLeaves.length
  let cur := pickedLeaf leaf picked
  let res := (alloc.leaves cur).remove key
  let t ← t.unlinkEmptied sLeaves lIdx res.2.isEmpty picked
  .ok (res.1, t.unlockLeaf lIdx, alloc.write cur res.2)

def remove (t : LeafTable) (alloc : LeafAllocator K V N) (key : K) (lo hi : ℕ) :
    Except Fault (Bool × LeafTable × LeafAllocator K V N) :=
  if hi < t.table.length then do
    let picked ← t.pickEntry alloc key lo hi
    t.removeSynonym alloc key picked.1 picked.2
  else .error .windowOutsideTable

end LeafTable
end Rolex
