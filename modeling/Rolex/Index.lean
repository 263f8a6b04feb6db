import Rolex.Serialization
import Rolex.PiecewiseLinear

/-! `Rolex` of `rolex.hpp`: the submodels with their largest keys, trained from the pairs of two
vectors and written to the model region. -/

namespace Rolex
open Bytes

structure RemoteMemory (V : Type) (N : ℕ) where
  leafAllocator : LeafAllocator Key V N
  modelAllocator : ModelAllocator

structure RolexIndex (F V : Type) (N : ℕ) where
  RM : RemoteMemory V N
  modelKeys : List Key
  models : List (SubModel F)

/-- What `binary_search_branchless` finds in ascending keys: the first one that is not below `key`,
else their number. -/
def firstNotBelow (keys : List Key) (key : Key) : ℕ := keys.findIdx fun k => decide (key ≤ k)

def modelForKey (modelKeys : List Key) (modelNum : ℕ) (key : Key) : ℕ :=
  let idx := firstNotBelow modelKeys key
  if idx < modelNum then idx else modelNum - 1

def ModelAllocator.storeModel (a : ModelAllocator) (mSeria : List Byte) (key : Key) :
    Except Fault ModelAllocator := do
  -- write model into model_region
  let subReg ← a.allocSubmodel (mSeria.length + 4)
  let a ← subReg.2.put subReg.1 (toBytes 4 mSeria.length)
  let a ← a.put (subReg.1 + 4) mSeria
  -- write upper
  let upper ← a.allocUpper
  let a ← upper.2.put upper.1.1 (toBytes 8 key)
  a.put upper.1.2 (toBytes 8 subReg.1)

namespace RolexIndex

variable {F V : Type} {N : ℕ} (fmt : DoubleFormat F) (epsilon : ℕ)

/-! ### train -/

def appendModel (r : RolexIndex F V N) (raw : Fin kSynonymMax → TableEntry) (slope intercept : F)
    (data : List (Key × V)) : Except Fault (RolexIndex F V N) :=
  match data.getLast? with
  | none => .error .outOfBounds
  | some last => do
    let model ← SubModel.construct raw slope intercept data r.RM.leafAllocator
    let alloc ← r.RM.modelAllocator.storeModel (model.1.serialize fmt) last.1
    .ok ⟨⟨model.2, alloc⟩, r.modelKeys ++ [last.1], r.models ++ [model.1]⟩

def appendSegment (r : RolexIndex F V N) (raw : ℕ → Fin kSynonymMax → TableEntry) (opt : PLR)
    (data : List (Key × V)) : Except Fault (RolexIndex F V N) :=
  let line := opt.getSegment.getSlopeIntercept fmt
  r.appendModel fmt (raw r.models.length) (fmt.round line.1) (fmt.round line.2) data

/-- The loop over the keys behind `p`, and the last segment. `seg` are the pairs from `k_iter` and
`v_iter` on. -/
def trainLoop (raw : ℕ → Fin kSynonymMax → TableEntry) :
    List (Key × V) → Key → PLR → List (Key × V) → ℕ →
    RolexIndex F V N → Except Fault (RolexIndex F V N)
  | [], _, opt, seg, pos, r => r.appendSegment fmt raw opt (seg.take (pos + 1))
  | e :: rest, p, opt, seg, pos, r =>
    if e.1 = p then .error .duplicateKeys
    else do
      let pos := pos + 1
      let added ← opt.addPoint e.1 pos
      if added.1 = true then trainLoop raw rest e.1 added.2 seg pos r
      else do
        let r ← r.appendSegment fmt raw added.2 (seg.take pos)
        let opt ← (PLR.construct (epsilon - 1)).addPoint e.1 0
        trainLoop raw rest e.1 opt.2 (seg.drop pos) 0 r

/-- `raw n` is what the memory of submodel `n` held before. -/
def train (r : RolexIndex F V N) (raw : ℕ → Fin kSynonymMax → TableEntry) (data : List (Key × V)) :
    Except Fault (RolexIndex F V N) :=
  -- the loop counter is an `int`
  if data.length ≥ 2 ^ 31 then .error .intOverflow
  else match data with
    | [] => .ok r
    | e :: rest => do
      let opt ← (PLR.construct (epsilon - 1)).addPoint e.1 0
      let r ← trainLoop fmt epsilon raw rest e.1 opt.2 (e :: rest) 0 r
      let alloc ← r.RM.modelAllocator.put 0 (toBytes 8 r.models.length)
      .ok { r with RM := { r.RM with modelAllocator := alloc } }

/-! ### deserialize -/

def deserializeModels (raw : ℕ → Fin kSynonymMax → TableEntry) : ℕ → ℕ → RolexIndex F V N →
    Except Fault (RolexIndex F V N)
  | 0, _, r => .ok r
  | n + 1, i, r => do
    let alloc := r.RM.modelAllocator
    let key ← alloc.get (ModelAllocator.getUpper i).1 8
    let off ← alloc.get (ModelAllocator.getUpper i).2 8
    let size ← alloc.get (ofBytes off) 4
    let curMs := toInt32 (ofBytes size)
    if curMs < 0 then .error .badSerialization
    else do
      let rSeria ← alloc.get (ofBytes off + 4) curMs.toNat
      let model ← SubModel.deserialize fmt (raw i) rSeria
      deserializeModels raw n (i + 1)
        { r with
          modelKeys := r.modelKeys ++ [Fin.ofNat _ (ofBytes key)]
          models := r.models ++ [model] }

def deserialize (r : RolexIndex F V N) (raw : ℕ → Fin kSynonymMax → TableEntry) :
    Except Fault (RolexIndex F V N) := do
  let total ← r.RM.modelAllocator.get 0 8
  r.deserializeModels fmt raw (ofBytes total) 0

/-! ### The operations -/

def modelForKey (r : RolexIndex F V N) (key : Key) : ℕ :=
  Rolex.modelForKey r.modelKeys r.models.length key

def model (r : RolexIndex F V N) (key : Key) : Except Fault (SubModel F) :=
  match r.models[r.modelForKey key]? with
  | some m => .ok m
  | none => .error .outOfBounds

def setModel (r : RolexIndex F V N) (key : Key) (m : SubModel F) (alloc : LeafAllocator Key V N) :
    RolexIndex F V N :=
  { r with
    RM := { r.RM with leafAllocator := alloc }
    models := r.models.set (r.modelForKey key) m }

def search (r : RolexIndex F V N) (key : Key) : Except Fault (Option V) := do
  let m ← r.model key
  m.search fmt epsilon r.RM.leafAllocator key

def update (r : RolexIndex F V N) (key : Key) (val : V) :
    Except Fault (Bool × RolexIndex F V N) := do
  let m ← r.model key
  let res ← m.update fmt epsilon r.RM.leafAllocator key val
  .ok (res.1, r.setModel key res.2.1 res.2.2)

def insert (r : RolexIndex F V N) (key : Key) (val : V) :
    Except Fault (Bool × RolexIndex F V N) := do
  let m ← r.model key
  let res ← m.insert fmt epsilon r.RM.leafAllocator key val
  .ok (res.1, r.setModel key res.2.1 res.2.2)

def remove (r : RolexIndex F V N) (key : Key) : Except Fault (Bool × RolexIndex F V N) := do
  let m ← r.model key
  let res ← m.remove fmt epsilon r.RM.leafAllocator key
  .ok (res.1, r.setModel key res.2.1 res.2.2)

def rangeModels (alloc : LeafAllocator Key V N) (key : Key) (n : ℕ) : List (SubModel F) → List V →
    Except Fault (List V)
  | [], vals => .ok vals
  | m :: models, vals =>
    if vals.length < n then do
      let vals ← m.range fmt epsilon alloc key n vals
      rangeModels alloc key n models vals
    else .ok vals

def range (r : RolexIndex F V N) (key : Key) (n : ℕ) (vals : List V) : Except Fault (List V) := do
  let m ← r.model key
  let vals ← m.range fmt epsilon r.RM.leafAllocator key n vals
  rangeModels fmt epsilon r.RM.leafAllocator key n (r.models.drop (r.modelForKey key + 1)) vals

end RolexIndex
end Rolex
