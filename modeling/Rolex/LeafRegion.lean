import Rolex.LeafPool
import Rolex.ModelAllocator

/-!
The start of a memory node: the regions that `prepare` of `rolex.cc` asks for, their sizes in
`huge_region.hh` and the allocators of `remote_memory.hh` on them. `mmap` is a parameter.
-/

namespace Rolex
open Bytes LeafPool

def alignToSz (x alignSz : ℕ) : ℕ := (x + alignSz + (2 ^ 64 - 1)) % 2 ^ 64 / alignSz * alignSz

/-- `addr` is 0 for the null pointer. -/
structure HugeRegion where
  sz : ℕ
  addr : ℕ

namespace HugeRegion

def pageSz : ℕ := 2 ^ 21

def construct (mmap : ℕ → Option ℕ) (sz : ℕ) : HugeRegion :=
  ⟨alignToSz sz pageSz, (mmap (alignToSz sz pageSz)).getD 0⟩

def create (mmap : ℕ → Option ℕ) (sz : ℕ) : Option HugeRegion :=
  let region := construct mmap sz
  if region.addr ≠ 0 then some region else none

end HugeRegion

structure RMConfig where
  modelRegionSize : ℕ
  leafRegionSize : ℕ
  leafNum : ℕ

def leafT : LeafType := leafOf 64

def prepareConf (leafNum : ℕ) : RMConfig :=
  ⟨1024 * (1024 * 1024) % 2 ^ 32, leafNum * leafT.size % 2 ^ 64, leafNum⟩

inductive StartFault where
  | noRegion -- `HugeRegion::create(..).value()` without a value
  | leaves (e : PoolFault)
  | models (e : Fault)
  deriving DecidableEq, Repr

structure RemotePools where
  leafAlloc : LeafPool
  modelAlloc : ModelAllocator

namespace RemotePools

def createRegion (mmap : ℕ → Option ℕ) (sz : ℕ) : Except StartFault HugeRegion :=
  match HugeRegion.create mmap sz with
  | some region => .ok region
  | none => .error .noRegion

/-- The constructor, without the registration at the RNIC. -/
def construct (mmap : ℕ → Option ℕ) (m : Memory) (conf : RMConfig) :
    Except StartFault RemotePools := do
  let modelRegion ← createRegion mmap conf.modelRegionSize
  let leafRegion ← createRegion mmap conf.leafRegionSize
  let leaves ← (LeafPool.construct leafT m leafRegion.addr leafRegion.sz conf.leafNum).mapError
    .leaves
  let models ← (ModelAllocator.construct
    (fun p => m (modelRegion.addr + p)) modelRegion.sz).mapError .models
  .ok ⟨leaves.1, models⟩

end RemotePools

def leafRegionSz (leafNum : ℕ) : ℕ :=
  alignToSz (prepareConf leafNum).leafRegionSize HugeRegion.pageSz

def HasRoom (leafNum : ℕ) : Prop := 16 + leafNum * leafT.size ≤ leafRegionSz leafNum

/-! ### The sizes -/

theorem alignToSz_leaves {n : ℕ} (hmax : n * 1024 + 2 ^ 21 < 2 ^ 64) :
    alignToSz (n * 1024 % 2 ^ 64) (2 ^ 21) = (n + 2047) / 2048 * 2 ^ 21 := by
  have hsum : (n * 1024 + 2 ^ 21 + (2 ^ 64 - 1)) % 2 ^ 64 = n * 1024 + (2 ^ 21 - 1) := by omega
  have hdiv : (n * 1024 + (2 ^ 21 - 1)) / 2 ^ 21 = (n + 2047) / 2048 := by omega
  have hreq : n * 1024 % 2 ^ 64 = n * 1024 :=
    Nat.mod_eq_of_lt ((Nat.le_add_right _ _).trans_lt hmax)
  unfold alignToSz
  rw [hreq, hsum, hdiv]

theorem leafRegionSz_eq {leafNum : ℕ} (hmax : leafNum * leafT.size + 2 ^ 21 < 2 ^ 64) :
    leafRegionSz leafNum = (leafNum + 2047) / 2048 * 2 ^ 21 := alignToSz_leaves hmax

theorem leafRegionSz_bounds {leafNum : ℕ} (hpos : 1 ≤ leafNum)
    (hmax : leafNum * leafT.size + 2 ^ 21 < 2 ^ 64) :
    2 ^ 21 ≤ leafRegionSz leafNum ∧ leafRegionSz leafNum < 2 ^ 64 := by
  have hsize : leafT.size = 1024 := rfl
  have hround : (leafNum + 2047) / 2048 * 2 ^ 21 ≤ leafNum * 1024 + 2 ^ 21 := by
    clear hmax
    omega
  rw [leafRegionSz_eq hmax]
  rw [hsize] at hmax
  refine ⟨?_, hround.trans_lt hmax⟩
  clear hmax hround
  omega

/-- The slack of the rounding covers the strict test and the header except at the end of a page of
leaves. -/
theorem passes_iff {leafNum : ℕ} (hpos : 1 ≤ leafNum)
    (hmax : leafNum * leafT.size + 2 ^ 21 < 2 ^ 64) :
    Passes leafT.size (leafRegionSz leafNum) leafNum ↔ leafNum % 2048 ≠ 0 ∧
    leafNum % 2048 ≠ 2047 := by
  have hsize : leafT.size = 1024 := rfl
  have hsz := leafRegionSz_eq hmax
  rw [hsize] at hmax ⊢
  have hsub : (leafRegionSz leafNum + (2 ^ 64 - 8)) % 2 ^ 64 =
      (leafNum + 2047) / 2048 * 2 ^ 21 - 8 := by
    rw [hsz]
    omega
  have hdiv : ((leafNum + 2047) / 2048 * 2 ^ 21 - 8) / 1024 =
    (leafNum + 2047) / 2048 * 2048 - 1 := by omega
  unfold Passes
  rw [hsub, hdiv]
  omega

theorem hasRoom_iff {leafNum : ℕ} (hmax : leafNum * leafT.size + 2 ^ 21 < 2 ^ 64) :
    HasRoom leafNum ↔ leafNum % 2048 ≠ 0 := by
  have hsize : leafT.size = 1024 := rfl
  unfold HasRoom
  rw [leafRegionSz_eq hmax, hsize]
  omega

/-! ### The start -/

def Maps (mmap : ℕ → Option ℕ) (sz : ℕ) : Prop := ∃ addr, mmap sz = some addr ∧ addr ≠ 0

theorem createRegion_ok {mmap : ℕ → Option ℕ} {sz : ℕ}
    (h : Maps mmap (alignToSz sz HugeRegion.pageSz)) :
    ∃ addr, RemotePools.createRegion mmap sz = .ok ⟨alignToSz sz HugeRegion.pageSz, addr⟩ := by
  obtain ⟨addr, hmap, hne⟩ := h
  have hcreate : HugeRegion.create mmap sz = some ⟨alignToSz sz HugeRegion.pageSz, addr⟩ := by
    unfold HugeRegion.create HugeRegion.construct
    rw [hmap]
    exact if_pos hne
  refine ⟨addr, ?_⟩
  unfold RemotePools.createRegion
  rw [hcreate]

theorem mapError_eq_ok {ε ε' α : Type} {x : Except ε α} {f : ε → ε'} {a : α} :
    x.mapError f = .ok a ↔ x = .ok a := by
  cases x with
  | error e => exact ⟨fun h => (by cases h), fun h => (by cases h)⟩
  | ok b => exact ⟨fun h => congrArg _ (Except.ok.inj h), fun h => congrArg _ (Except.ok.inj h)⟩

theorem constructLeaves_bound {leaf : LeafType} {count : ℕ} :
    ∀ {i : ℕ} {pool : LeafPool} {r : LeafPool × List ℕ}, constructLeaves leaf count i pool = .ok r →
      count = 0 ∨ i + count < 2 ^ 31 := by
  induction count with
  | zero => exact fun _ => Or.inl rfl
  | succ count ih =>
    intro i pool r hok
    unfold constructLeaves at hok
    split at hok
    · cases hok
    · split at hok
      · obtain ⟨rest, hrest, _⟩ := bind_eq_ok hok
        obtain rfl | hlt := ih hrest <;> omega
      · cases hok

theorem construct_iff {leaf : LeafType} (hS : 16 ≤ leaf.size) (memPool leafNum : ℕ) {t : ℕ}
    (m : Memory) (ht16 : 16 ≤ t) (ht : t < 2 ^ 64) :
    (∃ r, LeafPool.construct leaf m memPool t leafNum = .ok r) ↔
      Passes leaf.size t leafNum ∧ leafNum < 2 ^ 31 := by
  constructor
  · rintro ⟨r, hok⟩
    unfold LeafPool.construct at hok
    split at hok
    · rename_i hpass
      unfold preallocLeaves at hok
      rw [if_pos rfl] at hok
      refine ⟨hpass, ?_⟩
      obtain rfl | hlt := constructLeaves_bound hok <;> omega
    · cases hok
  · rintro ⟨hpass, hnum⟩
    obtain ⟨pool, addrs, hok, -⟩ := construct_ok leaf hS memPool m ht16 ht hnum hpass
    exact ⟨_, hok⟩

/-- With the memory it asks for a memory node starts exactly for these numbers of leaves. -/
theorem start_iff {leafNum : ℕ} (hpos : 1 ≤ leafNum) (hmax : leafNum * leafT.size + 2 ^ 21 < 2 ^ 64)
    {mmap : ℕ → Option ℕ}
    (hmodels : Maps mmap (alignToSz (prepareConf leafNum).modelRegionSize HugeRegion.pageSz))
    (hleaves : Maps mmap (leafRegionSz leafNum)) (m : Memory) :
    (∃ rm, RemotePools.construct mmap m (prepareConf leafNum) = .ok rm) ↔
      (leafNum % 2048 ≠ 0 ∧ leafNum % 2048 ≠ 2047) ∧ leafNum < 2 ^ 31 := by
  obtain ⟨addr, hmodel⟩ := createRegion_ok hmodels
  obtain ⟨addr', hleaf⟩ := createRegion_ok hleaves
  obtain ⟨hlow, hhigh⟩ := leafRegionSz_bounds hpos hmax
  have hpool := construct_iff (by decide : 16 ≤ leafT.size) addr' leafNum m
    (le_trans (by norm_num) hlow) hhigh
  rw [passes_iff hpos hmax] at hpool
  rw [← hpool]
  constructor
  · rintro ⟨rm, hok⟩
    obtain ⟨region, hregion, hok⟩ := bind_eq_ok hok
    obtain ⟨region', hregion', hok⟩ := bind_eq_ok hok
    obtain ⟨leaves, hleaves, -⟩ := bind_eq_ok hok
    obtain rfl := Except.ok.inj (hleaf.symm.trans hregion')
    exact ⟨leaves, mapError_eq_ok.mp hleaves⟩
  · rintro ⟨leaves, hok⟩
    have hmodelSz : alignToSz
        (prepareConf leafNum).modelRegionSize HugeRegion.pageSz > kUpperModel := by
      have hreq : (prepareConf leafNum).modelRegionSize = 2 ^ 30 := by norm_num [prepareConf]
      rw [hreq]
      norm_num [alignToSz, HugeRegion.pageSz]
    have hleaves : construct leafT m addr'
      (alignToSz (prepareConf leafNum).leafRegionSize HugeRegion.pageSz)
        (prepareConf leafNum).leafNum = .ok leaves := hok
    obtain ⟨models, hmodels⟩ : ∃ models, ModelAllocator.construct (fun p => m (addr + p))
        (alignToSz (prepareConf leafNum).modelRegionSize HugeRegion.pageSz) = .ok models :=
        ⟨_, if_pos hmodelSz⟩
    refine ⟨⟨leaves.1, models⟩, ?_⟩
    unfold RemotePools.construct
    rw [hmodel, ok_bind, hleaf, ok_bind, mapError_eq_ok.mpr hleaves, ok_bind,
      mapError_eq_ok.mpr hmodels, ok_bind]

/-- The region that `prepare` gets passes the `ASSERT` and has room for the header and the leaves
exactly where the rounding leaves the two header words. The loop over the leaves counts with an
`int`. -/
theorem leafRegion_iff {leafNum : ℕ} (hpos : 1 ≤ leafNum)
    (hmax : leafNum * leafT.size + 2 ^ 21 < 2 ^ 64) :
    (Passes leafT.size (leafRegionSz leafNum) leafNum ∧ HasRoom leafNum ↔ leafNum % 2048 ≠ 0 ∧
      leafNum % 2048 ≠ 2047) ∧
    ∀ (mmap : ℕ → Option ℕ) (m : Memory),
    Maps mmap (alignToSz (prepareConf leafNum).modelRegionSize HugeRegion.pageSz) →
      Maps mmap (leafRegionSz leafNum) →
      ((∃ rm, RemotePools.construct mmap m (prepareConf leafNum) = .ok rm) ↔
        (leafNum % 2048 ≠ 0 ∧ leafNum % 2048 ≠ 2047) ∧ leafNum < 2 ^ 31) := by
  refine ⟨?_, fun mmap m hmodels hleaves => start_iff hpos hmax hmodels hleaves m⟩
  rw [passes_iff hpos hmax, hasRoom_iff hmax]
  exact ⟨And.left, fun h => ⟨h, h.1⟩⟩

theorem leafRegion_iff_default :
    (Passes leafT.size (leafRegionSz 10000000) 10000000 ∧ HasRoom 10000000 ↔
    10000000 % 2048 ≠ 0 ∧ 10000000 % 2048 ≠ 2047) ∧
    ((∃ rm, RemotePools.construct (fun sz => some (2 ^ 40 + sz)) (fun _ => 0)
      (prepareConf 10000000) = .ok rm) ↔
      (10000000 % 2048 ≠ 0 ∧ 10000000 % 2048 ≠ 2047) ∧ 10000000 < 2 ^ 31) := by
  have hmax : 10000000 * leafT.size + 2 ^ 21 < 2 ^ 64 := by decide
  obtain ⟨hsizes, hstart⟩ := leafRegion_iff (by decide) hmax
  have hmaps : ∀ sz, Maps (fun sz => some (2 ^ 40 + sz)) sz := fun sz => ⟨_, rfl, by positivity⟩
  exact ⟨hsizes, hstart _ _ (hmaps _) (hmaps _)⟩

/-- 2048 leaves fill a page of 2 MB; of 2047 leaves the strict test refuses the last one. -/
theorem full_page : (¬ Passes leafT.size (leafRegionSz 2048) 2048 ∧ ¬ HasRoom 2048) ∧
    ¬ Passes leafT.size (leafRegionSz 2047) 2047 ∧
    ¬ ∃ rm, RemotePools.construct (fun sz => some (2 ^ 40 + sz)) (fun _ => 0) (prepareConf 2048) =
      .ok rm := by
  have hmax : 2048 * leafT.size + 2 ^ 21 < 2 ^ 64 := by decide
  have hmaps : ∀ sz, Maps (fun sz => some (2 ^ 40 + sz)) sz := fun sz => ⟨_, rfl, by positivity⟩
  refine ⟨⟨by decide, fun hroom => (hasRoom_iff hmax).mp hroom rfl⟩, by decide, fun hrm => ?_⟩
  exact ((start_iff (by decide) hmax (hmaps _) (hmaps _) _).mp hrm).1.1 rfl

end Rolex
