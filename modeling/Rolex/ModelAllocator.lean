import Rolex.Foundations.Bytes
import Rolex.LeafAllocator

/-! The allocator of `model_allocator.hpp` for 8-byte keys. Its region holds the number of
models, the model keys, the offsets of the submodels and the submodels. -/

namespace Rolex
open Bytes

abbrev kUpperModel : ℕ := 32 * 1024 * 1024

/-- A pointer into the region is its distance from `mem_pool`. -/
structure ModelAllocator where
  memPool : Memory
  totalSz : ℕ
  curAllocSz : ℕ
  upperAllocNum : ℕ
  maxUpperNum : ℕ

namespace ModelAllocator

def construct (m : Memory) (t : ℕ) : Except Fault ModelAllocator :=
  if t > kUpperModel then
    .ok ⟨m.write 0 (toBytes 8 0), t, kUpperModel, 0,
      min ((kUpperModel / 2 - 8) / 8) (kUpperModel / 2 / 8)⟩
  else .error .modelsTooMany

/-- The key slot, at `mem_pool+sizeof(u64)`, and the offset slot of upper model `n`. -/
def getUpper (n : ℕ) : ℕ × ℕ := (8 + n * 8, kUpperModel / 2 + 8 * n)

def allocUpper (a : ModelAllocator) : Except Fault ((ℕ × ℕ) × ModelAllocator) :=
  if a.upperAllocNum > a.maxUpperNum then .error .upperModelsTooMany
  else .ok ((8 + 8 * a.upperAllocNum, 8 * a.upperAllocNum + kUpperModel / 2),
    { a with upperAllocNum := a.upperAllocNum + 1 })

/-- `alloc_size` is a `usize`, the sums are 64-bit. -/
def allocSubmodel (a : ModelAllocator) (allocSize : ℕ) : Except Fault (ℕ × ModelAllocator) :=
  let res := (a.curAllocSz + allocSize % 2 ^ 32) % 2 ^ 64
  if res > a.totalSz then .error .submodelsTooLarge
  else .ok (a.curAllocSz, { a with curAllocSz := res })

def put (a : ModelAllocator) (off : ℕ) (bs : List Byte) : Except Fault ModelAllocator :=
  if off + bs.length ≤ a.totalSz then .ok { a with memPool := a.memPool.write off bs }
    else .error .outOfBounds

def get (a : ModelAllocator) (off len : ℕ) : Except Fault (List Byte) :=
  if off + len ≤ a.totalSz then .ok (a.memPool.read off len) else .error .outOfBounds

end ModelAllocator
end Rolex
