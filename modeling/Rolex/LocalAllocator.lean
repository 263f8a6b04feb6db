import Rolex.Foundations.Spans
import Rolex.LeafAllocator

/-! The allocator of `local_allocator.hh`: a compute node takes the buffers of its RDMA READs
from one registered buffer, behind a part that `reset_for_leaf` reserves. -/

namespace Rolex
open Spans

/-- `usize` is `unsigned int`. A pointer is its distance from `buf`. -/
structure LocalAllocator where
  totalMem : UInt32
  curAllocOff : UInt32
  leafBufOff : UInt32

namespace LocalAllocator

def construct (sz : UInt64) : LocalAllocator := ⟨sz.toUInt32, 0, 0⟩

def resetForLeaf (a : LocalAllocator) (leafBufSize : UInt32) : LocalAllocator :=
  { a with leafBufOff := 0, curAllocOff := leafBufSize }

def getLeafBuf (a : LocalAllocator) : ℕ := a.leafBufOff.toNat

def alloc (a : LocalAllocator) (sz : UInt32) : Except Fault (ℕ × LocalAllocator) :=
  if a.curAllocOff + sz > a.totalMem then .error .localAllocatorTooSmall
  else .ok (a.curAllocOff.toNat, { a with curAllocOff := a.curAllocOff + sz })

theorem alloc_eq_ok {a : LocalAllocator} {sz : UInt32} {res : ℕ × LocalAllocator}
    (h : a.alloc sz = .ok res) : (a.curAllocOff + sz).toNat ≤ a.totalMem.toNat ∧
      res = (a.curAllocOff.toNat, { a with curAllocOff := a.curAllocOff + sz }) := by
  rw [alloc] at h
  by_cases hlt : a.curAllocOff + sz > a.totalMem
  · rw [if_pos hlt] at h
    cases h
  · rw [if_neg hlt] at h
    exact ⟨UInt32.le_iff_toNat_le.mp (UInt32.not_lt.mp hlt), (Except.ok.inj h).symm⟩

/-! ### Runs -/

inductive Call where
  | reset (leafBufSize : UInt32)
  | alloc (sz : UInt32)

/-- The allocator with the leaf buffer of the last reset and the blocks returned since. -/
structure Held where
  allocator : LocalAllocator
  leaf : Span ℕ
  blocks : List (Span ℕ)

namespace Held

def start (sz : UInt64) : Held := ⟨construct sz, ⟨0, 0⟩, []⟩

def step (s : Held) : Call → Except Fault Held
  | .reset leafBufSize =>
    let a := s.allocator.resetForLeaf leafBufSize
    .ok ⟨a, ⟨a.getLeafBuf, a.getLeafBuf + leafBufSize.toNat⟩, []⟩
  | .alloc sz => do
    let res ← s.allocator.alloc sz
    .ok ⟨res.2, s.leaf, s.blocks ++ [⟨res.1, res.1 + sz.toNat⟩]⟩

def run (s : Held) : List Call → Except Fault Held
  | [] => .ok s
  | c :: cs => do
    let s' ← s.step c
    s'.run cs

structure Separate (s : Held) (sz : UInt64) : Prop where
  apart : (s.leaf :: s.blocks).Pairwise Apart
  inside : ∀ b ∈ s.blocks, b.points ⊆ Set.Ico 0 sz.toNat

/-- The 32-bit sum of the check does not wrap. -/
def Fits (s : Held) : Call → Prop
  | .reset _ => True
  | .alloc sz => s.allocator.curAllocOff.toNat + sz.toNat < 2 ^ 32

instance (s : Held) : (c : Call) → Decidable (s.Fits c)
  | .reset _ => inferInstanceAs (Decidable True)
  | .alloc sz => inferInstanceAs (Decidable (s.allocator.curAllocOff.toNat + sz.toNat < 2 ^ 32))

def AllFit (s : Held) : List Call → Prop
  | [] => True
  | c :: cs => s.Fits c ∧ ∀ s', s.step c = .ok s' → s'.AllFit cs

structure Stacked (s : Held) (sz : UInt64) : Prop where
  laid : Laid 0 (s.leaf :: s.blocks) s.allocator.curAllocOff.toNat
  total : s.allocator.totalMem.toNat ≤ sz.toNat
  below : s.blocks ≠ [] → s.allocator.curAllocOff.toNat ≤ sz.toNat

theorem stacked_start (sz : UInt64) : (start sz).Stacked sz where
  laid := ⟨le_rfl, le_rfl, le_rfl⟩
  total := by
    rw [start, construct, UInt64.toNat_toUInt32]
    exact Nat.mod_le _ _
  below h := absurd rfl h

theorem Stacked.step {s s' : Held} {sz : UInt64} {c : Call} (h : s.Stacked sz) (hfit : s.Fits c)
    (hok : s.step c = .ok s') : s'.Stacked sz := by
  cases c with
  | reset n =>
    obtain rfl := Except.ok.inj hok
    refine ⟨⟨le_rfl, Nat.zero_le _, ?_⟩, h.total, fun hne => absurd rfl hne⟩
    exact (Nat.zero_add n.toNat).le
  | alloc n =>
    obtain ⟨res, hres, hok⟩ := bind_eq_ok hok
    obtain ⟨hle, rfl⟩ := alloc_eq_ok hres
    obtain rfl := Except.ok.inj hok
    have hsum : (s.allocator.curAllocOff + n).toNat = s.allocator.curAllocOff.toNat + n.toNat := by
      rw [UInt32.toNat_add]
      exact Nat.mod_eq_of_lt hfit
    refine ⟨?_, h.total, fun _ => hle.trans h.total⟩
    dsimp only
    rw [hsum]
    exact Laid.concat (s := ⟨_, s.allocator.curAllocOff.toNat + n.toNat⟩) h.laid
      (Nat.le_add_right _ _)

theorem Stacked.run {s s' : Held} {sz : UInt64} {cs : List Call} (h : s.Stacked sz)
    (hfit : s.AllFit cs) (hok : s.run cs = .ok s') : s'.Stacked sz := by
  induction cs generalizing s with
  | nil => exact Except.ok.inj hok ▸ h
  | cons c cs ih =>
    obtain ⟨s₁, hc, hcs⟩ := bind_eq_ok hok
    exact ih (h.step hfit.1 hc) (hfit.2 s₁ hc) hcs

theorem Stacked.separate {s : Held} {sz : UInt64} (h : s.Stacked sz) : s.Separate sz where
  apart := h.laid.apart
  inside _ hb := (h.laid.subset (List.mem_cons_of_mem _ hb)).trans
    (Set.Ico_subset_Ico_right (h.below (List.ne_nil_of_mem hb)))

/-- After any run in which no sum of the check wraps the buffers are separate. -/
theorem separate_of_allFit {sz : UInt64} {cs : List Call} {s : Held}
    (hrun : (start sz).run cs = .ok s) (hfit : (start sz).AllFit cs) : s.Separate sz :=
  ((stacked_start sz).run hfit hrun).separate

theorem separate_of_allFit_two :
    ∃ s, (start 64).run [.reset 16, .alloc 8, .alloc 40] = .ok s ∧ s.Separate 64 := by
  obtain ⟨s, hrun⟩ : ∃ s, (start 64).run [.reset 16, .alloc 8, .alloc 40] = .ok s := ⟨_, rfl⟩
  refine ⟨s, hrun, separate_of_allFit hrun ⟨trivial, ?_⟩⟩
  rintro _ ⟨⟩
  refine ⟨by decide, ?_⟩
  rintro _ ⟨⟩
  exact ⟨by decide, fun _ _ => trivial⟩

/-- The second block lies in the leaf buffer and the first one leaves the memory. -/
theorem wrapped_sum_overlaps :
    ∃ s, (start 64).run [.reset 16, .alloc (2 ^ 32 - 8), .alloc 8] = .ok s ∧
    ¬s.Separate 64 := by
  refine ⟨_, rfl, fun h => ?_⟩
  have hleaf := (List.pairwise_cons.mp h.apart).1 ⟨8, 16⟩
    (List.mem_cons_of_mem _ List.mem_cons_self)
  exact not_apart_of_mem (x := 8) ⟨Nat.zero_le _, by decide⟩ ⟨le_rfl, by decide⟩ hleaf

/-- In memory smaller than the range of `usize` no other run keeps the buffers separate. -/
theorem allFit_of_separate {sz : UInt64} (hsz : sz.toNat < 2 ^ 32) {cs : List Call} {s s' : Held}
    (hrun : s.run cs = .ok s') (h : ∀ pre s₁, pre <+: cs → s.run pre = .ok s₁ → s₁.Separate sz) :
    s.AllFit cs := by
  induction cs generalizing s with
  | nil => trivial
  | cons c cs ih =>
    obtain ⟨s₁, hc, hcs⟩ := bind_eq_ok hrun
    refine ⟨?_, fun s₂ hc₂ => ?_⟩
    · cases c with
      | reset _ => trivial
      | alloc n =>
        have hsep := h [.alloc n] s₁ (List.cons_prefix_cons.mpr ⟨rfl, List.nil_prefix⟩)
          (by rw [run, hc]; rfl)
        obtain ⟨res, hres, hstep⟩ := bind_eq_ok hc
        obtain ⟨-, rfl⟩ := alloc_eq_ok hres
        obtain rfl := Except.ok.inj hstep
        rcases Nat.eq_zero_or_pos n.toNat with hz | hpos
        · rw [Fits, hz]
          exact s.allocator.curAllocOff.toNat_lt
        · have hsub := hsep.inside ⟨_, s.allocator.curAllocOff.toNat + n.toNat⟩
            (List.mem_append_right _ (List.mem_singleton_self _))
          exact ((Set.Ico_subset_Ico_iff (Nat.lt_add_of_pos_right hpos)).mp hsub).2.trans_lt hsz
    · obtain rfl := Except.ok.inj (hc.symm.trans hc₂)
      refine ih hcs fun pre s₃ hpre hpre' =>
        h (c :: pre) s₃ (List.cons_prefix_cons.mpr ⟨rfl, hpre⟩) ?_
      rw [run, hc, ok_bind, hpre']

end Held
end LocalAllocator
end Rolex
