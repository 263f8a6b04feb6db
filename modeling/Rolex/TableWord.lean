import Rolex.Foundations.BitFields
import Rolex.Serialization

/-!
The packed words of `leaf_table.hpp`. `encode` and `decode` keep the leaf number in the low bits,
the union `TableEntry` keeps it in the high ones.
-/

namespace Rolex
open BitFields

def bitmask (w oneCount : ℕ) : BitVec w :=
  (if oneCount ≠ 0 then BitVec.allOnes w else 0) &&& (BitVec.allOnes w >>> (w - oneCount))

abbrev kAddrBit : ℕ := 56

abbrev kLeafBit : ℕ := 48

def kAddrMask : BitVec 64 := bitmask 64 kAddrBit

def kLeafMask : BitVec 64 := bitmask 64 kLeafBit

def kNonLock : BitVec 8 := bitmask 8 7

/-- Nothing where the `assert` fails. -/
def encode (num : BitVec 64) (synonymLeaf leafRegion : BitVec 8) : Option (BitVec 64) :=
  if num.toNat < 2 ^ kAddrBit ∧ leafRegion.toNat < 2 ^ 7 then
    let temp := leafRegion.setWidth 64 <<< kAddrBit
    let temp := temp ||| (synonymLeaf.setWidth 64 <<< kLeafBit)
    some (temp ||| (num &&& kAddrMask))
  else none

def byteAt (tmp : BitVec 64) (i : ℕ) : BitVec 8 := (tmp >>> (8 * i)).setWidth 8

def decode (encodeNum : BitVec 64) : BitVec 64 × BitVec 8 × BitVec 8 :=
  (encodeNum &&& kLeafMask, byteAt encodeNum 6, byteAt encodeNum 7 &&& kNonLock)

def TableEntry.word (te : TableEntry) : BitVec 64 := BitVec.ofNat 64 te.val

def LeafTable.at (t : LeafTable) (i : ℕ) : Except Fault (BitVec 64) := do
  let te ← t.entry i
  .ok te.word

/-! ### The fields of the words -/

theorem toNat_and_mask {w : ℕ} (x mask : BitVec w) {k : ℕ} (h : mask.toNat = 2 ^ k - 1) :
    (x &&& mask).toNat = x.toNat % 2 ^ k := by
  rw [BitVec.toNat_and, h, Nat.and_two_pow_sub_one_eq_mod]

theorem toNat_byteAt (tmp : BitVec 64) (i : ℕ) :
    (byteAt tmp i).toNat = tmp.toNat / 2 ^ (8 * i) % 2 ^ 8 := by
  rw [byteAt, BitVec.toNat_setWidth, BitVec.toNat_ushiftRight, Nat.shiftRight_eq_div_pow]

theorem decode_eq_iff (w num : BitVec 64) (syn region : BitVec 8) :
    decode w = (num, syn, region) ↔ (read 0 48 w.toNat).val = num.toNat ∧
    (read 48 8 w.toNat).val = syn.toNat ∧
      (read 56 7 w.toNat).val = region.toNat := by
  have hnum := toNat_and_mask w kLeafMask (k := 48) (by decide)
  have hsyn := toNat_byteAt w 6
  have hbyte := toNat_byteAt w 7
  have hregion := toNat_and_mask (byteAt w 7) kNonLock (k := 7) (by decide)
  rw [hbyte] at hregion
  have hmod : w.toNat / 2 ^ (8 * 7) % 2 ^ 8 % 2 ^ 7 = w.toNat / 2 ^ 56 % 2 ^ 7 :=
    Nat.mod_mod_of_dvd _ (Dvd.intro 2 rfl)
  rw [decode, Prod.mk.injEq, Prod.mk.injEq, ← BitVec.toNat_inj, ← BitVec.toNat_inj,
    ← BitVec.toNat_inj, hnum, hsyn, hregion, hmod, val_read, val_read, val_read, pow_zero,
    Nat.div_one]

def encodedFields (num : BitVec 64) (synonymLeaf leafRegion : BitVec 8) : List Field :=
  [⟨48, Fin.ofNat _ num.toNat⟩, ⟨8, Fin.ofNat _ synonymLeaf.toNat⟩,
    ⟨7, Fin.ofNat _ leafRegion.toNat⟩]

theorem toNat_shiftLeft {x : BitVec 8} {b k : ℕ} (hx : x.toNat < 2 ^ b) (hk : b + k ≤ 64) :
    (x.setWidth 64 <<< k).toNat = x.toNat <<< k := by
  have hlt : x.toNat * 2 ^ k < 2 ^ 64 := by
    calc x.toNat * 2 ^ k < 2 ^ b * 2 ^ k := Nat.mul_lt_mul_of_pos_right hx (Nat.two_pow_pos k)
      _ = 2 ^ (b + k) := (pow_add 2 b k).symm
      _ ≤ 2 ^ 64 := Nat.pow_le_pow_right two_pos hk
  rw [BitVec.toNat_shiftLeft, BitVec.toNat_setWidth, Nat.mod_eq_of_lt (x.isLt.trans (by norm_num)),
    Nat.shiftLeft_eq, Nat.mod_eq_of_lt hlt]

theorem encode_eq {num : BitVec 64} {syn region : BitVec 8} (hnum : num.toNat < 2 ^ 48)
    (hregion : region.toNat < 2 ^ 7) :
    ∃ w, encode num syn region = some w ∧ w.toNat = pack (encodedFields num syn region) := by
  have hmask := toNat_and_mask num kAddrMask (k := 56) (by decide)
  have hhigh := toNat_shiftLeft hregion (k := 56) (by norm_num)
  have hmid := toNat_shiftLeft syn.isLt (k := 48) (by norm_num)
  have hnum' : num.toNat < 2 ^ kAddrBit := hnum.trans (by norm_num)
  have hsyn : syn.toNat <<< 48 < 2 ^ 56 := by
    have hlt := syn.isLt
    rw [Nat.shiftLeft_eq]
    omega
  have hor : region.toNat <<< 56 ||| syn.toNat <<< 48 =
      (region.toNat <<< 8 + syn.toNat) <<< 48 := by
    rw [← Nat.shiftLeft_add_eq_or_of_lt hsyn]
    simp only [Nat.shiftLeft_eq]
    ring
  refine ⟨_, if_pos ⟨hnum', hregion⟩, ?_⟩
  rw [BitVec.toNat_or, BitVec.toNat_or, hmask, hhigh, hmid, Nat.mod_eq_of_lt hnum', hor,
    ← Nat.shiftLeft_add_eq_or_of_lt hnum]
  simp only [encodedFields, pack, Fin.val_ofNat, Nat.mod_eq_of_lt hnum, Nat.mod_eq_of_lt syn.isLt,
    Nat.mod_eq_of_lt hregion, Nat.shiftLeft_eq]
  ring

/-! ### One layout -/

theorem decode_encode_iff {num : BitVec 64} {syn region : BitVec 8}
    (hregion : region.toNat < 2 ^ 7) :
    (encode num syn region).map decode = some (num, syn, region) ↔ num.toNat < 2 ^ kLeafBit := by
  constructor
  · intro h
    obtain ⟨w, _, hw⟩ := Option.map_eq_some_iff.mp h
    rw [← ((decode_eq_iff w num syn region).mp hw).1]
    exact (read 0 48 w.toNat).isLt
  · intro h48
    obtain ⟨w, henc, hw⟩ : ∃ w, encode num syn region = some w ∧
        w.toNat = pack (encodedFields num syn region) :=
      encode_eq h48 hregion
    have hread := read_pack [] [⟨8, Fin.ofNat _ syn.toNat⟩, ⟨7, Fin.ofNat _ region.toNat⟩] ⟨48,
      Fin.ofNat _ num.toNat⟩
    have hread₁ := read_pack [⟨48, Fin.ofNat _ num.toNat⟩] [⟨7, Fin.ofNat _ region.toNat⟩] ⟨8,
      Fin.ofNat _ syn.toNat⟩
    have hread₂ := read_pack [⟨48, Fin.ofNat _ num.toNat⟩, ⟨8, Fin.ofNat _ syn.toNat⟩] [] ⟨7,
      Fin.ofNat _ region.toNat⟩
    rw [henc, Option.map_some, Option.some_inj, decode_eq_iff, hw]
    refine ⟨?_, ?_, ?_⟩
    · exact (congrArg Fin.val hread).trans (Nat.mod_eq_of_lt h48)
    · exact (congrArg Fin.val hread₁).trans (Nat.mod_eq_of_lt syn.isLt)
    · exact (congrArg Fin.val hread₂).trans (Nat.mod_eq_of_lt hregion)

theorem div_of_lt {M a n : ℕ} (ha : a < M) : (a + M * n) / M = n := by
  rw [Nat.add_mul_div_left _ _ (Nat.zero_lt_of_lt ha), Nat.div_eq_of_lt ha, Nat.zero_add]

theorem mod_of_lt {M a n : ℕ} (ha : a < M) : (a + M * n) % M = a := by
  rw [Nat.add_mul_mod_self_left, Nat.mod_eq_of_lt ha]

/-- A number that is the low end of itself with one more digit below has that digit in every
place. -/
theorem eq_of_shifted {M a n : ℕ} (ha : a < M) (h : (a + M * n) % (M * (M * M)) = n) :
    n = a + M * (a + M * a) := by
  have hn : n = a + M * (n % (M * M)) := by
    rw [Nat.mod_mul, mod_of_lt ha, div_of_lt ha] at h
    exact h.symm
  have hlow : n % M = a := by
    rw [hn, mod_of_lt ha]
  have hrest : n / M = n % (M * M) := by
    conv_lhs => rw [hn, div_of_lt ha]
  have hmid : n % (M * M) = a + M * a := by
    conv_lhs => rw [Nat.mod_mul, hlow, hrest, Nat.mod_mod_of_dvd _ (Dvd.intro M rfl), hlow]
  rw [← hmid]
  exact hn

/-- The fields at the two ends of a word agree in a word of zeros only. `M` is the place value of 16
bits. -/
theorem fields_eq_zero {M region syn num : ℕ} (hM : M = 2 ^ 16) (hregion : region < 2 ^ 7)
    (hsyn : syn < 2 ^ 8) (h₀ : (2 * region + 2 ^ 8 * syn + M * num) % (M * (M * M)) = num)
    (h₁ : (2 * region + 2 ^ 8 * syn + M * num) / (M * (M * M)) % 2 ^ 8 = syn)
    (h₂ : (2 * region + 2 ^ 8 * syn + M * num) / (M * (M * M)) / 2 ^ 8 % 2 ^ 7 = region) :
    region = 0 ∧ syn = 0 ∧ num = 0 := by
  have hlt : 2 * region + 2 ^ 8 * syn < M := by omega
  have hnum := eq_of_shifted hlt h₀
  -- the top 16 bits of the word are its low 16 bits
  have htop : (2 * region + 2 ^ 8 * syn + M * num) / (M * (M * M)) = 2 * region + 2 ^ 8 * syn := by
    rw [← Nat.div_div_eq_div_mul, div_of_lt hlt, hnum, ← Nat.div_div_eq_div_mul, div_of_lt hlt,
      div_of_lt hlt]
  rw [htop] at h₁ h₂
  have hdouble : 2 * region < 2 ^ 8 := by omega
  rw [mod_of_lt hdouble] at h₁
  rw [div_of_lt hdouble] at h₂
  have hzero : region = 0 ∧ syn = 0 := by omega
  rw [hzero.1, hzero.2] at hnum
  exact ⟨hzero.1, hzero.2, by simpa using hnum⟩

theorem decode_word_iff {te : TableEntry} (hlock : te.lock = 0) :
    decode te.word = (BitVec.ofNat 64 te.leafNum, BitVec.ofNat 8 te.synonymLeaf,
      BitVec.ofNat 8 te.leafRegion) ↔
      te = ⟨0, 0, 0, 0⟩ := by
  obtain ⟨lock, ⟨region, hregion⟩, ⟨syn, hsyn⟩, ⟨num, hnum⟩⟩ := te
  obtain rfl : lock = 0 := hlock
  have hword : (TableEntry.mk 0 ⟨region, hregion⟩ ⟨syn, hsyn⟩ ⟨num, hnum⟩).word.toNat =
      2 * region + 2 ^ 8 * syn + 2 ^ 16 * num := by
    have hlt := TableEntry.val_lt ⟨0, ⟨region, hregion⟩, ⟨syn, hsyn⟩, ⟨num, hnum⟩⟩
    rw [TableEntry.word, BitVec.toNat_ofNat, Nat.mod_eq_of_lt hlt, TableEntry.val, Fin.val_zero,
      Nat.zero_add]
  have hnum' : (BitVec.ofNat 64 num).toNat = num := Nat.mod_eq_of_lt (hnum.trans (by norm_num))
  have hsyn' : (BitVec.ofNat 8 syn).toNat = syn := Nat.mod_eq_of_lt hsyn
  have hregion' : (BitVec.ofNat 8 region).toNat = region :=
    Nat.mod_eq_of_lt (hregion.trans (by norm_num))
  rw [decode_eq_iff, hword, val_read, val_read, val_read, hnum', hsyn', hregion']
  simp only [TableEntry.mk.injEq, Fin.ext_iff, Fin.val_zero, true_and, pow_zero, Nat.div_one]
  have hpow : 2 ^ 48 = 2 ^ 16 * (2 ^ 16 * 2 ^ 16) := by norm_num
  have hpow' : 2 ^ 56 = 2 ^ 16 * (2 ^ 16 * 2 ^ 16) * 2 ^ 8 := by norm_num
  rw [hpow', ← Nat.div_div_eq_div_mul, hpow]
  constructor
  · rintro ⟨h₀, h₁, h₂⟩
    exact fields_eq_zero rfl hregion hsyn h₀ h₁ h₂
  · rintro ⟨rfl, rfl, rfl⟩
    decide

theorem LeafTable.at_ok {t : LeafTable} {i : ℕ} {te : TableEntry} (h : t.entry i = .ok te) :
    t.at i = .ok te.word := by
  rw [LeafTable.at, h, ok_bind]

/-- The two halves of the layout: what `encode` writes is read back for numbers of 48 bits, and what
the union holds is read back from the entry of zeros only. -/
theorem oneLayout_iff {num : BitVec 64} {syn region : BitVec 8} (hregion : region.toNat < 2 ^ 7)
    {t : LeafTable} {i : ℕ} {te : TableEntry} (hte : t.entry i = .ok te) (hlock : te.lock = 0) :
    ((encode num syn region).map decode = some (num, syn, region) ↔ num.toNat < 2 ^ kLeafBit) ∧
      ((t.at i).map decode =
        .ok (BitVec.ofNat 64 te.leafNum, BitVec.ofNat 8 te.synonymLeaf,
          BitVec.ofNat 8 te.leafRegion) ↔
        te = ⟨0, 0, 0, 0⟩) := by
  refine ⟨decode_encode_iff hregion, ?_⟩
  rw [LeafTable.at_ok hte, Except.map, Except.ok.injEq]
  exact decode_word_iff hlock

def twoEntries : LeafTable := ⟨[⟨0, 0, 0, 0⟩, ⟨0, 0, 0, 1⟩], fun _ => ⟨0, 0, 0, 0⟩, [false, false]⟩

theorem twoEntries_entry : twoEntries.entry 1 = .ok ⟨0, 0, 0, 1⟩ := rfl

theorem oneLayout_iff_two :
    ((encode 5 3 2).map decode = some (5, 3, 2) ↔ (5 : BitVec 64).toNat < 2 ^ kLeafBit) ∧
    ((twoEntries.at 1).map decode = .ok (1, 0, 0) ↔ (⟨0, 0, 0, 1⟩ : TableEntry) = ⟨0, 0, 0, 0⟩) :=
  oneLayout_iff (by decide : (2 : BitVec 8).toNat < 2 ^ 7) twoEntries_entry rfl

/-- The least number of 49 bits comes back as synonym leaf 1, and entry 1 with leaf 1 as leaf
65536. -/
theorem two_layouts : (encode (2 ^ 48) 0 0).map decode = some (0, 1, 0) ∧
    (twoEntries.at 1).map decode = .ok (65536, 0, 0) ∧ twoEntries.entry 1 = .ok ⟨0, 0, 0, 1⟩ := by
  refine ⟨by decide, ?_, rfl⟩
  rw [LeafTable.at_ok twoEntries_entry, Except.map, Except.ok.injEq]
  decide

end Rolex
