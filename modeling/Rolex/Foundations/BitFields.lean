import Rolex.Foundations.Widths

/-! Bit fields of any widths in one word, allocated from the least significant bit up. -/

namespace BitFields

structure Field where
  width : ℕ
  value : Fin (2 ^ width)

/-- The word of the fields, the first one lowest. -/
def pack : List Field → ℕ
  | [] => 0
  | f :: fs => f.value + 2 ^ f.width * pack fs

def bits (fs : List Field) : ℕ := (fs.map Field.width).sum

/-- The field of `width` bits from bit `off` on. -/
def read (off width w : ℕ) : Fin (2 ^ width) := Fin.ofNat _ (w / 2 ^ off)

@[simp] theorem bits_nil : bits [] = 0 := rfl

@[simp] theorem bits_cons (f : Field) (fs : List Field) : bits (f :: fs) = f.width + bits fs := by
  unfold bits
  rw [List.map_cons, List.sum_cons]

theorem pack_lt (fs : List Field) : pack fs < 2 ^ bits fs := by
  induction fs with
  | nil => exact Nat.one_pos
  | cons f fs ih =>
    have hf := f.value.isLt
    have hnext : 2 ^ f.width * (pack fs + 1) ≤ 2 ^ f.width * 2 ^ bits fs := Nat.mul_le_mul_left _ ih
    rw [pack, bits_cons, pow_add]
    rw [mul_add, mul_one] at hnext
    omega

theorem pack_append (xs ys : List Field) : pack (xs ++ ys) = pack xs + 2 ^ bits xs * pack ys := by
  induction xs with
  | nil => simp [pack]
  | cons f xs ih =>
    rw [List.cons_append, pack, pack, ih, bits_cons, pow_add]
    ring

theorem val_read (off width w : ℕ) :
    (read off width w).val = w / 2 ^ off % 2 ^ width := Fin.val_ofNat ..

theorem read_pack (xs ys : List Field) (f : Field) :
    read (bits xs) f.width (pack (xs ++ f :: ys)) = f.value := by
  apply Fin.ext
  have hxs := pack_lt xs
  have hpos : 0 < 2 ^ bits xs := Nat.two_pow_pos _
  rw [val_read, pack_append, Nat.add_mul_div_left _ _ hpos, Nat.div_eq_of_lt hxs, Nat.zero_add,
    pack, Nat.add_mul_mod_self_left, Nat.mod_eq_of_lt f.value.isLt]

end BitFields
