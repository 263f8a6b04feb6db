import Rolex.Foundations.Widths

/-! Words as little-endian byte strings, and a memory that is read and written in blocks of
bytes. -/

namespace Bytes

abbrev Byte := Fin 256

/-! ### Words -/

def toBytes : ℕ → ℕ → List Byte
  | 0, _ => []
  | w + 1, n => Fin.ofNat 256 n :: toBytes w (n / 256)

def ofBytes : List Byte → ℕ
  | [] => 0
  | b :: bs => b + 256 * ofBytes bs

@[simp] theorem length_toBytes (w n : ℕ) : (toBytes w n).length = w := by
  induction w generalizing n with
  | zero => rfl
  | succ w ih => rw [toBytes, List.length_cons, ih]

theorem ofBytes_toBytes_mod (w n : ℕ) : ofBytes (toBytes w n) = n % 256 ^ w := by
  induction w generalizing n with
  | zero => rw [pow_zero, Nat.mod_one, toBytes, ofBytes]
  | succ w ih => rw [toBytes, ofBytes, ih, Fin.val_ofNat, pow_succ', Nat.mod_mul]

theorem ofBytes_toBytes {w n : ℕ} (h : n < 256 ^ w) : ofBytes (toBytes w n) = n := by
  rw [ofBytes_toBytes_mod, Nat.mod_eq_of_lt h]

/-! ### Memory -/

abbrev Memory := ℕ → Byte

namespace Memory

variable (m : Memory) (off : ℕ)

def read (len : ℕ) : List Byte := (List.range len).map fun i => m (off + i)

def write (bs : List Byte) : Memory := fun p =>
  if off ≤ p then (bs[p - off]?).getD (m p) else m p

@[simp] theorem length_read (len : ℕ) : (m.read off len).length = len := by
  rw [read, List.length_map, List.length_range]

theorem read_congr {m m' : Memory} {off len : ℕ} (h : ∀ p, off ≤ p → p < off + len → m' p = m p) :
    m'.read off len = m.read off len := by
  refine List.map_congr_left fun i hi => h _ (Nat.le_add_right _ _) ?_
  have := List.mem_range.mp hi
  omega

theorem read_add (a b : ℕ) : m.read off (a + b) = m.read off a ++ m.read (off + a) b := by
  rw [read, List.range_add, List.map_append, List.map_map]
  simp only [read, Function.comp_def, Nat.add_assoc]

theorem write_outside {p : ℕ} {bs : List Byte} (h : p < off ∨ off + bs.length ≤ p) :
    m.write off bs p = m p := by
  rw [write]
  split
  · rw [List.getElem?_eq_none (by omega), Option.getD_none]
  · rfl

theorem read_write_self (bs : List Byte) : (m.write off bs).read off bs.length = bs := by
  refine List.ext_getElem (by simp) fun i h₁ h₂ => ?_
  simp only [read, List.getElem_map, List.getElem_range]
  rw [write, if_pos (Nat.le_add_right _ _), Nat.add_sub_cancel_left, List.getElem?_eq_getElem h₂,
    Option.getD_some]

theorem read_write_apart {off' len : ℕ} {bs : List Byte}
    (h : off' + len ≤ off ∨ off + bs.length ≤ off') :
    (m.write off bs).read off' len = m.read off' len :=
  read_congr fun p h₁ h₂ => m.write_outside off (by omega)

end Memory
end Bytes
