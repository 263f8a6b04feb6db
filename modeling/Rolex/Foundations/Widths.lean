import Mathlib

/-! The widths of the machine words and bit fields in use: each type of words has a zero. -/

namespace Widths

instance neZero_2 : NeZero 2 := ⟨by decide⟩
instance neZero_4 : NeZero 4 := ⟨by decide⟩
instance neZero_32 : NeZero 32 := ⟨by decide⟩
instance neZero_128 : NeZero 128 := ⟨by decide⟩
instance neZero_256 : NeZero 256 := ⟨by decide⟩
instance neZero_pow_7 : NeZero (2 ^ 7) := ⟨by decide⟩
instance neZero_pow_8 : NeZero (2 ^ 8) := ⟨by decide⟩
instance neZero_pow_18 : NeZero (2 ^ 18) := ⟨by decide⟩
instance neZero_pow_32 : NeZero (2 ^ 32) := ⟨by decide⟩
instance neZero_pow_48 : NeZero (2 ^ 48) := ⟨by decide⟩
instance neZero_pow_64 : NeZero (2 ^ 64) := ⟨by decide⟩

end Widths
