import Mathlib

/-! # Sizes of index types

The numerals of `Fin n` need that `n` is not zero. -/

namespace SylixOS.Lib

instance neZero_two : NeZero 2 := ⟨by decide⟩

instance neZero_four : NeZero 4 := ⟨by decide⟩

instance neZero_eight : NeZero 8 := ⟨by decide⟩

instance neZero_byte : NeZero 256 := ⟨by decide⟩

end SylixOS.Lib
