import MiniOS.Printf
import Mathlib.Data.Nat.Digits.Lemmas

/-!
# MiniOS.Printf.Numeral

The numbers that `printint` prints, in `kernel/printf.c` and in
`user/printf.c`: the same loop with another table of digits.
-/

namespace MiniOS

section
variable {table : Nat → Nat} {base fuel n x : Nat}

end

end MiniOS
