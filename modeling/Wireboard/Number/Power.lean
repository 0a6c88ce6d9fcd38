/-!
# Powers of two and of ten

The weights of binary and of decimal digits, as whole numbers.
-/

namespace Wireboard

abbrev pow2 (n : Nat) : Nat := Nat.pow 2 n

abbrev pow10 (n : Nat) : Nat := Nat.pow 10 n

end Wireboard
