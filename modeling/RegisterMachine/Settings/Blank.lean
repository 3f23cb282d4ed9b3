/-!
# Blanks

The characters that the standard for text calls white space, and texts without those at their ends.
-/

namespace RegisterMachine

def isBlank (c : Char) : Bool :=
  (9 ≤ c.toNat && c.toNat ≤ 13) || c.toNat == 0x20 || c.toNat == 0x85 || c.toNat == 0xA0
    || c.toNat == 0x1680 || (0x2000 ≤ c.toNat && c.toNat ≤ 0x200A) || c.toNat == 0x2028
    || c.toNat == 0x2029 || c.toNat == 0x202F || c.toNat == 0x205F || c.toNat == 0x3000

def trimBlanks (text : String) : String :=
  let cs := text.toList.dropWhile isBlank
  String.ofList (cs.reverse.dropWhile isBlank).reverse

end RegisterMachine
