/-!
# Hexadecimal

Tags are printed as `0x9`: lower-case digits without leading zeros. A
byte in a dump has two digits.
-/

namespace SegFit

namespace Hex

/-- A number as `0x` and its digits. -/
def number (n : Nat) : String := "0x" ++ String.ofList (Nat.toDigits 16 n)

/-- A byte as two digits. -/
def byte (b : UInt8) : String :=
  String.ofList [Nat.digitChar (b.toNat / 16), Nat.digitChar (b.toNat % 16)]

/-- A run of bytes, two digits each. -/
def dump (bs : List UInt8) : String := String.join (bs.map byte)

end Hex

end SegFit
