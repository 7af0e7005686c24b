/-!
# Variable-length quantities

A signed number of 64 bits becomes an unsigned one with its sign in the lowest bit, which is written in groups
of five bits, lowest first. A digit of base 64 holds a group and a bit that tells whether more groups follow.
-/

namespace Recast.SourceMap

/-- The digits of base 64. -/
def base64 : List Char :=
  "ABCDEFGHIJKLMNOPQRSTUVWXYZabcdefghijklmnopqrstuvwxyz0123456789+/".toList

/-- The digit of a value below 64. -/
def base64Digit (value : Nat) : Char :=
  base64.getD value 'A'

/-- The number with its sign in the lowest bit. -/
def signedToUnsigned (value : Int64) : UInt64 :=
  if value < 0 then (UInt64.ofNat value.toInt.natAbs <<< 1) ||| 1 else value.toUInt64 <<< 1

/-- The groups of five bits, lowest first; all but the last have the bit for more. -/
def groups (n : Nat) : List Nat :=
  if n < 32 then [n] else (n % 32 + 32) :: groups (n / 32)
termination_by n
decreasing_by exact Nat.div_lt_self (by omega) (by decide)

/-- The digits of a number. -/
def encode (value : Int64) : List Char :=
  (groups (signedToUnsigned value).toNat).map base64Digit

end Recast.SourceMap
