import Vellum.Byte
import Vellum.Size
/-! Sizes written in decimal. -/
namespace Vellum.Decimal

def value (digits : Bytes) : Nat := digits.foldl (fun n b => n * 10 + (b.toNat - 48)) 0

def size? (bytes : Bytes) : Option Nat :=
  let digits := match bytes with
    | 43 :: rest => rest
    | _ => bytes
  if digits = [] ∨ ¬ digits.all Byte.isDigit then none
  else if value digits < Size.limit then some (value digits)
  else none

end Vellum.Decimal
