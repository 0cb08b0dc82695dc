import Vellum.Toml.Scanner
import Vellum.Toml.Value
/-! Integers and floats of TOML. -/
namespace Vellum.Toml

def digitValue (c : Char) : Nat :=
  if isDigit c then c.toNat - 48
  else if 'a' ≤ c ∧ c ≤ 'f' then c.toNat - 87
  else c.toNat - 55

def isHexDigit (c : Char) : Bool := isDigit c || ('a' ≤ c && c ≤ 'f') || ('A' ≤ c && c ≤ 'F')
def isOctalDigit (c : Char) : Bool := '0' ≤ c && c ≤ '7'
def isBinaryDigit (c : Char) : Bool := c == '0' || c == '1'

def numeral (base : Nat) (digits : List Char) : Nat :=
  digits.foldl (fun n c => n * base + digitValue c) 0

def integer? (value : Int) : Option Value :=
  if -9223372036854775808 ≤ value ∧ value ≤ 9223372036854775807 then some (.integer value) else none

def radix? (base : Nat) (digit : Char → Bool) (input : Input) : Option (Value × Input) := do
  let (digits, rest) ← run? digit input
  some (← integer? (numeral base digits), rest)

def sign : Input → Bool × Input
  | '-' :: rest => (true, rest)
  | '+' :: rest => (false, rest)
  | input => (false, input)

def decimal? : Rule Input
  | '0' :: rest => some (['0'], rest)
  | input => run? isDigit input

def fraction? : Rule Input
  | '.' :: input => run? isDigit input
  | _ => none

def exponent? : Rule Int
  | c :: input =>
    if c = 'e' ∨ c = 'E' then do
      let (negative, input) := sign input
      let (digits, rest) ← run? isDigit input
      let size : Int := numeral 10 digits
      some (if negative then -size else size, rest)
    else none
  | [] => none

/-- Says whether `digits · 10 ^ exponent` is too large for a double even when it is rounded. Numbers far beyond
the limit are told by their length alone. -/
def exceedsDouble (digits : List Char) (exponent : Int) : Bool :=
  let significant := digits.dropWhile (· == '0')
  let size : Int := significant.length + exponent
  if significant.isEmpty || size < 309 then false
  else if 310 < size then true
  else
    let limit := Nat.pow 2 1024 - Nat.pow 2 970
    let value := numeral 10 significant
    if 0 ≤ exponent then limit ≤ value * Nat.pow 10 exponent.toNat
    else limit * Nat.pow 10 (-exponent).toNat ≤ value

def float? (input : Input) : Option (Value × Input) := do
  let (negative, unsigned) := sign input
  let (whole, afterWhole) ← decimal? unsigned
  let (fraction, afterFraction) := (fraction? afterWhole).getD ([], afterWhole)
  let (exponent, rest) := (exponent? afterFraction).getD (0, afterFraction)
  if rest.length = afterWhole.length then none
  else if !negative && exceedsDouble (whole ++ fraction) (exponent - fraction.length) then none
  else some (.float (String.ofList (input.take (input.length - rest.length))), rest)

def specialFloat? (input : Input) : Option (Value × Input) := do
  let (_, unsigned) := sign input
  let rest ← match literal? "inf".toList unsigned with
    | some rest => some rest
    | none => literal? "nan".toList unsigned
  some (.float (String.ofList (input.take (input.length - rest.length))), rest)

def wholeNumber? : Rule Value
  | '0' :: 'x' :: input => radix? 16 isHexDigit input
  | '0' :: 'o' :: input => radix? 8 isOctalDigit input
  | '0' :: 'b' :: input => radix? 2 isBinaryDigit input
  | input => do
    let (negative, unsigned) := sign input
    let (digits, rest) ← decimal? unsigned
    let size : Int := numeral 10 digits
    some (← integer? (if negative then -size else size), rest)

end Vellum.Toml
