/-! Reading characters one rule after another. A rule takes the input and gives
what it has read with the input after it, or `none` if it does not apply. -/
namespace Vellum.Toml

abbrev Input := List Char

abbrev Rule (α : Type) := Input → Option (α × Input)

def isBlank (c : Char) : Bool := c == ' ' || c == '\t'

def isDigit (c : Char) : Bool := '0' ≤ c && c ≤ '9'

def isText (c : Char) : Bool := c == '\t' || (' ' ≤ c && c != '\x7f')

def skipBlanks (input : Input) : Input := input.dropWhile isBlank

def literal? : Input → Input → Option Input
  | [], input => some input
  | c :: text, d :: input => if c = d then literal? text input else none
  | _ :: _, [] => none

def newline? : Input → Option Input
  | '\n' :: rest => some rest
  | '\r' :: '\n' :: rest => some rest
  | _ => none

def skipComment : Input → Input
  | '#' :: rest => rest.dropWhile isText
  | input => input

def lineEnd? (input : Input) : Option Input :=
  match skipComment (skipBlanks input) with
  | [] => some []
  | rest => newline? rest

def skipSpace : Nat → Input → Option Input
  | 0, input => some input
  | fuel + 1, input =>
    match skipBlanks input with
    | '#' :: rest => do skipSpace fuel (← newline? (rest.dropWhile isText))
    | rest =>
      match newline? rest with
      | some rest => skipSpace fuel rest
      | none => some rest

def runOn? (digit : Char → Bool) : Rule Input
  | '_' :: d :: rest =>
    if digit d then do
      let (more, rest) ← runOn? digit rest
      some (d :: more, rest)
    else none
  | c :: rest =>
    if c = '_' then none
    else if digit c then do
      let (more, rest) ← runOn? digit rest
      some (c :: more, rest)
    else some ([], c :: rest)
  | [] => some ([], [])

def run? (digit : Char → Bool) : Rule Input
  | c :: rest =>
    if digit c then do
      let (more, rest) ← runOn? digit rest
      some (c :: more, rest)
    else none
  | [] => none

def digits? : Nat → Nat → Rule Nat
  | 0, value, input => some (value, input)
  | n + 1, value, c :: input =>
    if isDigit c then digits? n (value * 10 + (c.toNat - 48)) input else none
  | _ + 1, _, [] => none

def field? (n low high : Nat) (input : Input) : Option (Nat × Input) := do
  let (value, rest) ← digits? n 0 input
  if low ≤ value ∧ value ≤ high then some (value, rest) else none

end Vellum.Toml
