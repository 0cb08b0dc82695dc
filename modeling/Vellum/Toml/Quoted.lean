import Vellum.Toml.Number
/-! Strings of TOML: basic ones with escapes, literal ones without, and both over
several lines between threefold quotes. -/
namespace Vellum.Toml

def codePoint? (n : Nat) (input : Input) : Option (Char × Input) :=
  let digits := input.take n
  let value := numeral 16 digits
  if digits.length = n ∧ digits.all isHexDigit ∧ value.isValidChar then
    some (Char.ofNat value, input.drop n)
  else none

def escape? : Rule Char
  | 'b' :: rest => some ('\x08', rest)
  | 't' :: rest => some ('\t', rest)
  | 'n' :: rest => some ('\n', rest)
  | 'f' :: rest => some ('\x0c', rest)
  | 'r' :: rest => some ('\r', rest)
  | '\x22' :: rest => some ('\x22', rest)
  | '\x5c' :: rest => some ('\x5c', rest)
  | 'u' :: rest => codePoint? 4 rest
  | 'U' :: rest => codePoint? 8 rest
  | _ => none

def basic? : Nat → Rule Input
  | 0, _ => none
  | _ + 1, '\x22' :: rest => some ([], rest)
  | fuel + 1, '\x5c' :: input => do
    let (c, rest) ← escape? input
    let (text, rest) ← basic? fuel rest
    some (c :: text, rest)
  | fuel + 1, c :: input =>
    if isText c then do
      let (text, rest) ← basic? fuel input
      some (c :: text, rest)
    else none
  | _ + 1, [] => none

def literalString? : Rule Input
  | '\x27' :: rest => some ([], rest)
  | c :: input =>
    if isText c then do
      let (text, rest) ← literalString? input
      some (c :: text, rest)
    else none
  | [] => none

def closing? (quote : Char) (input : Input) : Option (Input × Input) :=
  let quotes := input.takeWhile (· == quote)
  if 3 ≤ quotes.length ∧ quotes.length ≤ 5 then
    some (quotes.drop 3, input.drop quotes.length)
  else none

def skipLines : Input → Input
  | '\r' :: '\n' :: rest => skipLines rest
  | c :: rest => if isBlank c || c == '\n' then skipLines rest else c :: rest
  | [] => []

def fold? (input : Input) : Option Input := do
  let rest ← newline? (skipBlanks input)
  some (skipLines rest)

def multiline? (quote : Char) (escapes : Bool) : Nat → Rule Input
  | 0, _ => none
  | fuel + 1, input =>
    match closing? quote input with
    | some done => some done
    | none =>
      match input with
      | [] => none
      | c :: rest =>
        if c = quote then
          if (input.takeWhile (· == quote)).length < 3 then do
            let (text, rest) ← multiline? quote escapes fuel rest
            some (c :: text, rest)
          else none
        else if escapes && c == '\x5c' then
          match fold? rest with
          | some rest => multiline? quote escapes fuel rest
          | none => do
            let (e, rest) ← escape? rest
            let (text, rest) ← multiline? quote escapes fuel rest
            some (e :: text, rest)
        else
          match newline? input with
          | some rest => do
            let (text, rest) ← multiline? quote escapes fuel rest
            some ('\n' :: text, rest)
          | none =>
            if isText c then do
              let (text, rest) ← multiline? quote escapes fuel rest
              some (c :: text, rest)
            else none

def afterOpening (input : Input) : Input := (newline? input).getD input

def shortString? : Rule String
  | '\x22' :: rest => do
    let (text, rest) ← basic? (rest.length + 1) rest
    some (String.ofList text, rest)
  | '\x27' :: rest => do
    let (text, rest) ← literalString? rest
    some (String.ofList text, rest)
  | _ => none

def string? : Rule String
  | '\x22' :: '\x22' :: '\x22' :: rest => do
    let (text, rest) ← multiline? '\x22' true (rest.length + 1) (afterOpening rest)
    some (String.ofList text, rest)
  | '\x27' :: '\x27' :: '\x27' :: rest => do
    let (text, rest) ← multiline? '\x27' false (rest.length + 1) (afterOpening rest)
    some (String.ofList text, rest)
  | input => shortString? input

end Vellum.Toml
