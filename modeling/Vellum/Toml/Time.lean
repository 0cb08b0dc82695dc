import Vellum.Toml.Scanner
import Vellum.Toml.Value
/-! Dates and times of TOML. -/
namespace Vellum.Toml

def isLeapYear (year : Nat) : Bool := year % 4 == 0 && (year % 100 != 0 || year % 400 == 0)

def daysIn (year month : Nat) : Nat :=
  if month = 2 then if isLeapYear year then 29 else 28
  else if month = 4 ∨ month = 6 ∨ month = 9 ∨ month = 11 then 30
  else 31

def date? (input : Input) : Option Input := do
  let (year, rest) ← digits? 4 0 input
  let (month, rest) ← field? 2 1 12 (← literal? ['-'] rest)
  let (_, rest) ← field? 2 1 (daysIn year month) (← literal? ['-'] rest)
  some rest

def clock? (input : Input) : Option Input := do
  let (_, rest) ← field? 2 0 23 input
  let (_, rest) ← field? 2 0 59 (← literal? [':'] rest)
  let (_, rest) ← field? 2 0 60 (← literal? [':'] rest)
  match rest with
  | '.' :: c :: more => some (if isDigit c then more.dropWhile isDigit else rest)
  | _ => some rest

def offset? : Input → Option Input
  | 'Z' :: rest | 'z' :: rest => some rest
  | c :: rest =>
    if c = '+' ∨ c = '-' then do
      let (_, rest) ← field? 2 0 23 rest
      let (_, rest) ← field? 2 0 59 (← literal? [':'] rest)
      some rest
    else none
  | [] => none

def dayTime (input : Input) : Input :=
  match input with
  | c :: rest =>
    if c = 'T' ∨ c = 't' ∨ c = ' ' then
      match clock? rest with
      | some rest => (offset? rest).getD rest
      | none => input
    else input
  | [] => input

def time? (input : Input) : Option (Value × Input) := do
  let rest ← match date? input with
    | some rest => some (dayTime rest)
    | none => clock? input
  some (.time (String.ofList (input.take (input.length - rest.length))), rest)

end Vellum.Toml
