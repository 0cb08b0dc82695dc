import Vellum.Toml.Quoted
import Vellum.Toml.Time
/-! Reading a TOML 1.0 text into its tables. Keys are compared after their escapes
have been read; a key may be given only once. -/
namespace Vellum.Toml

def depthLimit : Nat := 80

def isBare (c : Char) : Bool :=
  isDigit c || ('a' ≤ c && c ≤ 'z') || ('A' ≤ c && c ≤ 'Z') || c == '-' || c == '_'

def simpleKey? (input : Input) : Option (String × Input) :=
  match input.takeWhile isBare with
  | [] => shortString? input
  | bare => some (String.ofList bare, input.dropWhile isBare)

def keyParts? : Nat → Rule (List String)
  | 0, _ => none
  | fuel + 1, input => do
    let (key, rest) ← simpleKey? (skipBlanks input)
    match skipBlanks rest with
    | '.' :: rest => do
      let (more, rest) ← keyParts? fuel rest
      some (key :: more, rest)
    | rest => some ([key], rest)

def key? (input : Input) : Option ((List String × String) × Input) := do
  let (parts, rest) ← keyParts? (input.length + 1) input
  let last ← parts.getLast?
  if parts.length < depthLimit then some ((parts.dropLast, last), rest) else none

def scalar? (input : Input) : Option (Value × Input) :=
  match input with
  | [] => none
  | c :: _ =>
    if c = '\x22' ∨ c = '\x27' then do
      let (text, rest) ← string? input
      some (.string text, rest)
    else if c = 't' then do some (.boolean true, ← literal? "true".toList input)
    else if c = 'f' then do some (.boolean false, ← literal? "false".toList input)
    else (time? input) <|> (float? input) <|> (specialFloat? input) <|> (wholeNumber? input)

mutual

def value? (fuel depth : Nat) (input : Input) : Option (Value × Input) :=
  match fuel with
  | 0 => none
  | fuel + 1 =>
    match input with
    | '[' :: rest =>
      if depth = 0 then none
      else do
        let rest ← skipSpace (rest.length + 1) rest
        match rest with
        | ']' :: rest => some (.array, rest)
        | _ => do some (.array, ← elements? fuel (depth - 1) rest)
    | '\x7b' :: rest =>
      if depth = 0 then none
      else
        match skipBlanks rest with
        | '\x7d' :: rest => some (.inlineTable, rest)
        | rest => do some (.inlineTable, ← fields? fuel (depth - 1) [] rest)
    | input => scalar? input

def elements? (fuel depth : Nat) (input : Input) : Option Input :=
  match fuel with
  | 0 => none
  | fuel + 1 => do
    let (_, rest) ← value? fuel depth input
    let rest ← skipSpace (rest.length + 1) rest
    match rest with
    | ']' :: rest => some rest
    | ',' :: rest => do
      let rest ← skipSpace (rest.length + 1) rest
      match rest with
      | ']' :: rest => some rest
      | _ => elements? fuel depth rest
    | _ => none

def fields? (fuel depth : Nat) (entries : Entries) (input : Input) : Option Input :=
  match fuel with
  | 0 => none
  | fuel + 1 => do
    let ((path, key), rest) ← key? input
    let (value, rest) ← value? fuel depth (skipBlanks (← literal? ['='] rest))
    let entries ← entries.insertDotted? key (.value value) path
    match skipBlanks rest with
    | '\x7d' :: rest => some rest
    | ',' :: rest => fields? fuel depth entries rest
    | _ => none

end

structure Reading where
  entries : Entries
  header : List String

namespace Reading

def keyValue? (reading : Reading) (input : Input) : Option (Reading × Input) := do
  let ((path, key), rest) ← key? input
  let rest ← literal? ['='] rest
  let (value, rest) ← value? (rest.length + 1) (depthLimit - 1) (skipBlanks rest)
  let rest ← lineEnd? rest
  let entries ← Entries.descend? (Entries.insertDotted? key (.value value) path) reading.header
    reading.entries
  some ({ reading with entries }, rest)

def tableHeader? (reading : Reading) (input : Input) : Option (Reading × Input) := do
  let ((path, key), rest) ← key? input
  let rest ← lineEnd? (← literal? [']'] rest)
  let entries ← Entries.openTable? path key reading.entries
  some (⟨entries, path ++ [key]⟩, rest)

def elementHeader? (reading : Reading) (input : Input) : Option (Reading × Input) := do
  let ((path, key), rest) ← key? input
  let rest ← lineEnd? (← literal? [']', ']'] rest)
  let entries ← Entries.openElement? path key reading.entries
  some (⟨entries, path ++ [key]⟩, rest)

def line? (reading : Reading) (input : Input) : Option (Reading × Input) :=
  match skipBlanks input with
  | '[' :: '[' :: rest => reading.elementHeader? rest
  | '[' :: rest => reading.tableHeader? rest
  | rest =>
    match lineEnd? rest with
    | some rest => some (reading, rest)
    | none => reading.keyValue? rest

def lines? : Nat → Reading → Input → Option Reading
  | _, reading, [] => some reading
  | 0, _, _ :: _ => none
  | fuel + 1, reading, input => do
    let (reading, rest) ← reading.line? input
    lines? fuel reading rest

end Reading

def parse? (text : String) : Option Entries :=
  let input := match text.toList with
    | '\ufeff' :: rest => rest
    | input => input
  (Reading.lines? input.length ⟨[], []⟩ input).map Reading.entries

end Vellum.Toml
