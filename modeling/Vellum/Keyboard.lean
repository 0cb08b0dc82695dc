import Vellum.Fault
import Vellum.Key
/-! Terminal input becomes keys. Input is a script of bytes and pauses; inside
an escape sequence a pause, like the end of the script, means that nothing more
arrived in time, and the sequence is then a plain Cancel. Between keys pauses
are skipped, and the end of the script is a fault. -/
namespace Vellum

/-- Input still to come; `none` is a pause. -/
abbrev Script := List (Option UInt8)

def Script.ofBytes (bytes : Bytes) : Script := bytes.map some

inductive Decoding where
  | idle
  | escaped
  | introduced (first : UInt8)
  | numbered (digit : UInt8)
  deriving DecidableEq, Repr

namespace Decoding

def cancel : Key := .action .cancel

def pairAction (first second : UInt8) : Action :=
  if first = 91 ∧ second = 65 then .arrowUp
  else if first = 91 ∧ second = 66 then .arrowDown
  else if first = 91 ∧ second = 67 then .arrowRight
  else if first = 91 ∧ second = 68 then .arrowLeft
  else if (first = 91 ∨ first = 79) ∧ second = 72 then .home
  else if (first = 91 ∨ first = 79) ∧ second = 70 then .finish
  else .cancel

def digitAction (digit : UInt8) : Action :=
  if digit = 49 ∨ digit = 55 then .home
  else if digit = 51 then .delete
  else if digit = 52 ∨ digit = 56 then .finish
  else if digit = 53 then .pageUp
  else if digit = 54 then .pageDown
  else .cancel

def step : Decoding → Option UInt8 → Key ⊕ Decoding
  | .idle, none => .inr .idle
  | .idle, some b => if b = Byte.escape then .inr .escaped else .inl (.ofByte b)
  | .escaped, none => .inl cancel
  | .escaped, some b => .inr (.introduced b)
  | .introduced _, none => .inl cancel
  | .introduced first, some b =>
    if first = 91 ∧ Byte.isDigit b then .inr (.numbered b)
    else .inl (.action (pairAction first b))
  | .numbered digit, e => .inl (if e = some 126 then .action (digitAction digit) else cancel)

def read : Decoding → Script → Except Fault (Key × Script)
  | d, [] => if d = .idle then .error .endOfInput else .ok (cancel, [])
  | d, e :: rest =>
    match d.step e with
    | .inl key => .ok (key, rest)
    | .inr d' => read d' rest

def readAll : Decoding → Script → List (Key × Script)
  | d, [] => if d = .idle then [] else [(cancel, [])]
  | d, e :: rest =>
    match d.step e with
    | .inl key => (key, rest) :: readAll .idle rest
    | .inr d' => readAll d' rest

theorem readAllStep {d : Decoding} {script rest : Script} {key : Key}
    (ok : d.read script = .ok (key, rest)) :
    d.readAll script = (key, rest) :: readAll .idle rest := by
  induction script generalizing d with
  | nil =>
    simp only [read] at ok
    split at ok
    · simp at ok
    · cases ok
      simp_all [readAll]
  | cons e tail ih =>
    simp only [read] at ok
    simp only [readAll]
    split at ok
    · cases ok
      simp
    · simp [ih ok]

theorem readAllEnd {d : Decoding} {script : Script} {fault : Fault}
    (ended : d.read script = .error fault) : fault = .endOfInput ∧ d.readAll script = [] := by
  induction script generalizing d with
  | nil =>
    simp only [read] at ended
    split at ended
    · cases ended
      simp_all [readAll]
    · simp at ended
  | cons e tail ih =>
    simp only [read] at ended
    simp only [readAll]
    split at ended
    · simp at ended
    · simpa using ih ended

end Decoding

def readKey (script : Script) : Except Fault (Key × Script) := Decoding.idle.read script

def readKeys (script : Script) : List (Key × Script) := Decoding.idle.readAll script

end Vellum
