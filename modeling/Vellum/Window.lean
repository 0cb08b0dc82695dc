import Vellum.Keyboard
import Vellum.Text.Decimal
/-! The size of the terminal window, found by sending the cursor to the far
corner and reading the report `ESC [ rows ; cols R` of where it stopped. -/
namespace Vellum

structure Window where
  rows : Nat
  cols : Nat
  deriving DecidableEq, Repr

namespace Window

def report? (reply : Bytes) : Option Window :=
  match reply with
  | 27 :: 91 :: body =>
    let body := if body.getLast? = some 82 then body.dropLast else body
    match body.span (· ≠ 59) with
    | (rows, _ :: cols) => do some ⟨← Decimal.size? rows, ← Decimal.size? cols⟩
    | (_, []) => none
  | _ => none

def question : Bytes := Byte.ascii "\x1b[999C\x1b[999B\x1b[6n"

def reply : Nat → Script → Bytes × Script
  | 0, script => ([], script)
  | _ + 1, [] => ([], [])
  | _ + 1, none :: rest => ([], rest)
  | room + 1, some b :: rest =>
    if b = 82 then ([], rest)
    else
      let (bytes, left) := reply room rest
      (b :: bytes, left)

def replyRoom : Nat := 32

def probe (script : Script) : Except TerminalFault Window × Script :=
  let (bytes, left) := reply replyRoom script
  match report? bytes with
  | some w => (if 0 < w.rows ∧ 0 < w.cols then .ok w else .error .windowSize, left)
  | none => (.error .windowSize, left)

/-- How a terminal takes what is written to it: all of it, nothing, or all but without passing it on. -/
inductive Uptake where
  | whole
  | refused (text : String)
  | stuck (text : String)
  deriving DecidableEq, Repr

def ask (uptake : Uptake) (script : Script) : Except TerminalFault Window × Bytes × Script :=
  match uptake with
  | .whole =>
    let (window, left) := probe script
    (window, question, left)
  | .refused text => (.error (.device (.reported text)), [], script)
  | .stuck text => (.error (.device (.reported text)), question, script)

end Window
end Vellum
