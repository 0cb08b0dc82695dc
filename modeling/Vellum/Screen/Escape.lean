import Vellum.Size
import Vellum.Text.Utf8
/-! The commands that a terminal is given. What is written for them is a matter of the
dialect that the terminal speaks, and nothing that is drawn depends on it: a dialect is a
parameter wherever commands are written. A move may have no answer, all other commands
can always be written. -/
namespace Vellum

structure Colour where
  red : Nat
  green : Nat
  blue : Nat
  deriving DecidableEq, Repr

structure Dialect where
  hideCursor : Bytes
  showCursor : Bytes
  clearLine : Bytes
  clearScreen : Bytes
  reverse : Bytes
  reset : Bytes
  resetColour : Bytes
  foreground : Option Colour → Bytes
  print : String → Bytes
  /- To a column and a row, both counted from zero. -/
  moveTo : UInt16 → UInt16 → Except Impasse Bytes

namespace Escape

def sequence (body : String) : Bytes := Byte.escape :: Byte.ascii ("[" ++ body)

def foreground : Option Colour → Bytes
  | some c =>
    sequence ("38;2;" ++ toString c.red ++ ";" ++ toString c.green ++ ";" ++ toString c.blue ++ "m")
  | none => sequence "39m"

def moveTo (column row : UInt16) : Except Impasse Bytes :=
  if row < 65535 ∧ column < 65535 then
    .ok (sequence (toString (row.toNat + 1) ++ ";" ++ toString (column.toNat + 1) ++ "H"))
  else .error (.overflow .sum)

def standard : Dialect where
  hideCursor := sequence "?25l"
  showCursor := sequence "?25h"
  clearLine := sequence "K"
  clearScreen := sequence "2J"
  reverse := sequence "7m"
  reset := sequence "0m"
  resetColour := sequence "0m"
  foreground
  print := Utf8.encode
  moveTo

end Escape
end Vellum
