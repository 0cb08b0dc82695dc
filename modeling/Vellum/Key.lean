import Vellum.Byte
/-! Keys as the editor sees them: a byte to be taken literally, or an action. -/
namespace Vellum

inductive Action where
  | arrowUp | arrowDown | arrowLeft | arrowRight
  | home | finish | delete | pageUp | pageDown
  | enter | backspace | cancel | interrupt | quit | save | find | refresh
  deriving DecidableEq, Repr

def Action.ofByte? (b : UInt8) : Option Action :=
  if b = 3 then some .interrupt
  else if b = 6 then some .find
  else if b = 8 ∨ b = 127 then some .backspace
  else if b = 12 then some .refresh
  else if b = 13 then some .enter
  else if b = 17 then some .quit
  else if b = 19 then some .save
  else none

inductive Key where
  | literal (byte : UInt8)
  | action (action : Action)
  deriving DecidableEq, Repr

def Key.ofByte (b : UInt8) : Key :=
  match Action.ofByte? b with
  | some a => .action a
  | none => .literal b

def Key.printable? : Key → Option UInt8
  | .literal b => if Byte.isControl b then none else some b
  | .action _ => none

end Vellum
