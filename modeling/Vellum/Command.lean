import Vellum.Key
/-! What a key asks for while the text itself is being edited. -/
namespace Vellum

inductive Command where
  | moveLeft | moveRight | moveUp | moveDown
  | moveLineStart | moveLineEnd | pageUp | pageDown
  | insert (byte : UInt8) | insertNewline | deleteBack | deleteForward
  | save | find | quit | refresh
  deriving DecidableEq, Repr

def Action.command? : Action → Option Command
  | .arrowUp => some .moveUp
  | .arrowDown => some .moveDown
  | .arrowLeft => some .moveLeft
  | .arrowRight => some .moveRight
  | .home => some .moveLineStart
  | .finish => some .moveLineEnd
  | .delete => some .deleteForward
  | .pageUp => some .pageUp
  | .pageDown => some .pageDown
  | .enter => some .insertNewline
  | .backspace => some .deleteBack
  | .quit => some .quit
  | .save => some .save
  | .find => some .find
  | .refresh => some .refresh
  | .cancel | .interrupt => none

def Key.command? : Key → Option Command
  | .literal b => some (.insert b)
  | .action a => a.command?

end Vellum
