import Vellum.Command
import Vellum.Search
import Vellum.Settings
/-! The editor: a document, a cursor in it, the part on the screen, and the mode
that decides what a key means. -/
namespace Vellum

inductive Mode where
  | editing
  | namePrompt
  | searchPrompt
  | confirmQuit
  deriving DecidableEq, Repr

structure Notice where
  text : String
  since : Nat
  deriving DecidableEq, Repr

def Notice.visible? (notice : Notice) (now lifetime : Nat) : Option String :=
  if now - notice.since < lifetime then some notice.text else none

structure Editor where
  document : Document
  cursor : Cursor
  view : Viewport
  mode : Mode
  settings : Settings
  notice : Option Notice
  prompt : Bytes
  search : Option Search
  pressesLeft : Nat
  now : Nat
  deriving DecidableEq, Repr

namespace Editor

def start (document : Document) (settings : Settings) (window : Window) (now : Nat := 0) :
    Editor where
  document
  cursor := ⟨0, 0, 0⟩
  view := .ofWindow window
  mode := .editing
  settings
  notice := none
  prompt := []
  search := none
  pressesLeft := settings.quitPresses
  now

def notify (e : Editor) (text : String) : Editor := { e with notice := some ⟨text, e.now⟩ }

def cursorLine? (e : Editor) : Option Line := e.document.lines[e.cursor.line]?

def cursorShown (e : Editor) : Nat :=
  match e.cursorLine? with
  | some line => line.shownColumn e.document.tabStop e.cursor.column
  | none => 0

def lastLine (e : Editor) : Nat := e.document.count - 1

def setPosition (e : Editor) (pos : Position) : Editor :=
  { e with cursor := { e.cursor with line := pos.line, column := pos.column } }

def position (e : Editor) : Position := ⟨e.cursor.line, e.cursor.column⟩

def aim (e : Editor) : Editor := { e with cursor := { e.cursor with wanted := e.cursorShown } }

def clamp (e : Editor) : Editor :=
  let line := min e.cursor.line e.lastLine
  e.setPosition ⟨line, min e.cursor.column (e.document.lineSize line)⟩

/-- How every command ends that is not a vertical move. -/
def rest (e : Editor) : Editor := e.clamp.aim

def scroll (e : Editor) : Except Impasse Editor := do
  let view ← e.view.scrollTo e.cursor.line e.cursorShown
  .ok { e with view }

def resize (e : Editor) (window : Window) : Editor := { e with view := e.view.resize window }

end Editor
end Vellum
