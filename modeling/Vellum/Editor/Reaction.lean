import Vellum.Editor.Prompt
import Vellum.Editor.Typing
/-! What the editor does with commands and keys. Storing a file is left to the
outside: a reaction then names the path and the bytes, and goes on from the
outcome, so every statement about the editor holds whether files can be written
or not. -/
namespace Vellum

inductive Reaction where
  | done (editor : Editor) (left : Bool)
  | store (path : String) (bytes : Bytes) (resume : Except Fault Unit → Editor)

namespace Reaction

def settle (reaction : Reaction) (outcome : Except Fault Unit) : Editor × Bool :=
  match reaction with
  | .done editor left => (editor, left)
  | .store _ _ resume => (resume outcome, false)

def settleIn (reaction : Reaction) (tree : FileTree) : Editor × Bool × FileTree :=
  match reaction with
  | .done editor left => (editor, left, tree)
  | .store path bytes resume =>
    match tree.write path bytes with
    | .ok tree' => (resume (.ok ()), false, tree')
    | .error fault => (resume (.error fault), false, tree)

end Reaction

namespace Editor

def stored (e : Editor) (document : Document) : Except Fault Unit → Editor
  | .ok () =>
    { e with document }.notify (toString e.document.toBytes.length ++ " bytes written to disk")
  | .error fault => e.notify ("Can't save! I/O error: " ++ fault.message)

def save (e : Editor) : Reaction :=
  match e.document.path with
  | some path => .store path e.document.toBytes fun outcome => (e.stored e.document.saved outcome).rest
  | none => .done e.askName.rest false

/-- Leaves at once if nothing is unsaved; otherwise only after enough presses in a row. -/
def quit (e : Editor) : Editor × Bool :=
  if e.document.isDirty then
    let e := if e.mode = .confirmQuit then e
      else { e with mode := .confirmQuit, pressesLeft := e.settings.quitPresses }
    let e := { e with pressesLeft := e.pressesLeft - 1 }
    if e.pressesLeft = 0 then (e, true)
    else
      (e.notify ("WARNING!!! File has unsaved changes. Press Ctrl-Q " ++
        toString e.pressesLeft ++ " more times to quit."), false)
  else (e, true)

def execute (e : Editor) : Command → Except Impasse Reaction
  | .moveLeft => .ok (.done e.moveLeft.rest false)
  | .moveRight => do .ok (.done (← e.moveRight).rest false)
  | .moveUp => .ok (.done (e.moveBy (-1)) false)
  | .moveDown => .ok (.done (e.moveBy 1) false)
  | .moveLineStart => .ok (.done (e.setPosition ⟨e.cursor.line, 0⟩).rest false)
  | .moveLineEnd =>
    .ok (.done (e.setPosition ⟨e.cursor.line, e.document.lineSize e.cursor.line⟩).rest false)
  | .pageUp => do .ok (.done (← e.pageUp) false)
  | .pageDown => do .ok (.done (← e.pageDown) false)
  | .insert b => do .ok (.done (← e.type b).rest false)
  | .insertNewline => do .ok (.done (← e.breakLine).rest false)
  | .deleteBack => do .ok (.done (← e.deleteBack).rest false)
  | .deleteForward => do .ok (.done (← e.deleteForward).rest false)
  | .save => .ok e.save
  | .find => .ok (.done e.askQuery.rest false)
  | .quit => let (e, left) := e.quit; .ok (.done e left)
  | .refresh => .ok (.done e.rest false)

def nameKey (e : Editor) (key : Key) : Reaction :=
  match key with
  | .action .cancel | .action .interrupt => .done e.abandonName false
  | .action .enter =>
    if e.prompt.isEmpty then .done e false
    else
      let path := Utf8.decodeLossy e.prompt
      let e := { e with mode := .editing, prompt := [] }
      .store path e.document.toBytes (e.stored (e.document.savedAs path))
  | .action .backspace | .action .delete =>
    .done { e with prompt := e.prompt.dropLast }.showNamePrompt false
  | key =>
    match key.printable? with
    | some b => .done { e with prompt := e.prompt ++ [b] }.showNamePrompt false
    | none => .done e.showNamePrompt false

def unconfirm (e : Editor) (key : Key) : Editor :=
  if e.mode = .confirmQuit ∧ key ≠ .action .quit then
    { e with mode := .editing, pressesLeft := e.settings.quitPresses }.notify ""
  else e

def react (e : Editor) (key : Key) : Except Impasse Reaction :=
  match e.mode with
  | .editing | .confirmQuit =>
    let e := e.unconfirm key
    match key.command? with
    | some command => e.execute command
    | none => .ok (.done e false)
  | .namePrompt => .ok (e.nameKey key)
  | .searchPrompt =>
    match e.search with
    | some search => .ok (.done (e.searchKey search key) false)
    | none => .ok (.done { e with mode := .editing } false)

def press (e : Editor) (outcome : Except Fault Unit) (key : Key) : Except Impasse (Editor × Bool) :=
  (e.react key).map (·.settle outcome)

end Editor
end Vellum
