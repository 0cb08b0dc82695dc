import Vellum.Editor.Reaction
import Vellum.Screen.Frame
/-! A session on a terminal whose input is known beforehand: draw, take a key,
react, until the user leaves, the terminal fails, or there is no answer. -/
namespace Vellum

/-- A terminal known beforehand: its dialect, its window at each refresh, the last one staying, and
the number of a frame that it refuses, with its words for it. -/
structure Terminal where
  dialect : Dialect
  windows : List (Option Window)
  refused : Option (Nat × String) := none

structure Session where
  editor : Editor
  tree : FileTree
  frames : List Bytes
  deriving DecidableEq, Repr

namespace Session

inductive Ending where
  | left
  | failed (fault : TerminalFault)
  | broken (impasse : Impasse)
  deriving DecidableEq, Repr

structure Result where
  ending : Ending
  session : Session
  script : Script
  deriving DecidableEq, Repr

def window? (terminal : Terminal) (refresh : Nat) : Option Window :=
  (terminal.windows[min refresh (terminal.windows.length - 1)]?).join

def draw (terminal : Terminal) (s : Session) : Session × Option Ending :=
  match window? terminal s.frames.length with
  | none => (s, some (.failed .windowSize))
  | some window =>
    match Frame.refresh terminal.dialect (s.editor.resize window) s.editor.now with
    | .error impasse => (s, some (.broken impasse))
    | .ok (editor, frame) =>
      match terminal.refused with
      | some (n, text) =>
        if n = s.frames.length then ({ s with editor }, some (.failed (.device (.reported text))))
        else ({ s with editor, frames := s.frames ++ [frame] }, none)
      | none => ({ s with editor, frames := s.frames ++ [frame] }, none)

def press (s : Session) (key : Key) : Except Impasse (Session × Bool) := do
  let reaction ← s.editor.react key
  let (editor, left, tree) := reaction.settleIn s.tree
  .ok ({ s with editor, tree }, left)

def turn (terminal : Terminal) (s : Session) (key : Key) (script : Script) : Result ⊕ Session :=
  match s.press key with
  | .error impasse => .inl ⟨.broken impasse, s, script⟩
  | .ok (s, true) => .inl ⟨.left, s, script⟩
  | .ok (s, false) =>
    match s.draw terminal with
    | (s, some ending) => .inl ⟨ending, s, script⟩
    | (s, none) => .inr s

def read (terminal : Terminal) : Session → Decoding → Script → Result
  | s, decoding, [] =>
    if decoding = .idle then ⟨.failed (.device .endOfInput), s, []⟩
    else
      match s.turn terminal Decoding.cancel [] with
      | .inl result => result
      | .inr s => ⟨.failed (.device .endOfInput), s, []⟩
  | s, decoding, entry :: script =>
    match decoding.step entry with
    | .inr decoding => read terminal s decoding script
    | .inl key =>
      match s.turn terminal key script with
      | .inl result => result
      | .inr s => read terminal s .idle script

def run (terminal : Terminal) (editor : Editor) (tree : FileTree) (script : Script) : Result :=
  match draw terminal ⟨editor, tree, []⟩ with
  | (s, some ending) => ⟨ending, s, script⟩
  | (s, none) => s.read terminal .idle script

end Session
end Vellum
