import Vellum.Editor.Motion
/-! Changing the text at the cursor. -/
namespace Vellum.Editor

def type (e : Editor) (b : UInt8) : Except Impasse Editor := do
  let (document, done) ← e.document.insertByte e.position b
  let e := { e with document }
  .ok (if done then e.setPosition ⟨e.cursor.line, e.cursor.column + 1⟩ else e)

def breakLine (e : Editor) : Except Impasse Editor := do
  let (document, done) ← e.document.insertNewline e.position
  let e := { e with document }
  .ok (if done then e.setPosition ⟨e.cursor.line + 1, 0⟩ else e)

def deleteBack (e : Editor) : Except Impasse Editor := do
  let (document, gap) ← e.document.deleteByte e.position
  let e := { e with document }
  .ok (match gap with
    | some pos => e.setPosition pos
    | none => e)

def deleteForward (e : Editor) : Except Impasse Editor := do
  let next ← Size.add e.cursor.line 1
  if e.document.count ≤ next ∧ e.document.lineSize e.cursor.line ≤ e.cursor.column then .ok e
  else
    let e ← e.moveRight
    .ok (← e.rest.deleteBack).rest

end Vellum.Editor
