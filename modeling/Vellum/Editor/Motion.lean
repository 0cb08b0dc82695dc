import Vellum.Editor.Basic
/-! Moving the cursor. Horizontal moves go on over line ends; vertical moves aim
for the shown column at which the cursor last came to rest. -/
namespace Vellum.Editor

def moveLeft (e : Editor) : Editor :=
  match e.cursor.column, e.cursor.line with
  | column + 1, line => e.setPosition ⟨line, column⟩
  | 0, line + 1 => e.setPosition ⟨line, e.document.lineSize line⟩
  | 0, 0 => e

def moveRight (e : Editor) : Except Impasse Editor :=
  if e.cursor.column < e.document.lineSize e.cursor.line then
    .ok (e.setPosition ⟨e.cursor.line, e.cursor.column + 1⟩)
  else do
    let next ← Size.add e.cursor.line 1
    .ok (if next < e.document.count then e.setPosition ⟨next, 0⟩ else e)

def land (e : Editor) (line : Nat) : Editor :=
  let line := min line e.lastLine
  e.setPosition ⟨line, match e.document.lines[line]? with
    | some l => l.columnAt e.document.tabStop e.cursor.wanted
    | none => 0⟩

def moveBy (e : Editor) (step : Int) : Editor := e.land (Size.move e.cursor.line step)

def pageUp (e : Editor) : Except Impasse Editor := do
  let step ← Size.negate (Size.toStep e.view.rows)
  .ok (e.land (Size.move e.view.top step))

def pageDown (e : Editor) : Except Impasse Editor := do
  let bottom ← Size.add e.view.top (e.view.rows - 1)
  .ok (e.land (Size.move (min bottom e.lastLine) (Size.toStep e.view.rows)))

end Vellum.Editor
