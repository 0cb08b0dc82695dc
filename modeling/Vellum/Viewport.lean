import Vellum.Size
import Vellum.Window
/-! The part of the document that is on the screen: `rows` lines from line `top`
on, and of each `cols` shown columns from column `left` on. -/
namespace Vellum

structure Viewport where
  top : Nat
  left : Nat
  rows : Nat
  cols : Nat
  deriving DecidableEq, Repr

namespace Viewport

def reserved : Nat := 2

def ofWindow (window : Window) : Viewport := ⟨0, 0, window.rows - reserved, window.cols⟩

def resize (view : Viewport) (window : Window) : Viewport :=
  { view with rows := window.rows - reserved, cols := window.cols }

/-- Moves an offset just enough to bring `goal` within `room` of it; no room, no condition. -/
def follow (offset room goal : Nat) : Except Impasse Nat :=
  let offset := min goal offset
  if room = 0 then .ok offset
  else do
    let edge ← Size.add offset room
    if edge ≤ goal then
      let next ← Size.add goal 1
      Size.sub next room
    else .ok offset

def scrollTo (view : Viewport) (line column : Nat) : Except Impasse Viewport := do
  let top ← follow view.top view.rows line
  let left ← follow view.left view.cols column
  .ok { view with top, left }

end Viewport
end Vellum
