import Vellum.Editor.Basic
import Vellum.Screen.Palette
import Vellum.Screen.StatusBar
/-! One refresh of the screen, as the bytes that are written to the terminal:
the text area, the status line, the message line, and the cursor's place. -/
namespace Vellum.Frame

def welcome : Bytes := Byte.ascii "scribe editor -- version 0.1.0"

def welcomeLine (cols : Nat) : Bytes :=
  let text := welcome.take cols
  let padding := (cols - text.length) / 2
  (if padding = 0 then [] else 126 :: List.replicate (padding - 1) Byte.space) ++ text

def showsWelcome (e : Editor) : Bool :=
  e.settings.showWelcome && e.document.path.isNone && !e.document.isDirty &&
    e.document.count == 1 && e.document.lineSize 0 == 0

def symbol (b : UInt8) : UInt8 := if b ≤ 26 then 64 + b else 63

def lineEnd : Bytes := [13, 10]

section
variable (dialect : Dialect)

/-- Shown bytes with their styles. The colour is written where it changes, and again after the
reverse video of a control byte. -/
def cells : Option Colour → List (UInt8 × Style) → Bytes
  | _, [] => dialect.resetColour
  | current, (b, style) :: rest =>
    if Byte.isControl b then
      dialect.reverse ++ dialect.print (.singleton (.ofUInt8 (symbol b))) ++ dialect.reset ++
        ((current.map fun c => dialect.foreground (some c)).getD [] ++ cells current rest)
    else if style.colour? = current then b :: cells current rest
    else dialect.foreground style.colour? ++ b :: cells style.colour? rest

def lineBytes (line : Line) (view : Viewport) : Bytes :=
  cells dialect none (((line.shown.zip line.styles).drop view.left).take view.cols)

def textRow (e : Editor) (y : Nat) : Bytes :=
  if showsWelcome e ∧ y = e.view.rows / 3 ∧ 0 < y then welcomeLine e.view.cols
  else match e.document.lines[e.view.top + y]? with
    | some line => lineBytes dialect line e.view
    | none => [126]

def textArea (e : Editor) : Bytes :=
  (List.range e.view.rows).flatMap fun y => textRow dialect e y ++ dialect.clearLine ++ lineEnd

def statusLine (e : Editor) : Except Impasse Bytes := do
  let text ← StatusBar.text e.document e.cursor.line e.view.cols
  .ok (dialect.clearLine ++ dialect.reverse ++ dialect.print text ++ dialect.reset ++ lineEnd)

def messageLine (e : Editor) (now : Nat) : Bytes :=
  let text := (e.notice.bind (·.visible? now e.settings.messageMillis)).getD ""
  dialect.clearLine ++ Utf8.encode (String.ofList (text.toList.take e.view.cols))

def edge : Nat := 65535

def coordinate (n : Nat) : UInt16 := .ofNat (min n edge)

def cursorPlace (e : Editor) : Except Impasse Bytes :=
  dialect.moveTo (coordinate (e.cursorShown - e.view.left)) (coordinate (e.cursor.line - e.view.top))

def draw (e : Editor) (now : Nat) : Except Impasse Bytes := do
  let home ← dialect.moveTo 0 0
  let status ← statusLine dialect e
  let place ← cursorPlace dialect e
  .ok (dialect.hideCursor ++ home ++ textArea dialect e ++ status ++ messageLine dialect e now ++
    place ++ dialect.showCursor)

def refresh (e : Editor) (now : Nat) : Except Impasse (Editor × Bytes) := do
  let e ← e.scroll
  .ok (e, ← draw dialect e now)

end
end Vellum.Frame
