import Vellum.Colour.Language
import Vellum.Colour.Style
/-! Painting a line of shown text: every byte gets one style.

The line is painted left to right in strokes. A stroke covers the next `width`
bytes with one style and hands the pen on; the first rule that applies decides.
A stroke of width zero (an empty marker or word) only changes the pen, and no
more than two of them follow each other unless both markers of a block comment
are empty. So three strokes for every byte always reach the end of the line. -/
namespace Vellum

structure Pen where
  boundary : Bool
  quote : Option UInt8
  inBlock : Bool
  afterNumber : Bool
  deriving DecidableEq, Repr

structure Stroke where
  width : Nat
  style : Style
  pen : Pen
  deriving DecidableEq, Repr

structure Painting where
  styles : List Style
  opens : Bool
  deriving DecidableEq, Repr

namespace Pen

def start (inBlock : Bool) : Pen := ⟨true, none, inBlock, false⟩

def past (pen : Pen) (width : Nat) (style : Style) : Pen :=
  if width = 0 then pen else { pen with afterNumber := style == .number }

end Pen

namespace Stroke

def of (width : Nat) (style : Style) (pen : Pen) : Stroke := ⟨width, style, pen.past width style⟩

end Stroke

namespace Language

def wordAt (rest word : Bytes) : Bool :=
  word.isPrefixOf rest &&
    match rest[word.length]? with
    | none => true
    | some b => Byte.isSeparator b

def longer (best : Option (Nat × Style)) (found : Nat × Style) : Option (Nat × Style) :=
  match best with
  | none => some found
  | some b => if b.1 < found.1 then some found else best

/-- The longest word at the start of `rest`; of two equally long ones the first, keywords before types. -/
def word? (language : Language) (rest : Bytes) : Option (Nat × Style) :=
  ((language.keywords.map fun w => (w, Style.keyword)) ++
    language.types.map fun w => (w, Style.typeName)).foldl
    (fun best entry =>
      if wordAt rest entry.1 then longer best (entry.1.length, entry.2) else best) none

def blockStroke? (language : Language) (pen : Pen) (rest : Bytes) : Option Stroke :=
  match language.blockComment with
  | none => none
  | some (opening, closing) =>
    if pen.inBlock then
      if closing.isPrefixOf rest then
        some (.of closing.length .blockComment { pen with inBlock := false, boundary := true })
      else some (.of 1 .blockComment pen)
    else if pen.quote.isNone && opening.isPrefixOf rest then
      some (.of opening.length .blockComment { pen with inBlock := true })
    else none

def lineStroke? (language : Language) (pen : Pen) (rest : Bytes) : Option Stroke :=
  match language.lineComment with
  | none => none
  | some marker =>
    if pen.quote.isNone && marker.isPrefixOf rest then some (.of rest.length .comment pen)
    else none

def stringStroke? (language : Language) (pen : Pen) (b : UInt8) (rest : Bytes) : Option Stroke :=
  if language.strings then
    match pen.quote with
    | some quote =>
      if b = 92 ∧ rest ≠ [] then some (.of 2 .quoted pen)
      else some (.of 1 .quoted (if b = quote then { pen with quote := none } else pen))
    | none =>
      if b = 34 ∨ b = 39 then some (.of 1 .quoted { pen with quote := some b, boundary := false })
      else none
  else none

def numberStroke? (language : Language) (pen : Pen) (b : UInt8) (rest : Bytes) : Option Stroke :=
  let signed := (b == 45 || b == 43) && pen.boundary && (rest.head?.any Byte.isDigit)
  if language.numbers &&
      (Byte.isDigit b && (pen.boundary || pen.afterNumber) || b == 46 && pen.afterNumber || signed)
  then some (.of 1 .number { pen with boundary := false })
  else none

def wordStroke? (language : Language) (pen : Pen) (rest : Bytes) : Option Stroke :=
  if pen.boundary then
    (language.word? rest).map fun (width, style) => .of width style { pen with boundary := false }
  else none

def stroke (language : Language) (pen : Pen) (b : UInt8) (rest : Bytes) : Stroke :=
  (language.blockStroke? pen (b :: rest)).getD <|
  (language.lineStroke? pen (b :: rest)).getD <|
  (language.stringStroke? pen b rest).getD <|
  if Byte.isControl b then .of 1 .control { pen with boundary := false }
  else
    (language.numberStroke? pen b rest).getD <|
    (language.wordStroke? pen (b :: rest)).getD <|
    .of 1 .plain { pen with boundary := Byte.isSeparator b }

def paintWith (language : Language) : Nat → Pen → Bytes → Option Painting
  | _, pen, [] => some ⟨[], pen.inBlock⟩
  | 0, _, _ :: _ => none
  | fuel + 1, pen, b :: rest =>
    let s := language.stroke pen b rest
    (language.paintWith fuel s.pen ((b :: rest).drop s.width)).map fun p =>
      { p with styles := List.replicate s.width s.style ++ p.styles }

end Language

/- `none` is a painting that has no end. -/
def Painting.of (language : Option Language) (carried : Bool) (shown : Bytes) : Option Painting :=
  match language with
  | none => some ⟨List.replicate shown.length .plain, false⟩
  | some l => l.paintWith (3 * shown.length) (.start (carried && l.blockComment.isSome)) shown

end Vellum
