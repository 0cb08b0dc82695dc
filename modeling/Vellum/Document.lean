import Vellum.Line
import Vellum.Storage.FileTree
/-! A document is a list of lines. Edits name a line and a column; every edit
shows the changed line again and repaints from it downwards until a line is
reached whose painting still holds. An edit is refused as a whole if there is no
room to show the line. A path is a text: file names that are not have no counterpart
here, and by no name is anything lost when it is shown or its language is told. -/
namespace Vellum

structure Position where
  line : Nat
  column : Nat
  deriving DecidableEq, Repr

structure Document where
  lines : List Line
  edits : Nat
  path : Option String
  language : Option Language
  tabStop : Nat
  deriving DecidableEq, Repr

def repaint (language : Option Language) : Bool → List Line → Option (List Line)
  | _, [] => some []
  | carried, line :: rest =>
    if line.needsPaint carried then do
      let line ← line.paint language carried
      let rest ← repaint language line.opens rest
      some (line :: rest)
    else some (line :: rest)

def repaintFrom (language : Option Language) : Nat → Bool → List Line → Option (List Line)
  | _, _, [] => some []
  | 0, carried, lines => repaint language carried lines
  | i + 1, _, line :: rest => (repaintFrom language i line.opens rest).map (line :: ·)

/- Lines before the first one to be renumbered keep the number they have. -/
def renumberFrom (first : Nat) (lines : List Line) : List Line :=
  lines.mapIdx fun index line => if first ≤ index then { line with index } else line

section
variable {language : Option Language}

theorem repaintEnds (marked : Language.Marked language) (carried : Bool) (lines : List Line) :
    (repaint language carried lines).isSome = true := by
  induction lines generalizing carried with
  | nil => rfl
  | cons line rest ih =>
    obtain ⟨painting,painted⟩ := Option.isSome_iff_exists.mp (Painting.ends marked carried line.shown)
    obtain ⟨lower,later⟩ := Option.isSome_iff_exists.mp (ih painting.opens)
    rw [repaint]
    split
    · simp [Line.paint,painted,later]
    · rfl

theorem repaintFromEnds (marked : Language.Marked language) (i : Nat) (carried : Bool) (lines : List Line) :
    (repaintFrom language i carried lines).isSome = true := by
  induction lines generalizing i carried with
  | nil => cases i <;> rfl
  | cons line rest ih =>
    cases i with
    | zero => exact repaintEnds marked carried (line :: rest)
    | succ i =>
      rw [repaintFrom,Option.isSome_map]
      exact ih i line.opens

end

namespace Document

def count (doc : Document) : Nat := doc.lines.length

def isDirty (doc : Document) : Bool := 0 < doc.edits

def lineSize (doc : Document) (i : Nat) : Nat := (doc.lines[i]?.map Line.size).getD 0

def contents (doc : Document) : List Bytes := doc.lines.map Line.content

def content (doc : Document) (i : Nat) : Bytes := (doc.lines[i]?.map Line.content).getD []

def toBytes (doc : Document) : Bytes := doc.contents.flatMap (· ++ [Byte.newline])

/-- The lines of a text. A newline at its end begins no further line. -/
def splitLines (bytes : Bytes) : List Bytes :=
  let all := pieces Byte.newline bytes
  if bytes.getLast? = some Byte.newline then all.dropLast else all

def holding (contents : List Bytes) (tabStop : Nat) : Document :=
  let lines := contents.mapIdx fun index c => (Line.ofContent index c).rendered tabStop
  ⟨(repaint none false lines).get (repaintEnds Language.unmarkedNone false lines), 0, none, none,
    max tabStop 1⟩

def makeRoom (tabStop : Nat) : List Bytes → Except Impasse Unit
  | [] => .ok ()
  | content :: rest => do
    let _ ← roomFor tabStop content
    makeRoom tabStop rest

def ofContents (contents : List Bytes) (tabStop : Nat) : Except Impasse Document := do
  makeRoom tabStop contents
  .ok (holding contents tabStop)

def ofBytes (bytes : Bytes) (tabStop : Nat) : Except Impasse Document :=
  ofContents (splitLines bytes) tabStop

def blank (tabStop : Nat) : Document := holding [[]] tabStop

def repaintFrom (doc : Document) (i : Nat) : Except Impasse Document :=
  match Vellum.repaintFrom doc.language i false doc.lines with
  | some lines => .ok { doc with lines }
  | none => .error .endless

def setLanguage (doc : Document) (language : Option Language) : Except Impasse Document :=
  match repaint language false (doc.lines.map Line.invalidate) with
  | some lines => .ok { doc with language, lines }
  | none => .error .endless

def inLanguage (doc : Document) (language : Option Language) (marked : Language.Marked language) :
    Document :=
  let lines := doc.lines.map Line.invalidate
  { doc with language, lines := (repaint language false lines).get (repaintEnds marked false lines) }

theorem setLanguageMarked (doc : Document) {language : Option Language}
    (marked : Language.Marked language) :
    doc.setLanguage language = .ok (doc.inLanguage language marked) := by
  have some := (Option.some_get (repaintEnds marked false (doc.lines.map Line.invalidate))).symm
  rw [setLanguage,some]
  rfl

def setPath (doc : Document) (path : String) : Document :=
  { doc with path := some path }.inLanguage (Language.ofPath? path) (Language.ofPathMarked path)

def refresh (doc : Document) (i : Nat) : Except Impasse Document := do
  let _ ← roomFor doc.tabStop (doc.content i)
  { doc with lines := doc.lines.modify i (Line.rendered doc.tabStop) }.repaintFrom i

def setContent (doc : Document) (i : Nat) (content : Bytes) : Document :=
  { doc with lines := doc.lines.modify i fun line => { line with content } }

def edited (doc : Document) : Document := { doc with edits := doc.edits + 1 }

def insertLine (doc : Document) (i : Nat) (content : Bytes) :
    Except Impasse (Document × Bool) :=
  if doc.count < i then .ok (doc, false)
  else do
    let lines := renumberFrom i (doc.lines.insertIdx i (.ofContent i content))
    .ok (← { doc with lines }.edited.refresh i, true)

def deleteLine (doc : Document) (i : Nat) : Except Impasse (Document × Bool) :=
  if doc.count ≤ i then .ok (doc, false)
  else do
    let lines := renumberFrom i (doc.lines.eraseIdx i)
    .ok (← { doc with lines }.edited.repaintFrom i, true)

def insertWithin (doc : Document) (pos : Position) (b : UInt8) : Except Impasse (Document × Bool) :=
  match doc.lines[pos.line]? with
  | none => .ok (doc, false)
  | some line =>
    if line.size < pos.column then .ok (doc, false)
    else do
      let content := line.content.insertIdx pos.column b
      .ok (← (doc.setContent pos.line content).edited.refresh pos.line, true)

def insertByte (doc : Document) (pos : Position) (b : UInt8) : Except Impasse (Document × Bool) :=
  if pos.line = doc.count then do
    let (grown, _) ← doc.insertLine pos.line []
    grown.insertWithin pos b
  else doc.insertWithin pos b

/-- Deletes the byte before a position, or the line break before column 0. The answer is the
position of the gap, or `none` if nothing was deleted. -/
def deleteByte (doc : Document) (pos : Position) :
    Except Impasse (Document × Option Position) :=
  match doc.lines[pos.line]? with
  | none => .ok (doc, none)
  | some line =>
    if line.size < pos.column then .ok (doc, none)
    else match pos.column, pos.line with
      | 0, 0 => .ok (doc, none)
      | 0, above + 1 => do
        let joined := doc.content above
        let doc' := doc.setContent above (joined ++ line.content)
        let lines := renumberFrom (above + 1) (doc'.lines.eraseIdx (above + 1))
        .ok (← { doc' with lines }.edited.refresh above, some ⟨above, joined.length⟩)
      | column + 1, i => do
        .ok (← (doc.setContent i (line.content.eraseIdx column)).edited.refresh i,
          some ⟨i, column⟩)

def insertNewline (doc : Document) (pos : Position) : Except Impasse (Document × Bool) :=
  if pos.line = doc.count then doc.insertLine pos.line []
  else match doc.lines[pos.line]? with
    | none => .ok (doc, false)
    | some line => do
      let column := min pos.column line.size
      let head ← (doc.setContent pos.line (line.content.take column)).refresh pos.line
      head.insertLine (pos.line + 1) (line.content.drop column)

def overlay (doc : Document) (i start : Nat) (styles : List Style) : Document :=
  { doc with lines := doc.lines.modify i fun line =>
      { line with styles := line.styles.take start ++
          (styles.take (line.styles.length - start) ++ line.styles.drop (start + styles.length)) } }

def saved (doc : Document) : Document := { doc with edits := 0 }

def savedAs (doc : Document) (path : String) : Document := doc.saved.setPath path

def saveBy {α : Type} (doc : Document) (write : String → Bytes → Except Fault α) :
    Except Fault (Document × α × Nat) := do
  match doc.path with
  | none => .error .noName
  | some path =>
    let bytes := doc.toBytes
    .ok (doc.saved, ← write path bytes, bytes.length)

def saveAsBy {α : Type} (doc : Document) (write : String → Bytes → Except Fault α) (path : String) :
    Except Fault (Document × α × Nat) := do
  let bytes := doc.toBytes
  .ok (doc.savedAs path, ← write path bytes, bytes.length)

def save (doc : Document) (tree : FileTree) : Except Fault (Document × FileTree × Nat) :=
  doc.saveBy tree.write

def saveAs (doc : Document) (tree : FileTree) (path : String) :
    Except Fault (Document × FileTree × Nat) :=
  doc.saveAsBy tree.write path

def ofRead (path : String) (tabStop : Nat) :
    Except Fault Bytes → Except Impasse (Except Fault Document)
  | .ok bytes => do .ok (.ok ((← ofBytes bytes tabStop).setPath path))
  | .error .notFound => .ok (.ok ((blank tabStop).setPath path))
  | .error fault => .ok (.error fault)

def load (tree : FileTree) (path : String) (tabStop : Nat) :
    Except Impasse (Except Fault Document) :=
  ofRead path tabStop (tree.read path)

end Document
end Vellum
