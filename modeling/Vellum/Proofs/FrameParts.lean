import Vellum.Proofs.ScreenReading

/-! A frame taken apart by where its bytes come from: the commands given to the terminal,
line ends, words of the editor's own, bytes that stand for those of the document, and the
names of the file and of its language. Put together again, in the dialect of a terminal,
the stretches are what is drawn. -/
namespace Vellum

inductive Order where
  | hide
  | appear
  | clear
  | reverse
  | reset
  | resetColour
  | colour (c : Option Colour)
  | move (column row : UInt16)
  deriving DecidableEq, Repr

def Order.bytes (dialect : Dialect) : Order → Except Impasse Bytes
  | .hide => .ok dialect.hideCursor
  | .appear => .ok dialect.showCursor
  | .clear => .ok dialect.clearLine
  | .reverse => .ok dialect.reverse
  | .reset => .ok dialect.reset
  | .resetColour => .ok dialect.resetColour
  | .colour c => .ok (dialect.foreground c)
  | .move column row => dialect.moveTo column row

def letters (chars : List Char) : Bytes := chars.flatMap String.utf8EncodeChar

/- A stretch of a frame: an order, a line end, words of the editor's own, a byte that stands for a
byte of the document, or a name. -/
inductive Stretch where
  | order (given : Order)
  | lineEnd
  | own (words : Bytes)
  | text (byte : UInt8)
  | name (chars : List Char)
  deriving DecidableEq, Repr

namespace Stretch

inductive Written (dialect : Dialect) : Stretch → Bytes → Prop where
  | order {given : Order} {bytes : Bytes} (ok : given.bytes dialect = .ok bytes) :
      Written dialect (.order given) bytes
  | lineEnd : Written dialect .lineEnd Frame.lineEnd
  | own (words : Bytes) : Written dialect (.own words) words
  | text (b : UInt8) : Written dialect (.text b) [b]
  | name (chars : List Char) : Written dialect (.name chars) (letters chars)

inductive Spelled (dialect : Dialect) : List Stretch → Bytes → Prop where
  | nil : Spelled dialect [] []
  | cons {part : Stretch} {parts : List Stretch} {here bytes : Bytes} (first : part.Written dialect here)
      (rest : Spelled dialect parts bytes) : Spelled dialect (part :: parts) (here ++ bytes)

section
variable {dialect : Dialect} {parts : List Stretch} {bytes : Bytes}

theorem spelledAppend {others : List Stretch} {more : Bytes} (first : Spelled dialect parts bytes)
    (second : Spelled dialect others more) : Spelled dialect (parts ++ others) (bytes ++ more) := by
  induction first with
  | nil => exact second
  | cons written _ ih =>
    rw [List.append_assoc]
    exact .cons written ih

theorem spelledOrder {given : Order} {here : Bytes} (ok : given.bytes dialect = .ok here)
    (rest : Spelled dialect parts bytes) : Spelled dialect (.order given :: parts) (here ++ bytes) :=
  .cons (.order ok) rest

theorem spelledOne {part : Stretch} (written : part.Written dialect bytes) : Spelled dialect [part] bytes := by
  have one := Spelled.cons written .nil
  rwa [List.append_nil] at one

theorem spelledFlatMap {rows : List Nat} {part : Nat → List Stretch} {row : Nat → Bytes}
    (each : ∀ y, Spelled dialect (part y) (row y)) : Spelled dialect (rows.flatMap part) (rows.flatMap row) := by
  induction rows with
  | nil => exact .nil
  | cons y rest ih =>
    rw [List.flatMap_cons,List.flatMap_cons]
    exact spelledAppend (each y) ih

end

end Stretch

namespace Frame
open Stretch (Spelled spelledAppend spelledOrder spelledOne spelledFlatMap)

def cellParts : Option Colour → List (UInt8 × Style) → List Stretch
  | _, [] => [.order .resetColour]
  | current, (b, style) :: rest =>
    if Byte.isControl b then
      .order .reverse :: .text (symbol b) :: .order .reset ::
        ((current.map fun c => Stretch.order (.colour (some c))).toList ++ cellParts current rest)
    else if style.colour? = current then .text b :: cellParts current rest
    else .order (.colour style.colour?) :: .text b :: cellParts style.colour? rest

def rowParts (e : Editor) (y : Nat) : List Stretch :=
  if showsWelcome e ∧ y = e.view.rows / 3 ∧ 0 < y then [.own (welcomeLine e.view.cols)]
  else match e.document.lines[e.view.top + y]? with
    | some line => cellParts none (((line.shown.zip line.styles).drop e.view.left).take e.view.cols)
    | none => [.own [126]]

def areaParts (e : Editor) : List Stretch :=
  (List.range e.view.rows).flatMap fun y => rowParts e y ++ [.order .clear, .lineEnd]

def shortName (doc : Document) : List Char :=
  (doc.path.getD "[No Name]").toList.take StatusBar.nameRoom

def fileName (e : Editor) : List Char := (shortName e.document).take e.view.cols

def tally (doc : Document) : String :=
  " - " ++ toString doc.count ++ " lines" ++ (if doc.isDirty then " (modified)" else "")

def cutTally (e : Editor) : List Char :=
  (tally e.document).toList.take (e.view.cols - (shortName e.document).length)

def tongue (doc : Document) : String := (doc.language.map Language.name).getD "no ft"

def place (e : Editor) : String :=
  " | " ++ toString (e.cursor.line + 1) ++ "/" ++ toString e.document.count

def room (e : Editor) : Nat := e.view.cols - ((StatusBar.left e.document).toList.take e.view.cols).length

def rightSize (e : Editor) : Nat := (tongue e.document ++ place e).utf8ByteSize

def rightParts (e : Editor) : List Stretch :=
  if rightSize e ≤ room e then
    [.own (letters (List.replicate (room e - rightSize e) ' ')), .name (tongue e.document).toList,
      .own (letters (place e).toList)]
  else [.own (letters (List.replicate (room e) ' '))]

def statusParts (e : Editor) : List Stretch :=
  .order .clear :: .order .reverse :: .name (fileName e) :: .own (letters (cutTally e)) ::
    (rightParts e ++ [.order .reset, .lineEnd])

def placeParts (e : Editor) : List Stretch :=
  [.order .clear, .order (.move (coordinate (e.cursorShown - e.view.left))
    (coordinate (e.cursor.line - e.view.top))), .order .appear]

def parts (e : Editor) : List Stretch :=
  .order .hide :: .order (.move 0 0) :: (areaParts e ++ statusParts e ++ placeParts e)

theorem lettersAppend (left right : List Char) : letters (left ++ right) = letters left ++ letters right :=
  List.flatMap_append

theorem leftChars (doc : Document) :
    (StatusBar.left doc).toList = shortName doc ++ (tally doc).toList := by
  simp only [StatusBar.left,shortName,tally,String.toList_append,String.toList_ofList,List.append_assoc]

theorem leftSpelled (e : Editor) : letters ((StatusBar.left e.document).toList.take e.view.cols) =
    letters (fileName e) ++ letters (cutTally e) := by
  rw [leftChars,List.take_append,lettersAppend]
  rfl

theorem rightChars {e : Editor} {right : String} (ok : StatusBar.right e.document e.cursor.line = .ok right) :
    right = tongue e.document ++ place e := by
  obtain ⟨shown,sum,last⟩ := bindOk ok
  obtain ⟨rfl,_⟩ := Size.addOk.mp sum
  cases Except.ok.inj last
  simp only [tongue,place,String.append_assoc]

section
variable {dialect : Dialect} (plain : dialect.Plain)

theorem textSpelled {e : Editor} {text : String}
    (ok : StatusBar.text e.document e.cursor.line e.view.cols = .ok text) :
    Spelled dialect (.name (fileName e) :: .own (letters (cutTally e)) :: rightParts e)
      (letters text.toList) := by
  have left {right : Bytes} (spelled : Spelled dialect (rightParts e) right) :
      Spelled dialect (.name (fileName e) :: .own (letters (cutTally e)) :: rightParts e)
        (letters ((StatusBar.left e.document).toList.take e.view.cols) ++ right) := by
    rw [leftSpelled,List.append_assoc]
    exact .cons (.name _) (.cons (.own _) spelled)
  obtain ⟨right,given,ok⟩ := bindOk ok
  cases rightChars given
  dsimp only at ok
  split at ok
  · rename_i fits
    obtain ⟨gap,fit,last⟩ := bindOk ok
    obtain ⟨rfl,_⟩ := Size.fitOk.mp fit
    cases Except.ok.inj last
    have right : rightParts e = [.own (letters (List.replicate (room e - rightSize e) ' ')),
      .name (tongue e.document).toList, .own (letters (place e).toList)] := if_pos fits
    have spelled : Spelled dialect (rightParts e) (letters (List.replicate (room e - rightSize e) ' ') ++
        (letters (tongue e.document).toList ++ letters (place e).toList)) := by
      rw [right]
      exact .cons (.own _) (.cons (.name _) (spelledOne (.own _)))
    have whole := left spelled
    rw [← lettersAppend,← lettersAppend,← lettersAppend,← List.append_assoc,← String.toList_append] at whole
    rw [String.toList_ofList]
    exact whole
  · rename_i tight
    cases Except.ok.inj ok
    have right : rightParts e = [.own (letters (List.replicate (room e) ' '))] := if_neg tight
    have spelled : Spelled dialect (rightParts e) (letters (List.replicate (room e) ' ')) := by
      rw [right]
      exact spelledOne (.own _)
    have whole := left spelled
    rw [← lettersAppend] at whole
    rw [String.toList_ofList]
    exact whole

theorem placeSpelled {e : Editor} {bytes : Bytes} (ok : cursorPlace dialect e = .ok bytes) :
    Spelled dialect (placeParts e) (dialect.clearLine ++ (bytes ++ dialect.showCursor)) :=
  spelledOrder rfl (spelledOrder ok (spelledOne (.order rfl)))

include plain

theorem cellsSpelled (current : Option Colour) (pairs : List (UInt8 × Style)) :
    Spelled dialect (cellParts current pairs) (cells dialect current pairs) := by
  induction pairs generalizing current with
  | nil => exact spelledOne (.order rfl)
  | cons pair rest ih =>
    obtain ⟨b,style⟩ := pair
    rw [cells,cellParts]
    split
    · rw [plain.print,symbolEncoded,List.append_assoc,List.append_assoc]
      refine spelledOrder rfl (.cons (.text _) (spelledOrder rfl (spelledAppend ?_ (ih current))))
      cases current with
      | none => exact .nil
      | some c => exact spelledOne (.order rfl)
    · split
      · exact .cons (.text b) (ih current)
      · exact spelledOrder rfl (.cons (.text b) (ih style.colour?))

theorem rowSpelled (e : Editor) (y : Nat) : Spelled dialect (rowParts e y) (textRow dialect e y) := by
  by_cases said : showsWelcome e = true ∧ y = e.view.rows / 3 ∧ 0 < y
  · rw [textRow,rowParts,if_pos said,if_pos said]
    exact spelledOne (.own _)
  · rw [textRow,rowParts,if_neg said,if_neg said]
    cases e.document.lines[e.view.top + y]? with
    | some line => exact cellsSpelled plain none _
    | none => exact spelledOne (.own _)

theorem areaSpelled (e : Editor) : Spelled dialect (areaParts e) (textArea dialect e) := by
  refine spelledFlatMap fun y => ?_
  rw [List.append_assoc]
  exact spelledAppend (rowSpelled plain e y) (spelledOrder rfl (spelledOne .lineEnd))

theorem statusSpelled {e : Editor} {bytes : Bytes} (ok : statusLine dialect e = .ok bytes) :
    Spelled dialect (statusParts e) bytes := by
  obtain ⟨text,said,last⟩ := bindOk ok
  cases Except.ok.inj last
  have encoded : dialect.print text = letters text.toList := plain.print text
  rw [encoded]
  simp only [List.append_assoc]
  exact spelledOrder rfl (spelledOrder rfl
    (spelledAppend (textSpelled said) (spelledOrder rfl (spelledOne .lineEnd))))

theorem drawSpelled {e : Editor} {now : Nat} {frame : Bytes} (silent : e.notice = none)
    (drawn : draw dialect e now = .ok frame) : Spelled dialect (parts e) frame := by
  obtain ⟨home,begun,drawn⟩ := bindOk drawn
  obtain ⟨status,said,drawn⟩ := bindOk drawn
  obtain ⟨place,placed,last⟩ := bindOk drawn
  cases Except.ok.inj last
  have message : messageLine dialect e now = dialect.clearLine := by
    simp [messageLine,silent,Utf8.encode]
  have below := spelledAppend (statusSpelled plain said) (placeSpelled placed)
  have hidden : Order.hide.bytes dialect = .ok dialect.hideCursor := rfl
  have moved : (Order.move 0 0).bytes dialect = .ok home := begun
  have whole := spelledOrder hidden (spelledOrder moved (spelledAppend (areaSpelled plain e) below))
  rw [message,parts]
  simpa only [List.append_assoc] using whole

end

end Frame
end Vellum
