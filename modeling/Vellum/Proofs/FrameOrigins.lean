import Vellum.Proofs.FrameParts
import Vellum.Proofs.VisibleText

/-! Control bytes in a frame. Those of the document are replaced by symbols before they
are drawn. Names are drawn as they are: they alone can bring control bytes into a frame,
and then do, so that a terminal obeys what stands in a file name. Of the terminal's
dialect it is asked that no command in it holds a line feed (`Dialect.Unbroken`). -/
namespace Vellum

namespace Stretch

def Harmless : Stretch → Prop
  | .order _ | .lineEnd => True
  | .own words => ∀ b ∈ words, Byte.isControl b = false
  | .text b => Byte.isControl b = false
  | .name chars => ∀ b ∈ letters chars, Byte.isControl b = false

def name? : Stretch → Option (List Char)
  | .name chars => some chars
  | _ => none

end Stretch

def isControlChar (c : Char) : Bool := c.val < 32 || c.val == 127

theorem encodedChar (c : Char) :
    c.val.toNat ≤ 127 ∧ String.utf8EncodeChar c = [UInt8.ofNat c.val.toNat] ∨
      127 < c.val.toNat ∧ ∀ b ∈ String.utf8EncodeChar c, 127 < b.toNat := by
  unfold String.utf8EncodeChar
  by_cases low : c.val.toNat ≤ 127
  · exact .inl ⟨low,if_pos low⟩
  · refine .inr ⟨Nat.lt_of_not_le low,?_⟩
    simp only [low,if_false]
    intro b member
    split at member
    · simp only [List.mem_cons,List.not_mem_nil,or_false] at member
      rcases member with rfl | rfl <;> simp only [UInt8.toNat_ofNat'] <;> omega
    · split at member
      · simp only [List.mem_cons,List.not_mem_nil,or_false] at member
        rcases member with rfl | rfl | rfl <;> simp only [UInt8.toNat_ofNat'] <;> omega
      · simp only [List.mem_cons,List.not_mem_nil,or_false] at member
        rcases member with rfl | rfl | rfl | rfl <;> simp only [UInt8.toNat_ofNat'] <;> omega

theorem quietChar (c : Char) : isControlChar c = false ↔ 32 ≤ c.val.toNat ∧ c.val.toNat ≠ 127 := by
  simp [isControlChar,UInt32.le_iff_toNat_le,← UInt32.toNat_inj]

theorem charQuiet (c : Char) :
    (∀ b ∈ String.utf8EncodeChar c, Byte.isControl b = false) ↔ isControlChar c = false := by
  simp only [Byte.printableNat,quietChar]
  rcases encodedChar c with ⟨low,encoded⟩ | ⟨high,above⟩
  · have same : (UInt8.ofNat c.val.toNat).toNat = c.val.toNat := by
      rw [UInt8.toNat_ofNat']
      omega
    rw [encoded]
    simp only [List.mem_singleton,forall_eq,same]
  · constructor
    · intro _
      omega
    · intro _ b member
      have large := above b member
      omega

theorem charBreaks (c : Char) : (String.utf8EncodeChar c).count Byte.newline = [c].count '\n' := by
  by_cases same : c = '\n'
  · subst same
    rfl
  · have absent : Byte.newline ∉ String.utf8EncodeChar c := by
      intro member
      rcases encodedChar c with ⟨low,encoded⟩ | ⟨_,above⟩
      · rw [encoded,List.mem_singleton] at member
        have value : 10 = c.val.toNat % 256 := by
          rw [← UInt8.toNat_ofNat',← member]
          rfl
        have value : c.val.toNat = 10 := by omega
        exact same (Char.ext (UInt32.toNat_inj.mp value))
      · exact absurd (above _ member) (by decide)
    rw [List.count_eq_zero_of_not_mem absent,List.count_eq_zero_of_not_mem (by simpa using Ne.symm same)]

theorem lettersQuiet (chars : List Char) :
    (∀ b ∈ letters chars, Byte.isControl b = false) ↔ ∀ c ∈ chars, isControlChar c = false := by
  simp only [← charQuiet,letters,List.mem_flatMap]
  constructor
  · intro quiet c member b encoded
    exact quiet b ⟨c,member,encoded⟩
  · rintro quiet b ⟨c,member,encoded⟩
    exact quiet c member b encoded

theorem lettersBreaks (chars : List Char) : (letters chars).count Byte.newline = chars.count '\n' := by
  induction chars with
  | nil => rfl
  | cons c rest ih =>
    have first : letters (c :: rest) = String.utf8EncodeChar c ++ letters rest := List.flatMap_cons
    rw [first,List.count_append,ih,charBreaks,← List.count_append]
    rfl

theorem numberQuiet (n : Nat) : ∀ c ∈ (toString n).toList, isControlChar c = false := by
  intro c member
  rw [Nat.toString_eq_repr,Nat.toList_repr] at member
  have digit := Nat.isDigit_of_mem_toDigits (by decide) (by decide) member
  have bounds : 48 ≤ c.val.toNat ∧ c.val.toNat ≤ 57 := by
    simpa [Char.isDigit,UInt32.le_iff_toNat_le] using digit
  rw [quietChar]
  omega

structure Dialect.Unbroken (dialect : Dialect) : Prop extends dialect.Plain where
  orders : ∀ {given : Order} {bytes : Bytes}, given.bytes dialect = .ok bytes → Byte.newline ∉ bytes

theorem standardUnbroken : Escape.standard.Unbroken where
  toPlain := Dialect.standardPlain
  orders {given bytes} ok := by
    have number (n : Nat) : Byte.newline ∉ Byte.ascii (toString n) := by
      intro member
      rw [Byte.ascii,Nat.toString_eq_repr,Nat.toList_repr] at member
      obtain ⟨c,inside,same⟩ := List.mem_map.mp member
      have digit := (Screen.digitByte (Nat.isDigit_of_mem_toDigits (by decide) (by decide) inside)).1
      rw [same] at digit
      cases digit
    cases given with
    | colour colour =>
      cases Except.ok.inj ok
      cases colour with
      | none => decide
      | some c =>
        simp only [Escape.standard,Escape.foreground,Escape.sequence,Screen.asciiAppend,List.mem_cons,
          List.mem_append,not_or]
        exact ⟨by decide,by decide,⟨⟨⟨⟨⟨by decide,number _⟩,by decide⟩,number _⟩,by decide⟩,number _⟩,by decide⟩
    | move column row =>
      simp only [Order.bytes,Escape.standard,Escape.moveTo] at ok
      split at ok
      · cases Except.ok.inj ok
        simp only [Escape.sequence,Screen.asciiAppend,List.mem_cons,List.mem_append,not_or]
        exact ⟨by decide,by decide,⟨⟨number _,by decide⟩,number _⟩,by decide⟩
      · cases ok
    | _ =>
      cases Except.ok.inj ok
      decide

namespace Frame

inductive Inline : Stretch → Prop where
  | order (given : Order) : Inline (.order given)
  | own {words : Bytes} (quiet : ∀ b ∈ words, Byte.isControl b = false) : Inline (.own words)
  | text {b : UInt8} (quiet : Byte.isControl b = false) : Inline (.text b)

/- Parts with so many line ends and with these names, of which only the names may bring in anything. -/
structure Made (parts : List Stretch) (ends : Nat) (names : List (List Char)) : Prop where
  harmless : ∀ part ∈ parts, part.Harmless ∨ ∃ name, part = .name name
  ends : parts.count .lineEnd = ends
  names : parts.filterMap Stretch.name? = names

theorem madeInline {row : List Stretch} (inside : ∀ part ∈ row, Inline part) : Made row 0 [] := by
  constructor
  · intro part member
    left
    cases inside part member with
    | order given => trivial
    | own quiet => exact quiet
    | text quiet => exact quiet
  · rw [List.count_eq_zero]
    intro member
    cases inside _ member
  · rw [List.filterMap_eq_nil_iff]
    intro part member
    cases inside part member <;> rfl

theorem madeOrders (orders : List Order) : Made (orders.map .order) 0 [] := by
  apply madeInline
  intro part member
  obtain ⟨given,_,rfl⟩ := List.mem_map.mp member
  exact .order given

theorem madeWords {words : List Char} (quiet : ∀ c ∈ words, isControlChar c = false) :
    Made [.own (letters words)] 0 [] := by
  apply madeInline
  intro part member
  cases List.mem_singleton.mp member
  exact .own ((lettersQuiet words).mpr quiet)

theorem madeLineEnd : Made [.lineEnd] 1 [] where
  harmless _ member := by
    cases List.mem_singleton.mp member
    exact .inl trivial
  ends := rfl
  names := rfl

theorem madeName (chars : List Char) : Made [.name chars] 0 [chars] where
  harmless _ member := .inr ⟨chars,List.mem_singleton.mp member⟩
  ends := rfl
  names := rfl

theorem madeAppend {left right : List Stretch} {ends more : Nat} {names others : List (List Char)}
    (first : Made left ends names) (second : Made right more others) :
    Made (left ++ right) (ends + more) (names ++ others) where
  harmless part member := by
    rcases List.mem_append.mp member with inside | inside
    · exact first.harmless part inside
    · exact second.harmless part inside
  ends := by rw [List.count_append,first.ends,second.ends]
  names := by rw [List.filterMap_append,first.names,second.names]

theorem quietUnbroken {bytes : Bytes} (quiet : ∀ b ∈ bytes, Byte.isControl b = false) :
    bytes.count Byte.newline = 0 := by
  rw [List.count_eq_zero]
  intro member
  cases quiet _ member

section
variable {dialect : Dialect} (unbroken : dialect.Unbroken)
include unbroken

theorem partBreaks {part : Stretch} {bytes : Bytes} (written : part.Written dialect bytes)
    (harmless : part.Harmless ∨ ∃ name, part = .name name) :
    bytes.count Byte.newline =
      [part].count .lineEnd + ([part].filterMap Stretch.name?).flatten.count '\n' := by
  cases written with
  | order ok => exact List.count_eq_zero.mpr (unbroken.orders ok)
  | lineEnd => rfl
  | own words =>
    rcases harmless with quiet | ⟨name,other⟩
    · exact quietUnbroken quiet
    · cases other
  | text b =>
    rcases harmless with quiet | ⟨name,other⟩
    · exact quietUnbroken fun c member => List.mem_singleton.mp member ▸ quiet
    · cases other
  | name chars =>
    have only : ([Stretch.name chars].filterMap Stretch.name?).flatten = chars := List.append_nil chars
    rw [only,lettersBreaks]
    exact (Nat.zero_add _).symm

theorem spellBreaks {parts : List Stretch} {bytes : Bytes} (spelled : Stretch.Spelled dialect parts bytes)
    (harmless : ∀ part ∈ parts, part.Harmless ∨ ∃ name, part = .name name) :
    bytes.count Byte.newline =
      parts.count .lineEnd + (parts.filterMap Stretch.name?).flatten.count '\n' := by
  induction spelled with
  | nil => rfl
  | @cons part rest _ _ written _ ih =>
    have first := partBreaks unbroken written (harmless part List.mem_cons_self)
    have later := ih fun part member => harmless part (List.mem_cons_of_mem _ member)
    have apart : part :: rest = [part] ++ rest := rfl
    rw [List.count_append,first,later,apart,List.count_append,List.filterMap_append,List.flatten_append,
      List.count_append]
    omega

end

theorem harmlessIff {parts : List Stretch} {ends : Nat} {names : List (List Char)} (made : Made parts ends names) :
    (∀ part ∈ parts, part.Harmless) ↔ ∀ name ∈ names, ∀ c ∈ name, isControlChar c = false := by
  constructor
  · intro harmless name member
    rw [← made.names] at member
    obtain ⟨part,inside,named⟩ := List.mem_filterMap.mp member
    cases part with
    | name chars =>
      cases Option.some.inj named
      exact (lettersQuiet name).mp (harmless _ inside)
    | _ => cases named
  · intro quiet part member
    rcases made.harmless part member with harmless | ⟨name,rfl⟩
    · exact harmless
    · have named : name ∈ names := made.names ▸ List.mem_filterMap.mpr ⟨_,member,rfl⟩
      exact (lettersQuiet name).mpr (quiet name named)

theorem cellsInline (current : Option Colour) (pairs : List (UInt8 × Style)) :
    ∀ part ∈ cellParts current pairs, Inline part := by
  induction pairs generalizing current with
  | nil =>
    intro part member
    cases List.mem_singleton.mp member
    exact .order .resetColour
  | cons pair rest ih =>
    obtain ⟨b,style⟩ := pair
    intro part member
    rw [cellParts] at member
    split at member
    · simp only [List.mem_cons,List.mem_append,Option.mem_toList,Option.map_eq_some_iff] at member
      rcases member with rfl | rfl | rfl | ⟨c,_,rfl⟩ | later
      · exact .order _
      · exact .text (Byte.printableIff.mpr (symbolPrintable b))
      · exact .order _
      · exact .order _
      · exact ih current part later
    · rename_i other
      have quiet : Byte.isControl b = false := Bool.eq_false_iff.mpr other
      split at member
      · rcases List.mem_cons.mp member with rfl | later
        · exact .text quiet
        · exact ih current part later
      · simp only [List.mem_cons] at member
        rcases member with rfl | rfl | later
        · exact .order _
        · exact .text quiet
        · exact ih style.colour? part later

theorem rowInline (e : Editor) (y : Nat) : ∀ part ∈ rowParts e y, Inline part := by
  unfold rowParts
  split
  · intro part member
    cases List.mem_singleton.mp member
    exact .own fun b inside => Byte.printableIff.mpr (welcomePrintable _ b inside)
  · split
    · exact cellsInline none _
    · intro part member
      cases List.mem_singleton.mp member
      exact .own fun b inside => List.mem_singleton.mp inside ▸ rfl

theorem areaMade (e : Editor) : Made (areaParts e) e.view.rows [] := by
  unfold areaParts
  induction e.view.rows with
  | zero => exact madeInline nofun
  | succ n ih =>
    have row := madeAppend (madeInline (rowInline e n)) (madeAppend (madeOrders [.clear]) madeLineEnd)
    rw [List.range_succ,List.flatMap_append,List.flatMap_singleton]
    exact madeAppend ih row

def names (e : Editor) : List (List Char) :=
  fileName e :: if rightSize e ≤ room e then [(tongue e.document).toList] else []

theorem spacesQuiet (n : Nat) : ∀ c ∈ List.replicate n ' ', isControlChar c = false := by
  intro c member
  cases List.eq_of_mem_replicate member
  rfl

theorem wordQuiet {word : String} (quiet : word.toList.all (fun c => !isControlChar c) = true) :
    ∀ c ∈ word.toList, isControlChar c = false := by
  intro c member
  simpa using List.all_eq_true.mp quiet c member

theorem tallyQuiet (doc : Document) : ∀ c ∈ (tally doc).toList, isControlChar c = false := by
  intro c member
  simp only [tally,String.toList_append,List.mem_append] at member
  rcases member with ((dash | number) | lines) | state
  · exact wordQuiet rfl c dash
  · exact numberQuiet _ c number
  · exact wordQuiet rfl c lines
  · split at state
    · exact wordQuiet rfl c state
    · exact wordQuiet rfl c state

theorem placeQuiet (e : Editor) : ∀ c ∈ (place e).toList, isControlChar c = false := by
  intro c member
  simp only [place,String.toList_append,List.mem_append] at member
  rcases member with ((bar | line) | slash) | count
  · exact wordQuiet rfl c bar
  · exact numberQuiet _ c line
  · exact wordQuiet rfl c slash
  · exact numberQuiet _ c count

theorem rightMade (e : Editor) : Made (rightParts e) 0
    (if rightSize e ≤ room e then [(tongue e.document).toList] else []) := by
  unfold rightParts
  split
  · exact madeAppend (madeWords (spacesQuiet _)) (madeAppend (madeName _) (madeWords (placeQuiet e)))
  · exact madeWords (spacesQuiet _)

theorem statusMade (e : Editor) : Made (statusParts e) 1 (names e) := by
  have quiet : ∀ c ∈ cutTally e, isControlChar c = false :=
    fun c member => tallyQuiet e.document c (List.mem_of_mem_take member)
  have left := madeAppend (madeOrders [.clear, .reverse]) (madeAppend (madeName (fileName e)) (madeWords quiet))
  have right := madeAppend (rightMade e) (madeAppend (madeOrders [.reset]) madeLineEnd)
  have whole := madeAppend left right
  simp only [List.append_nil,List.nil_append] at whole
  exact whole

theorem partsMade (e : Editor) : Made (parts e) (e.view.rows + 1) (names e) := by
  have area := madeAppend (madeOrders [.hide, .move 0 0]) (areaMade e)
  have status := madeAppend area (statusMade e)
  have cursor := madeOrders [.clear, .move (coordinate (e.cursorShown - e.view.left))
    (coordinate (e.cursor.line - e.view.top)), .appear]
  have whole := madeAppend status cursor
  rw [List.append_nil,Nat.zero_add,Nat.add_zero] at whole
  exact whole

theorem knownQuiet {language : Language} (known : language ∈ Language.known) :
    ∀ c ∈ language.name.toList, isControlChar c = false := by
  have all : Language.known.all (fun language => language.name.toList.all fun c => !isControlChar c) = true :=
    rfl
  exact wordQuiet (List.all_eq_true.mp all language known)

theorem tongueQuiet {doc : Document} (known : ∀ language, doc.language = some language → language ∈ Language.known) :
    ∀ c ∈ (tongue doc).toList, isControlChar c = false := by
  unfold tongue
  cases spoken : doc.language with
  | none => exact wordQuiet rfl
  | some language => exact knownQuiet (known language spoken)

theorem refreshParted {dialect : Dialect} {e after : Editor} {now : Nat} {frame : Bytes}
    (ok : refresh dialect e now = .ok (after, frame)) :
    (∃ top left, after = { e with view := { e.view with top, left } }) ∧ draw dialect after now = .ok frame := by
  obtain ⟨moved,scroll,ok⟩ := bindOk ok
  obtain ⟨drawn,draws,last⟩ := bindOk ok
  cases Except.ok.inj last
  obtain ⟨view,scrolled,last⟩ := bindOk scroll
  cases Except.ok.inj last
  obtain ⟨top,_,scrolled⟩ := bindOk scrolled
  obtain ⟨left,_,last⟩ := bindOk scrolled
  cases Except.ok.inj last
  exact ⟨⟨top,left,rfl⟩,draws⟩

theorem refreshAnswered {dialect : Dialect} (plain : dialect.Plain) {e : Editor}
    (rows : 0 < e.view.rows ∧ e.view.rows ≤ 65535) (cols : 0 < e.view.cols ∧ e.view.cols ≤ 65535)
    (line : e.cursor.line < Size.textLimit) (column : e.cursorShown < Size.textLimit) (now : Nat) :
    ∃ after frame, refresh dialect e now = .ok (after, frame) := by
  have half : Size.textLimit + 65535 < Size.limit := by decide
  obtain ⟨top,left,scrolled,vertical,horizontal⟩ :=
    Editor.scrolledInto rows.1 cols.1 (by omega) (by omega)
  have down : e.cursor.line - top < edge := by
    change _ < 65535
    omega
  have across : e.cursorShown - left < edge := by
    change _ < 65535
    omega
  obtain ⟨frame,drawn⟩ := @Editor.drawAnswered _ plain { e with view := { e.view with top, left } } line
    cols.2 down across now
  refine ⟨{ e with view := { e.view with top, left } },frame,?_⟩
  simp only [refresh,scrolled,drawn,bind,Except.bind]

structure Origins (dialect : Dialect) (e : Editor) (frame : Bytes) : Prop where
  spelled : Stretch.Spelled dialect (parts e) frame
  ends : (parts e).count .lineEnd = e.view.rows + 1
  others : ∀ part ∈ parts e, part.Harmless ∨ ∃ name ∈ names e, part = .name name
  breaks : frame.count Byte.newline = e.view.rows + 1 + (names e).flatten.count '\n'
  harmless : (∀ part ∈ parts e, part.Harmless) ↔ ∀ name ∈ names e, ∀ c ∈ name, isControlChar c = false

theorem drawOrigins {dialect : Dialect} (unbroken : dialect.Unbroken) {e : Editor} {now : Nat} {frame : Bytes}
    (silent : e.notice = none) (drawn : draw dialect e now = .ok frame) : Origins dialect e frame := by
  have made := partsMade e
  have spelled := drawSpelled unbroken.toPlain silent drawn
  refine ⟨spelled,made.ends,?_,?_,harmlessIff made⟩
  · intro part member
    rcases made.harmless part member with harmless | ⟨name,rfl⟩
    · exact .inl harmless
    · exact .inr ⟨name,made.names ▸ List.mem_filterMap.mpr ⟨_,member,rfl⟩,rfl⟩
  · rw [spellBreaks unbroken spelled made.harmless,made.ends,made.names]

theorem namesQuiet {e : Editor}
    (known : ∀ language, e.document.language = some language → language ∈ Language.known) :
    (∀ name ∈ names e, ∀ c ∈ name, isControlChar c = false) ↔ ∀ c ∈ fileName e, isControlChar c = false := by
  constructor
  · intro quiet
    exact quiet _ List.mem_cons_self
  · intro quiet name member
    rcases List.mem_cons.mp member with rfl | right
    · exact quiet
    · split at right
      · cases List.mem_singleton.mp right
        exact tongueQuiet known
      · cases right

theorem namesBreaks {e : Editor}
    (known : ∀ language, e.document.language = some language → language ∈ Language.known) :
    (names e).flatten.count '\n' = (fileName e).count '\n' := by
  have none : (tongue e.document).toList.count '\n' = 0 := by
    rw [List.count_eq_zero]
    intro member
    cases tongueQuiet known _ member
  unfold names
  split
  · rw [List.flatten_cons,List.flatten_singleton,List.count_append,none]
    rfl
  · rw [List.flatten_cons,List.flatten_nil,List.append_nil]

theorem frameOrigins {dialect : Dialect} (unbroken : dialect.Unbroken) {e : Editor} (silent : e.notice = none)
    (now : Nat) :
    (∀ after frame, refresh dialect e now = .ok (after, frame) →
      Origins dialect after frame ∧ after.document = e.document ∧ after.view.rows = e.view.rows ∧
      ((∀ language, e.document.language = some language → language ∈ Language.known) →
        ((∀ part ∈ parts after, part.Harmless) ↔ ∀ c ∈ fileName e, isControlChar c = false) ∧
          frame.count Byte.newline = e.view.rows + 1 + (fileName e).count '\n')) ∧
    (0 < e.view.rows ∧ e.view.rows ≤ 65535 → 0 < e.view.cols ∧ e.view.cols ≤ 65535 →
      e.cursor.line < Size.textLimit → e.cursorShown < Size.textLimit →
      ∃ after frame, refresh dialect e now = .ok (after, frame)) := by
  constructor
  · intro after frame refreshed
    obtain ⟨⟨top,left,rfl⟩,drawn⟩ := refreshParted refreshed
    have origins := @drawOrigins _ unbroken { e with view := { e.view with top, left } } now frame silent drawn
    refine ⟨origins,rfl,rfl,?_⟩
    intro known
    exact ⟨origins.harmless.trans (namesQuiet known),namesBreaks known ▸ origins.breaks⟩
  · intro rows cols line column
    exact refreshAnswered unbroken.toPlain rows cols line column now

theorem frameOriginsTamed :
    ∃ doc after frame, Document.ofBytes [27, 91, 50, 74, 9, 13, 127, 10] 4 = .ok doc ∧
      refresh Escape.standard (.start (doc.setPath "a.c") {} ⟨5, 30⟩) 0 = .ok (after, frame) ∧
      (∀ part ∈ parts after, part.Harmless) ∧ frame.count Byte.newline = 4 := by
  obtain ⟨doc,read⟩ : ∃ doc, Document.ofBytes [27, 91, 50, 74, 9, 13, 127, 10] 4 = .ok doc := ⟨_,rfl⟩
  have laid := Document.setPathLaid (Document.loadedLaid (.bytes read)) "a.c"
  have shown := @Editor.cursorShownBound (.start (doc.setPath "a.c") {} ⟨5, 30⟩) laid
  have known : ∀ spoken, (doc.setPath "a.c").language = some spoken → spoken ∈ Language.known := by
    intro spoken same
    rw [Document.languageOfSetPath] at same
    exact List.mem_of_find?_eq_some same
  have path : (doc.setPath "a.c").path = some "a.c" := rfl
  have name : fileName (.start (doc.setPath "a.c") {} ⟨5, 30⟩) = "a.c".toList := by
    simp only [fileName,shortName,Editor.start,path,Option.getD_some]
    rfl
  have rows : 0 < 3 ∧ 3 ≤ 65535 := by decide
  have cols : 0 < 30 ∧ 30 ≤ 65535 := by decide
  have line : 0 < Size.textLimit := by decide
  obtain ⟨origins,answered⟩ := @frameOrigins _ standardUnbroken (.start (doc.setPath "a.c") {} ⟨5, 30⟩) rfl 0
  obtain ⟨after,frame,refreshed⟩ := answered rows cols line shown
  obtain ⟨_,_,_,named⟩ := origins after frame refreshed
  obtain ⟨harmless,breaks⟩ := named known
  rw [name] at harmless breaks
  exact ⟨doc,after,frame,read,refreshed,harmless.mpr (wordQuiet rfl),breaks⟩

theorem nameBreaksOut :
    (¬ ∀ (e : Editor) (now : Nat) (after : Editor) (frame : Bytes), e.notice = none → 1 ≤ e.view.cols →
      refresh Escape.standard e now = .ok (after, frame) →
      (∀ part ∈ parts after, part.Harmless) ∧ frame.count Byte.newline = e.view.rows + 1) ∧
    ∃ after frame, refresh Escape.standard (.start ((Document.blank 8).setPath "\x1b[2J\n") {} ⟨3, 5⟩) 0 =
        .ok (after, frame) ∧
      after.view.rows = 1 ∧ frame.count Byte.newline = 3 ∧ occursIn [27, 91, 50, 74, 10] frame = true := by
  obtain ⟨after,frame,refreshed,rows,breaks,injected⟩ : ∃ after frame,
      refresh Escape.standard (.start ((Document.blank 8).setPath "\x1b[2J\n") {} ⟨3, 5⟩) 0 = .ok (after, frame) ∧
      after.view.rows = 1 ∧ frame.count Byte.newline = 3 ∧ occursIn [27, 91, 50, 74, 10] frame = true :=
    ⟨_,_,rfl,rfl,rfl,rfl⟩
  refine ⟨?_,after,frame,refreshed,rows,breaks,injected⟩
  intro clean
  have two := (clean _ 0 after frame rfl (by decide) refreshed).2
  cases breaks.symm.trans two

end Frame
end Vellum
