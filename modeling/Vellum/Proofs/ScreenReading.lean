import Vellum.Screen.Frame

/-! What a terminal makes of the bytes that are written to it. It reads them one by one:
those of a control sequence change how text looks or send the cursor somewhere, the
others are shown as they come, each with the look in force, and a line feed ends a row.
What it must make of the commands of a dialect is said by `Dialect.Understood`, and it is
so of the standard one. From this alone follows what reading the cells of a line does. -/
namespace Vellum

structure Look where
  colour : Option Colour := none
  reversed : Bool := false
  deriving DecidableEq, Repr

structure Cell where
  byte : UInt8
  look : Look
  deriving DecidableEq, Repr

inductive Stage where
  | text
  | escaped
  | sequence (closed : List Nat) (current : Nat)
  deriving DecidableEq, Repr

structure Screen where
  stage : Stage := .text
  look : Look := {}
  row : List Cell := []
  ended : List (List Cell × Look) := []
  sent : Option (Nat × Nat) := none
  deriving DecidableEq, Repr

namespace Look

def altered (look : Look) (n : Nat) : Look :=
  if n = 0 then {}
  else if n = 7 then { look with reversed := true }
  else if n = 27 then { look with reversed := false }
  else if n = 39 then { look with colour := none }
  else look

def rendition : Look → List Nat → Look
  | look, [] => look
  | look, 38 :: 2 :: red :: green :: blue :: rest =>
    rendition { look with colour := some ⟨red, green, blue⟩ } rest
  | look, n :: rest => rendition (look.altered n) rest

end Look

namespace Screen

def write (t : Screen) (cells : List Cell) : Screen := { t with row := t.row ++ cells }

def endRow (t : Screen) : Screen := { t with row := [], ended := t.ended ++ [(t.row, t.look)] }

def receive (t : Screen) (b : UInt8) : Screen :=
  if b = Byte.newline then t.endRow
  else if b < 32 ∨ b = 127 then t
  else t.write [⟨b, t.look⟩]

def obey (t : Screen) (numbers : List Nat) (last : UInt8) : Screen :=
  if last = 109 then { t with look := t.look.rendition numbers }
  else if last = 72 then { t with sent := some (max 1 (numbers.getD 0 1), max 1 (numbers.getD 1 1)) }
  else t

def step (t : Screen) (b : UInt8) : Screen :=
  if b = Byte.escape then { t with stage := .escaped }
  else match t.stage with
    | .text => t.receive b
    | .escaped => { t with stage := if b = 91 then .sequence [] 0 else .text }
    | .sequence closed current =>
      if Byte.isDigit b then { t with stage := .sequence closed (10 * current + (b.toNat - 48)) }
      else if b = 59 then { t with stage := .sequence (closed ++ [current]) 0 }
      else if b < 64 then t
      else { t.obey (closed ++ [current]) b with stage := .text }

def read (t : Screen) (bytes : Bytes) : Screen := bytes.foldl step t

theorem readAppend (t : Screen) (left right : Bytes) : t.read (left ++ right) = (t.read left).read right :=
  List.foldl_append

def within (t : Screen) (closed : List Nat) (current : Nat) : Screen :=
  { t with stage := .sequence closed current }

def showing (t : Screen) (look : Look) : Screen := { t with stage := .text, look }

theorem digitByte {c : Char} (digit : c.isDigit = true) :
    Byte.isDigit c.val.toUInt8 = true ∧ c.val.toUInt8.toNat = c.toNat ∧ c.val.toUInt8 ≠ Byte.escape := by
  have bounds : 48 ≤ c.val.toNat ∧ c.val.toNat ≤ 57 := by
    simpa [Char.isDigit,UInt32.le_iff_toNat_le] using digit
  have same : c.val.toUInt8.toNat = c.val.toNat := by
    rw [UInt32.toNat_toUInt8]
    omega
  refine ⟨?_,same,?_⟩
  · simp only [Byte.isDigit,Bool.and_eq_true,decide_eq_true_eq,UInt8.le_iff_toNat_le,same]
    exact bounds
  · intro escape
    rw [escape] at same
    have low : Byte.escape.toNat = 27 := rfl
    omega

theorem readDigits (t : Screen) (closed : List Nat) (current : Nat) {digits : List Char}
    (all : ∀ c ∈ digits, c.isDigit = true) :
    (t.within closed current).read (digits.map fun c => c.val.toUInt8) =
      t.within closed (Nat.ofDigitChars 10 digits current) := by
  induction digits generalizing current with
  | nil => rfl
  | cons c rest ih =>
    obtain ⟨digit,same,other⟩ := digitByte (all c (.head _))
    have first : (t.within closed current).step c.val.toUInt8 =
        t.within closed (10 * current + (c.toNat - 48)) := by
      simp only [step,within,other,digit,same,if_true,if_false]
    have later := ih (10 * current + (c.toNat - 48)) fun d member => all d (.tail _ member)
    rw [List.map_cons,read,List.foldl_cons,first]
    exact later

theorem readNumber (t : Screen) (closed : List Nat) (n : Nat) :
    (t.within closed 0).read (Byte.ascii (toString n)) = t.within closed n := by
  have all (c : Char) (member : c ∈ Nat.toDigits 10 n) : c.isDigit = true :=
    Nat.isDigit_of_mem_toDigits (by decide) (by decide) member
  have digits := readDigits t closed 0 all
  rw [Nat.ofDigitChars_toDigits (by decide) (by decide)] at digits
  rw [Byte.ascii,Nat.toString_eq_repr,Nat.toList_repr]
  exact digits

theorem asciiAppend (left right : String) : Byte.ascii (left ++ right) = Byte.ascii left ++ Byte.ascii right := by
  rw [Byte.ascii,String.toList_append,List.map_append]
  rfl

theorem readColour (t : Screen) (c : Colour) :
    t.read (Escape.foreground (some c)) = t.showing { t.look with colour := some c } := by
  have opened : t.read (Byte.escape :: Byte.ascii "[38;2;") = t.within [38, 2] 0 := rfl
  have next (closed : List Nat) (n : Nat) :
      (t.within closed n).read (Byte.ascii ";") = t.within (closed ++ [n]) 0 := rfl
  have finish : (t.within [38, 2, c.red, c.green] c.blue).read (Byte.ascii "m") =
      t.showing { t.look with colour := some c } := rfl
  have spelled : Escape.foreground (some c) = (Byte.escape :: Byte.ascii "[38;2;") ++
      Byte.ascii (toString c.red) ++ Byte.ascii ";" ++ Byte.ascii (toString c.green) ++ Byte.ascii ";" ++
      Byte.ascii (toString c.blue) ++ Byte.ascii "m" := by
    simp only [Escape.foreground,Escape.sequence,asciiAppend,List.cons_append,List.append_assoc]
    rfl
  rw [spelled]
  simp only [readAppend,opened,readNumber,next]
  exact finish

theorem readMove (t : Screen) {column row : UInt16} {bytes : Bytes} (ok : Escape.moveTo column row = .ok bytes) :
    t.read bytes = { t with stage := .text, sent := some (row.toNat + 1, column.toNat + 1) } := by
  unfold Escape.moveTo at ok
  split at ok
  · have opened : t.read (Byte.escape :: Byte.ascii "[") = t.within [] 0 := rfl
    have next (n : Nat) : (t.within [] n).read (Byte.ascii ";") = t.within [n] 0 := rfl
    have finish (n m : Nat) : (t.within [n] m).read (Byte.ascii "H") =
        { t with stage := .text, sent := some (max 1 n, max 1 m) } := rfl
    cases Except.ok.inj ok
    have spelled : Escape.sequence (toString (row.toNat + 1) ++ ";" ++ toString (column.toNat + 1) ++ "H") =
        (Byte.escape :: Byte.ascii "[") ++ Byte.ascii (toString (row.toNat + 1)) ++ Byte.ascii ";" ++
        Byte.ascii (toString (column.toNat + 1)) ++ Byte.ascii "H" := by
      simp only [Escape.sequence,asciiAppend,List.cons_append,List.append_assoc]
    rw [spelled]
    simp only [readAppend,opened,readNumber,next,finish,Nat.max_eq_right (Nat.le_add_left 1 _)]
  · cases ok

theorem readPrintable (t : Screen) (look : Look) {b : UInt8} (printable : 32 ≤ b ∧ b ≠ 127)
    (rest : Bytes) :
    (t.showing look).read (b :: rest) = ((t.write [⟨b, look⟩]).showing look).read rest := by
  obtain ⟨high,other⟩ := printable
  have escape : b ≠ Byte.escape := by
    rintro rfl
    exact absurd high (by decide)
  have newline : b ≠ Byte.newline := by
    rintro rfl
    exact absurd high (by decide)
  have shown : ¬ (b < 32 ∨ b = 127) := by
    rintro (low | same)
    · exact absurd high (UInt8.not_le.mpr low)
    · exact other same
  simp only [read,List.foldl_cons,step,showing,receive,escape,newline,shown,if_false]
  rfl

theorem writeTwice (t : Screen) (left right : List Cell) :
    (t.write left).write right = t.write (left ++ right) := by
  simp only [write,List.append_assoc]

theorem readText (t : Screen) (look : Look) {bytes : Bytes} (printable : ∀ b ∈ bytes, 32 ≤ b ∧ b ≠ 127) :
    (t.showing look).read bytes = (t.write (bytes.map fun b => ⟨b, look⟩)).showing look := by
  induction bytes generalizing t with
  | nil => simp [read,write]
  | cons b rest ih =>
    rw [readPrintable t look (printable b (.head _)),ih _ fun c member => printable c (.tail _ member)]
    rw [writeTwice]
    rfl

theorem readLineEnd (t : Screen) (look : Look) :
    (t.showing look).read Frame.lineEnd = (t.showing look).endRow := rfl

end Screen

namespace Dialect

structure Plain (dialect : Dialect) : Prop where
  print : ∀ text, dialect.print text = Utf8.encode text
  moves : ∀ {column row : UInt16}, column < 65535 → row < 65535 →
    ∃ bytes, dialect.moveTo column row = .ok bytes

/- What the commands do to a terminal. A move is obeyed also in the midst of another command. -/
structure Understood (dialect : Dialect) : Prop extends dialect.Plain where
  hideCursor : ∀ (t : Screen) (look : Look), (t.showing look).read dialect.hideCursor = t.showing look
  showCursor : ∀ (t : Screen) (look : Look), (t.showing look).read dialect.showCursor = t.showing look
  clearLine : ∀ (t : Screen) (look : Look), (t.showing look).read dialect.clearLine = t.showing look
  reverse : ∀ (t : Screen) (look : Look),
    (t.showing look).read dialect.reverse = t.showing { look with reversed := true }
  reset : ∀ (t : Screen) (look : Look), (t.showing look).read dialect.reset = t.showing {}
  resetColour : ∀ (t : Screen) (colour : Option Colour),
    (t.showing ⟨colour, false⟩).read dialect.resetColour = t.showing {}
  foreground : ∀ (t : Screen) (look : Look) (colour : Option Colour),
    (t.showing look).read (dialect.foreground colour) = t.showing { look with colour }
  moveTo : ∀ (t : Screen) {column row : UInt16} {bytes : Bytes}, dialect.moveTo column row = .ok bytes →
    t.read bytes = { t with stage := .text, sent := some (row.toNat + 1, column.toNat + 1) }

theorem standardPlain : Escape.standard.Plain where
  print _ := rfl
  moves column row := ⟨_,if_pos ⟨row,column⟩⟩

theorem standardUnderstood : Escape.standard.Understood where
  toPlain := standardPlain
  hideCursor _ _ := rfl
  showCursor _ _ := rfl
  clearLine _ _ := rfl
  reverse _ _ := rfl
  reset _ _ := rfl
  resetColour _ _ := rfl
  foreground t look colour := by
    cases colour with
    | none => rfl
    | some c => exact Screen.readColour (t.showing look) c
  moveTo t _ _ _ := Screen.readMove t

end Dialect

/- The cells in which bytes of a line are seen, by their styles. A control byte is seen as a
symbol in reverse video, in whatever colour. -/
inductive Displays : Bytes → List Style → List Cell → Prop where
  | nil : Displays [] [] []
  | letter {b style bytes styles colour cells} (low : b ≤ 26) (rest : Displays bytes styles cells) :
      Displays (b :: bytes) (style :: styles) (⟨64 + b, ⟨colour, true⟩⟩ :: cells)
  | mark {b style bytes styles colour cells} (other : 26 < b ∧ b < 32 ∨ b = 127)
      (rest : Displays bytes styles cells) :
      Displays (b :: bytes) (style :: styles) (⟨63, ⟨colour, true⟩⟩ :: cells)
  | printable {b style bytes styles cells} (printable : 32 ≤ b ∧ b ≠ 127)
      (rest : Displays bytes styles cells) :
      Displays (b :: bytes) (style :: styles) (⟨b, ⟨style.colour?, false⟩⟩ :: cells)

theorem symbolRange (b : UInt8) : 63 ≤ (Frame.symbol b).toNat ∧ (Frame.symbol b).toNat ≤ 90 := by
  unfold Frame.symbol
  split
  · rename_i low
    have low : b.toNat ≤ 26 := UInt8.le_iff_toNat_le.mp low
    rw [UInt8.toNat_add]
    change 63 ≤ (64 + b.toNat) % 256 ∧ (64 + b.toNat) % 256 ≤ 90
    omega
  · exact ⟨by decide,by decide⟩

theorem symbolPrintable (b : UInt8) : 32 ≤ Frame.symbol b ∧ Frame.symbol b ≠ 127 := by
  obtain ⟨low,high⟩ := symbolRange b
  refine ⟨UInt8.le_iff_toNat_le.mpr (Nat.le_trans (by decide) low),?_⟩
  intro same
  rw [same] at high
  exact absurd high (by decide)

theorem symbolEncoded (b : UInt8) : Utf8.encode (.singleton (.ofUInt8 (Frame.symbol b))) = [Frame.symbol b] := by
  have value : (Char.ofUInt8 (Frame.symbol b)).val.toNat = (Frame.symbol b).toNat := rfl
  have low : (Frame.symbol b).toNat ≤ 127 := Nat.le_trans (symbolRange b).2 (by decide)
  have encoded : String.utf8EncodeChar (.ofUInt8 (Frame.symbol b)) = [Frame.symbol b] := by
    rw [String.utf8EncodeChar]
    simp only [value,low,if_true,UInt8.ofNat_toNat]
  simp [Utf8.encode,encoded]

theorem symbolDisplays {b : UInt8} {style : Style} {colour : Option Colour} {bytes : Bytes}
    {styles : List Style} {cells : List Cell} (control : Byte.isControl b = true)
    (rest : Displays bytes styles cells) :
    Displays (b :: bytes) (style :: styles) (⟨Frame.symbol b, ⟨colour, true⟩⟩ :: cells) := by
  unfold Frame.symbol
  split
  · rename_i low
    exact .letter low rest
  · rename_i high
    simp only [Byte.isControl,Bool.or_eq_true,decide_eq_true_eq,beq_iff_eq] at control
    exact .mark (control.imp (fun low => ⟨UInt8.not_le.mp high,low⟩) id) rest

section
variable {dialect : Dialect} (understood : dialect.Understood)
include understood

theorem readControl (t : Screen) (current : Option Colour) (b : UInt8) (rest : Bytes) :
    (t.showing ⟨current, false⟩).read (dialect.reverse ++
        dialect.print (.singleton (.ofUInt8 (Frame.symbol b))) ++ dialect.reset ++
        ((current.map fun c => dialect.foreground (some c)).getD [] ++ rest)) =
      ((t.write [⟨Frame.symbol b, ⟨current, true⟩⟩]).showing ⟨current, false⟩).read rest := by
  have coloured (u : Screen) :
      (u.showing {}).read ((current.map fun c => dialect.foreground (some c)).getD []) =
        u.showing ⟨current, false⟩ := by
    cases current with
    | none => rfl
    | some c => exact understood.foreground u {} (some c)
  rw [understood.print,symbolEncoded]
  simp only [Screen.readAppend]
  rw [understood.reverse,Screen.readPrintable t _ (symbolPrintable b)]
  change ((((t.write _).showing _).read dialect.reset).read _).read rest = _
  rw [understood.reset,coloured]

/- Before each cell the terminal is in the colour that the writer takes it to be in, and out of
reverse video. -/
theorem readCells (t : Screen) (current : Option Colour) (pairs : List (UInt8 × Style)) :
    ∃ cells, Displays (pairs.map Prod.fst) (pairs.map Prod.snd) cells ∧
      (t.showing ⟨current, false⟩).read (Frame.cells dialect current pairs) = (t.write cells).showing {} := by
  induction pairs generalizing t current with
  | nil =>
    refine ⟨[],.nil,?_⟩
    rw [Screen.write,List.append_nil]
    exact understood.resetColour t current
  | cons pair rest ih =>
    obtain ⟨b,style⟩ := pair
    rw [Frame.cells]
    split
    · rename_i control
      have first := readControl understood t current b (Frame.cells dialect current rest)
      obtain ⟨cells,displays,later⟩ := ih (t.write [⟨Frame.symbol b, ⟨current, true⟩⟩]) current
      rw [Screen.writeTwice] at later
      exact ⟨_,symbolDisplays control displays,first.trans later⟩
    · rename_i other
      have printable := Byte.printableIff.mp (Bool.eq_false_iff.mpr other)
      have first := Screen.readPrintable t ⟨style.colour?, false⟩ printable
      obtain ⟨cells,displays,later⟩ := ih (t.write [⟨b, ⟨style.colour?, false⟩⟩]) style.colour?
      rw [Screen.writeTwice] at later
      refine ⟨_,.printable printable displays,?_⟩
      split
      · rename_i same
        rw [← same]
        exact (first _).trans later
      · rw [Screen.readAppend,understood.foreground]
        exact (first _).trans later

end

example : (Screen.read {} (Frame.cells Escape.standard none [(98, .number), (1, .plain), (99, .number)])).row =
    [⟨98, ⟨some ⟨189, 147, 249⟩, false⟩⟩, ⟨65, ⟨some ⟨189, 147, 249⟩, true⟩⟩,
      ⟨99, ⟨some ⟨189, 147, 249⟩, false⟩⟩] := by decide

end Vellum
