import Vellum.Proofs.ScreenReading
import Vellum.Proofs.Scrolling
import Vellum.Proofs.TypedText

/-! What is seen on the screen after a refresh. The frame that is written is read as a
terminal reads it: each row of the text area shows its part of a line of the document,
byte by byte and style by style, and the cursor is sent to where it stands in that part.
Nothing but `Dialect.Understood` is asked of the terminal's dialect. Every reachable
editor can be refreshed so, on every screen that has a row and a column. -/
namespace Vellum

structure Editor.Welcomes (e : Editor) (y : Nat) : Prop where
  asked : e.settings.showWelcome = true
  unnamed : e.document.path = none
  clean : e.document.isDirty = false
  empty : e.document.contents = [[]]
  third : y = e.view.rows / 3
  below : 0 < y

inductive Frame.Row (e : Editor) (y : Nat) : List Cell → Prop where
  | welcome (welcomes : e.Welcomes y) : Row e y ((Frame.welcomeLine e.view.cols).map fun b => ⟨b, {}⟩)
  | line {line cells} (found : e.document.lines[e.view.top + y]? = some line)
      (styled : line.styles.length = line.shown.length)
      (displays : Displays ((line.shown.drop e.view.left).take e.view.cols)
        ((line.styles.drop e.view.left).take e.view.cols) cells) : Row e y cells
  | tilde (past : e.document.count ≤ e.view.top + y) : Row e y [⟨126, {}⟩]

structure Editor.Seen (e : Editor) (t : Screen) : Prop where
  rows : ∀ y < e.view.rows, ∃ cells, t.ended[y]? = some (cells, {}) ∧ Frame.Row e y cells
  sent : t.sent = some (1 + (e.cursor.line - e.view.top), 1 + (e.cursorShown - e.view.left))
  line : e.view.top ≤ e.cursor.line ∧ e.cursor.line < e.view.top + e.view.rows
  column : e.view.left ≤ e.cursorShown ∧ e.cursorShown < e.view.left + e.view.cols
  within : e.view.top + e.view.rows < Size.limit ∧ e.view.left + e.view.cols < Size.limit

namespace Screen

def below (t : Screen) (rows : List (List Cell)) : Screen :=
  { t with stage := .text, look := {}, row := [], ended := rows.map fun cells => (cells, {}) }

theorem receiveEnded (t : Screen) (b : UInt8) : t.ended <+: (t.receive b).ended := by
  unfold receive
  split
  · exact List.prefix_append _ _
  · split
    · exact List.prefix_rfl
    · exact List.prefix_rfl

theorem obeyEnded (t : Screen) (numbers : List Nat) (last : UInt8) :
    (t.obey numbers last).ended = t.ended := by
  unfold obey
  split
  · rfl
  · split
    · rfl
    · rfl

theorem stepEnded (t : Screen) (b : UInt8) : t.ended <+: (t.step b).ended := by
  unfold step
  split
  · exact List.prefix_rfl
  · split
    · exact receiveEnded t b
    · exact List.prefix_rfl
    · rename_i closed current _
      have kept := obeyEnded t (closed ++ [current]) b
      split
      · exact List.prefix_rfl
      · split
        · exact List.prefix_rfl
        · split
          · exact List.prefix_rfl
          · exact kept.symm ▸ List.prefix_rfl

theorem readEnded (t : Screen) (bytes : Bytes) : t.ended <+: (t.read bytes).ended := by
  induction bytes generalizing t with
  | nil => exact List.prefix_rfl
  | cons b rest ih => exact (stepEnded t b).trans (ih (t.step b))

end Screen

namespace Frame

theorem welcomeAt {e : Editor} {y : Nat} (said : showsWelcome e = true ∧ y = e.view.rows / 3 ∧ 0 < y) :
    e.Welcomes y := by
  obtain ⟨shows,third,below⟩ := said
  simp only [showsWelcome,Bool.and_eq_true,Bool.not_eq_true',beq_iff_eq,Option.isNone_iff_eq_none] at shows
  obtain ⟨⟨⟨⟨asked,unnamed⟩,clean⟩,one⟩,size⟩ := shows
  refine ⟨asked,unnamed,clean,?_,third,below⟩
  obtain ⟨line,only⟩ := List.length_eq_one_iff.mp one
  have empty : line.content = [] := by
    simp only [Document.lineSize,only,List.getElem?_cons_zero,Option.map_some,Option.getD_some] at size
    exact List.length_eq_zero_iff.mp size
  rw [Document.contents,only,List.map_singleton,empty]

theorem welcomePrintable (cols : Nat) : ∀ b ∈ welcomeLine cols, 32 ≤ b ∧ b ≠ 127 := by
  have text : welcome.all (fun b => !Byte.isControl b) = true := rfl
  intro b member
  rcases List.mem_append.mp member with margin | said
  · split at margin
    · cases margin
    · rcases List.mem_cons.mp margin with rfl | space
      · decide
      · rw [List.eq_of_mem_replicate space]
        decide
  · have other := List.all_eq_true.mp text b (List.mem_of_mem_take said)
    exact Byte.printableIff.mp (by simpa using other)

section
variable {dialect : Dialect} (understood : dialect.Understood)
include understood

theorem readLine (t : Screen) {line : Line} (styled : line.styles.length = line.shown.length)
    (view : Viewport) :
    ∃ cells, Displays ((line.shown.drop view.left).take view.cols)
        ((line.styles.drop view.left).take view.cols) cells ∧
      (t.showing {}).read (lineBytes dialect line view) = (t.write cells).showing {} := by
  have cells := readCells understood t none (((line.shown.zip line.styles).drop view.left).take view.cols)
  rwa [List.map_take,List.map_drop,List.map_take,List.map_drop,List.map_fst_zip (Nat.le_of_eq styled.symm),
    List.map_snd_zip (Nat.le_of_eq styled)] at cells

variable {e : Editor} (styled : ∀ line ∈ e.document.lines, line.styles.length = line.shown.length)
include styled

theorem readRow (t : Screen) (y : Nat) :
    ∃ cells, Row e y cells ∧ (t.showing {}).read (textRow dialect e y) = (t.write cells).showing {} := by
  unfold textRow
  split
  · rename_i said
    exact ⟨_,.welcome (welcomeAt said),t.readText {} (welcomePrintable _)⟩
  · split
    · rename_i line found
      have lengths := styled line (List.mem_of_getElem? found)
      obtain ⟨cells,displays,shows⟩ := readLine understood t lengths e.view
      exact ⟨cells,.line found lengths displays,shows⟩
    · rename_i missing
      exact ⟨_,.tilde (List.getElem?_eq_none_iff.mp missing),rfl⟩

theorem readArea (t : Screen) (n : Nat) :
    ∃ rows : List (List Cell), rows.length = n ∧ (∀ y cells, rows[y]? = some cells → Row e y cells) ∧
      (t.below []).read ((List.range n).flatMap fun y =>
        textRow dialect e y ++ dialect.clearLine ++ lineEnd) = t.below rows := by
  induction n with
  | zero => exact ⟨[],rfl,nofun,rfl⟩
  | succ n ih =>
    obtain ⟨rows,length,shown,above⟩ := ih
    obtain ⟨cells,row,here⟩ := readRow understood styled (t.below rows) n
    refine ⟨rows ++ [cells],by rw [List.length_append,length,List.length_singleton],?_,?_⟩
    · intro y seen found
      rcases Nat.lt_trichotomy y n with before | rfl | beyond
      · rw [List.getElem?_append_left (length.symm ▸ before)] at found
        exact shown y seen found
      · rw [List.getElem?_append_right (Nat.le_of_eq length),length,Nat.sub_self] at found
        cases Option.some.inj found
        exact row
      · have outside : (rows ++ [cells]).length ≤ y := by
          rw [List.length_append,length]
          exact beyond
        rw [List.getElem?_eq_none outside] at found
        cases found
    · have same : (t.below rows).showing {} = t.below rows := rfl
      rw [List.range_succ,List.flatMap_append,Screen.readAppend,above,List.flatMap_singleton,
        Screen.readAppend,Screen.readAppend,← same,here,understood.clearLine,Screen.readLineEnd]
      simp only [Screen.below,Screen.write,Screen.showing,Screen.endRow,List.map_append,List.nil_append]
      rfl

/- What comes after the text area leaves its rows as they are, and ends with the move. -/
theorem drawSeen {now : Nat} {frame : Bytes} (drawn : draw dialect e now = .ok frame) :
    (∀ y < e.view.rows, ∃ cells, (Screen.read {} frame).ended[y]? = some (cells, {}) ∧ Row e y cells) ∧
      (Screen.read {} frame).sent = some ((coordinate (e.cursor.line - e.view.top)).toNat + 1,
        (coordinate (e.cursorShown - e.view.left)).toNat + 1) := by
  obtain ⟨home,begun,drawn⟩ := bindOk drawn
  obtain ⟨status,_,drawn⟩ := bindOk drawn
  obtain ⟨place,placed,last⟩ := bindOk drawn
  cases Except.ok.inj last
  have start : Screen.read {} (dialect.hideCursor ++ home) = Screen.below { sent := some (1, 1) } [] := by
    have hidden : Screen.read {} dialect.hideCursor = {} := understood.hideCursor {} {}
    rw [Screen.readAppend,hidden,understood.moveTo _ begun]
    rfl
  obtain ⟨rows,length,shown,area⟩ := readArea understood styled { sent := some (1, 1) } e.view.rows
  constructor
  · intro y inside
    obtain ⟨more,kept⟩ := Screen.readEnded (Screen.below { sent := some (1, 1) } rows)
      (status ++ (messageLine dialect e now ++ (place ++ dialect.showCursor)))
    have stands : y < rows.length := length.symm ▸ inside
    have ended : (Screen.below { sent := some (1, 1) } rows).ended[y]? = some (rows[y], {}) := by
      rw [Screen.below,List.getElem?_map,List.getElem?_eq_getElem stands]
      rfl
    refine ⟨rows[y],?_,shown y _ (List.getElem?_eq_getElem stands)⟩
    simp only [List.append_assoc]
    rw [← List.append_assoc,Screen.readAppend,start,textArea,Screen.readAppend]
    rw [area,← kept,List.getElem?_append_left,ended]
    rw [Screen.below,List.length_map]
    exact stands
  · rw [Screen.readAppend,Screen.readAppend,understood.moveTo _ placed]
    generalize Screen.read {} _ = t
    exact congrArg Screen.sent (understood.showCursor { t with sent := some _ } t.look)

end

theorem coordinateOf {n : Nat} (inside : n < edge) : (coordinate n).toNat = n := by
  have small : n < 65535 := inside
  rw [coordinate,Nat.min_eq_left (Nat.le_of_lt inside),UInt16.toNat_ofNat']
  omega

theorem coordinateBefore {n : Nat} (inside : n < edge) : coordinate n < 65535 := by
  rw [UInt16.lt_iff_toNat_lt,coordinateOf inside]
  exact inside

theorem statusDrawn (dialect : Dialect) {e : Editor} (line : e.cursor.line < Size.textLimit)
    (cols : e.view.cols ≤ edge) : ∃ bytes, statusLine dialect e = .ok bytes := by
  have half : Size.textLimit < Size.limit := by decide
  have small : edge < Size.textLimit := by decide
  have next : Size.add e.cursor.line 1 = .ok (e.cursor.line + 1) := Size.addOk.mpr ⟨rfl,by omega⟩
  have right : ∃ text, StatusBar.right e.document e.cursor.line = .ok text := by
    rw [StatusBar.right,next]
    exact ⟨_,rfl⟩
  obtain ⟨right,given⟩ := right
  have text : ∃ text, StatusBar.text e.document e.cursor.line e.view.cols = .ok text := by
    rw [StatusBar.text,given]
    simp only [bind,Except.bind]
    split
    · rw [Size.fitOk.mpr ⟨rfl,by omega⟩]
      exact ⟨_,rfl⟩
    · exact ⟨_,rfl⟩
  obtain ⟨text,said⟩ := text
  rw [statusLine,said]
  exact ⟨_,rfl⟩

end Frame

theorem Viewport.followReaches (offset : Nat) {room goal : Nat} (positive : 0 < room)
    (within : goal + room < Size.limit) :
    ∃ next, follow offset room goal = .ok next ∧ next ≤ goal ∧ goal < next + room := by
  obtain ⟨next,followed,nearest⟩ := followNearest offset positive within
  exact ⟨next,followed,nearest.shown.above,nearest.shown.within⟩

namespace Editor
open Document

theorem settledStyled {doc : Document} (settled : doc.Settled) {i : Nat} {line : Line}
    (found : doc.lines[i]? = some line) : line.styles.length = line.shown.length := by
  exact (Painting.whole (settledLine settled found).painted).1

theorem steadyStyled {e : Editor} (steady : e.Steady) :
    ∀ line ∈ e.document.lines, line.styles.length = line.shown.length := by
  intro line member
  obtain ⟨i,found⟩ := List.getElem?_of_mem member
  cases steady with
  | calm calm => exact settledStyled calm.settled found
  | searching running =>
    rw [running.shows.document,markedAt] at found
    obtain ⟨plain,there,rfl⟩ := Option.map_eq_some_iff.mp found
    have styled := settledStyled running.begun.settled there
    rw [List.length_mapIdx]
    exact styled

theorem cursorShownBound {e : Editor} (laid : e.document.Laid) : e.cursorShown < Size.textLimit := by
  unfold cursorShown
  split
  · rename_i line found
    have fits := (laid.lines _ line found).fits
    have column := shownColumnWithin e.document.tabStop line e.cursor.column
    have shown := expandTabsBounded e.document.tabStop line.content
    exact Nat.lt_of_le_of_lt (Nat.le_trans column shown) fits
  · decide

theorem drawAnswered {dialect : Dialect} (plain : dialect.Plain) {e : Editor}
    (line : e.cursor.line < Size.textLimit) (cols : e.view.cols ≤ Frame.edge)
    (down : e.cursor.line - e.view.top < Frame.edge) (across : e.cursorShown - e.view.left < Frame.edge)
    (now : Nat) : ∃ frame, Frame.draw dialect e now = .ok frame := by
  obtain ⟨home,begun⟩ := @plain.moves 0 0 (by decide) (by decide)
  obtain ⟨status,said⟩ := Frame.statusDrawn dialect line cols
  obtain ⟨place,placed⟩ := plain.moves (Frame.coordinateBefore across) (Frame.coordinateBefore down)
  rw [Frame.draw,begun,said,Frame.cursorPlace,placed]
  exact ⟨_,rfl⟩

theorem scrolledInto {e : Editor} (rows : 0 < e.view.rows) (cols : 0 < e.view.cols)
    (line : e.cursor.line + e.view.rows < Size.limit) (column : e.cursorShown + e.view.cols < Size.limit) :
    ∃ top left, e.scroll = .ok { e with view := { e.view with top, left } } ∧
      (top ≤ e.cursor.line ∧ e.cursor.line < top + e.view.rows) ∧
      (left ≤ e.cursorShown ∧ e.cursorShown < left + e.view.cols) := by
  obtain ⟨top,first,down⟩ := Viewport.followReaches e.view.top rows line
  obtain ⟨left,second,across⟩ := Viewport.followReaches e.view.left cols column
  refine ⟨top,left,?_,down,across⟩
  simp only [scroll,Viewport.scrollTo,first,second,bind,Except.bind]

section
variable {dialect : Dialect} (understood : dialect.Understood)
include understood

theorem drawnSeen {e : Editor} (styled : ∀ line ∈ e.document.lines, line.styles.length = line.shown.length)
    (short : e.cursor.line < Size.textLimit) (rows : e.view.rows ≤ 65535) (cols : e.view.cols ≤ 65535)
    (line : e.view.top ≤ e.cursor.line ∧ e.cursor.line < e.view.top + e.view.rows)
    (column : e.view.left ≤ e.cursorShown ∧ e.cursorShown < e.view.left + e.view.cols)
    (within : e.view.top + e.view.rows < Size.limit ∧ e.view.left + e.view.cols < Size.limit) (now : Nat) :
    ∃ frame, Frame.draw dialect e now = .ok frame ∧ e.Seen (Screen.read {} frame) := by
  have down : e.cursor.line - e.view.top < Frame.edge := by
    change _ < 65535
    omega
  have across : e.cursorShown - e.view.left < Frame.edge := by
    change _ < 65535
    omega
  obtain ⟨frame,drawn⟩ := drawAnswered understood.toPlain short cols down across now
  obtain ⟨area,sent⟩ := Frame.drawSeen understood styled drawn
  rw [Frame.coordinateOf down,Frame.coordinateOf across,Nat.add_comm _ 1,Nat.add_comm _ 1] at sent
  exact ⟨frame,drawn,area,sent,line,column,within⟩

theorem refreshSeen {e : Editor} (steady : e.Steady) (laid : e.document.Laid)
    (short : e.document.count < Size.textLimit) (rows : 0 < e.view.rows ∧ e.view.rows ≤ 65535)
    (cols : 0 < e.view.cols ∧ e.view.cols ≤ 65535) (now : Nat) :
    ∃ top left frame,
      Frame.refresh dialect e now = .ok ({ e with view := { e.view with top, left } }, frame) ∧
        { e with view := { e.view with top, left } }.Seen (Screen.read {} frame) := by
  have line : e.cursor.line < Size.textLimit := Nat.lt_trans (steadyInside steady).1 short
  have column := cursorShownBound laid
  have half : Size.textLimit + 65535 < Size.limit := by decide
  obtain ⟨top,left,scrolled,vertical,horizontal⟩ := scrolledInto rows.1 cols.1 (by omega) (by omega)
  have within : top + e.view.rows < Size.limit ∧ left + e.view.cols < Size.limit := by omega
  have styled := steadyStyled steady
  obtain ⟨frame,drawn,seen⟩ := @drawnSeen dialect understood { e with view := { e.view with top, left } }
    styled line rows.2 cols.2 vertical horizontal within now
  refine ⟨top,left,frame,?_,seen⟩
  simp only [Frame.refresh,scrolled,drawn,bind,Except.bind]

end

theorem steadyViewed {e : Editor} (steady : e.Steady) (view : Viewport) : { e with view }.Steady := by
  cases steady with
  | calm calm =>
    exact .calm ⟨calm.inside,calm.idle,calm.mode,calm.prompt,calm.confirming,calm.settled,calm.marked⟩
  | searching running => exact .searching (shownElsewhere running view e.now)

theorem frameShowsVisibleText {dialect : Dialect} (understood : dialect.Understood) {doc : Document}
    {settings : Settings} {window : Window} {now : Nat} {events : List Event} {e : Editor} (loaded : doc.Loaded)
    (ran : events.foldlM handle (start doc settings window now) = .ok e)
    (short : e.document.count < Size.textLimit) {view : Viewport}
    (rows : 0 < view.rows ∧ view.rows ≤ 65535) (cols : 0 < view.cols ∧ view.cols ≤ 65535) (clock : Nat) :
    ∃ top left frame,
      Frame.refresh dialect { e with view } clock = .ok ({ e with view := { view with top, left } }, frame) ∧
        { e with view := { view with top, left } }.Seen (Screen.read {} frame) := by
  have fed := sessionFed (.calm (startCalm loaded settings window now)) ran
  have steady := steadyViewed (sessionSteady loaded ran) view
  exact refreshSeen understood steady (fed.laid (loadedLaid loaded)) short rows cols clock

theorem frameShowsVisibleTextAtMatch :
    let events := [Event.key (.action .find) (.ok ()), .key (.literal 98) (.ok ())]
    let green : Option Colour := some ⟨80, 250, 123⟩
    ∃ doc e frame, ofBytes [120, 10, 97, 9, 98, 1, 99] 4 = .ok doc ∧
      events.foldlM handle (start doc {} ⟨12, 40⟩) = .ok e ∧
      Frame.refresh Escape.standard { e with view := ⟨7, 3, 2, 4⟩ } 0 =
        .ok ({ e with view := ⟨1, 3, 2, 4⟩ }, frame) ∧
      { e with view := ⟨1, 3, 2, 4⟩ }.Seen (Screen.read {} frame) ∧
      (Screen.read {} frame).ended.take 2 =
        [([⟨32, {}⟩, ⟨98, ⟨green, false⟩⟩, ⟨65, ⟨green, true⟩⟩, ⟨99, {}⟩], {}), ([⟨126, {}⟩], {})] ∧
      (Screen.read {} frame).sent = some (1, 2) := by
  intro events green
  obtain ⟨doc,e,frame,read,ran,count,refreshed,rows,sent⟩ : ∃ doc e frame,
      ofBytes [120, 10, 97, 9, 98, 1, 99] 4 = .ok doc ∧
      events.foldlM handle (start doc {} ⟨12, 40⟩) = .ok e ∧ e.document.count = 2 ∧
      Frame.refresh Escape.standard { e with view := ⟨7, 3, 2, 4⟩ } 0 =
        .ok ({ e with view := ⟨1, 3, 2, 4⟩ }, frame) ∧
      (Screen.read {} frame).ended.take 2 =
        [([⟨32, {}⟩, ⟨98, ⟨green, false⟩⟩, ⟨65, ⟨green, true⟩⟩, ⟨99, {}⟩], {}), ([⟨126, {}⟩], {})] ∧
      (Screen.read {} frame).sent = some (1, 2) := ⟨_,_,_,rfl,rfl,rfl,rfl,rfl,rfl⟩
  have short : e.document.count < Size.textLimit := by
    rw [count]
    decide
  obtain ⟨top,left,_,again,seen⟩ := @frameShowsVisibleText _ Dialect.standardUnderstood _ _ _ _ _ _
    (.bytes read) ran short ⟨7, 3, 2, 4⟩ (by decide) (by decide) 0
  obtain ⟨same,rfl⟩ := Prod.mk.inj (Except.ok.inj (refreshed.symm.trans again))
  rw [← same] at seen
  exact ⟨doc,e,frame,read,ran,refreshed,seen,rows,sent⟩

end Editor
end Vellum
