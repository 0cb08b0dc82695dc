import Vellum.Editor.Reaction
import Vellum.Proofs.Spot
import Vellum.Proofs.TabStops

/-! The cursor as a spot in the text: where each command leaves it, and that no
command leaves it outside. Commands that change nothing but the place of the
cursor are told apart from those that edit. -/
namespace Vellum.Editor

def Inside (e : Editor) : Prop := e.document.Inside e.position

structure At (e : Editor) (s : Spot) : Prop where
  contents : e.document.contents = s.contents
  position : e.position = s.position

theorem insideAt {e : Editor} (inside : e.Inside) : ∃ s, e.At s := by
  obtain ⟨s,contents,position⟩ := Document.insideSpot inside
  exact ⟨s,contents,position⟩

theorem atInside {e : Editor} {s : Spot} (here : e.At s) : e.Inside := by
  rw [Inside,here.position]
  exact Document.spotInside here.contents

theorem positionOf {e : Editor} {s : Spot} (here : e.At s) :
    e.cursor.line = s.above.length ∧ e.cursor.column = s.left.length :=
  Position.mk.inj here.position

theorem restInside {e : Editor} (nonempty : 0 < e.document.count) : e.rest.Inside := by
  constructor
  · have last : e.lastLine < e.document.count := by
      unfold lastLine
      omega
    exact Nat.lt_of_le_of_lt (Nat.min_le_right _ _) last
  · exact Nat.min_le_right _ _

theorem restAt {e : Editor} {s : Spot} (here : e.At s) : e.rest.At s := by
  obtain ⟨line,column⟩ := positionOf here
  have count := Document.spotCount here.contents
  have size := Document.spotSize here.contents
  refine ⟨here.contents,?_⟩
  have stay : min e.cursor.line e.lastLine = s.above.length := by
    unfold lastLine
    omega
  have fits : min e.cursor.column (e.document.lineSize s.above.length) = s.left.length := by omega
  change Position.mk (min e.cursor.line e.lastLine)
    (min e.cursor.column (e.document.lineSize (min e.cursor.line e.lastLine))) = s.position
  rw [stay,fits]
  rfl

theorem moveLeftDocument (e : Editor) : e.moveLeft.document = e.document := by
  unfold moveLeft
  split <;> rfl

theorem moveLeftStart {e : Editor} {t : Spot} (here : e.At t) (start : t.before = []) :
    e.moveLeft = e := by
  obtain ⟨line,column⟩ := positionOf here
  obtain ⟨above,left⟩ := Spot.atStart start
  rw [above] at line
  rw [left] at column
  simp only [moveLeft,line,column,List.length_nil]

/- Where a run leaves the cursor, and that it comes to an answer exactly if `able`. No run speaks
another language than before. -/
structure Reaches (e : Editor) (run : Except Impasse Editor) (able : Prop) (t : Spot) : Prop where
  sound : ∀ {after}, run = .ok after → after.At t
  language : ∀ {after}, run = .ok after → after.document.language = e.document.language
  answers : Language.Marked e.document.language → Answers run able

theorem reachesRest {e : Editor} {run : Except Impasse Editor} {able : Prop} {t : Spot}
    (reaches : e.Reaches run able t) : e.Reaches (run.map rest) able t := by
  refine ⟨?_,?_,fun marked => answersMap rest (reaches.answers marked)⟩
  · intro after ok
    obtain ⟨last,done,rfl⟩ := mapOk ok
    exact restAt (reaches.sound done)
  · intro after ok
    obtain ⟨last,done,rfl⟩ := mapOk ok
    exact (reaches.language done :)

theorem reachesEdit {α : Type} {e : Editor} {t : Spot} {edit : Except Impasse (Document × α)}
    {shown : List Bytes} {answer : α} (yields : Document.Yields e.document edit shown t.contents answer)
    (next : Document → α → Editor)
    (documents : ∀ document, (next document answer).document = document)
    (positions : ∀ document, (next document answer).position = t.position) :
    e.Reaches (edit.bind fun outcome => .ok (next outcome.1 outcome.2))
      (∀ c ∈ shown, Fits e.document.tabStop c) t := by
  refine ⟨?_,?_,fun marked => answersThen (yields.answers marked) fun outcome _ => ⟨_,rfl⟩⟩
  · intro after ok
    obtain ⟨⟨document,given⟩,edited,last⟩ := bindOk ok
    obtain ⟨same,contents⟩ := yields.sound edited
    cases Except.ok.inj last
    subst same
    exact ⟨by rw [documents]; exact contents,positions document⟩
  · intro after ok
    obtain ⟨⟨document,given⟩,edited,last⟩ := bindOk ok
    obtain ⟨same,_⟩ := yields.sound edited
    cases Except.ok.inj last
    subst same
    rw [documents,yields.rest edited]
    rfl

theorem typeReaches {e : Editor} {s : Spot} (here : e.At s) (b : UInt8) :
    e.Reaches (e.type b) (∀ c ∈ [s.left ++ [b] ++ s.right], Fits e.document.tabStop c)
      { s with left := s.left ++ [b] } := by
  obtain ⟨line,column⟩ := positionOf here
  have yields := Document.insertByteYields here.contents b
  rw [← here.position] at yields
  refine reachesEdit yields (fun document done =>
    if done then { e with document }.setPosition ⟨e.cursor.line, e.cursor.column + 1⟩
    else { e with document }) (fun _ => rfl) ?_
  intro document
  simp [position,setPosition,Spot.position,line,column]

theorem breakLineReaches {e : Editor} {s : Spot} (here : e.At s) :
    e.Reaches e.breakLine (∀ c ∈ [s.left, s.right], Fits e.document.tabStop c)
      ⟨s.above ++ [s.left],[],s.right,s.below⟩ := by
  obtain ⟨line,column⟩ := positionOf here
  have yields := Document.insertNewlineYields here.contents
  rw [← here.position] at yields
  refine reachesEdit yields (fun document done =>
    if done then { e with document }.setPosition ⟨e.cursor.line + 1, 0⟩
    else { e with document }) (fun _ => rfl) ?_
  intro document
  simp [position,setPosition,Spot.position,line]

theorem moveRightAnswers (e : Editor) : Answers e.moveRight
    (e.cursor.column < e.document.lineSize e.cursor.line ∨ e.cursor.line + 1 < Size.limit) := by
  unfold moveRight
  split
  · rename_i within
    exact answersIff ⟨fun _ => .inl within,fun _ => trivial⟩ (answersOk _)
  · rename_i edge
    refine answersIff ⟨.inr,fun either => either.resolve_left edge⟩ ?_
    exact answersThen (answersIf _ _) fun next _ => ⟨_,rfl⟩

theorem deleteBackStart {e : Editor} {t : Spot} (here : e.At t) (start : t.before = []) :
    e.deleteBack = .ok e := by
  obtain ⟨line,column⟩ := positionOf here
  obtain ⟨above,left⟩ := Spot.atStart start
  obtain ⟨text,found,_⟩ := Document.spotLine here.contents
  rw [above,List.length_nil] at line found
  rw [left,List.length_nil] at column
  have nothing : e.document.deleteByte ⟨0, 0⟩ = .ok (e.document, none) := by
    simp only [Document.deleteByte,found]
    rw [if_neg (Nat.not_lt_zero _)]
  rw [deleteBack,position,line,column,nothing]
  rfl

section
variable {e : Editor} {s t gap : Spot} {b : UInt8} (crossing : Spot.Crossing s b t gap)
include crossing

theorem moveLeftAt (here : e.At t) : e.moveLeft.At s := by
  refine ⟨?_,?_⟩
  · rw [moveLeftDocument,here.contents,Spot.crossingContents crossing]
  · obtain ⟨line,column⟩ := positionOf here
    cases crossing with
    | byte above left b right below =>
      simp only [List.length_append,List.length_singleton] at column
      simp only [moveLeft,column,line]
      rfl
    | line above left right below =>
      have size : e.document.lineSize above.length = left.length := by
        rw [Document.lineSizeAt,here.contents,Spot.contents]
        simp
      simp only [List.length_append,List.length_singleton,List.length_nil] at line column
      simp only [moveLeft,column,line,size]
      rfl

theorem deleteBackReaches (here : e.At t) : e.Reaches e.deleteBack
    (∀ c ∈ [gap.left ++ gap.right], Fits e.document.tabStop c) gap := by
  have yields := Document.deleteByteYields crossing here.contents
  rw [← here.position] at yields
  have reaches := reachesEdit yields (fun document gap =>
    gap.elim { e with document } { e with document }.setPosition) (fun _ => rfl) (fun _ => rfl)
  have same : e.deleteBack = (e.document.deleteByte e.position).bind fun outcome =>
      .ok (outcome.2.elim { e with document := outcome.1 }
        { e with document := outcome.1 }.setPosition) := by
    rw [deleteBack]
    rcases e.document.deleteByte e.position with overflow | ⟨document,none | pos⟩ <;> rfl
  rwa [same]

theorem moveRightGoes {after : Editor} (here : e.At s) (ok : e.moveRight = .ok after) :
    after = e.setPosition t.position := by
  obtain ⟨line,column⟩ := positionOf here
  have count := Document.spotCount here.contents
  have size := Document.spotSize here.contents
  cases crossing with
  | byte above left b right below =>
    have within : e.cursor.column < e.document.lineSize e.cursor.line := by
      rw [line,size,column]
      simp
    rw [moveRight,if_pos within,line,column] at ok
    rw [← Except.ok.inj ok]
    simp [Spot.position]
  | line above left right below =>
    have edge : ¬ e.cursor.column < e.document.lineSize e.cursor.line := by
      rw [line,size,column]
      simp
    have inside : e.cursor.line + 1 < e.document.count := by
      simp only [List.length_cons] at count line
      omega
    rw [moveRight,if_neg edge] at ok
    obtain ⟨next,added,last⟩ := bindOk ok
    obtain ⟨rfl,_⟩ := Size.addOk.mp added
    rw [if_pos inside] at last
    rw [← Except.ok.inj last]
    simp [Spot.position,line]

theorem setAcross (here : e.At s) : (e.setPosition t.position).At t :=
  ⟨here.contents.trans (Spot.crossingContents crossing),rfl⟩

theorem moveRightReaches (here : e.At s) : e.Reaches e.moveRight
    (e.cursor.column < e.document.lineSize e.cursor.line ∨ e.cursor.line + 1 < Size.limit) t := by
  refine ⟨?_,?_,fun _ => moveRightAnswers e⟩
  · intro after ok
    rw [moveRightGoes crossing here ok]
    exact setAcross crossing here
  · intro after ok
    rw [moveRightGoes crossing here ok]
    rfl

theorem deleteForwardReaches (here : e.At s) : e.Reaches e.deleteForward
    (e.cursor.line + 1 < Size.limit ∧ ∀ c ∈ [gap.left ++ gap.right], Fits e.document.tabStop c) gap := by
  have more : ¬ (e.document.count ≤ e.cursor.line + 1 ∧
      e.document.lineSize e.cursor.line ≤ e.cursor.column) := by
    obtain ⟨line,column⟩ := positionOf here
    have count := Document.spotCount here.contents
    rw [line,Document.spotSize here.contents,column]
    cases crossing with
    | byte above left b right below => simp
    | line above left right below =>
      simp only [List.length_cons] at count ⊢
      omega
  have there := restAt (setAcross crossing here)
  have back := deleteBackReaches crossing there
  have sound {after : Editor} (ok : e.deleteForward = .ok after) :
      after.At gap ∧ after.document.language = e.document.language := by
    obtain ⟨next,added,ok⟩ := bindOk ok
    obtain ⟨rfl,_⟩ := Size.addOk.mp added
    rw [if_neg more] at ok
    obtain ⟨moved,step,ok⟩ := bindOk ok
    rw [moveRightGoes crossing here step] at ok
    obtain ⟨cut,deleted,last⟩ := bindOk ok
    rw [← Except.ok.inj last]
    exact ⟨restAt (back.sound deleted),(back.language deleted :)⟩
  refine ⟨fun ok => (sound ok).1,fun ok => (sound ok).2,?_⟩
  intro marked
  refine answersBind (answersIf _ _) ?_
  intro next added
  obtain ⟨rfl,within⟩ := Size.addOk.mp added
  obtain ⟨moved,step⟩ := (moveRightAnswers e).returns (.inr within)
  rw [if_neg more]
  simp only [bind,Except.bind,step]
  rw [moveRightGoes crossing here step]
  exact answersThen (back.answers marked) fun cut _ => ⟨cut.rest,rfl⟩

end

theorem moveRightEnd {e : Editor} {s : Spot} (here : e.At s) (finish : s.after = []) : e.Reaches e.moveRight
    (e.cursor.column < e.document.lineSize e.cursor.line ∨ e.cursor.line + 1 < Size.limit) s := by
  obtain ⟨line,column⟩ := positionOf here
  obtain ⟨right,below⟩ := Spot.atEnd finish
  have count := Document.spotCount here.contents
  have size := Document.spotSize here.contents
  rw [right,List.length_nil] at size
  rw [below,List.length_nil] at count
  have edge : ¬ e.cursor.column < e.document.lineSize e.cursor.line := by
    rw [line,size,column]
    omega
  have last : ¬ e.cursor.line + 1 < e.document.count := by omega
  have stays {after : Editor} (ok : e.moveRight = .ok after) : after = e := by
    rw [moveRight,if_neg edge] at ok
    obtain ⟨next,added,ok⟩ := bindOk ok
    obtain ⟨rfl,_⟩ := Size.addOk.mp added
    rw [if_neg last] at ok
    exact (Except.ok.inj ok).symm
  exact ⟨fun ok => stays ok ▸ here,fun ok => stays ok ▸ rfl,fun _ => moveRightAnswers e⟩

theorem deleteForwardEnd {e : Editor} {s : Spot} (here : e.At s) (finish : s.after = []) :
    e.Reaches e.deleteForward (e.cursor.line + 1 < Size.limit) s := by
  obtain ⟨line,column⟩ := positionOf here
  obtain ⟨right,below⟩ := Spot.atEnd finish
  have count := Document.spotCount here.contents
  have size := Document.spotSize here.contents
  rw [right,List.length_nil] at size
  rw [below,List.length_nil] at count
  have nothing : e.document.count ≤ e.cursor.line + 1 ∧
      e.document.lineSize e.cursor.line ≤ e.cursor.column := by
    rw [line,size,column]
    omega
  have stays {after : Editor} (ok : e.deleteForward = .ok after) : after = e := by
    obtain ⟨next,added,ok⟩ := bindOk ok
    obtain ⟨rfl,_⟩ := Size.addOk.mp added
    rw [if_pos nothing] at ok
    exact (Except.ok.inj ok).symm
  refine ⟨fun ok => stays ok ▸ here,fun ok => stays ok ▸ rfl,fun _ => ?_⟩
  refine answersThen (answersIf _ _) fun next added => ⟨e,?_⟩
  obtain ⟨rfl,_⟩ := Size.addOk.mp added
  exact if_pos nothing

theorem landInside {e : Editor} (nonempty : 0 < e.document.count) (line : Nat) :
    (e.land line).Inside := by
  have last : min line e.lastLine < e.document.count := by
    unfold lastLine
    omega
  refine ⟨last,?_⟩
  have found : e.document.lines[min line e.lastLine]? = some e.document.lines[min line e.lastLine] :=
    List.getElem?_eq_getElem last
  simp only [position,land,setPosition,Document.lineSize,found,Option.map_some,Option.getD_some]
  exact Line.columnFromBounded _ _ _ _

theorem pageUpAnswers (e : Editor) : Answers e.pageUp (e.view.rows ≠ Size.textLimit) := by
  refine answersThen ?_ fun _ _ => ⟨_,rfl⟩
  have same : 2 * Size.toStep e.view.rows = -Size.limit ↔ e.view.rows = Size.textLimit := by
    unfold Size.toStep Size.textLimit Size.limit
    split <;> omega
  unfold Size.negate
  constructor
  · intro other
    exact ⟨_,if_neg (mt same.mp other)⟩
  · intro equal
    exact ⟨_,if_pos (same.mpr (not_not.mp equal))⟩

theorem pageDownAnswers (e : Editor) :
    Answers e.pageDown (e.view.top + (e.view.rows - 1) < Size.limit) :=
  answersThen (answersIf _ _) fun _ _ => ⟨_,rfl⟩

theorem pageUpLands {e after : Editor} (ok : e.pageUp = .ok after) : ∃ line, after = e.land line := by
  obtain ⟨step,_,last⟩ := bindOk ok
  exact ⟨_,(Except.ok.inj last).symm⟩

theorem pageDownLands {e after : Editor} (ok : e.pageDown = .ok after) :
    ∃ line, after = e.land line := by
  obtain ⟨bottom,_,last⟩ := bindOk ok
  exact ⟨_,(Except.ok.inj last).symm⟩

theorem saveInside {e : Editor} (nonempty : 0 < e.document.count) (outcome : Except Fault Unit) :
    let after := (e.save.settle outcome).1
    after.Inside ∧ after.document.contents = e.document.contents ∧
      after.document.language = e.document.language := by
  unfold save
  split
  · cases outcome with
    | ok done => exact ⟨restInside nonempty,rfl,rfl⟩
    | error fault => exact ⟨restInside nonempty,rfl,rfl⟩
  · exact ⟨restInside nonempty,rfl,rfl⟩

theorem quitKeeps (e : Editor) : e.quit.1.document = e.document ∧ e.quit.1.cursor = e.cursor := by
  unfold quit
  split
  · simp only
    split <;> split <;> exact ⟨rfl,rfl⟩
  · exact ⟨rfl,rfl⟩

end Vellum.Editor
