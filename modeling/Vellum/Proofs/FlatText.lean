import Vellum.Proofs.CursorSpot

/-! The document read as one flat text, its lines joined by newlines, and the
cursor as an offset into it. Commands that edit or move by one byte act on that
text alone, whatever lines they split, join or cross on the way. -/
namespace Vellum

structure FlatText where
  bytes : Bytes
  offset : Nat
  deriving DecidableEq, Repr

/- What a command may do to the flat text. Commands that are not listed may move the offset. -/
def Command.Acts : Command → FlatText → FlatText → Prop
  | .insert b, text, after => after = ⟨text.bytes.insertIdx text.offset b, text.offset + 1⟩
  | .insertNewline, text, after =>
    after = ⟨text.bytes.insertIdx text.offset Byte.newline, text.offset + 1⟩
  | .deleteBack, text, after =>
    after = if text.offset = 0 then text
      else ⟨text.bytes.eraseIdx (text.offset - 1), text.offset - 1⟩
  | .deleteForward, text, after =>
    after = if text.offset = text.bytes.length then text
      else ⟨text.bytes.eraseIdx text.offset, text.offset⟩
  | .moveLeft, text, after => after = ⟨text.bytes, text.offset - 1⟩
  | .moveRight, text, after => after = ⟨text.bytes, min (text.offset + 1) text.bytes.length⟩
  | _, text, after => after.bytes = text.bytes

namespace Document

def flat (doc : Document) : Bytes := [Byte.newline].intercalate doc.contents

def offset (doc : Document) (pos : Position) : Nat :=
  ((List.range pos.line).map fun i => doc.lineSize i + 1).foldr (· + ·) 0 + pos.column

theorem offsetAt {doc : Document} {s : Spot} (held : doc.contents = s.contents) :
    doc.offset s.position = s.before.length := by
  have sizes : (List.range s.above.length).map (fun i => doc.lineSize i + 1) =
      s.above.map fun line => line.length + 1 := by
    apply List.ext_getElem
    · simp
    · intro i within _
      have above : i < s.above.length := by simpa using within
      simp [lineSizeAt,held,Spot.contents,List.getElem?_append_left above,
        List.getElem?_eq_getElem above]
  simp only [offset,Spot.position,sizes,Spot.before,List.length_append,List.length_flatMap,
    List.length_singleton]
  rfl

theorem flatAt {doc : Document} {s : Spot} (held : doc.contents = s.contents) :
    doc.flat = s.before ++ s.after := by rw [flat,held,Spot.flattened]

theorem toBytesFlat {doc : Document} (nonempty : 0 < doc.count) :
    doc.toBytes = doc.flat ++ [Byte.newline] := by
  rw [countContents] at nonempty
  exact Spot.terminated Byte.newline (List.ne_nil_of_length_pos nonempty)

def RoomBefore (doc : Document) (pos : Position) : Prop :=
  match pos.column, pos.line with
  | column + 1, line => Fits doc.tabStop ((doc.content line).eraseIdx column)
  | 0, above + 1 => Fits doc.tabStop (doc.content above ++ doc.content (above + 1))
  | 0, 0 => True

def RoomBehind (doc : Document) (pos : Position) : Prop :=
  if pos.column < doc.lineSize pos.line then Fits doc.tabStop ((doc.content pos.line).eraseIdx pos.column)
  else pos.line + 1 < doc.count → Fits doc.tabStop (doc.content pos.line ++ doc.content (pos.line + 1))

section
variable {doc : Document} {s t gap : Spot} {b : UInt8} (crossing : Spot.Crossing s b t gap)
include crossing

theorem roomBeforeAt (held : doc.contents = t.contents) :
    doc.RoomBefore t.position ↔ Fits doc.tabStop (gap.left ++ gap.right) := by
  have own := spotContent held
  cases crossing with
  | byte above left b right below =>
    rw [List.append_assoc] at own
    rw [Spot.position,List.length_append]
    change Fits doc.tabStop ((doc.content above.length).eraseIdx left.length) ↔ _
    rw [own,List.singleton_append,eraseIdxMiddle]
  | line above left right below =>
    have upper : doc.content above.length = left := by
      rw [contentAt,held,Spot.contents]
      simp
    simp only [List.length_append,List.length_singleton,List.nil_append] at own
    rw [Spot.position,List.length_append]
    change Fits doc.tabStop (doc.content above.length ++ doc.content (above.length + 1)) ↔ _
    rw [upper,own]

theorem roomBehindAt (held : doc.contents = s.contents) :
    doc.RoomBehind s.position ↔ Fits doc.tabStop (gap.left ++ gap.right) := by
  have own := spotContent held
  have size := spotSize held
  have count := spotCount held
  cases crossing with
  | byte above left b right below =>
    have within : left.length < doc.lineSize above.length := by
      simp only [List.length_cons] at size
      omega
    rw [RoomBehind,Spot.position,if_pos within,own,eraseIdxMiddle]
  | line above left right below =>
    have edge : ¬ left.length < doc.lineSize above.length := by
      simp only [List.length_nil] at size
      omega
    have inside : above.length + 1 < doc.count := by
      simp only [List.length_cons] at count
      omega
    have lower : doc.content (above.length + 1) = right := by
      rw [contentAt,held,Spot.contents]
      simp
    rw [List.append_nil] at own
    rw [RoomBehind,Spot.position,if_neg edge,own,lower]
    exact ⟨fun room => room inside,fun room _ => room⟩

end

theorem roomBehindEnd {doc : Document} {s : Spot} (held : doc.contents = s.contents) (finish : s.after = []) :
    doc.RoomBehind s.position := by
  obtain ⟨right,below⟩ := Spot.atEnd finish
  have size := spotSize held
  have count := spotCount held
  rw [right,List.length_nil] at size
  rw [below,List.length_nil] at count
  have edge : ¬ s.left.length < doc.lineSize s.above.length := by omega
  rw [RoomBehind,Spot.position,if_neg edge]
  intro inside
  have inside : s.above.length + 1 < doc.count := inside
  omega

end Document

namespace Spot

def text (s : Spot) : FlatText := ⟨s.before ++ s.after, s.before.length⟩

theorem insertActs {s t gap : Spot} {b : UInt8} (crossing : Crossing s b t gap) :
    t.text = ⟨gap.text.bytes.insertIdx gap.text.offset b, gap.text.offset + 1⟩ := by
  obtain ⟨_,past,before,after⟩ := crossingTexts crossing
  simp only [text,insertIdxMiddle,past,before,after,List.length_append,List.length_singleton]
  simp

theorem deleteActs {s t gap : Spot} {b : UInt8} (crossing : Crossing s b t gap) :
    gap.text = ⟨s.text.bytes.eraseIdx s.text.offset, s.text.offset⟩ := by
  obtain ⟨ahead,_,before,after⟩ := crossingTexts crossing
  simp only [text,before,after,ahead,eraseIdxMiddle]

theorem crossActs {s t gap : Spot} {b : UInt8} (crossing : Crossing s b t gap) :
    t.text = ⟨s.text.bytes, s.text.offset + 1⟩ := by
  obtain ⟨ahead,past,_,_⟩ := crossingTexts crossing
  simp only [text,ahead,past,List.length_append,List.length_singleton]
  simp

theorem crossWithin {s t gap : Spot} {b : UInt8} (crossing : Crossing s b t gap) :
    s.text.offset < s.text.bytes.length := by
  obtain ⟨ahead,_,_,_⟩ := crossingTexts crossing
  simp [text,ahead]

end Spot

namespace Editor

def flat (e : Editor) : FlatText := ⟨e.document.flat, e.document.offset e.position⟩

/- When a command comes to an answer: there is room for the lines it shows anew, and no number that it
counts to is too large. -/
def Able (e : Editor) : Command → Prop
  | .insert b =>
    Fits e.document.tabStop ((e.document.content e.cursor.line).insertIdx e.cursor.column b)
  | .insertNewline =>
    Fits e.document.tabStop ((e.document.content e.cursor.line).take e.cursor.column) ∧
      Fits e.document.tabStop ((e.document.content e.cursor.line).drop e.cursor.column)
  | .deleteBack => e.document.RoomBefore e.position
  | .deleteForward => e.cursor.line + 1 < Size.limit ∧ e.document.RoomBehind e.position
  | .moveRight => e.cursor.column < e.document.lineSize e.cursor.line ∨ e.cursor.line + 1 < Size.limit
  | .pageUp => e.view.rows ≠ Size.textLimit
  | .pageDown => e.view.top + (e.view.rows - 1) < Size.limit
  | _ => True

def obey (e : Editor) (order : Command × Except Fault Unit) : Except Impasse Editor :=
  (e.execute order.1).map fun reaction => (reaction.settle order.2).1

theorem flatOfAt {e : Editor} {s : Spot} (here : e.At s) : e.flat = s.text := by
  rw [flat,here.position,Document.flatAt here.contents,Document.offsetAt here.contents]
  rfl

structure Obeyed (e : Editor) (command : Command) (run : Except Impasse Editor) : Prop where
  sound : ∀ {after}, run = .ok after → after.Inside ∧ command.Acts e.flat after.flat
  language : ∀ {after}, run = .ok after → after.document.language = e.document.language
  answers : Language.Marked e.document.language → Answers run (e.Able command)

theorem obeyedReaching {e : Editor} {s t : Spot} {command : Command} {run : Except Impasse Editor}
    {able : Prop} (here : e.At s) (reaches : e.Reaches run able t) (same : able ↔ e.Able command)
    (acts : command.Acts s.text t.text) : e.Obeyed command (run.map rest) := by
  have rested := reachesRest reaches
  refine ⟨?_,rested.language,fun marked => answersIff same (rested.answers marked)⟩
  intro after ok
  have there := rested.sound ok
  rw [flatOfAt here,flatOfAt there]
  exact ⟨atInside there,acts⟩

theorem obeyedThrough {e : Editor} {command : Command} {run : Except Impasse Editor}
    {finish : Editor → Editor} (outcome : Except Fault Unit)
    (obeyed : e.Obeyed command (run.map finish)) :
    e.Obeyed command ((run.bind fun after => .ok (Reaction.done (finish after) false)).map
      fun reaction => (reaction.settle outcome).1) := by
  cases run <;> exact obeyed

theorem obeyedOnce {e after : Editor} {command : Command} (inside : after.Inside)
    (acts : command.Acts e.flat after.flat) (language : after.document.language = e.document.language)
    (able : e.Able command) : e.Obeyed command (.ok after) := by
  refine ⟨?_,?_,fun _ => answersIff ⟨fun _ => able,fun _ => trivial⟩ (answersOk after)⟩
  · intro last ok
    cases Except.ok.inj ok
    exact ⟨inside,acts⟩
  · intro last ok
    cases Except.ok.inj ok
    exact language

theorem sameText {e after : Editor} (same : after.document.contents = e.document.contents) :
    after.flat.bytes = e.flat.bytes := by
  simp only [flat,Document.flat,same]

theorem landObeyed {e : Editor} {command : Command} {run : Except Impasse Editor} (inside : e.Inside)
    (lands : ∀ {after}, run = .ok after → ∃ line, after = e.land line)
    (acts : ∀ {after : Editor}, after.flat.bytes = e.flat.bytes → command.Acts e.flat after.flat)
    (answers : Answers run (e.Able command)) : e.Obeyed command (run.map id) := by
  rw [Except.map_id]
  refine ⟨?_,?_,fun _ => answers⟩
  · intro after ok
    obtain ⟨line,rfl⟩ := lands ok
    exact ⟨landInside (Document.insideNonempty inside) line,acts (sameText rfl)⟩
  · intro after ok
    obtain ⟨line,rfl⟩ := lands ok
    rfl

theorem moveLeftObeyed {e : Editor} {s : Spot} (here : e.At s) :
    e.Obeyed .moveLeft (.ok e.moveLeft.rest) := by
  rcases Spot.crossedInto s with start | ⟨t,b,gap,crossing⟩
  · have there := restAt here
    rw [moveLeftStart here start]
    refine obeyedOnce (atInside there) ?_ rfl trivial
    rw [flatOfAt here,flatOfAt there]
    change s.text = ⟨s.text.bytes, s.text.offset - 1⟩
    simp [Spot.text,start]
  · have there := restAt (moveLeftAt crossing here)
    refine obeyedOnce (atInside there) ?_ (congrArg Document.language (moveLeftDocument e)) trivial
    rw [flatOfAt here,flatOfAt there,Spot.crossActs crossing]
    rfl

theorem moveRightObeyed {e : Editor} {s : Spot} (here : e.At s) :
    e.Obeyed .moveRight (e.moveRight.map rest) := by
  rcases Spot.crossedFrom s with finish | ⟨b,t,gap,crossing⟩
  · refine obeyedReaching here (moveRightEnd here finish) Iff.rfl ?_
    change s.text = ⟨s.text.bytes, min (s.text.offset + 1) s.text.bytes.length⟩
    simp [Spot.text,finish]
  · refine obeyedReaching here (moveRightReaches crossing here) Iff.rfl ?_
    have within := Spot.crossWithin crossing
    rw [Spot.crossActs crossing]
    change _ = FlatText.mk s.text.bytes (min (s.text.offset + 1) s.text.bytes.length)
    rw [Nat.min_eq_left within]

theorem typeObeyed {e : Editor} {s : Spot} (here : e.At s) (b : UInt8) :
    e.Obeyed (.insert b) ((e.type b).map rest) := by
  obtain ⟨line,column⟩ := positionOf here
  refine obeyedReaching here (typeReaches here b) ?_
    (Spot.insertActs (.byte s.above s.left b s.right s.below))
  change _ ↔ Fits e.document.tabStop ((e.document.content e.cursor.line).insertIdx e.cursor.column b)
  rw [List.forall_mem_singleton,line,column,Document.spotContent here.contents,insertIdxMiddle,
    List.append_assoc,List.singleton_append]

theorem breakLineObeyed {e : Editor} {s : Spot} (here : e.At s) :
    e.Obeyed .insertNewline (e.breakLine.map rest) := by
  obtain ⟨line,column⟩ := positionOf here
  refine obeyedReaching here (breakLineReaches here) ?_
    (Spot.insertActs (.line s.above s.left s.right s.below))
  change _ ↔ Fits e.document.tabStop ((e.document.content e.cursor.line).take e.cursor.column) ∧
    Fits e.document.tabStop ((e.document.content e.cursor.line).drop e.cursor.column)
  rw [List.forall_mem_cons,List.forall_mem_singleton,line,column,Document.spotContent here.contents,
    List.take_left,List.drop_left]

theorem deleteBackObeyed {e : Editor} {t : Spot} (here : e.At t) :
    e.Obeyed .deleteBack (e.deleteBack.map rest) := by
  rcases Spot.crossedInto t with start | ⟨s,b,gap,crossing⟩
  · have there := restAt here
    obtain ⟨above,left⟩ := Spot.atStart start
    rw [deleteBackStart here start]
    refine obeyedOnce (atInside there) ?_ rfl ?_
    · rw [flatOfAt here,flatOfAt there]
      exact (if_pos (by simp [Spot.text,start])).symm
    · change e.document.RoomBefore e.position
      rw [here.position,Spot.position,above,left]
      trivial
  · have acts := Spot.deleteActs crossing
    have cross := Spot.crossActs crossing
    refine obeyedReaching here (deleteBackReaches crossing here) ?_ ?_
    · change _ ↔ e.document.RoomBefore e.position
      rw [List.forall_mem_singleton,here.position,Document.roomBeforeAt crossing here.contents]
    · rw [acts,cross]
      exact (if_neg (Nat.succ_ne_zero _)).symm

theorem deleteForwardObeyed {e : Editor} {s : Spot} (here : e.At s) :
    e.Obeyed .deleteForward (e.deleteForward.map rest) := by
  rcases Spot.crossedFrom s with finish | ⟨b,t,gap,crossing⟩
  · refine obeyedReaching here (deleteForwardEnd here finish) ?_ ?_
    · change _ ↔ e.cursor.line + 1 < Size.limit ∧ e.document.RoomBehind e.position
      rw [here.position,and_iff_left (Document.roomBehindEnd here.contents finish)]
    · exact (if_pos (by simp [Spot.text,finish])).symm
  · refine obeyedReaching here (deleteForwardReaches crossing here) ?_ ?_
    · change _ ↔ e.cursor.line + 1 < Size.limit ∧ e.document.RoomBehind e.position
      rw [List.forall_mem_singleton,here.position,Document.roomBehindAt crossing here.contents]
    · rw [Spot.deleteActs crossing]
      exact (if_neg (Nat.ne_of_lt (Spot.crossWithin crossing))).symm

theorem obeyObeyed {e : Editor} (inside : e.Inside) (command : Command)
    (outcome : Except Fault Unit) : e.Obeyed command (e.obey (command, outcome)) := by
  obtain ⟨s,here⟩ := insideAt inside
  have nonempty := Document.insideNonempty inside
  cases command with
  | moveLeft => exact moveLeftObeyed here
  | moveRight => exact obeyedThrough outcome (moveRightObeyed here)
  | insert b => exact obeyedThrough outcome (typeObeyed here b)
  | insertNewline => exact obeyedThrough outcome (breakLineObeyed here)
  | deleteBack => exact obeyedThrough outcome (deleteBackObeyed here)
  | deleteForward => exact obeyedThrough outcome (deleteForwardObeyed here)
  | moveUp => exact obeyedOnce (landInside nonempty _) (sameText rfl) rfl trivial
  | moveDown => exact obeyedOnce (landInside nonempty _) (sameText rfl) rfl trivial
  | moveLineStart => exact obeyedOnce (restInside nonempty) (sameText rfl) rfl trivial
  | moveLineEnd => exact obeyedOnce (restInside nonempty) (sameText rfl) rfl trivial
  | pageUp => exact obeyedThrough outcome (landObeyed inside pageUpLands id (pageUpAnswers e))
  | pageDown => exact obeyedThrough outcome (landObeyed inside pageDownLands id (pageDownAnswers e))
  | save =>
    obtain ⟨stays,same,language⟩ := saveInside nonempty outcome
    exact obeyedOnce stays (sameText same) language trivial
  | find => exact obeyedOnce (restInside nonempty) (sameText rfl) rfl trivial
  | quit =>
    obtain ⟨document,cursor⟩ := quitKeeps e
    have stays : e.quit.1.Inside := by
      rw [Inside,position,document,cursor]
      exact inside
    have obeyed : e.Obeyed .quit (.ok e.quit.1) := obeyedOnce stays (sameText (by rw [document]))
      (by rw [document]) trivial
    exact obeyed
  | refresh => exact obeyedOnce (restInside nonempty) (sameText rfl) rfl trivial

theorem historyInside {start e : Editor} {history : List (Command × Except Fault Unit)}
    (inside : start.Inside) (ran : history.foldlM obey start = .ok e) : e.Inside := by
  refine foldKeeps ?_ inside ran
  intro before order after _ here ok
  exact ((obeyObeyed here order.1 order.2).sound ok).1

theorem commandsActOnFlatText {start e : Editor} {history : List (Command × Except Fault Unit)}
    (inside : start.Inside) (ran : history.foldlM obey start = .ok e) (command : Command)
    (outcome : Except Fault Unit) :
    e.Inside ∧ e.document.toBytes = e.flat.bytes ++ [Byte.newline] ∧
      (∀ after, e.obey (command, outcome) = .ok after → command.Acts e.flat after.flat) ∧
      (Language.Marked e.document.language →
        (e.Able command → ∃ after, e.obey (command, outcome) = .ok after) ∧
        (¬ e.Able command → ∃ overflow, e.obey (command, outcome) = .error (.overflow overflow))) := by
  have here := historyInside inside ran
  have obeyed := obeyObeyed here command outcome
  refine ⟨here,Document.toBytesFlat (Document.insideNonempty here),fun after ok => (obeyed.sound ok).2,?_⟩
  intro marked
  have answers := obeyed.answers marked
  exact ⟨answers.returns,answers.overflows⟩

theorem commandsActOnTwoLines :
    ∃ e after, [(Command.moveRight, Except.ok ()), (.insertNewline, .ok ()), (.insert 9, .ok ())].foldlM
        obey (start (.holding [[97, 98], [99]] 4) {} ⟨10, 20⟩) = .ok e ∧
      e.flat = ⟨[97, 10, 9, 98, 10, 99], 3⟩ ∧ e.obey (.deleteForward, .ok ()) = .ok after ∧
      after.flat = ⟨[97, 10, 9, 10, 99], 3⟩ := by
  have inside : (start (.holding [[97, 98], [99]] 4) {} ⟨10, 20⟩).Inside := ⟨by decide,by decide⟩
  obtain ⟨e,ran,text,language,tabStop,line,column,size,content⟩ : ∃ e, [(Command.moveRight, Except.ok ()),
      (.insertNewline, .ok ()), (.insert 9, .ok ())].foldlM obey
        (start (.holding [[97, 98], [99]] 4) {} ⟨10, 20⟩) = .ok e ∧
      e.flat = ⟨[97, 10, 9, 98, 10, 99], 3⟩ ∧ e.document.language = none ∧ e.document.tabStop = 4 ∧
      e.cursor.line = 1 ∧ e.cursor.column = 1 ∧ e.document.lineSize 1 = 2 ∧
      e.document.content 1 = [9, 98] := ⟨_,rfl,by decide,rfl,rfl,rfl,rfl,rfl,rfl⟩
  have able : e.Able .deleteForward := by
    change e.cursor.line + 1 < Size.limit ∧ e.document.RoomBehind e.position
    rw [Document.RoomBehind,position,line,column,size,content,tabStop,if_pos (by decide)]
    exact ⟨by decide,by rw [Fits]; decide⟩
  obtain ⟨_,_,acts,total⟩ := commandsActOnFlatText inside ran .deleteForward (.ok ())
  obtain ⟨after,done⟩ := (total (language ▸ Language.unmarkedNone)).1 able
  have acted : after.flat = _ := acts after done
  rw [text,if_neg (by decide)] at acted
  exact ⟨e,after,ran,text,done,acted⟩

theorem wideTabNotInserted :
    ¬ ∀ (doc : Document) (settings : Settings) (window : Window) (command : Command)
      (outcome : Except Fault Unit), let e := start doc settings window
      e.Inside → ∃ after, e.obey (command, outcome) = .ok after ∧ command.Acts e.flat after.flat := by
  intro always
  obtain ⟨after,done,_⟩ := always (.holding [[97, 98]] 18446744073709551615) {} ⟨10, 20⟩ (.insert Byte.tab)
    (.ok ()) ⟨by decide,by decide⟩
  have refused : (start (.holding [[97, 98]] 18446744073709551615) {} ⟨10, 20⟩).obey
      (.insert Byte.tab, .ok ()) = .error (.overflow .sum) := rfl
  cases refused.symm.trans done

end Editor
end Vellum
