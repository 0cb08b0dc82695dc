import Vellum.Proofs.KeyStream
import Vellum.Proofs.Quitting
import Vellum.Proofs.Reopening

/-! Where the bytes of a text come from. Lines are broken and joined, searched and saved,
but a byte stands in them only if it was loaded, or if it was typed, once for each time
it stands there. The newline is no exception: no line is loaded with one, and the Enter
key types none. A newline that arrives as such is typed like any other byte, and lines
with one in them are not read back as they were written. -/
namespace Vellum

def Event.typed (events : List Event) : Bytes := (Event.pressed events).filterMap Key.literal?

def Command.typed : Command → Bytes
  | .insert b => [b]
  | _ => []

theorem commandTyped {key : Key} {command : Command} (asked : key.command? = some command) :
    command.typed = key.literal?.toList := by
  cases key with
  | literal b =>
    cases Option.some.inj asked
    rfl
  | action a => cases a <;> cases asked <;> rfl

namespace Document

structure SameLayout (doc after : Document) : Prop where
  tabStop : after.tabStop = doc.tabStop
  layout : after.lines.map Line.layout = doc.lines.map Line.layout

structure Fed (typed : Bytes) (doc after : Document) : Prop where
  laid : doc.Laid → after.Laid
  bytes : ∀ b, after.contents.flatten.count b ≤ doc.contents.flatten.count b + typed.count b

theorem contentsOfLayout {doc after : Document} (same : doc.SameLayout after) :
    after.contents = doc.contents := by
  have contents := congrArg (List.map fun layout => layout.2.1) same.layout
  simp only [List.map_map] at contents
  exact contents

theorem sameLayoutFed {doc after : Document} (same : doc.SameLayout after) (typed : Bytes) :
    Fed typed doc after where
  laid := fun laid => laidSame laid same.tabStop same.layout
  bytes := fun b => by
    rw [contentsOfLayout same]
    exact Nat.le_add_right _ _

theorem sameLayoutRefl (doc : Document) : doc.SameLayout doc := ⟨rfl,rfl⟩

theorem fedTrans {doc middle after : Document} {first second : Bytes} (fed : Fed first doc middle)
    (later : Fed second middle after) : Fed (first ++ second) doc after where
  laid := fun laid => later.laid (fed.laid laid)
  bytes := fun b => by
    have before := fed.bytes b
    have behind := later.bytes b
    rw [List.count_append]
    omega

theorem setPathLayout (doc : Document) (path : String) : doc.SameLayout (doc.setPath path) := by
  obtain ⟨lines,painted,same⟩ := setLanguageOk (doc.setPathOk path)
  have layout := layoutRepaint painted
  rw [List.map_map] at layout
  rw [same]
  exact ⟨rfl,layout⟩

theorem markedLayout (doc : Document) (query : Bytes) (found : Option Position) :
    doc.SameLayout (doc.marked query found) where
  tabStop := rfl
  layout := by
    apply List.ext_getElem?
    intro i
    simp only [List.getElem?_map,markedAt,Option.map_map]
    rfl

theorem sameLayoutVia {base doc after : Document} (left : base.SameLayout doc)
    (right : base.SameLayout after) : doc.SameLayout after where
  tabStop := right.tabStop.trans left.tabStop.symm
  layout := right.layout.trans left.layout.symm

theorem loadedFree {doc : Document} (loaded : doc.Loaded) : ∀ c ∈ doc.contents, Byte.newline ∉ c := by
  obtain ⟨bytes,tabStop,_,rfl | ⟨path,rfl⟩⟩ := loadedHolding loaded
  · rw [contentsOfHolding]
    exact fun c => splitLinesFree
  · rw [contentsOfSetPath,contentsOfHolding]
    exact fun c => splitLinesFree

theorem freeCount {contents : List Bytes} :
    contents.flatten.count Byte.newline = 0 ↔ ∀ c ∈ contents, Byte.newline ∉ c := by
  rw [List.count_eq_zero]
  constructor
  · intro free c member inside
    exact free (List.mem_flatten.mpr ⟨c,member,inside⟩)
  · intro free inside
    obtain ⟨c,member,stands⟩ := List.mem_flatten.mp inside
    exact free c member stands

theorem readBackFree {doc again : Document} (read : ofBytes doc.toBytes doc.tabStop = .ok again)
    (same : again.contents = doc.contents) : ∀ c ∈ doc.contents, Byte.newline ∉ c := by
  rw [← same,ofContentsOk read,contentsOfHolding]
  exact fun c => splitLinesFree

theorem freeReadBack {doc : Document} (laid : doc.Laid) (nonempty : 0 < doc.count)
    (free : ∀ c ∈ doc.contents, Byte.newline ∉ c) :
    ∃ again, ofBytes doc.toBytes doc.tabStop = .ok again ∧ again.contents = doc.contents := by
  rw [countContents] at nonempty
  have read := ofBytesWritten (List.ne_nil_of_length_pos nonempty) free (laidFits laid)
  exact ⟨_,read,contentsOfHolding _ _⟩

end Document

theorem Spot.crossingCount {s t gap : Spot} {b : UInt8} (crossing : Crossing s b t gap) (x : UInt8) :
    gap.contents.flatten.count x ≤ t.contents.flatten.count x := by
  cases crossing with
  | byte above left b right below =>
    simp only [contents,List.flatten_append,List.flatten_cons,List.count_append]
    omega
  | line above left right below =>
    simp only [contents,List.flatten_append,List.flatten_cons,List.flatten_nil,List.count_append,
      List.count_nil]
    omega

namespace Editor
open Document

section
variable {e after : Editor} {s : Spot} (here : e.At s)
include here

theorem typeFed {b : UInt8} (ok : e.type b = .ok after) : Fed [b] e.document after.document := by
  have there := (typeReaches here b).sound ok
  refine ⟨?_,?_⟩
  · intro laid
    obtain ⟨⟨document,done⟩,inserted,last⟩ := bindOk ok
    cases Except.ok.inj last
    have kept := insertByteLaid laid inserted
    split
    · exact kept
    · exact kept
  · intro x
    rw [there.contents,here.contents]
    simp only [Spot.contents,List.flatten_append,List.flatten_cons,List.count_append]
    omega

theorem breakLineFed (ok : e.breakLine = .ok after) : Fed [] e.document after.document := by
  have there := (breakLineReaches here).sound ok
  refine ⟨?_,?_⟩
  · intro laid
    obtain ⟨⟨document,done⟩,broken,last⟩ := bindOk ok
    cases Except.ok.inj last
    have kept := insertNewlineLaid laid broken
    split
    · exact kept
    · exact kept
  · intro x
    rw [there.contents,here.contents]
    simp only [Spot.contents,List.flatten_append,List.flatten_cons,List.flatten_nil,List.count_append,
      List.count_nil]
    omega

theorem deleteBackFed (ok : e.deleteBack = .ok after) : Fed [] e.document after.document := by
  refine ⟨?_,?_⟩
  · intro laid
    obtain ⟨⟨document,gap⟩,deleted,last⟩ := bindOk ok
    cases Except.ok.inj last
    have kept := deleteByteLaid laid deleted
    split
    · exact kept
    · exact kept
  · intro x
    rcases Spot.crossedInto s with start | ⟨t,b,gap,crossing⟩
    · cases Except.ok.inj (ok.symm.trans (deleteBackStart here start))
      exact Nat.le_add_right _ _
    · rw [((deleteBackReaches crossing here).sound ok).contents,here.contents]
      exact Nat.le_add_right_of_le (Spot.crossingCount crossing x)

end

theorem moveRightKeeps {e after : Editor} (ok : e.moveRight = .ok after) :
    after.document = e.document := by
  unfold moveRight at ok
  split at ok
  · cases Except.ok.inj ok
    rfl
  · obtain ⟨next,_,last⟩ := bindOk ok
    cases Except.ok.inj last
    split
    · rfl
    · rfl

theorem deleteForwardFed {e after : Editor} (inside : e.Inside) (ok : e.deleteForward = .ok after) :
    Fed [] e.document after.document := by
  obtain ⟨next,_,ok⟩ := bindOk ok
  split at ok
  · cases Except.ok.inj ok
    exact sameLayoutFed (sameLayoutRefl _) []
  · obtain ⟨moved,right,ok⟩ := bindOk ok
    obtain ⟨gone,deleted,last⟩ := bindOk ok
    cases Except.ok.inj last
    have same := moveRightKeeps right
    have nonempty : 0 < moved.document.count := by
      rw [same]
      exact insideNonempty inside
    obtain ⟨s,there⟩ := insideAt (restInside nonempty)
    have fed := deleteBackFed there deleted
    rw [← same]
    exact fed

theorem saveLayout (e : Editor) (outcome : Except Fault Unit) :
    e.document.SameLayout (e.save.settle outcome).1.document := by
  unfold save
  split
  · cases outcome with
    | ok done => exact ⟨rfl,rfl⟩
    | error fault => exact ⟨rfl,rfl⟩
  · exact ⟨rfl,rfl⟩

theorem obeyFed {e after : Editor} {command : Command} {outcome : Except Fault Unit} (inside : e.Inside)
    (ok : e.obey (command, outcome) = .ok after) : Fed command.typed e.document after.document := by
  obtain ⟨s,here⟩ := insideAt inside
  have same (typed : Bytes) : Fed typed e.document e.document := sameLayoutFed (sameLayoutRefl _) typed
  cases command with
  | insert b =>
    obtain ⟨last,typed,rfl⟩ := finishedBy ok
    have fed := typeFed here typed
    exact fed
  | insertNewline =>
    obtain ⟨last,broken,rfl⟩ := finishedBy ok
    have fed := breakLineFed here broken
    exact fed
  | deleteBack =>
    obtain ⟨last,deleted,rfl⟩ := finishedBy ok
    have fed := deleteBackFed here deleted
    exact fed
  | deleteForward =>
    obtain ⟨last,deleted,rfl⟩ := finishedBy ok
    have fed := deleteForwardFed inside deleted
    exact fed
  | moveRight =>
    obtain ⟨last,moved,rfl⟩ := finishedBy ok
    have kept := moveRightKeeps moved
    change Fed [] e.document last.document
    rw [kept]
    exact same []
  | pageUp =>
    obtain ⟨last,moved,rfl⟩ := @finishedBy _ id _ _ ok
    obtain ⟨line,rfl⟩ := pageUpLands moved
    exact same []
  | pageDown =>
    obtain ⟨last,moved,rfl⟩ := @finishedBy _ id _ _ ok
    obtain ⟨line,rfl⟩ := pageDownLands moved
    exact same []
  | moveLeft =>
    cases Except.ok.inj ok
    have kept : e.moveLeft.rest.document = e.document := by
      unfold moveLeft
      split <;> rfl
    change Fed [] e.document e.moveLeft.rest.document
    rw [kept]
    exact same []
  | save =>
    cases Except.ok.inj ok
    exact sameLayoutFed (saveLayout e outcome) []
  | quit =>
    cases Except.ok.inj ok
    have kept := (quitKeeps e).1
    change Fed [] e.document e.quit.1.document
    rw [kept]
    exact same []
  | moveUp | moveDown | moveLineStart | moveLineEnd | find | refresh =>
    cases Except.ok.inj ok
    exact same []

theorem nameKeyLayout (e : Editor) (key : Key) (outcome : Except Fault Unit) :
    e.document.SameLayout ((e.nameKey key).settle outcome).1.document := by
  have same := sameLayoutRefl e.document
  unfold nameKey
  split
  · exact same
  · exact same
  · split
    · exact same
    · cases outcome with
      | ok done =>
        have kept := setPathLayout e.document.saved (Utf8.decodeLossy e.prompt)
        exact ⟨kept.tabStop,kept.layout⟩
      | error fault => exact same
  · exact same
  · exact same
  · split
    · exact same
    · exact same

theorem searchKeyLayout {origin e : Editor} {search : Search} (running : Searching origin search e)
    (key : Key) : e.document.SameLayout (e.searchKey search key).document := by
  have before := markedLayout origin.document search.query search.found
  rw [← running.shows.document] at before
  have back : origin.document.SameLayout (e.endSearch search).document := by
    rw [endSearchGives running]
    exact ⟨rfl,rfl⟩
  apply sameLayoutVia before
  cases ends : key.endsSearch with
  | false =>
    obtain ⟨next,still⟩ := searchKeyRuns running ends
    rw [still.shows.document]
    exact markedLayout _ _ _
  | true =>
    unfold Key.endsSearch at ends
    split at ends
    · exact back
    · exact back
    · exact back
    · cases ends

theorem keyFed {e after : Editor} {key : Key} {outcome : Except Fault Unit} (steady : e.Steady)
    (ok : e.handle (.key key outcome) = .ok after) :
    Fed key.literal?.toList e.document after.document := by
  cases steady with
  | searching running =>
    rw [handleSearching running] at ok
    cases Except.ok.inj ok
    exact sameLayoutFed (searchKeyLayout running key) _
  | calm calm =>
    have typed (typing : e.mode = .editing ∨ e.mode = .confirmQuit) :
        Fed key.literal?.toList e.document after.document := by
      obtain ⟨mode,presses,notice,same⟩ := unconfirmed e key
      rw [handleTyping typing,same] at ok
      cases asked : key.command? with
      | none =>
        rw [asked] at ok
        cases Except.ok.inj ok
        exact sameLayoutFed (sameLayoutRefl _) _
      | some command =>
        rw [asked] at ok
        have inside : { e with mode, pressesLeft := presses, notice }.Inside := calm.inside
        rw [← commandTyped asked]
        have fed := obeyFed inside ok
        exact fed
    cases mode : e.mode with
    | editing => exact typed (.inl mode)
    | confirmQuit => exact typed (.inr mode)
    | namePrompt =>
      rw [handleKey,react,mode] at ok
      cases Except.ok.inj ok
      exact sameLayoutFed (nameKeyLayout e key outcome) _
    | searchPrompt => exact absurd mode calm.mode

theorem eventFed {e after : Editor} {event : Event} (steady : e.Steady)
    (ok : e.handle event = .ok after) : Fed (Event.typed [event]) e.document after.document := by
  rcases handleOther ok with ⟨key,outcome,rfl⟩ | ⟨view,now,rfl⟩
  · have fed := keyFed steady ok
    cases key with
    | literal b => exact fed
    | action a => exact fed
  · exact sameLayoutFed (sameLayoutRefl _) _

theorem typedCons (event : Event) (events : List Event) :
    Event.typed (event :: events) = Event.typed [event] ++ Event.typed events := by
  simp only [Event.typed,Event.pressed,← List.filterMap_append,List.singleton_append]

theorem sessionFed {e after : Editor} {events : List Event} (steady : e.Steady)
    (ran : events.foldlM handle e = .ok after) : Fed (Event.typed events) e.document after.document := by
  induction events generalizing e with
  | nil =>
    cases Except.ok.inj ran
    exact sameLayoutFed (sameLayoutRefl _) _
  | cons event events ih =>
    obtain ⟨next,first,later⟩ := bindOk ran
    rw [typedCons]
    exact fedTrans (eventFed steady first) (ih (handleSteady steady first) later)

theorem lineNewlinesTyped {doc : Document} {settings : Settings} {window : Window} {now : Nat}
    {events : List Event} {e : Editor} {script : Script} (loaded : doc.Loaded)
    (read : Event.pressed events = (readKeys script).map Prod.fst)
    (ran : events.foldlM handle (start doc settings window now) = .ok e) :
    (Event.typed events).Sublist (script.filterMap id) ∧
      e.document.contents.flatten.count Byte.newline ≤ (Event.typed events).count Byte.newline ∧
      (Byte.newline ∉ Event.typed events → ∀ c ∈ e.document.contents, Byte.newline ∉ c) ∧
      ((∀ c ∈ e.document.contents, Byte.newline ∉ c) ↔
        ∃ again, ofBytes e.document.toBytes e.document.tabStop = .ok again ∧
          again.contents = e.document.contents) := by
  have fed := sessionFed (.calm (startCalm loaded settings window now)) ran
  have literals := literalsRead .idle script
  have count := fed.bytes Byte.newline
  have none : doc.contents.flatten.count Byte.newline = 0 := freeCount.mpr (loadedFree loaded)
  change _ ≤ doc.contents.flatten.count Byte.newline + _ at count
  rw [none,Nat.zero_add] at count
  refine ⟨?_,count,?_,?_,?_⟩
  · rw [Event.typed,read,List.filterMap_map]
    exact literals
  · intro absent
    rw [List.count_eq_zero.mpr absent] at count
    exact freeCount.mp (Nat.le_zero.mp count)
  · have inside := steadyInside (sessionSteady loaded ran)
    exact freeReadBack (fed.laid (loadedLaid loaded)) (insideNonempty inside)
  · rintro ⟨again,back,same⟩
    exact readBackFree back same

theorem lineNewlinesTypedNone :
    let script := [some 97, some 27, some 10, none, some 9, some 13, some 98]
    let events := ((readKeys script).map Prod.fst).map fun key => Event.key key (.ok ())
    ∃ e again, events.foldlM handle (start (.blank 8) {} ⟨12, 40⟩) = .ok e ∧
      e.document.contents = [[97, 9], [98]] ∧
      ofBytes e.document.toBytes e.document.tabStop = .ok again ∧
      again.contents = e.document.contents := by
  intro script events
  obtain ⟨e,ran,contents⟩ : ∃ e, events.foldlM handle (start (.blank 8) {} ⟨12, 40⟩) = .ok e ∧
      e.document.contents = [[97, 9], [98]] := ⟨_,rfl,rfl⟩
  have read : Event.pressed events = (readKeys script).map Prod.fst := rfl
  obtain ⟨_,_,free,reads⟩ := lineNewlinesTyped (.blank 8) read ran
  obtain ⟨again,back,same⟩ := reads.mp (free (by decide))
  exact ⟨e,again,ran,contents,back,same⟩

theorem newlineTypedIntoLine :
    ¬ ∀ (doc : Document) (settings : Settings) (window : Window) (now : Nat) (events : List Event)
      (e : Editor) (script : Script), doc.Loaded →
      Event.pressed events = (readKeys script).map Prod.fst →
      events.foldlM handle (start doc settings window now) = .ok e →
      (∀ c ∈ e.document.contents, Byte.newline ∉ c) ∨
        ∃ again, ofBytes e.document.toBytes e.document.tabStop = .ok again ∧
          again.contents = e.document.contents := by
  intro survives
  let script : Script := [some 97, some 10, some 98]
  let events := ((readKeys script).map Prod.fst).map fun key => Event.key key (.ok ())
  obtain ⟨e,again,ran,contents,back,other⟩ : ∃ e again,
      events.foldlM handle (start (.blank 8) {} ⟨12, 40⟩) = .ok e ∧
      e.document.contents = [[97, 10, 98]] ∧
      ofBytes e.document.toBytes e.document.tabStop = .ok again ∧
      again.contents = [[97], [98]] := ⟨_,_,rfl,rfl,rfl,rfl⟩
  rcases survives _ _ _ _ events e script (.blank 8) rfl ran with free | ⟨found,read,same⟩
  · rw [contents] at free
    exact free _ (.head _) (by decide)
  · cases Except.ok.inj (back.symm.trans read)
    rw [other,contents] at same
    cases same

end Editor
end Vellum
