import Vellum.Proofs.Quitting

/-! The same keys in two windows. Paging is measured by the screen; no other key is, so
an editor that was drawn, scrolled and given new sizes at other times answers it the same
way. The screen also leaves a trace in a running search, which remembers what was shown
when it began. To see that nothing comes back from there, all of it is wiped out: a key
does to the wiped editor what it does to the whole one. -/
namespace Vellum

def Key.pages : Key → Bool
  | .action .pageUp | .action .pageDown => true
  | _ => false

def Event.stroke? : Event → Option (Key × Except Fault Unit)
  | .key pressed outcome => some (pressed, outcome)
  | _ => none

def Event.strokes (events : List Event) : List (Key × Except Fault Unit) :=
  events.filterMap Event.stroke?

def Viewport.nowhere : Viewport := ⟨0, 0, 0, 0⟩

namespace Search

def wiped (search : Search) : Search := { search with view := .nowhere }

theorem uncoverWiped (search : Search) (doc : Document) :
    search.wiped.uncover doc = ((search.uncover doc).1.wiped, (search.uncover doc).2) := by
  obtain ⟨query,found,covered,cursor,view⟩ := search
  cases covered with
  | none => rfl
  | some pair => rfl

theorem coverWiped (search : Search) (doc : Document) (pos : Position) :
    search.wiped.cover doc pos = ((search.cover doc pos).1.wiped, (search.cover doc pos).2) := by
  unfold cover
  cases doc.lines[pos.line]? with
  | none => rfl
  | some line => rfl

theorem runWiped (search : Search) (doc : Document) (direction : Direction) (inclusive : Bool) :
    search.wiped.run doc direction inclusive =
      ((search.run doc direction inclusive).1.wiped, (search.run doc direction inclusive).2) := by
  simp only [run,uncoverWiped]
  generalize search.uncover doc = bare
  cases met : bare.2.find bare.1.query bare.1.found direction inclusive with
  | none => simp only [wiped,met]
  | some pos =>
    simp only [wiped,met]
    exact coverWiped { bare.1 with found := some pos } bare.2 pos

end Search

namespace Editor

/- The editor without anything that comes from the screen or the clock. -/
def wiped (e : Editor) : Editor :=
  { e with view := .nowhere, notice := none, search := e.search.map Search.wiped, now := 0 }

structure Gist where
  document : Document
  cursor : Cursor
  mode : Mode
  prompt : Bytes
  search : Option (Bytes × Option Position)
  deriving DecidableEq, Repr

def gist (e : Editor) : Gist :=
  ⟨e.document, e.cursor, e.mode, e.prompt, e.search.map fun search => (search.query, search.found)⟩

@[simp] theorem wipedDocument (e : Editor) : e.wiped.document = e.document := rfl

@[simp] theorem wipedCursor (e : Editor) : e.wiped.cursor = e.cursor := rfl

@[simp] theorem wipedPosition (e : Editor) : e.wiped.position = e.position := rfl

@[simp] theorem wipedMode (e : Editor) : e.wiped.mode = e.mode := rfl

@[simp] theorem wipedPrompt (e : Editor) : e.wiped.prompt = e.prompt := rfl

@[simp] theorem wipedTwice (e : Editor) : e.wiped.wiped = e.wiped := by
  simp only [wiped,Option.map_map]
  rfl

theorem gistWiped (e : Editor) : e.wiped.gist = e.gist := by
  simp only [gist,wiped,Option.map_map]
  rfl

theorem restWiped (e : Editor) : e.wiped.rest = e.rest.wiped := rfl

theorem moveLeftWiped (e : Editor) : e.wiped.moveLeft = e.moveLeft.wiped := by
  simp only [moveLeft,wipedCursor,wipedDocument]
  split <;> rfl

theorem moveRightWiped (e : Editor) : e.wiped.moveRight = e.moveRight.map wiped := by
  by_cases within : e.cursor.column < e.document.lineSize e.cursor.line
  · simp only [moveRight,wipedCursor,wipedDocument,within,if_true]
    rfl
  · simp only [moveRight,wipedCursor,wipedDocument,within,if_false]
    cases Size.add e.cursor.line 1 with
    | error overflow => rfl
    | ok next =>
      by_cases further : next < e.document.count <;> simp only [bind,Except.bind,further] <;> rfl

theorem typeWiped (e : Editor) (b : UInt8) : e.wiped.type b = (e.type b).map wiped := by
  simp only [type,wipedPosition,wipedDocument]
  cases e.document.insertByte e.position b with
  | error overflow => rfl
  | ok out => cases out with | mk document done => cases done <;> rfl

theorem breakLineWiped (e : Editor) : e.wiped.breakLine = e.breakLine.map wiped := by
  simp only [breakLine,wipedPosition,wipedDocument]
  cases e.document.insertNewline e.position with
  | error overflow => rfl
  | ok out => cases out with | mk document done => cases done <;> rfl

theorem deleteBackWiped (e : Editor) : e.wiped.deleteBack = e.deleteBack.map wiped := by
  simp only [deleteBack,wipedPosition,wipedDocument]
  cases e.document.deleteByte e.position with
  | error overflow => rfl
  | ok out => cases out with | mk document gap => cases gap <;> rfl

theorem deleteForwardWiped (e : Editor) : e.wiped.deleteForward = e.deleteForward.map wiped := by
  simp only [deleteForward,wipedCursor,wipedDocument,moveRightWiped]
  cases Size.add e.cursor.line 1 with
  | error overflow => rfl
  | ok next =>
    simp only [bind,Except.bind]
    split
    · rfl
    · cases e.moveRight with
      | error overflow => rfl
      | ok moved =>
        simp only [Except.map,restWiped,deleteBackWiped]
        cases moved.rest.deleteBack <;> rfl

def told (outcome : Except Fault Unit) (run : Except Impasse Reaction) :
    Except Impasse (Editor × Bool) :=
  run.map fun reaction => ((reaction.settle outcome).1.wiped, (reaction.settle outcome).2)

theorem toldRest {run other : Except Impasse Editor} (same : other = run.map wiped)
    (outcome : Except Fault Unit) :
    told outcome (other.bind fun e => .ok (.done e.rest false)) =
      told outcome (run.bind fun e => .ok (.done e.rest false)) := by
  subst same
  cases run with
  | error overflow => rfl
  | ok e => simp only [Except.map,Except.bind,told,Reaction.settle,restWiped,wipedTwice]

theorem storedWiped (e : Editor) (document : Document) (outcome : Except Fault Unit) :
    (e.wiped.stored document outcome).wiped = (e.stored document outcome).wiped := by
  cases outcome with
  | ok done => simp only [stored,wiped,notify,Option.map_map]; rfl
  | error fault => simp only [stored,wiped,notify,Option.map_map]; rfl

theorem saveWiped (e : Editor) (outcome : Except Fault Unit) :
    told outcome (.ok e.wiped.save) = told outcome (.ok e.save) := by
  simp only [save,wipedDocument]
  cases e.document.path with
  | some path =>
    simp only [told,Except.map,Reaction.settle]
    rw [← restWiped,storedWiped,restWiped]
  | none =>
    change Except.ok (e.askName.rest.wiped.wiped, false) = .ok (e.askName.rest.wiped, false)
    rw [wipedTwice]

def countdown (e : Editor) : Nat :=
  (if e.mode = .confirmQuit then e.pressesLeft else e.settings.quitPresses) - 1

theorem quitCounts {e : Editor} (dirty : e.document.isDirty = true) :
    e.quit.1.wiped = { e.wiped with mode := .confirmQuit, pressesLeft := e.countdown } ∧
      e.quit.2 = decide (e.countdown = 0) := by
  unfold quit countdown
  rw [if_pos dirty]
  by_cases confirming : e.mode = .confirmQuit
  · simp only [if_pos confirming]
    split
    · rename_i spent
      simp [spent,wiped,confirming]
    · rename_i more
      simp [more,wiped,confirming,notify]
  · simp only [if_neg confirming]
    split
    · rename_i spent
      simp [spent,wiped]
    · rename_i more
      simp [more,wiped,notify]

theorem quitWiped (e : Editor) (outcome : Except Fault Unit) :
    told outcome (.ok (.done e.wiped.quit.1 e.wiped.quit.2)) =
      told outcome (.ok (.done e.quit.1 e.quit.2)) := by
  simp only [told,Except.map,Reaction.settle]
  by_cases dirty : e.document.isDirty = true
  · obtain ⟨after,leaves⟩ := quitCounts dirty
    obtain ⟨after',leaves'⟩ := @quitCounts e.wiped dirty
    rw [after,leaves,after',leaves',wipedTwice]
    rfl
  · have clean := Bool.eq_false_iff.mpr dirty
    rw [quitClean clean,@quitClean e.wiped clean,wipedTwice]

theorem toldDone {e other : Editor} (same : other.wiped = e.wiped) (left : Bool)
    (outcome : Except Fault Unit) :
    told outcome (.ok (.done other left)) = told outcome (.ok (.done e left)) := by
  simp only [told,Except.map,Reaction.settle,same]

theorem executeWiped (e : Editor) {command : Command} (up : command ≠ .pageUp)
    (down : command ≠ .pageDown) (outcome : Except Fault Unit) :
    told outcome (e.wiped.execute command) = told outcome (e.execute command) := by
  -- Most commands act on what is not wiped, so that wiping before and after comes to wiping twice.
  cases command with
  | moveLeft =>
    simp only [execute,moveLeftWiped,restWiped]
    exact toldDone (wipedTwice _) false outcome
  | moveRight => exact toldRest (moveRightWiped e) outcome
  | moveUp => exact toldDone (wipedTwice (e.moveBy (-1))) false outcome
  | moveDown => exact toldDone (wipedTwice (e.moveBy 1)) false outcome
  | moveLineStart => exact toldDone (wipedTwice (e.setPosition ⟨e.cursor.line, 0⟩).rest) false outcome
  | moveLineEnd =>
    exact toldDone (wipedTwice (e.setPosition ⟨e.cursor.line, e.document.lineSize e.cursor.line⟩).rest)
      false outcome
  | pageUp => exact absurd rfl up
  | pageDown => exact absurd rfl down
  | insert b => exact toldRest (typeWiped e b) outcome
  | insertNewline => exact toldRest (breakLineWiped e) outcome
  | deleteBack => exact toldRest (deleteBackWiped e) outcome
  | deleteForward => exact toldRest (deleteForwardWiped e) outcome
  | save => exact saveWiped e outcome
  | find => exact toldDone rfl false outcome
  | quit => exact quitWiped e outcome
  | refresh => exact toldDone (wipedTwice e.rest) false outcome

theorem nameKeyWiped (e : Editor) (key : Key) (outcome : Except Fault Unit) :
    told outcome (.ok (e.wiped.nameKey key)) = told outcome (.ok (e.nameKey key)) := by
  cases key with
  | literal b =>
    simp only [nameKey]
    cases (Key.literal b).printable? with
    | some b => exact toldDone (wipedTwice { e with prompt := e.prompt ++ [b] }) false outcome
    | none => exact toldDone (wipedTwice e) false outcome
  | action a =>
    cases a with
    | enter =>
      by_cases empty : e.prompt.isEmpty = true
      · simp only [nameKey,wipedPrompt,empty,if_true]
        exact toldDone (wipedTwice e) false outcome
      · simp only [nameKey,wipedPrompt,empty]
        exact congrArg (fun after => Except.ok (after, false))
          (storedWiped { e with mode := .editing, prompt := [] } _ outcome)
    | cancel | interrupt => exact toldDone (wipedTwice e.abandonName) false outcome
    | backspace | delete =>
      exact toldDone (wipedTwice { e with prompt := e.prompt.dropLast }) false outcome
    | _ => exact toldDone (wipedTwice e) false outcome

theorem endSearchWiped (e : Editor) (search : Search) :
    (e.wiped.endSearch search.wiped).wiped = (e.endSearch search).wiped := by
  simp only [endSearch,Search.uncoverWiped]
  rfl

theorem abandonSearchWiped (e : Editor) (search : Search) :
    (e.wiped.abandonSearch search.wiped).wiped = (e.abandonSearch search).wiped := by
  simp only [abandonSearch,endSearch,Search.uncoverWiped]
  rfl

theorem continueWiped (e : Editor) (search : Search) (document : Document) :
    (e.wiped.continueSearch search.wiped document).wiped = (e.continueSearch search document).wiped := by
  obtain ⟨query,found,covered,cursor,view⟩ := search
  cases found with
  | none => rfl
  | some pos => rfl

theorem carryOnWiped (e : Editor) (search : Search) (direction : Direction) (inclusive : Bool) :
    (e.wiped.continueSearch (search.wiped.run e.document direction inclusive).1
      (search.wiped.run e.document direction inclusive).2).wiped =
    (e.continueSearch (search.run e.document direction inclusive).1
      (search.run e.document direction inclusive).2).wiped := by
  rw [Search.runWiped]
  exact continueWiped e _ _

theorem searchKeyWiped (e : Editor) (search : Search) (key : Key) :
    (e.wiped.searchKey search.wiped key).wiped = (e.searchKey search key).wiped := by
  cases key with
  | literal b =>
    simp only [searchKey]
    cases (Key.literal b).printable? with
    | some b => exact carryOnWiped e { search with query := search.query ++ [b] } .forward true
    | none => exact continueWiped e search e.document
  | action a =>
    cases a with
    | cancel | interrupt => exact abandonSearchWiped e search
    | enter => exact endSearchWiped e search
    | arrowRight | arrowDown => exact carryOnWiped e search .forward false
    | arrowLeft | arrowUp => exact carryOnWiped e search .backward false
    | backspace | delete =>
      exact carryOnWiped e { search with query := search.query.dropLast } .forward true
    | _ => exact continueWiped e search e.document

theorem unconfirmWiped (e : Editor) (key : Key) :
    (e.wiped.unconfirm key).wiped = (e.unconfirm key).wiped := by
  by_cases ends : e.mode = .confirmQuit ∧ key ≠ .action .quit
  · have ended (e : Editor) (ends : e.mode = .confirmQuit ∧ key ≠ .action .quit) :
        (e.unconfirm key).wiped =
          { e.wiped with mode := .editing, pressesLeft := e.settings.quitPresses } := by
      rw [unconfirm,if_pos ends]
      rfl
    rw [ended e ends,ended e.wiped ends,wipedTwice]
    rfl
  · have kept (e : Editor) (goes : ¬ (e.mode = .confirmQuit ∧ key ≠ .action .quit)) :
        e.unconfirm key = e := if_neg goes
    rw [kept e ends,kept e.wiped ends,wipedTwice]

theorem unpaged {key : Key} {command : Command} (stays : key.pages = false)
    (asked : key.command? = some command) : command ≠ .pageUp ∧ command ≠ .pageDown := by
  cases key with
  | literal b =>
    cases Option.some.inj asked
    exact ⟨nofun,nofun⟩
  | action a =>
    cases a with
    | pageUp | pageDown => cases stays
    | cancel | interrupt => cases asked
    | _ =>
      cases Option.some.inj asked
      exact ⟨nofun,nofun⟩

theorem reactWiped (e : Editor) {key : Key} (stays : key.pages = false) (outcome : Except Fault Unit) :
    told outcome (e.wiped.react key) = told outcome (e.react key) := by
  have typed (typing : e.mode = .editing ∨ e.mode = .confirmQuit) :
      told outcome (e.wiped.react key) = told outcome (e.react key) := by
    cases asked : key.command? with
    | none =>
      have done := toldDone (unconfirmWiped e key) false outcome
      rcases typing with mode | mode <;> simpa only [react,wipedMode,mode,asked] using done
    | some command =>
      obtain ⟨up,down⟩ := unpaged stays asked
      have obeyed : told outcome ((e.wiped.unconfirm key).execute command) =
          told outcome ((e.unconfirm key).execute command) := by
        rw [← executeWiped _ up down,unconfirmWiped,executeWiped _ up down]
      rcases typing with mode | mode <;> simpa only [react,wipedMode,mode,asked] using obeyed
  cases mode : e.mode with
  | editing => exact typed (.inl mode)
  | confirmQuit => exact typed (.inr mode)
  | namePrompt =>
    simp only [react,wipedMode,mode]
    exact nameKeyWiped e key outcome
  | searchPrompt =>
    cases held : e.search with
    | none =>
      have wiped : e.wiped.search = none := by rw [Editor.wiped,held]; rfl
      simp only [react,wipedMode,mode,held,wiped]
      exact toldDone rfl false outcome
    | some search =>
      have wiped : e.wiped.search = some search.wiped := by rw [Editor.wiped,held]; rfl
      simp only [react,wipedMode,mode,held,wiped]
      exact toldDone (searchKeyWiped e search key) false outcome

theorem pressTold (e : Editor) (key : Key) (outcome : Except Fault Unit) :
    told outcome (e.react key) = (e.press outcome key).map fun out => (out.1.wiped, out.2) := by
  unfold press
  cases e.react key <;> rfl

theorem pressAlike {e other : Editor} (alike : e.wiped = other.wiped) {key : Key}
    (stays : key.pages = false) (outcome : Except Fault Unit) :
    (e.press outcome key).map (fun out => (out.1.wiped, out.2)) =
      (other.press outcome key).map fun out => (out.1.wiped, out.2) := by
  rw [← pressTold,← reactWiped e stays outcome,alike,reactWiped other stays outcome,pressTold]

theorem shownWiped {e after : Editor} {event : Event} (quiet : event.stroke? = none)
    (ok : e.handle event = .ok after) : after.wiped = e.wiped := by
  rcases handleOther ok with ⟨key,outcome,rfl⟩ | ⟨view,now,rfl⟩
  · cases quiet
  · rfl

def answers : Editor → List Event → Except Impasse (List (Except Impasse (Gist × Bool)))
  | _, [] => .ok []
  | e, .key pressed outcome :: events =>
    match e.press outcome pressed with
    | .error overflow => .ok [.error overflow]
    | .ok (after, left) => (after.answers events).map (.ok (after.gist, left) :: ·)
  | e, event :: events => (e.handle event).bind (·.answers events)

def replies : Editor → List (Key × Except Fault Unit) → List (Except Impasse (Gist × Bool))
  | _, [] => []
  | e, (pressed, outcome) :: strokes =>
    match e.press outcome pressed with
    | .error overflow => [.error overflow]
    | .ok (after, left) => .ok (after.gist, left) :: after.replies strokes

theorem repliesAlike {e other : Editor} {strokes : List (Key × Except Fault Unit)}
    (stays : ∀ stroke ∈ strokes, stroke.1.pages = false) (alike : e.wiped = other.wiped) :
    e.replies strokes = other.replies strokes := by
  induction strokes generalizing e other with
  | nil => rfl
  | cons stroke strokes ih =>
    obtain ⟨pressed,outcome⟩ := stroke
    have same := pressAlike alike (stays _ List.mem_cons_self) outcome
    simp only [replies]
    cases one : e.press outcome pressed with
    | error overflow =>
      cases two : other.press outcome pressed with
      | error overflow' =>
        rw [one,two] at same
        cases Except.error.inj same
        rfl
      | ok out =>
        rw [one,two] at same
        cases same
    | ok out =>
      cases two : other.press outcome pressed with
      | error overflow' =>
        rw [one,two] at same
        cases same
      | ok out' =>
        rw [one,two] at same
        obtain ⟨after,left⟩ := Prod.mk.inj (Except.ok.inj same)
        have gist : out.1.gist = out'.1.gist := by rw [← gistWiped,after,gistWiped]
        simp only [gist,left]
        rw [ih (fun stroke inside => stays stroke (List.mem_cons_of_mem _ inside)) after]

theorem answersReplies {e : Editor} {events : List Event} {seen : List (Except Impasse (Gist × Bool))}
    (stays : ∀ stroke ∈ Event.strokes events, stroke.1.pages = false) (ran : e.answers events = .ok seen) :
    seen = e.replies (Event.strokes events) := by
  induction events generalizing e seen with
  | nil => exact (Except.ok.inj ran).symm
  | cons event events ih =>
    cases event with
    | key pressed outcome =>
      have later : ∀ stroke ∈ Event.strokes events, stroke.1.pages = false :=
        fun stroke inside => stays stroke (List.mem_cons_of_mem _ inside)
      change seen = e.replies ((pressed, outcome) :: Event.strokes events)
      simp only [answers] at ran
      simp only [replies]
      cases press : e.press outcome pressed with
      | error overflow =>
        rw [press] at ran
        exact (Except.ok.inj ran).symm
      | ok out =>
        rw [press] at ran
        obtain ⟨rest,more,rfl⟩ := mapOk ran
        rw [ih later more]
    | _ =>
      -- What is drawn changes the editor only where it is wiped.
      obtain ⟨after,shown,later⟩ := bindOk ran
      rw [ih stays later]
      exact repliesAlike stays (shownWiped rfl shown)

theorem sameKeysSameText {doc : Document} {settings : Settings} {window window' : Window}
    {now now' : Nat} {events events' : List Event} {seen seen' : List (Except Impasse (Gist × Bool))}
    (keys : Event.strokes events = Event.strokes events')
    (stays : ∀ stroke ∈ Event.strokes events, stroke.1.pages = false)
    (ran : (start doc settings window now).answers events = .ok seen)
    (ran' : (start doc settings window' now').answers events' = .ok seen') : seen = seen' := by
  rw [answersReplies stays ran,answersReplies (keys ▸ stays) ran',keys]
  exact repliesAlike (keys ▸ stays) rfl

theorem sameKeysSameTextResized :
    let first := [Event.key (.literal 97) (.ok ()), .key (.action .enter) (.ok ()),
      .key (.literal 97) (.ok ()), .key (.action .find) (.ok ()), .key (.literal 97) (.ok ())]
    let last := [Event.key (.action .arrowDown) (.ok ()), .key (.action .cancel) (.ok ()),
      .key (.action .save) (.ok ()), .key (.literal 102) (.ok ()),
      .key (.action .enter) (.error (.reported "full")), .key (.action .quit) (.ok ())]
    ∃ seen seen', (start (.blank 4) {} ⟨10, 20⟩).answers (first ++ last) = .ok seen ∧
      (start (.blank 4) {} ⟨3, 1⟩ 9).answers
        (.scroll :: first ++ [.refresh Escape.standard 11, .resize ⟨2, 0⟩, .scroll, .wait 12] ++ last) =
          .ok seen' ∧
      seen.length = 11 ∧ seen = seen' := by
  intro first last
  obtain ⟨seen,ran,length⟩ : ∃ seen, (start (.blank 4) {} ⟨10, 20⟩).answers (first ++ last) = .ok seen ∧
      seen.length = 11 := ⟨_,rfl,rfl⟩
  obtain ⟨seen',ran'⟩ : ∃ seen, (start (.blank 4) {} ⟨3, 1⟩ 9).answers
      (.scroll :: first ++ [.refresh Escape.standard 11, .resize ⟨2, 0⟩, .scroll, .wait 12] ++ last) =
        .ok seen := ⟨_,rfl⟩
  have keys : Event.strokes (first ++ last) = Event.strokes
      (.scroll :: first ++ [.refresh Escape.standard 11, .resize ⟨2, 0⟩, .scroll, .wait 12] ++ last) := rfl
  have stays : ∀ stroke ∈ Event.strokes (first ++ last), stroke.1.pages = false := by
    simp [first,last,Event.strokes,Event.stroke?,Key.pages]
  exact ⟨seen,seen',ran,ran',length,sameKeysSameText keys stays ran ran'⟩

end Editor
end Vellum
