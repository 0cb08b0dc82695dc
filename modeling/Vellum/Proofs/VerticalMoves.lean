import Vellum.Proofs.TabColumns
import Vellum.Proofs.VisibleText

/-! Vertical moves lose nothing. Whatever a cursor has been through, it stands where a
vertical move to its own line would put it. A vertical move only changes the line, so
the way up and down does not matter: back on its line, the cursor is the same again,
however short the lines and however wide the tabs in between. -/
namespace Vellum

def Key.climbs : Key → Bool
  | .action .arrowUp | .action .arrowDown | .action .pageUp | .action .pageDown => true
  | _ => false

def Event.climbs : Event → Bool
  | .key pressed _ => pressed.climbs
  | _ => true

def Event.scrolls : Event → Bool
  | .scroll => true
  | _ => false

namespace Document

/- The cursor stands in the column at which its line shows what it aims for. -/
def Aims (doc : Document) (cursor : Cursor) : Prop :=
  ∃ line, doc.lines[cursor.line]? = some line ∧ cursor.column = line.columnAt doc.tabStop cursor.wanted

theorem aimsSame {doc after : Document} {cursor : Cursor} (same : doc.SameLayout after)
    (aims : doc.Aims cursor) : after.Aims cursor := by
  obtain ⟨line,found,column⟩ := aims
  have layout : (after.lines.map Line.layout)[cursor.line]? = some line.layout := by
    rw [same.layout,List.getElem?_map,found]
    rfl
  rw [List.getElem?_map] at layout
  obtain ⟨other,there,laid⟩ := Option.map_eq_some_iff.mp layout
  have content : other.content = line.content := congrArg (fun layout => layout.2.1) laid
  refine ⟨other,there,?_⟩
  rw [column,same.tabStop,Line.columnAt,Line.columnAt,content]

theorem aimsUnique {doc : Document} {one other : Cursor} (first : doc.Aims one) (second : doc.Aims other)
    (line : one.line = other.line) (wanted : one.wanted = other.wanted) : one = other := by
  obtain ⟨text,found,column⟩ := first
  obtain ⟨same,there,column'⟩ := second
  rw [line] at found
  cases Option.some.inj (found.symm.trans there)
  obtain ⟨i,k,goal⟩ := one
  obtain ⟨j,l,aim⟩ := other
  simp only at line wanted column column'
  subst line wanted
  rw [column,column']

end Document

theorem Viewport.followBelow (offset : Nat) {room goal : Nat} (within : goal + room < Size.limit) :
    ∃ next, follow offset room goal = .ok next ∧ next ≤ goal := by
  by_cases none : room = 0
  · exact ⟨_,if_pos none,Nat.min_le_left _ _⟩
  · obtain ⟨next,followed,below,_⟩ := followReaches offset (Nat.pos_of_ne_zero none) within
    exact ⟨next,followed,below⟩

namespace Editor

structure Poised (e : Editor) : Prop where
  cursor : e.document.Aims e.cursor
  remembered : ∀ search, e.search = some search → e.document.Aims search.cursor

theorem calmPoised {e : Editor} (calm : e.Calm) (aims : e.document.Aims e.cursor) : e.Poised := by
  refine ⟨aims,?_⟩
  intro search held
  cases calm.idle.symm.trans held

theorem freshAims {e : Editor} (inside : e.Inside) (fresh : e.cursor.wanted = e.cursorShown) :
    e.document.Aims e.cursor := by
  have within : e.cursor.line < e.document.lines.length := inside.line
  have found := List.getElem?_eq_getElem within
  have column : e.cursor.column ≤ e.document.lineSize e.cursor.line := inside.column
  rw [Document.lineSize,found] at column
  refine ⟨_,found,?_⟩
  rw [fresh,cursorShown,cursorLine?,found]
  exact (Line.columnAtShown e.document.tabStop _ column).symm

theorem landAims {e : Editor} (nonempty : 0 < e.document.count) (line : Nat) :
    e.document.Aims (e.land line).cursor := by
  have last : min line e.lastLine < e.document.lines.length := by
    change _ < e.document.count
    unfold lastLine
    omega
  have found := List.getElem?_eq_getElem last
  refine ⟨_,found,?_⟩
  simp only [land,setPosition,found]

theorem obeyEnds {e after : Editor} {command : Command} {outcome : Except Fault Unit}
    (stays : command ≠ .quit) (ok : e.obey (command, outcome) = .ok after) :
    (∃ last : Editor, after = last.rest) ∨ ∃ line, after = e.land line := by
  cases command with
  | moveLeft | moveLineStart | moveLineEnd | find | refresh =>
    cases Except.ok.inj ok
    exact .inl ⟨_,rfl⟩
  | moveUp | moveDown =>
    cases Except.ok.inj ok
    exact .inr ⟨_,rfl⟩
  | pageUp =>
    obtain ⟨last,moved,rfl⟩ := @finishedBy _ id _ _ ok
    exact .inr (pageUpLands moved)
  | pageDown =>
    obtain ⟨last,moved,rfl⟩ := @finishedBy _ id _ _ ok
    exact .inr (pageDownLands moved)
  | moveRight | insert _ | insertNewline | deleteBack | deleteForward =>
    obtain ⟨last,_,rfl⟩ := finishedBy ok
    exact .inl ⟨last,rfl⟩
  | save =>
    cases Except.ok.inj ok
    cases named : e.document.path with
    | some path => exact .inl ⟨e.stored e.document.saved outcome,by simp only [save,named,Reaction.settle]⟩
    | none => exact .inl ⟨e.askName,by simp only [save,named,Reaction.settle]⟩
  | quit => exact absurd rfl stays

theorem obeyAims {e after : Editor} {command : Command} {outcome : Except Fault Unit} (inside : e.Inside)
    (aims : e.document.Aims e.cursor) (ok : e.obey (command, outcome) = .ok after) :
    after.document.Aims after.cursor := by
  by_cases quits : command = .quit
  · subst quits
    cases Except.ok.inj ok
    obtain ⟨document,cursor⟩ := quitKeeps e
    change e.quit.1.document.Aims e.quit.1.cursor
    rwa [document,cursor]
  · have there := ((obeyObeyed inside command outcome).sound ok).1
    rcases obeyEnds quits ok with ⟨last,rfl⟩ | ⟨line,rfl⟩
    · exact freshAims there rfl
    · exact landAims (Document.insideNonempty inside) line

theorem obeyPoised {e after : Editor} {command : Command} {outcome : Except Fault Unit} (calm : e.Calm)
    (prompt : e.prompt = []) (editing : command ≠ .quit → e.mode = .editing)
    (aims : e.document.Aims e.cursor) (ok : e.obey (command, outcome) = .ok after) : after.Poised := by
  have there := obeyAims calm.inside aims ok
  by_cases finds : command = .find
  · subst finds
    cases Except.ok.inj ok
    refine ⟨there,?_⟩
    intro search held
    cases Option.some.inj held
    exact aims
  · exact calmPoised (obeyCalm calm prompt editing finds ok) there

theorem nameKeyStands (e : Editor) (key : Key) (outcome : Except Fault Unit) :
    ((e.nameKey key).settle outcome).1.cursor = e.cursor := by
  unfold nameKey
  split
  · rfl
  · rfl
  · split
    · rfl
    · cases outcome with
      | ok done => rfl
      | error fault => rfl
  · rfl
  · rfl
  · split
    · rfl
    · rfl

theorem calmKeyPoised {e after : Editor} {key : Key} {outcome : Except Fault Unit} (calm : e.Calm)
    (aims : e.document.Aims e.cursor) (ok : e.handle (.key key outcome) = .ok after) : after.Poised := by
  have typed (typing : e.mode = .editing ∨ e.mode = .confirmQuit) : after.Poised := by
    obtain ⟨quiet,prompt,editing⟩ := unconfirmCalm calm typing key
    have still : (e.unconfirm key).document.Aims (e.unconfirm key).cursor := by
      obtain ⟨mode,presses,notice,same⟩ := unconfirmed e key
      rw [same]
      exact aims
    rw [handleTyping typing] at ok
    cases asked : key.command? with
    | none =>
      rw [asked] at ok
      cases Except.ok.inj ok
      exact calmPoised quiet still
    | some command =>
      rw [asked] at ok
      refine obeyPoised quiet prompt ?_ still ok
      intro other
      apply editing
      rintro rfl
      exact other (Option.some.inj asked).symm
  cases mode : e.mode with
  | editing => exact typed (.inl mode)
  | confirmQuit => exact typed (.inr mode)
  | namePrompt =>
    rw [handleKey,react,mode] at ok
    cases Except.ok.inj ok
    apply calmPoised (nameKeyCalm calm mode key outcome)
    rw [nameKeyStands]
    exact Document.aimsSame (nameKeyLayout e key outcome) aims
  | searchPrompt => exact absurd mode calm.mode

theorem continueStands (e : Editor) (search : Search) (document : Document) :
    (e.continueSearch search document).cursor = e.cursor ∨
      (e.continueSearch search document).cursor.wanted = (e.continueSearch search document).cursorShown := by
  cases found : search.found with
  | none =>
    refine .inl ?_
    simp only [continueSearch,found]
    rfl
  | some pos =>
    refine .inr ?_
    simp only [continueSearch,found]
    rfl

theorem searchKeyStands (e : Editor) (search : Search) (key : Key) :
    ((e.searchKey search key).cursor = e.cursor ∨
      (e.searchKey search key).cursor.wanted = (e.searchKey search key).cursorShown) ∨
      (e.searchKey search key).cursor = search.cursor := by
  unfold searchKey
  split
  · exact .inr rfl
  · exact .inr rfl
  · exact .inl (.inl rfl)
  · exact .inl (continueStands e _ _)
  · exact .inl (continueStands e _ _)
  · exact .inl (continueStands e _ _)
  · exact .inl (continueStands e _ _)
  · exact .inl (continueStands e _ _)
  · exact .inl (continueStands e _ _)
  · split
    · exact .inl (continueStands e _ _)
    · exact .inl (continueStands e _ _)

theorem searchKeyPoised {origin e : Editor} {search : Search} (running : Searching origin search e)
    (poised : e.Poised) (key : Key) : (e.searchKey search key).Poised := by
  have layout := searchKeyLayout running key
  have remembered := Document.aimsSame layout (poised.remembered search running.held)
  have aims : (e.searchKey search key).document.Aims (e.searchKey search key).cursor := by
    rcases searchKeyStands e search key with (same | fresh) | same
    · rw [same]
      exact Document.aimsSame layout poised.cursor
    · exact freshAims (steadyInside (searchingKeySteady running key)) fresh
    · rwa [same]
  cases ends : key.endsSearch with
  | true => exact calmPoised (searchKeyEnds running ends) aims
  | false =>
    obtain ⟨next,still⟩ := searchKeyRuns running ends
    refine ⟨aims,?_⟩
    intro other held
    cases Option.some.inj (still.held.symm.trans held)
    rwa [still.cursor,← running.cursor]

theorem handlePoised {e after : Editor} {event : Event} (steady : e.Steady) (poised : e.Poised)
    (ok : e.handle event = .ok after) : after.Poised := by
  rcases handleOther ok with ⟨key,outcome,rfl⟩ | ⟨view,now,rfl⟩
  · cases steady with
    | calm calm => exact calmKeyPoised calm poised.cursor ok
    | searching running =>
      rw [handleSearching running] at ok
      cases Except.ok.inj ok
      exact searchKeyPoised running poised key
  · exact ⟨poised.cursor,poised.remembered⟩

theorem startPoised {doc : Document} (loaded : doc.Loaded) (settings : Settings) (window : Window)
    (now : Nat) : (start doc settings window now).Poised := by
  have calm := startCalm loaded settings window now
  apply calmPoised calm
  apply freshAims calm.inside
  unfold cursorShown
  split <;> rfl

theorem sessionPoised {doc : Document} {settings : Settings} {window : Window} {now : Nat}
    {events : List Event} {e : Editor} (loaded : doc.Loaded)
    (ran : events.foldlM handle (start doc settings window now) = .ok e) : e.Steady ∧ e.Poised := by
  refine @foldKeeps _ _ _ handle (fun e => e.Steady ∧ e.Poised) events ?_ _ _
    ⟨.calm (startCalm loaded settings window now),startPoised loaded settings window now⟩ ran
  rintro before event after _ ⟨steady,poised⟩ ok
  exact ⟨handleSteady steady ok,handlePoised steady poised ok⟩

theorem climbLands {e after : Editor} {key : Key} {outcome : Except Fault Unit}
    (editing : e.mode = .editing) (climbs : key.climbs = true)
    (ok : e.handle (.key key outcome) = .ok after) : ∃ line, after = e.land line := by
  rw [handleTyping (.inl editing),unconfirmEditing editing] at ok
  unfold Key.climbs at climbs
  split at climbs
  · cases Except.ok.inj ok
    exact ⟨_,rfl⟩
  · cases Except.ok.inj ok
    exact ⟨_,rfl⟩
  · obtain ⟨last,moved,rfl⟩ := @finishedBy _ id _ _ ok
    exact pageUpLands moved
  · obtain ⟨last,moved,rfl⟩ := @finishedBy _ id _ _ ok
    exact pageDownLands moved
  · cases climbs

structure Climbed (e after : Editor) : Prop where
  document : after.document = e.document
  mode : after.mode = .editing
  wanted : after.cursor.wanted = e.cursor.wanted
  aims : e.document.Aims after.cursor

theorem handleClimbed {e before after : Editor} {event : Event} (nonempty : 0 < e.document.count)
    (climbed : e.Climbed before) (climbs : event.climbs = true) (ok : before.handle event = .ok after) :
    e.Climbed after := by
  rcases handleOther ok with ⟨key,outcome,rfl⟩ | ⟨view,now,rfl⟩
  · obtain ⟨line,rfl⟩ := climbLands climbed.mode climbs ok
    refine ⟨climbed.document,climbed.mode,climbed.wanted,?_⟩
    rw [← climbed.document] at nonempty ⊢
    exact landAims nonempty line
  · exact ⟨climbed.document,climbed.mode,climbed.wanted,climbed.aims⟩

theorem sessionClimbed {e after : Editor} {moves : List Event} (editing : e.mode = .editing)
    (nonempty : 0 < e.document.count) (aims : e.document.Aims e.cursor)
    (climbs : ∀ event ∈ moves, event.climbs = true) (ran : moves.foldlM handle e = .ok after) :
    e.Climbed after := by
  refine @foldKeeps _ _ _ handle (fun after => e.Climbed after) moves ?_ _ _ ⟨rfl,editing,rfl,aims⟩ ran
  intro before event after member climbed ok
  exact handleClimbed nonempty climbed (climbs event member) ok

structure Roomy (e : Editor) : Prop where
  rows : max e.view.top e.document.count + e.view.rows < Size.textLimit
  cols : e.view.cols ≤ Size.textLimit

theorem scrollRoomy {e : Editor} (inside : e.Inside) (laid : e.document.Laid) (roomy : e.Roomy) :
    ∃ view, e.scroll = .ok { e with view } ∧ { e with view }.Roomy := by
  have line : e.cursor.line < e.document.count := inside.line
  have rows := roomy.rows
  have cols := roomy.cols
  have column := cursorShownBound laid
  have whole : Size.textLimit + Size.textLimit = Size.limit := by decide
  obtain ⟨top,first,above⟩ := Viewport.followBelow e.view.top
    (show e.cursor.line + e.view.rows < Size.limit by omega)
  obtain ⟨left,second,_⟩ := Viewport.followBelow e.view.left
    (show e.cursorShown + e.view.cols < Size.limit by omega)
  refine ⟨{ e.view with top, left },?_,?_,cols⟩
  · simp only [scroll,Viewport.scrollTo,first,second,bind,Except.bind]
  · change max top e.document.count + e.view.rows < Size.textLimit
    omega

theorem climbAnswered {e : Editor} {key : Key} (editing : e.mode = .editing) (roomy : e.Roomy)
    (climbs : key.climbs = true) (outcome : Except Fault Unit) :
    ∃ line, e.handle (.key key outcome) = .ok (e.land line) := by
  have rows := roomy.rows
  have half : Size.textLimit < Size.limit := by decide
  have answered : ∃ after, e.handle (.key key outcome) = .ok after := by
    rw [handleTyping (.inl editing),unconfirmEditing editing]
    unfold Key.climbs at climbs
    split at climbs
    · exact ⟨_,rfl⟩
    · exact ⟨_,rfl⟩
    · obtain ⟨last,moved⟩ := (pageUpAnswers e).returns (by omega)
      exact ⟨last,by simp only [Key.command?,Action.command?,obey,execute,moved,bind,Except.bind]; rfl⟩
    · obtain ⟨last,moved⟩ := (pageDownAnswers e).returns (by omega)
      exact ⟨last,by simp only [Key.command?,Action.command?,obey,execute,moved,bind,Except.bind]; rfl⟩
    · cases climbs
  obtain ⟨after,ok⟩ := answered
  obtain ⟨line,rfl⟩ := climbLands editing climbs ok
  exact ⟨line,ok⟩

theorem climbsRun {e : Editor} {moves : List Event} (inside : e.Inside) (laid : e.document.Laid)
    (editing : e.mode = .editing) (roomy : e.Roomy) (climbs : ∀ event ∈ moves, event.climbs = true)
    (plain : ∀ event ∈ moves, event.scrolls = true ∨ ∃ key outcome, event = .key key outcome) :
    ∃ after, moves.foldlM handle e = .ok after := by
  induction moves generalizing e with
  | nil => exact ⟨e,rfl⟩
  | cons event moves ih =>
    obtain ⟨first,later⟩ := List.forall_mem_cons.mp climbs
    obtain ⟨kind,others⟩ := List.forall_mem_cons.mp plain
    have goes {next : Editor} (ok : e.handle event = .ok next) (there : next.Inside)
        (still : next.document.Laid) (mode : next.mode = .editing) (wide : next.Roomy) :
        ∃ after, (event :: moves).foldlM handle e = .ok after := by
      obtain ⟨after,ran⟩ := ih there still mode wide later others
      refine ⟨after,?_⟩
      simp only [List.foldlM_cons,ok]
      exact ran
    rcases kind with scrolls | ⟨key,outcome,rfl⟩
    · unfold Event.scrolls at scrolls
      split at scrolls
      · obtain ⟨view,ok,wide⟩ := scrollRoomy inside laid roomy
        exact goes ok inside laid editing wide
      · cases scrolls
    · obtain ⟨line,ok⟩ := climbAnswered editing roomy first outcome
      exact goes ok (landInside (Document.insideNonempty inside) line) laid editing ⟨roomy.rows,roomy.cols⟩

theorem verticalMovesPathFree {doc : Document} {settings : Settings} {window : Window} {now : Nat}
    {events : List Event} {e : Editor} (loaded : doc.Loaded)
    (ran : events.foldlM handle (start doc settings window now) = .ok e) :
    e.document.Aims e.cursor ∧
      (e.mode = .editing → ∀ moves : List Event, (∀ event ∈ moves, event.climbs = true) →
        (∀ after, moves.foldlM handle e = .ok after →
          e.Climbed after ∧ (after.cursor.line = e.cursor.line → after.cursor = e.cursor) ∧
          ∀ (others : List Event) (other : Editor), (∀ event ∈ others, event.climbs = true) →
            others.foldlM handle e = .ok other → other.cursor.line = after.cursor.line →
            other.cursor = after.cursor) ∧
        (e.Roomy → (∀ event ∈ moves, event.scrolls = true ∨ ∃ key outcome, event = .key key outcome) →
          ∃ after, moves.foldlM handle e = .ok after)) := by
  obtain ⟨steady,poised⟩ := sessionPoised loaded ran
  have inside := steadyInside steady
  refine ⟨poised.cursor,?_⟩
  intro editing moves climbs
  have climbed {moves : List Event} {after : Editor} (climbs : ∀ event ∈ moves, event.climbs = true)
      (went : moves.foldlM handle e = .ok after) : e.Climbed after :=
    sessionClimbed editing (Document.insideNonempty inside) poised.cursor climbs went
  constructor
  · intro after went
    have there := climbed climbs went
    refine ⟨there,?_,?_⟩
    · intro line
      exact Document.aimsUnique there.aims poised.cursor line there.wanted
    · intro others other climbs' went' line
      have where' := climbed climbs' went'
      exact Document.aimsUnique where'.aims there.aims line (where'.wanted.trans there.wanted.symm)
  · intro roomy plain
    have fed := sessionFed (.calm (startCalm loaded settings window now)) ran
    exact climbsRun inside (fed.laid (Document.loadedLaid loaded)) editing roomy climbs plain

theorem verticalMovesPathFreeOverTab :
    let events := List.replicate 3 (Event.key (.action .arrowRight) (.ok ()))
    let press (action : Action) := Event.key (.action action) (.ok ())
    let moves := [press .arrowDown, .scroll, press .arrowDown, press .pageDown, .scroll, press .arrowUp,
      press .pageUp]
    ∃ doc e lower after, Document.ofBytes [97, 98, 99, 100, 10, 9, 120, 10, 10, 121] 4 = .ok doc ∧
      events.foldlM handle (start doc {} ⟨12, 40⟩) = .ok e ∧ e.cursor = ⟨0, 3, 3⟩ ∧ e.Roomy ∧
      e.handle (press .arrowDown) = .ok lower ∧ lower.cursor = ⟨1, 0, 3⟩ ∧
      moves.foldlM handle e = .ok after ∧ after.cursor = e.cursor := by
  intro events press moves
  obtain ⟨doc,e,lower,last,read,ran,cursor,view,down,below,went,line⟩ : ∃ doc e lower last,
      Document.ofBytes [97, 98, 99, 100, 10, 9, 120, 10, 10, 121] 4 = .ok doc ∧
      events.foldlM handle (start doc {} ⟨12, 40⟩) = .ok e ∧ e.cursor = ⟨0, 3, 3⟩ ∧
      (e.mode = .editing ∧ e.view = ⟨0, 0, 10, 40⟩ ∧ e.document.count = 4) ∧
      e.handle (press .arrowDown) = .ok lower ∧ lower.cursor = ⟨1, 0, 3⟩ ∧
      moves.foldlM handle e = .ok last ∧ last.cursor.line = 0 :=
    ⟨_,_,_,_,rfl,rfl,rfl,⟨rfl,rfl,rfl⟩,rfl,rfl,rfl,rfl⟩
  obtain ⟨editing,window,count⟩ := view
  have roomy : e.Roomy := by
    constructor <;> simp only [window,count] <;> decide
  have climbs : ∀ event ∈ moves, event.climbs = true := by
    simp [moves,press,Event.climbs,Key.climbs]
  obtain ⟨back,runs⟩ := (verticalMovesPathFree (.bytes read) ran).2 editing moves climbs
  obtain ⟨after,there⟩ := runs roomy (by simp [moves,press,Event.scrolls])
  cases Except.ok.inj (went.symm.trans there)
  refine ⟨doc,e,lower,_,read,ran,cursor,roomy,down,below,there,(back _ there).2.1 ?_⟩
  rw [line,cursor]

end Editor
end Vellum
