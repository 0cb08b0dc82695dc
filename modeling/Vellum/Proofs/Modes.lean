import Vellum.Screen.Frame
import Vellum.Proofs.FlatText
import Vellum.Proofs.Searching

/-! What an editor keeps while keys, refreshes and new window sizes come in any
order. Either no search runs, or one does that was begun by an editor without a
search; the document that it was begun on can then still be told. -/
namespace Vellum

inductive Event where
  | key (key : Key) (outcome : Except Fault Unit)
  | resize (window : Window)
  | scroll
  | refresh (dialect : Dialect) (now : Nat)
  | wait (now : Nat)

def Key.endsSearch : Key → Bool
  | .action .enter | .action .cancel | .action .interrupt => true
  | _ => false

def Event.endsSearch : Event → Bool
  | .key pressed _ => pressed.endsSearch
  | _ => false

namespace Editor

def handle (e : Editor) : Event → Except Impasse Editor
  | .key key outcome => (e.press outcome key).map Prod.fst
  | .resize window => .ok (e.resize window)
  | .scroll => e.scroll
  | .refresh dialect now => (Frame.refresh dialect e now).map Prod.fst
  | .wait now => .ok { e with now }

theorem scrolled {e after : Editor} (ok : e.scroll = .ok after) : ∃ view, after = { e with view } := by
  obtain ⟨view,_,last⟩ := bindOk ok
  exact ⟨view,(Except.ok.inj last).symm⟩

theorem handleOther {e after : Editor} {event : Event} (ok : e.handle event = .ok after) :
    (∃ key outcome, event = .key key outcome) ∨ ∃ view now, after = { e with view, now } := by
  cases event with
  | key key outcome => exact .inl ⟨key,outcome,rfl⟩
  | resize window => exact .inr ⟨_,_,(Except.ok.inj ok).symm⟩
  | scroll =>
    obtain ⟨view,rfl⟩ := scrolled ok
    exact .inr ⟨view,e.now,rfl⟩
  | refresh dialect now =>
    cases shown : Frame.refresh dialect e now with
    | error overflow => simp [handle,shown,Except.map] at ok
    | ok out =>
      simp only [handle,shown,Except.map,Except.ok.injEq] at ok
      subst ok
      obtain ⟨moved,scroll,drawn⟩ := bindOk shown
      obtain ⟨frame,_,last⟩ := bindOk drawn
      cases Except.ok.inj last
      obtain ⟨view,rfl⟩ := scrolled scroll
      exact .inr ⟨view,e.now,rfl⟩
  | wait now => exact .inr ⟨e.view,now,(Except.ok.inj ok).symm⟩

theorem handleKey (e : Editor) (key : Key) (outcome : Except Fault Unit) :
    e.handle (.key key outcome) = (e.react key).map fun reaction => (reaction.settle outcome).1 := by
  simp only [handle,press]
  cases e.react key <;> rfl

theorem handleTyping {e : Editor} (typing : e.mode = .editing ∨ e.mode = .confirmQuit) (key : Key)
    (outcome : Except Fault Unit) :
    e.handle (.key key outcome) =
      match key.command? with
      | some command => (e.unconfirm key).obey (command, outcome)
      | none => .ok (e.unconfirm key) := by
  rw [handleKey]
  cases asked : key.command? with
  | some command => rcases typing with mode | mode <;> simp only [react,mode,asked,obey]
  | none => rcases typing with mode | mode <;> simp only [react,mode,asked] <;> rfl

inductive Edited (e : Editor) : Editor → Prop where
  | changed {document : Document} {cursor : Cursor}
      (settled : e.document.Settled → document.Settled) : Edited e { e with document, cursor }

theorem editedTrans {e middle after : Editor} (first : e.Edited middle)
    (second : middle.Edited after) : e.Edited after := by
  cases first with
  | changed before =>
    cases second with
    | changed later => exact .changed fun settled => later (before settled)

theorem setPositionEdited (e : Editor) (pos : Position) : e.Edited (e.setPosition pos) := .changed id

theorem restEdited (e : Editor) : e.Edited e.rest := .changed id

theorem landEdited (e : Editor) (line : Nat) : e.Edited (e.land line) := .changed id

theorem moveLeftEdited (e : Editor) : e.Edited e.moveLeft := by
  unfold moveLeft
  split
  · exact setPositionEdited e _
  · exact setPositionEdited e _
  · exact .changed id

theorem moveRightEdited {e after : Editor} (ok : e.moveRight = .ok after) : e.Edited after := by
  unfold moveRight at ok
  split at ok
  · cases Except.ok.inj ok
    exact setPositionEdited e _
  · obtain ⟨next,_,last⟩ := bindOk ok
    cases Except.ok.inj last
    split
    · exact setPositionEdited e _
    · exact .changed id

theorem typeEdited {e after : Editor} {b : UInt8} (ok : e.type b = .ok after) : e.Edited after := by
  obtain ⟨⟨document,done⟩,inserted,last⟩ := bindOk ok
  cases Except.ok.inj last
  have kept (settled : e.document.Settled) := Document.insertByteSettled settled inserted
  split
  · exact .changed kept
  · exact .changed kept

theorem breakLineEdited {e after : Editor} (ok : e.breakLine = .ok after) : e.Edited after := by
  obtain ⟨⟨document,done⟩,broken,last⟩ := bindOk ok
  cases Except.ok.inj last
  have kept (settled : e.document.Settled) := Document.insertNewlineSettled settled broken
  split
  · exact .changed kept
  · exact .changed kept

theorem deleteBackEdited {e after : Editor} (ok : e.deleteBack = .ok after) : e.Edited after := by
  obtain ⟨⟨document,gap⟩,deleted,last⟩ := bindOk ok
  cases Except.ok.inj last
  have kept (settled : e.document.Settled) := Document.deleteByteSettled settled deleted
  split
  · exact .changed kept
  · exact .changed kept

theorem deleteForwardEdited {e after : Editor} (ok : e.deleteForward = .ok after) :
    e.Edited after := by
  obtain ⟨next,_,ok⟩ := bindOk ok
  split at ok
  · cases Except.ok.inj ok
    exact .changed id
  · obtain ⟨moved,right,ok⟩ := bindOk ok
    obtain ⟨gone,deleted,last⟩ := bindOk ok
    cases Except.ok.inj last
    have there := editedTrans (moveRightEdited right) (restEdited moved)
    exact editedTrans (editedTrans there (deleteBackEdited deleted)) (restEdited gone)

theorem finishedBy {run : Except Impasse Editor} {finish : Editor → Editor} {after : Editor}
    {outcome : Except Fault Unit}
    (ok : (run.bind fun last => .ok (Reaction.done (finish last) false)).map
      (fun reaction => (reaction.settle outcome).1) = .ok after) :
    ∃ last, run = .ok last ∧ after = finish last := by
  cases run with
  | error overflow => cases ok
  | ok last => exact ⟨last,rfl,(Except.ok.inj ok).symm⟩

theorem obeyEdited {e after : Editor} {command : Command} {outcome : Except Fault Unit}
    (saves : command ≠ .save) (finds : command ≠ .find) (quits : command ≠ .quit)
    (ok : e.obey (command, outcome) = .ok after) : e.Edited after := by
  cases command with
  | moveLeft =>
    cases Except.ok.inj ok
    exact editedTrans (moveLeftEdited e) (restEdited _)
  | moveRight =>
    obtain ⟨last,moved,rfl⟩ := finishedBy ok
    exact editedTrans (moveRightEdited moved) (restEdited last)
  | moveUp | moveDown =>
    cases Except.ok.inj ok
    exact landEdited e _
  | moveLineStart | moveLineEnd =>
    cases Except.ok.inj ok
    exact editedTrans (setPositionEdited e _) (restEdited _)
  | pageUp =>
    obtain ⟨last,moved,rfl⟩ := @finishedBy _ id _ _ ok
    obtain ⟨line,rfl⟩ := pageUpLands moved
    exact landEdited e line
  | pageDown =>
    obtain ⟨last,moved,rfl⟩ := @finishedBy _ id _ _ ok
    obtain ⟨line,rfl⟩ := pageDownLands moved
    exact landEdited e line
  | insert b =>
    obtain ⟨last,typed,rfl⟩ := finishedBy ok
    exact editedTrans (typeEdited typed) (restEdited last)
  | insertNewline =>
    obtain ⟨last,broken,rfl⟩ := finishedBy ok
    exact editedTrans (breakLineEdited broken) (restEdited last)
  | deleteBack =>
    obtain ⟨last,deleted,rfl⟩ := finishedBy ok
    exact editedTrans (deleteBackEdited deleted) (restEdited last)
  | deleteForward =>
    obtain ⟨last,deleted,rfl⟩ := finishedBy ok
    exact editedTrans (deleteForwardEdited deleted) (restEdited last)
  | save => exact absurd rfl saves
  | find => exact absurd rfl finds
  | quit => exact absurd rfl quits
  | refresh =>
    cases Except.ok.inj ok
    exact restEdited e

structure Calm (e : Editor) : Prop where
  inside : e.Inside
  idle : e.search = none
  mode : e.mode ≠ .searchPrompt
  prompt : e.mode ≠ .namePrompt → e.prompt = []
  confirming : e.mode = .confirmQuit → e.document.isDirty = true
  settled : e.document.Settled
  marked : Language.Marked e.document.language

structure Searching (origin : Editor) (search : Search) (e : Editor) : Prop where
  begun : origin.Calm
  inside : e.Inside
  held : e.search = some search
  mode : e.mode = .searchPrompt
  prompt : e.prompt = []
  shows : search.Shows origin.document e.document
  cursor : search.cursor = origin.cursor
  view : search.view = origin.view

inductive Steady (e : Editor) : Prop where
  | calm (calm : e.Calm)
  | searching {origin : Editor} {search : Search} (running : Searching origin search e)

theorem editedCalm {e after : Editor} (calm : e.Calm) (editing : e.mode = .editing)
    (edited : e.Edited after) (inside : after.Inside)
    (language : after.document.language = e.document.language) : after.Calm := by
  have marked := calm.marked
  rw [← language] at marked
  cases edited with
  | changed settled =>
    refine ⟨inside,calm.idle,calm.mode,calm.prompt,?_,settled calm.settled,marked⟩
    intro confirming
    cases editing.symm.trans confirming

theorem storedCalm {e : Editor} {document : Document} (calm : e.Calm) (editing : e.mode = .editing)
    (contents : document.contents = e.document.contents) (settled : document.Settled)
    (marked : Language.Marked document.language) (outcome : Except Fault Unit) :
    (e.stored document outcome).Calm := by
  have notConfirming {dirty : Prop} (confirming : e.mode = .confirmQuit) : dirty := by
    cases editing.symm.trans confirming
  cases outcome with
  | ok done =>
    exact ⟨Document.insideSame contents calm.inside,calm.idle,calm.mode,calm.prompt,
      notConfirming,settled,marked⟩
  | error fault =>
    exact ⟨calm.inside,calm.idle,calm.mode,calm.prompt,notConfirming,calm.settled,calm.marked⟩

theorem restCalm {e : Editor} (calm : e.Calm) : e.rest.Calm :=
  ⟨restInside (Document.insideNonempty calm.inside),calm.idle,calm.mode,calm.prompt,
    calm.confirming,calm.settled,calm.marked⟩

theorem saveCalm {e : Editor} (calm : e.Calm) (editing : e.mode = .editing)
    (outcome : Except Fault Unit) : (e.save.settle outcome).1.Calm := by
  unfold save
  split
  · exact restCalm (@storedCalm e e.document.saved calm editing rfl calm.settled calm.marked outcome)
  · have asked : e.askName.Calm := by
      refine ⟨calm.inside,calm.idle,?_,?_,?_,calm.settled,calm.marked⟩
      · exact nofun
      · intro _
        rfl
      · exact nofun
    exact restCalm asked

theorem quitCalm {e : Editor} (calm : e.Calm) (prompt : e.prompt = []) : e.quit.1.Calm := by
  unfold quit
  split
  · rename_i dirty
    have again (presses : Nat) (notice : Option Notice) :
        { e with pressesLeft := presses, notice }.Calm :=
      ⟨calm.inside,calm.idle,calm.mode,calm.prompt,calm.confirming,calm.settled,calm.marked⟩
    have first (presses : Nat) (notice : Option Notice) :
        { e with mode := .confirmQuit, pressesLeft := presses, notice }.Calm :=
      ⟨calm.inside,calm.idle,nofun,fun _ => prompt,fun _ => dirty,calm.settled,calm.marked⟩
    simp only
    split
    · split
      · exact again _ _
      · exact again _ _
    · split
      · exact first _ _
      · exact first _ _
  · exact calm

theorem nameKeyCalm {e : Editor} (calm : e.Calm) (naming : e.mode = .namePrompt) (key : Key)
    (outcome : Except Fault Unit) : ((e.nameKey key).settle outcome).1.Calm := by
  have asking (prompt : Bytes) (notice : Option Notice) : { e with prompt, notice }.Calm := by
    refine ⟨calm.inside,calm.idle,calm.mode,fun other => absurd naming other,?_,calm.settled,
      calm.marked⟩
    intro confirming
    cases naming.symm.trans confirming
  have done (notice : Option Notice) : { e with mode := .editing, prompt := [], notice }.Calm :=
    ⟨calm.inside,calm.idle,nofun,fun _ => rfl,nofun,calm.settled,calm.marked⟩
  unfold nameKey
  split
  · exact done _
  · exact done _
  · split
    · exact calm
    · refine storedCalm (done e.notice) rfl ?_ ?_ ?_ outcome
      · exact Document.contentsOfSetPath e.document.saved _
      · exact @Document.setPathSettled e.document.saved calm.settled _
      · rw [Document.savedAs,Document.languageOfSetPath]
        exact Language.ofPathMarked _
  · exact asking _ _
  · exact asking _ _
  · split
    · exact asking _ _
    · exact asking _ _

theorem unconfirmed (e : Editor) (key : Key) :
    ∃ mode presses notice, e.unconfirm key = { e with mode, pressesLeft := presses, notice } := by
  unfold unconfirm
  split
  · exact ⟨_,_,_,rfl⟩
  · exact ⟨_,_,_,rfl⟩

theorem unconfirmEditing {e : Editor} (editing : e.mode = .editing) (key : Key) : e.unconfirm key = e := by
  rw [unconfirm,editing,if_neg]
  exact fun both => nomatch both.1

theorem unconfirmCalm {e : Editor} (calm : e.Calm) (typing : e.mode = .editing ∨ e.mode = .confirmQuit)
    (key : Key) : (e.unconfirm key).Calm ∧ (e.unconfirm key).prompt = [] ∧
      (key ≠ .action .quit → (e.unconfirm key).mode = .editing) := by
  have prompt : e.prompt = [] := by
    apply calm.prompt
    rcases typing with mode | mode <;> rw [mode] <;> exact nofun
  unfold unconfirm
  split
  · exact ⟨⟨calm.inside,calm.idle,nofun,fun _ => prompt,nofun,calm.settled,calm.marked⟩,prompt,fun _ => rfl⟩
  · rename_i kept
    refine ⟨calm,prompt,?_⟩
    intro other
    rcases typing with mode | mode
    · exact mode
    · exact absurd ⟨mode,other⟩ kept

theorem askQueryBegins {e : Editor} (calm : e.Calm) (prompt : e.prompt = []) :
    Searching e (.start e.cursor e.view) e.askQuery.rest := by
  refine ⟨calm,restInside (Document.insideNonempty calm.inside),rfl,rfl,prompt,?_,rfl,rfl⟩
  refine ⟨(Document.markedNone e.document []).symm,rfl,?_⟩
  intro p found
  cases found

theorem obeyCalm {e after : Editor} {command : Command} {outcome : Except Fault Unit}
    (calm : e.Calm) (prompt : e.prompt = []) (editing : command ≠ .quit → e.mode = .editing)
    (finds : command ≠ .find) (ok : e.obey (command, outcome) = .ok after) : after.Calm := by
  by_cases quits : command = .quit
  · subst quits
    cases Except.ok.inj ok
    exact quitCalm calm prompt
  by_cases saves : command = .save
  · subst saves
    cases Except.ok.inj ok
    exact saveCalm calm (editing quits) outcome
  have obeyed := obeyObeyed calm.inside command outcome
  exact editedCalm calm (editing quits) (obeyEdited saves finds quits ok) (obeyed.sound ok).1
    (obeyed.language ok)

theorem obeySteady {e after : Editor} {command : Command} {outcome : Except Fault Unit}
    (calm : e.Calm) (prompt : e.prompt = []) (editing : command ≠ .quit → e.mode = .editing)
    (ok : e.obey (command, outcome) = .ok after) : after.Steady := by
  by_cases finds : command = .find
  · subst finds
    cases Except.ok.inj ok
    exact .searching (askQueryBegins calm prompt)
  · exact .calm (obeyCalm calm prompt editing finds ok)

theorem calmKeySteady {e after : Editor} {key : Key} {outcome : Except Fault Unit} (calm : e.Calm)
    (ok : e.handle (.key key outcome) = .ok after) : after.Steady := by
  have typed (typing : e.mode = .editing ∨ e.mode = .confirmQuit) : after.Steady := by
    obtain ⟨quiet,prompt,editing⟩ := unconfirmCalm calm typing key
    rw [handleTyping typing] at ok
    cases asked : key.command? with
    | none =>
      rw [asked] at ok
      cases Except.ok.inj ok
      exact .calm quiet
    | some command =>
      rw [asked] at ok
      refine obeySteady quiet prompt ?_ ok
      intro other
      apply editing
      rintro rfl
      exact other (Option.some.inj asked).symm
  cases mode : e.mode with
  | editing => exact typed (.inl mode)
  | confirmQuit => exact typed (.inr mode)
  | namePrompt =>
    rw [handleKey,react,mode] at ok
    cases Except.ok.inj ok
    exact .calm (nameKeyCalm calm mode key outcome)
  | searchPrompt => exact absurd mode calm.mode

theorem continueRuns {origin e : Editor} {search next : Search} {document : Document}
    (running : Searching origin search e) (shows : next.Shows origin.document document)
    (cursor : next.cursor = search.cursor) (view : next.view = search.view) :
    Searching origin next (e.continueSearch next document) := by
  have contents := Search.showsContents shows
  have before := Search.showsContents running.shows
  cases found : next.found with
  | none =>
    simp only [continueSearch,found]
    exact ⟨running.begun,Document.insideSame (contents.trans before.symm) running.inside,rfl,
      running.mode,running.prompt,shows,cursor.trans running.cursor,view.trans running.view⟩
  | some p =>
    simp only [continueSearch,found]
    exact ⟨running.begun,Document.insideSame contents (Document.occursInside (shows.occurs p found)),
      rfl,running.mode,running.prompt,shows,cursor.trans running.cursor,view.trans running.view⟩

theorem runRuns {origin e : Editor} {search : Search} (running : Searching origin search e)
    (query : Bytes) (direction : Direction) (inclusive : Bool) :
    let out := { search with query }.run e.document direction inclusive
    ∃ next, Searching origin next (e.continueSearch out.1 out.2) := by
  obtain ⟨shows,cursor,view⟩ := Search.runShows running.shows query direction inclusive
  exact ⟨_,continueRuns running shows cursor view⟩

theorem searchKeyRuns {origin e : Editor} {search : Search} (running : Searching origin search e)
    {key : Key} (stays : key.endsSearch = false) :
    ∃ next, Searching origin next (e.searchKey search key) := by
  unfold searchKey
  split
  · cases stays
  · cases stays
  · cases stays
  · exact runRuns running search.query .forward false
  · exact runRuns running search.query .forward false
  · exact runRuns running search.query .backward false
  · exact runRuns running search.query .backward false
  · exact runRuns running search.query.dropLast .forward true
  · exact runRuns running search.query.dropLast .forward true
  · split
    · exact runRuns running (search.query ++ [_]) .forward true
    · exact ⟨search,continueRuns running running.shows rfl rfl⟩

theorem endSearchGives {origin e : Editor} {search : Search} (running : Searching origin search e) :
    e.endSearch search =
      { e with document := origin.document, mode := .editing, search := none }.notify "" := by
  have uncovered := Search.uncoverShows running.shows search.query
  rw [endSearch,uncovered]

theorem endSearchCalm {origin e : Editor} {search : Search} (running : Searching origin search e) :
    (e.endSearch search).Calm := by
  have same := (Search.showsContents running.shows).symm
  rw [endSearchGives running]
  exact ⟨Document.insideSame same running.inside,rfl,nofun,fun _ => running.prompt,nofun,
    running.begun.settled,running.begun.marked⟩

theorem abandonSearchCalm {origin e : Editor} {search : Search}
    (running : Searching origin search e) : (e.abandonSearch search).Calm := by
  rw [abandonSearch,endSearchGives running,running.cursor]
  exact ⟨running.begun.inside,rfl,nofun,fun _ => running.prompt,nofun,running.begun.settled,
    running.begun.marked⟩

theorem handleSearching {origin e : Editor} {search : Search} (running : Searching origin search e)
    (key : Key) (outcome : Except Fault Unit) :
    e.handle (.key key outcome) = .ok (e.searchKey search key) := by
  simp only [handleKey,react,running.mode,running.held]
  rfl

theorem searchKeyEnds {origin e : Editor} {search : Search} (running : Searching origin search e)
    {key : Key} (ends : key.endsSearch = true) : (e.searchKey search key).Calm := by
  unfold Key.endsSearch at ends
  split at ends
  · exact endSearchCalm running
  · exact abandonSearchCalm running
  · exact abandonSearchCalm running
  · cases ends

theorem searchingKeySteady {origin e : Editor} {search : Search}
    (running : Searching origin search e) (key : Key) : (e.searchKey search key).Steady := by
  cases ends : key.endsSearch with
  | false =>
    obtain ⟨next,still⟩ := searchKeyRuns running ends
    exact .searching still
  | true => exact .calm (searchKeyEnds running ends)

theorem shownElsewhere {origin e : Editor} {search : Search} (running : Searching origin search e)
    (view : Viewport) (now : Nat) : Searching origin search { e with view, now } :=
  ⟨running.begun,running.inside,running.held,running.mode,running.prompt,running.shows,
    running.cursor,running.view⟩

theorem handleSteady {e after : Editor} {event : Event} (steady : e.Steady)
    (ok : e.handle event = .ok after) : after.Steady := by
  rcases handleOther ok with ⟨key,outcome,rfl⟩ | ⟨view,now,rfl⟩
  · cases steady with
    | calm calm => exact calmKeySteady calm ok
    | searching running =>
      rw [handleSearching running] at ok
      cases Except.ok.inj ok
      exact searchingKeySteady running key
  · cases steady with
    | calm calm =>
      exact .calm ⟨calm.inside,calm.idle,calm.mode,calm.prompt,calm.confirming,calm.settled,calm.marked⟩
    | searching running => exact .searching (shownElsewhere running view now)

theorem startCalm {doc : Document} (loaded : doc.Loaded) (settings : Settings) (window : Window)
    (now : Nat) : (start doc settings window now).Calm :=
  ⟨⟨Document.loadedNonempty loaded,Nat.zero_le _⟩,rfl,nofun,fun _ => rfl,nofun,
    Document.loadedSettled loaded,Document.loadedMarked loaded⟩

theorem eventsSteady {e after : Editor} {events : List Event} (steady : e.Steady)
    (ran : events.foldlM handle e = .ok after) : after.Steady := by
  refine foldKeeps ?_ steady ran
  intro before event after _ steady ok
  exact handleSteady steady ok

theorem sessionSteady {doc : Document} {settings : Settings} {window : Window} {now : Nat}
    {events : List Event} {e : Editor} (loaded : doc.Loaded)
    (ran : events.foldlM handle (start doc settings window now) = .ok e) : e.Steady :=
  eventsSteady (.calm (startCalm loaded settings window now)) ran

theorem steadyInside {e : Editor} (steady : e.Steady) : e.Inside := by
  cases steady with
  | calm calm => exact calm.inside
  | searching running => exact running.inside

theorem steadySearch {e : Editor} (steady : e.Steady) :
    e.search.isSome = true ↔ e.mode = .searchPrompt := by
  cases steady with
  | calm calm => simp [calm.idle,calm.mode]
  | searching running => simp [running.held,running.mode]

theorem steadyPrompt {e : Editor} (steady : e.Steady) (other : e.mode ≠ .namePrompt) :
    e.prompt = [] := by
  cases steady with
  | calm calm => exact calm.prompt other
  | searching running => exact running.prompt

theorem steadyConfirming {e : Editor} (steady : e.Steady) (confirming : e.mode = .confirmQuit) :
    e.document.isDirty = true := by
  cases steady with
  | calm calm => exact calm.confirming confirming
  | searching running => cases running.mode.symm.trans confirming

theorem steadyOccurs {e : Editor} {search : Search} {p : Position} (steady : e.Steady)
    (held : e.search = some search) (found : search.found = some p) :
    e.document.Occurs search.query p := by
  cases steady with
  | calm calm => cases calm.idle.symm.trans held
  | searching running =>
    cases Option.some.inj (running.held.symm.trans held)
    exact Document.occursSame (Search.showsContents running.shows) (running.shows.occurs p found)

def Takes (e : Editor) (key : Key) : Prop :=
  e.mode = .editing ∨ e.mode = .confirmQuit → ∀ command, key.command? = some command → e.Able command

theorem takesFreely {e after : Editor} {key : Key} {run : Except Impasse Editor} (free : e.Takes key)
    (ok : run = .ok after) : Answers run (e.Takes key) := by
  rw [ok]
  exact answersIff ⟨fun _ => free,fun _ => trivial⟩ (answersOk after)

theorem keyAnswers {e : Editor} (steady : e.Steady) (key : Key) (outcome : Except Fault Unit) :
    Answers (e.handle (.key key outcome)) (e.Takes key) := by
  have prompted (mode : ¬ (e.mode = .editing ∨ e.mode = .confirmQuit)) : e.Takes key :=
    fun typing => absurd typing mode
  cases steady with
  | searching running =>
    refine takesFreely (prompted ?_) (handleSearching running key outcome)
    rw [running.mode]
    decide
  | calm calm =>
    have typed (typing : e.mode = .editing ∨ e.mode = .confirmQuit) :
        Answers (e.handle (.key key outcome)) (e.Takes key) := by
      obtain ⟨mode,presses,notice,same⟩ := unconfirmed e key
      rw [handleTyping typing,same]
      cases asked : key.command? with
      | none => exact takesFreely (fun _ command other => nomatch asked.symm.trans other) rfl
      | some command =>
        have inside : { e with mode, pressesLeft := presses, notice }.Inside := calm.inside
        refine answersIff ?_ ((obeyObeyed inside command outcome).answers calm.marked)
        constructor
        · intro able _ other given
          cases Option.some.inj (asked.symm.trans given)
          cases command <;> exact able
        · intro takes
          have able := takes typing command asked
          cases command <;> exact able
    cases mode : e.mode with
    | editing => exact typed (.inl mode)
    | confirmQuit => exact typed (.inr mode)
    | namePrompt =>
      have named : e.handle (.key key outcome) = .ok ((e.nameKey key).settle outcome).1 := by
        rw [handleKey,react,mode]
        rfl
      exact takesFreely (prompted (by rw [mode]; decide)) named
    | searchPrompt => exact absurd mode calm.mode

theorem sessionConsistent {doc : Document} {settings : Settings} {window : Window} {now : Nat}
    {events : List Event} {e : Editor} (loaded : doc.Loaded)
    (ran : events.foldlM handle (start doc settings window now) = .ok e) :
    0 < e.document.count ∧ e.cursor.line < e.document.count ∧
      e.cursor.column ≤ e.document.lineSize e.cursor.line ∧
      (e.search.isSome = true ↔ e.mode = .searchPrompt) ∧
      (e.mode ≠ .namePrompt → e.prompt = []) ∧
      (e.mode = .confirmQuit → e.document.isDirty = true) ∧
      (∀ search p, e.search = some search → search.found = some p →
        e.document.Occurs search.query p) ∧
      ∀ key outcome, (e.Takes key → ∃ after, e.handle (.key key outcome) = .ok after) ∧
        (¬ e.Takes key → ∃ overflow, e.handle (.key key outcome) = .error (.overflow overflow)) := by
  have steady := sessionSteady loaded ran
  have inside := steadyInside steady
  refine ⟨Document.insideNonempty inside,inside.line,inside.column,steadySearch steady,
    steadyPrompt steady,steadyConfirming steady,fun _ _ => steadyOccurs steady,?_⟩
  intro key outcome
  have answers := keyAnswers steady key outcome
  exact ⟨answers.returns,answers.overflows⟩

theorem sessionConsistentAtMatch :
    ∃ doc e search, Document.ofBytes [97, 98, 10, 99] 4 = .ok doc ∧
      [Event.key (.literal 100) (.ok ()), .key (.action .quit) (.ok ()), .resize ⟨3, 9⟩, .scroll,
        .key (.action .find) (.ok ()), .key (.literal 99) (.ok ())].foldlM handle
        (start doc {} ⟨10, 20⟩) = .ok e ∧
      e.search = some search ∧ search.found = some ⟨1, 0⟩ ∧ e.document.Occurs search.query ⟨1, 0⟩ ∧
      e.mode = .searchPrompt := by
  obtain ⟨doc,e,search,read,ran,held,found⟩ : ∃ doc e search,
      Document.ofBytes [97, 98, 10, 99] 4 = .ok doc ∧
      [Event.key (.literal 100) (.ok ()), .key (.action .quit) (.ok ()), .resize ⟨3, 9⟩, .scroll,
        .key (.action .find) (.ok ()), .key (.literal 99) (.ok ())].foldlM handle
        (start doc {} ⟨10, 20⟩) = .ok e ∧
      e.search = some search ∧ search.found = some ⟨1, 0⟩ := ⟨_,_,_,rfl,rfl,rfl,rfl⟩
  obtain ⟨_,_,_,searching,_,_,occurs,_⟩ := sessionConsistent (.bytes read) ran
  exact ⟨doc,e,search,read,ran,held,found,occurs search _ held found,searching.mp (by rw [held]; rfl)⟩

end Editor
end Vellum
