import Vellum.Proofs.Modes

/-! Leaving the editor. Whether a key is answered by leaving can be told from the
keys pressed so far: Quit leaves unchanged text at once, and changed text as soon as
it has been pressed often enough in a row. The count is kept in two places of the
editor, and Quit is an ordinary key for the prompts. -/
namespace Vellum

def Event.pressed? : Event → Option Key
  | .key pressed _ => some pressed
  | _ => none

def Event.pressed (events : List Event) : List Key := events.filterMap Event.pressed?

def quitRun (keys : List Key) : Nat := (keys.reverse.takeWhile (· == .action .quit)).length

theorem quitRunQuit (keys : List Key) : quitRun (keys ++ [.action .quit]) = quitRun keys + 1 := by
  simp [quitRun]

theorem quitRunOther {key : Key} (keys : List Key) (other : key ≠ .action .quit) :
    quitRun (keys ++ [key]) = 0 := by
  simp [quitRun,other]

theorem quitRunSuffix (n : Nat) (keys : List Key) :
    List.replicate n (.action .quit) <:+ keys ↔ n ≤ quitRun keys := by
  rw [← List.reverse_prefix,List.reverse_replicate,quitRun]
  induction keys.reverse generalizing n with
  | nil => cases n <;> simp [List.replicate_succ]
  | cons key rest ih =>
    cases n with
    | zero => simp
    | succ n =>
      rw [List.replicate_succ,List.cons_prefix_cons,ih]
      by_cases quits : key = .action .quit
      · simp [quits]
      · simp [quits,Ne.symm quits]

theorem quitKey {key : Key} (asks : key.command? = some .quit) : key = .action .quit := by
  cases key with
  | literal b => cases asks
  | action a =>
    cases a with
    | quit => rfl
    | _ => cases asks

namespace Editor

structure Counting (presses : Nat) (keys : List Key) (e : Editor) : Prop where
  settings : e.settings.quitPresses = presses
  search : e.mode = .searchPrompt → e.search.isSome = true
  editing : e.mode = .editing → e.document.isDirty = true → quitRun keys = 0
  confirming : e.mode = .confirmQuit →
    e.document.isDirty = true ∧ e.pressesLeft = presses - quitRun keys

/- The editor after a key that is not counted, where `settings` were in force. Quit is such a key for
the prompts, but it does not lead out of them. -/
inductive Turned (key : Key) (settings : Settings) (after : Editor) : Prop where
  | editing (same : after.settings = settings) (mode : after.mode = .editing)
      (other : key ≠ .action .quit)
  | naming (same : after.settings = settings) (mode : after.mode = .namePrompt)
  | searching (same : after.settings = settings) (mode : after.mode = .searchPrompt)
      (search : after.search.isSome = true)

theorem turnedCounting {presses : Nat} {keys : List Key} {key : Key} {e after : Editor}
    (counting : Counting presses keys e) (turned : Turned key e.settings after) :
    Counting presses (keys ++ [key]) after := by
  cases turned with
  | editing same mode other =>
    refine ⟨same ▸ counting.settings,?_,fun _ _ => quitRunOther keys other,?_⟩
    · intro searching
      cases mode.symm.trans searching
    · intro confirming
      cases mode.symm.trans confirming
  | naming same mode =>
    refine ⟨same ▸ counting.settings,?_,?_,?_⟩
    · intro searching
      cases mode.symm.trans searching
    · intro editing
      cases mode.symm.trans editing
    · intro confirming
      cases mode.symm.trans confirming
  | searching same mode search =>
    refine ⟨same ▸ counting.settings,fun _ => search,?_,?_⟩
    · intro editing
      cases mode.symm.trans editing
    · intro confirming
      cases mode.symm.trans confirming

theorem unconfirmOther {e : Editor} {key : Key} (typing : e.mode = .editing ∨ e.mode = .confirmQuit)
    (other : key ≠ .action .quit) :
    (e.unconfirm key).mode = .editing ∧ (e.unconfirm key).settings = e.settings := by
  unfold unconfirm
  split
  · exact ⟨rfl,rfl⟩
  · rename_i kept
    rcases typing with mode | mode
    · exact ⟨mode,rfl⟩
    · exact absurd ⟨mode,other⟩ kept

theorem saveTurned {e : Editor} {key : Key} (editing : e.mode = .editing) (other : key ≠ .action .quit)
    (outcome : Except Fault Unit) : Turned key e.settings (e.save.settle outcome).1 := by
  unfold save
  split
  · cases outcome with
    | ok done => exact .editing rfl editing other
    | error fault => exact .editing rfl editing other
  · exact .naming rfl rfl

theorem obeyTurned {e after : Editor} {key : Key} {command : Command} {outcome : Except Fault Unit}
    (editing : e.mode = .editing) (other : key ≠ .action .quit) (quits : command ≠ .quit)
    (ok : e.obey (command, outcome) = .ok after) : Turned key e.settings after := by
  by_cases finds : command = .find
  · subst finds
    cases Except.ok.inj ok
    exact .searching rfl rfl rfl
  by_cases saves : command = .save
  · subst saves
    cases Except.ok.inj ok
    exact saveTurned editing other outcome
  cases obeyEdited saves finds quits ok with
  | changed _ => exact .editing rfl editing other

theorem typedTurned {e after : Editor} {key : Key} {outcome : Except Fault Unit}
    (typing : e.mode = .editing ∨ e.mode = .confirmQuit) (other : key ≠ .action .quit)
    (ok : e.handle (.key key outcome) = .ok after) : Turned key e.settings after := by
  obtain ⟨editing,settings⟩ := unconfirmOther typing other
  rw [handleTyping typing] at ok
  cases asked : key.command? with
  | none =>
    rw [asked] at ok
    cases Except.ok.inj ok
    exact .editing settings editing other
  | some command =>
    rw [asked] at ok
    rw [← settings]
    refine obeyTurned editing other ?_ ok
    rintro rfl
    exact other (quitKey asked)

theorem nameKeyTurned {e : Editor} (naming : e.mode = .namePrompt) (key : Key)
    (outcome : Except Fault Unit) : Turned key e.settings ((e.nameKey key).settle outcome).1 := by
  unfold nameKey
  split
  · exact .editing rfl rfl nofun
  · exact .editing rfl rfl nofun
  · split
    · exact .naming rfl naming
    · cases outcome with
      | ok done => exact .editing rfl rfl nofun
      | error fault => exact .editing rfl rfl nofun
  · exact .naming rfl naming
  · exact .naming rfl naming
  · split
    · exact .naming rfl naming
    · exact .naming rfl naming

theorem continueTurned {e : Editor} (searching : e.mode = .searchPrompt) (key : Key) (search : Search)
    (document : Document) : Turned key e.settings (e.continueSearch search document) := by
  unfold continueSearch
  cases search.found with
  | none => exact .searching rfl searching rfl
  | some pos => exact .searching rfl searching rfl

theorem searchKeyTurned {e : Editor} (searching : e.mode = .searchPrompt) (search : Search) (key : Key) :
    Turned key e.settings (e.searchKey search key) := by
  unfold searchKey
  split
  · exact .editing rfl rfl nofun
  · exact .editing rfl rfl nofun
  · exact .editing rfl rfl nofun
  · exact continueTurned searching _ _ _
  · exact continueTurned searching _ _ _
  · exact continueTurned searching _ _ _
  · exact continueTurned searching _ _ _
  · exact continueTurned searching _ _ _
  · exact continueTurned searching _ _ _
  · split
    · exact continueTurned searching _ _ _
    · exact continueTurned searching _ _ _

theorem quitDirty {e : Editor} (dirty : e.document.isDirty = true) :
    e.quit.1.mode = .confirmQuit ∧ e.quit.1.settings = e.settings ∧
      e.quit.1.pressesLeft =
        (if e.mode = .confirmQuit then e.pressesLeft else e.settings.quitPresses) - 1 ∧
      (e.quit.2 = true ↔ e.quit.1.pressesLeft = 0) := by
  unfold quit
  rw [if_pos dirty]
  by_cases confirming : e.mode = .confirmQuit
  · simp only [if_pos confirming]
    split
    · rename_i spent
      exact ⟨confirming,rfl,rfl,fun _ => spent,fun _ => rfl⟩
    · rename_i more
      exact ⟨confirming,rfl,rfl,nofun,fun spent => absurd spent more⟩
  · simp only [if_neg confirming]
    split
    · rename_i spent
      exact ⟨rfl,rfl,rfl,fun _ => spent,fun _ => rfl⟩
    · rename_i more
      exact ⟨rfl,rfl,rfl,nofun,fun spent => absurd spent more⟩

theorem quitClean {e : Editor} (clean : e.document.isDirty = false) : e.quit = (e, true) := by
  rw [quit,clean]
  rfl

theorem quitCounting {presses : Nat} {keys : List Key} {e : Editor}
    (counting : Counting presses keys e) (typing : e.mode = .editing ∨ e.mode = .confirmQuit) :
    Counting presses (keys ++ [.action .quit]) e.quit.1 ∧
      (e.quit.2 = true ↔
        e.document.isDirty = false ∨ presses ≤ quitRun (keys ++ [.action .quit])) := by
  cases dirty : e.document.isDirty with
  | false =>
    have editing : e.mode = .editing := by
      rcases typing with mode | mode
      · exact mode
      · cases dirty.symm.trans (counting.confirming mode).1
    rw [quitClean dirty]
    refine ⟨⟨counting.settings,counting.search,?_,?_⟩,fun _ => .inl rfl,fun _ => rfl⟩
    · intro _ changed
      cases dirty.symm.trans changed
    · intro confirming
      cases editing.symm.trans confirming
  | true =>
    obtain ⟨mode,settings,left,leaves⟩ := quitDirty dirty
    have document := (quitKeeps e).1
    have fewer : e.quit.1.pressesLeft = presses - quitRun (keys ++ [.action .quit]) := by
      rw [left,quitRunQuit]
      rcases typing with editing | confirming
      · have start := counting.editing editing dirty
        have other : e.mode ≠ .confirmQuit := by rw [editing]; exact nofun
        rw [if_neg other,counting.settings,start]
      · rw [if_pos confirming,(counting.confirming confirming).2]
        omega
    refine ⟨⟨settings ▸ counting.settings,?_,?_,?_⟩,?_⟩
    · intro searching
      cases mode.symm.trans searching
    · intro editing
      cases mode.symm.trans editing
    · intro _
      rw [document]
      exact ⟨dirty,fewer⟩
    · rw [leaves,fewer]
      simp only [reduceCtorEq,false_or]
      omega

theorem pressQuit {e : Editor} (typing : e.mode = .editing ∨ e.mode = .confirmQuit)
    (outcome : Except Fault Unit) : e.press outcome (.action .quit) = .ok e.quit := by
  have same : e.unconfirm (.action .quit) = e := by
    rw [unconfirm,if_neg]
    exact fun both => both.2 rfl
  rcases typing with mode | mode <;> simp only [press,react,mode,same] <;> rfl

theorem keyCounting {presses : Nat} {keys : List Key} {e after : Editor} {key : Key}
    {outcome : Except Fault Unit} (counting : Counting presses keys e)
    (ok : e.handle (.key key outcome) = .ok after) : Counting presses (keys ++ [key]) after := by
  have typed (typing : e.mode = .editing ∨ e.mode = .confirmQuit) :
      Counting presses (keys ++ [key]) after := by
    by_cases quits : key = .action .quit
    · subst quits
      rw [handle,pressQuit typing] at ok
      cases Except.ok.inj ok
      exact (quitCounting counting typing).1
    · exact turnedCounting counting (typedTurned typing quits ok)
  cases mode : e.mode with
  | editing => exact typed (.inl mode)
  | confirmQuit => exact typed (.inr mode)
  | namePrompt =>
    rw [handleKey,react,mode] at ok
    cases Except.ok.inj ok
    exact turnedCounting counting (nameKeyTurned mode key outcome)
  | searchPrompt =>
    obtain ⟨search,held⟩ := Option.isSome_iff_exists.mp (counting.search mode)
    simp only [handleKey,react,mode,held] at ok
    cases Except.ok.inj ok
    exact turnedCounting counting (searchKeyTurned mode search key)

theorem eventCounting {presses : Nat} {keys : List Key} {e after : Editor} {event : Event}
    (counting : Counting presses keys e) (ok : e.handle event = .ok after) :
    Counting presses (keys ++ Event.pressed [event]) after := by
  cases event with
  | key key outcome => exact keyCounting counting ok
  | _ =>
    rcases handleOther ok with ⟨_,_,other⟩ | ⟨view,now,rfl⟩
    · cases other
    · change Counting presses (keys ++ []) _
      rw [List.append_nil]
      exact ⟨counting.settings,counting.search,counting.editing,counting.confirming⟩

theorem sessionCounting {presses : Nat} {keys : List Key} {e after : Editor} {events : List Event}
    (counting : Counting presses keys e) (ran : events.foldlM handle e = .ok after) :
    Counting presses (keys ++ Event.pressed events) after := by
  induction events generalizing keys e with
  | nil =>
    cases Except.ok.inj ran
    rw [Event.pressed,List.filterMap_nil,List.append_nil]
    exact counting
  | cons event events ih =>
    obtain ⟨next,first,later⟩ := bindOk ran
    have whole := ih (eventCounting counting first) later
    rwa [List.append_assoc,Event.pressed,Event.pressed,← List.filterMap_append] at whole

theorem startCounting (doc : Document) (settings : Settings) (window : Window) (now : Nat) :
    Counting settings.quitPresses [] (start doc settings window now) :=
  ⟨rfl,nofun,fun _ _ => rfl,nofun⟩

theorem executeStays {e : Editor} {command : Command} {reaction : Reaction} (other : command ≠ .quit)
    (ok : e.execute command = .ok reaction) (outcome : Except Fault Unit) :
    (reaction.settle outcome).2 = false := by
  cases command with
  | quit => exact absurd rfl other
  | save =>
    cases Except.ok.inj ok
    unfold save
    split <;> rfl
  | moveRight | pageUp | pageDown | insert | insertNewline | deleteBack | deleteForward =>
    obtain ⟨_,_,last⟩ := bindOk ok
    cases Except.ok.inj last
    rfl
  | moveLeft | moveUp | moveDown | moveLineStart | moveLineEnd | find | refresh =>
    cases Except.ok.inj ok
    rfl

theorem nameKeyStays (e : Editor) (key : Key) (outcome : Except Fault Unit) :
    ((e.nameKey key).settle outcome).2 = false := by
  unfold nameKey
  split
  · rfl
  · rfl
  · split <;> rfl
  · rfl
  · rfl
  · split <;> rfl

theorem leavesByQuit {e after : Editor} {key : Key} {outcome : Except Fault Unit}
    (ok : e.press outcome key = .ok (after, true)) :
    key = .action .quit ∧ (e.mode = .editing ∨ e.mode = .confirmQuit) := by
  obtain ⟨reaction,reacted,settled⟩ := mapOk ok
  have left : (reaction.settle outcome).2 = true := by rw [settled]
  have typed (typing : e.mode = .editing ∨ e.mode = .confirmQuit) :
      key = .action .quit ∧ (e.mode = .editing ∨ e.mode = .confirmQuit) := by
    refine ⟨?_,typing⟩
    cases asked : key.command? with
    | none =>
      have stays : e.react key = .ok (.done (e.unconfirm key) false) := by
        rcases typing with mode | mode <;> simp only [react,mode,asked]
      cases Except.ok.inj (stays.symm.trans reacted)
      cases left
    | some command =>
      have obeys : e.react key = (e.unconfirm key).execute command := by
        rcases typing with mode | mode <;> simp only [react,mode,asked]
      by_cases quits : command = .quit
      · subst quits
        exact quitKey asked
      · cases left.symm.trans (executeStays quits (obeys ▸ reacted) outcome)
  cases mode : e.mode with
  | editing => exact mode ▸ typed (.inl mode)
  | confirmQuit => exact mode ▸ typed (.inr mode)
  | namePrompt =>
    rw [react,mode] at reacted
    cases Except.ok.inj reacted
    cases left.symm.trans (nameKeyStays e key outcome)
  | searchPrompt =>
    cases held : e.search with
    | none =>
      simp only [react,mode,held] at reacted
      cases Except.ok.inj reacted
      cases left
    | some search =>
      simp only [react,mode,held] at reacted
      cases Except.ok.inj reacted
      cases left

theorem quitAfterPresses {doc : Document} {settings : Settings} {window : Window} {now : Nat}
    {events : List Event} {e : Editor}
    (ran : events.foldlM handle (start doc settings window now) = .ok e) (key : Key)
    (outcome : Except Fault Unit) :
    ((∃ after, e.press outcome key = .ok (after, true)) ↔
      key = .action .quit ∧ (e.mode = .editing ∨ e.mode = .confirmQuit) ∧
        (e.document.isDirty = false ∨
          List.replicate settings.quitPresses (.action .quit) <:+ Event.pressed events ++ [key])) ∧
      (doc.Loaded → (e.Takes key → ∃ after left, e.press outcome key = .ok (after, left)) ∧
        (¬ e.Takes key → ∃ overflow, e.press outcome key = .error (.overflow overflow))) := by
  have counting := sessionCounting (startCounting doc settings window now) ran
  rw [List.nil_append] at counting
  refine ⟨⟨?_,?_⟩,?_⟩
  · rintro ⟨after,ok⟩
    obtain ⟨rfl,typing⟩ := leavesByQuit ok
    rw [pressQuit typing] at ok
    have left : e.quit.2 = true := congrArg Prod.snd (Except.ok.inj ok)
    rw [quitRunSuffix]
    exact ⟨rfl,typing,(quitCounting counting typing).2.mp left⟩
  · rintro ⟨rfl,typing,enough⟩
    rw [quitRunSuffix] at enough
    have left := (quitCounting counting typing).2.mpr enough
    refine ⟨e.quit.1,?_⟩
    rw [pressQuit typing,← left]
  · intro loaded
    have answers := keyAnswers (sessionSteady loaded ran) key outcome
    constructor
    · intro takes
      obtain ⟨after,handled⟩ := answers.returns takes
      obtain ⟨⟨last,left⟩,pressed,_⟩ := mapOk handled
      exact ⟨last,left,pressed⟩
    · intro refuses
      obtain ⟨overflow,handled⟩ := answers.overflows refuses
      cases pressed : e.press outcome key with
      | ok out => simp [handle,pressed,Except.map] at handled
      | error impasse =>
        rw [handle,pressed] at handled
        exact ⟨overflow,congrArg Except.error (Except.error.inj handled)⟩

theorem quitAfterPressesRestarted :
    let events := [Event.key (.literal 120) (.ok ()), .key (.action .quit) (.ok ()),
      .key (.action .quit) (.ok ()), .key (.action .find) (.ok ()), .key (.action .quit) (.ok ()),
      .key (.action .cancel) (.ok ()), .key (.action .quit) (.ok ()), .resize ⟨3, 9⟩,
      .key (.action .quit) (.ok ())]
    ∃ e after, events.foldlM handle (start (.blank 4) {} ⟨10, 20⟩) = .ok e ∧
      e.document.isDirty = true ∧ e.mode = .confirmQuit ∧ e.pressesLeft = 1 ∧
      e.press (.ok ()) (.action .quit) = .ok (after, true) := by
  intro events
  obtain ⟨e,ran,dirty,confirming,left⟩ : ∃ e,
      events.foldlM handle (start (.blank 4) {} ⟨10, 20⟩) = .ok e ∧ e.document.isDirty = true ∧
      e.mode = .confirmQuit ∧ e.pressesLeft = 1 := ⟨_,rfl,rfl,rfl,rfl⟩
  have three : List.replicate 3 (Key.action .quit) <:+ Event.pressed events ++ [.action .quit] :=
    ⟨[.literal 120, .action .quit, .action .quit, .action .find, .action .quit, .action .cancel],rfl⟩
  obtain ⟨after,leaves⟩ := (quitAfterPresses ran (.action .quit) (.ok ())).1.mpr
    ⟨rfl,.inr confirming,.inr three⟩
  exact ⟨e,after,ran,dirty,confirming,left,leaves⟩

end Editor
end Vellum
