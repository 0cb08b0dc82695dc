import Vellum.Program
import Vellum.Proofs.Quitting

/-! The loop of the program. A session is a run of events: it draws into the window that
there is, takes the next key of its script, and so on until it ends. What holds of every
editor that events lead to therefore holds of every session, and of the editors whose
frames were drawn on the way. Neither a session nor a whole run of the program goes on
forever. -/
namespace Vellum

namespace Session
open Editor (handle)

/- Events with these keys lead from an editor to where a session stands, past its frames. -/
structure Follows (dialect : Dialect) (editor : Editor) (keys : List Key) (s : Session) : Prop where
  handled : ∃ events : List Event, Event.pressed events = keys ∧ events.foldlM handle editor = .ok s.editor
  frames : ∀ frame ∈ s.frames, ∃ (events : List Event) (e after : Editor), events.foldlM handle editor = .ok e ∧
    Frame.refresh dialect e e.now = .ok (after, frame)

inductive Closes (terminal : Terminal) (editor : Editor) (s : Session) : List Key → Ending → Prop where
  | left {keys : List Key} {events : List Event} {e : Editor} {outcome : Except Fault Unit} {key : Key}
      (ran : events.foldlM handle editor = .ok e) (pressed : e.press outcome key = .ok (s.editor, true)) :
      Closes terminal editor s keys .left
  | spent : Closes terminal editor s [] (.failed (.device .endOfInput))
  | windowless (keys : List Key) {refresh : Nat} (missing : window? terminal refresh = none) :
      Closes terminal editor s keys (.failed .windowSize)
  | refused (keys : List Key) {n : Nat} {text : String} (given : terminal.refused = some (n, text)) :
      Closes terminal editor s keys (.failed (.device (.reported text)))
  | stuckKey {keys : List Key} {events : List Event} {e : Editor} {outcome : Except Fault Unit} {key : Key}
      {impasse : Impasse} (ran : events.foldlM handle editor = .ok e)
      (stuck : e.handle (.key key outcome) = .error impasse) : Closes terminal editor s keys (.broken impasse)
  | stuckFrame {keys : List Key} {events : List Event} {e : Editor} {impasse : Impasse}
      (ran : events.foldlM handle editor = .ok e)
      (stuck : Frame.refresh terminal.dialect e e.now = .error impasse) :
      Closes terminal editor s keys (.broken impasse)

section
variable {terminal : Terminal} {editor : Editor} {keys : List Key} {s : Session}
  (follows : Follows terminal.dialect editor keys s)
include follows

theorem followsOn {events : List Event} {e : Editor} (ran : events.foldlM handle s.editor = .ok e) :
    ∃ all : List Event, Event.pressed all = keys ++ Event.pressed events ∧ all.foldlM handle editor = .ok e := by
  obtain ⟨before,pressed,led⟩ := follows.handled
  refine ⟨before ++ events,?_,?_⟩
  · rw [← pressed,Event.pressed,List.filterMap_append]
    rfl
  · rw [List.foldlM_append,led]
    exact ran

theorem drawPlayed : Follows terminal.dialect editor keys (s.draw terminal).1 ∧
    ∀ ending, (s.draw terminal).2 = some ending →
      ∀ rest, Closes terminal editor (s.draw terminal).1 rest ending := by
  unfold draw
  split
  · rename_i missing
    refine ⟨follows,?_⟩
    rintro _ ⟨⟩ rest
    exact .windowless rest missing
  · rename_i window _
    have sized : [Event.resize window].foldlM handle s.editor = .ok (s.editor.resize window) := rfl
    obtain ⟨all,pressed,led⟩ := followsOn follows sized
    split
    · rename_i impasse stuck
      refine ⟨follows,?_⟩
      rintro _ ⟨⟩ rest
      exact .stuckFrame led stuck
    · rename_i drawn frame refreshed
      have both : [Event.resize window, .refresh terminal.dialect s.editor.now].foldlM handle s.editor =
          .ok drawn := by
        simp only [List.foldlM_cons,List.foldlM_nil,handle,bind,Except.bind]
        rw [refreshed]
        rfl
      have handled := followsOn follows both
      rw [Event.pressed,List.filterMap_cons_none rfl,List.filterMap_cons_none rfl,List.filterMap_nil,
        List.append_nil] at handled
      have written : Follows terminal.dialect editor keys
          { s with editor := drawn, frames := s.frames ++ [frame] } := by
        refine ⟨handled,?_⟩
        intro other member
        rcases List.mem_append.mp member with before | last
        · exact follows.frames other before
        · cases List.mem_singleton.mp last
          exact ⟨all,_,drawn,led,refreshed⟩
      split
      · rename_i given
        split
        · refine ⟨⟨handled,follows.frames⟩,?_⟩
          rintro _ ⟨⟩ rest
          exact .refused rest given
        · refine ⟨written,?_⟩
          rintro _ ⟨⟩
      · refine ⟨written,?_⟩
        rintro _ ⟨⟩

theorem pressFollows {key : Key} {next : Session} {left : Bool} (ok : s.press key = .ok (next, left)) :
    Follows terminal.dialect editor (keys ++ [key]) next ∧
      ∃ outcome, s.editor.press outcome key = .ok (next.editor, left) := by
  obtain ⟨reaction,reacts,last⟩ := bindOk ok
  have settled : ∃ outcome, reaction.settle outcome = (next.editor, left) ∧ next.frames = s.frames := by
    cases reaction with
    | done after left =>
      cases Except.ok.inj last
      exact ⟨.ok (),rfl,rfl⟩
    | store path bytes resume =>
      cases written : s.tree.write path bytes with
      | ok tree =>
        simp only [Reaction.settleIn,written] at last
        cases Except.ok.inj last
        exact ⟨.ok (),rfl,rfl⟩
      | error fault =>
        simp only [Reaction.settleIn,written] at last
        cases Except.ok.inj last
        exact ⟨.error fault,rfl,rfl⟩
  obtain ⟨outcome,settled,frames⟩ := settled
  have pressed : s.editor.press outcome key = .ok (next.editor, left) := by
    rw [Editor.press,reacts,← settled]
    rfl
  have handled : [Event.key key outcome].foldlM handle s.editor = .ok next.editor := by
    simp only [List.foldlM_cons,List.foldlM_nil,handle,pressed]
    rfl
  exact ⟨⟨followsOn follows handled,frames ▸ follows.frames⟩,outcome,pressed⟩

omit follows in
theorem pressStuck {key : Key} {impasse : Impasse} (stuck : s.press key = .error impasse) :
    s.editor.handle (.key key (.ok ())) = .error impasse := by
  cases reacts : s.editor.react key with
  | error other =>
    rw [press,reacts] at stuck
    rw [handle,Editor.press,reacts]
    exact congrArg Except.error (Except.error.inj stuck)
  | ok reaction =>
    rw [press,reacts] at stuck
    cases stuck

theorem turnEnds {key : Key} {script : Script} {result : Result}
    (ended : s.turn terminal key script = .inl result) :
    ∃ taken rest, [key] = taken ++ rest ∧ Follows terminal.dialect editor (keys ++ taken) result.session ∧
      ∀ others, Closes terminal editor result.session others result.ending := by
  obtain ⟨before,_,led⟩ := follows.handled
  unfold turn at ended
  split at ended
  · rename_i impasse refused
    cases Sum.inl.inj ended
    exact ⟨[],[key],rfl,by rwa [List.append_nil],fun _ => .stuckKey led (pressStuck refused)⟩
  · rename_i next pressed
    cases Sum.inl.inj ended
    obtain ⟨there,outcome,left⟩ := pressFollows follows pressed
    exact ⟨[key],[],rfl,there,fun _ => .left led left⟩
  · rename_i next pressed
    obtain ⟨there,_⟩ := pressFollows follows pressed
    obtain ⟨drawn,closes⟩ := drawPlayed there
    split at ended
    · rename_i last ending stopped
      cases Sum.inl.inj ended
      rw [stopped] at drawn closes
      exact ⟨[key],[],rfl,drawn,closes ending rfl⟩
    · cases ended

theorem turnGoes {key : Key} {script : Script} {next : Session} (goes : s.turn terminal key script = .inr next) :
    Follows terminal.dialect editor (keys ++ [key]) next := by
  unfold turn at goes
  split at goes
  · cases goes
  · cases goes
  · rename_i after pressed
    obtain ⟨there,_⟩ := pressFollows follows pressed
    have drawn := (drawPlayed there).1
    split at goes
    · cases goes
    · rename_i last stopped
      cases Sum.inr.inj goes
      rwa [stopped] at drawn

end

theorem readPlayed {terminal : Terminal} {editor : Editor} {keys : List Key} {s : Session}
    (follows : Follows terminal.dialect editor keys s) (decoding : Decoding) (script : Script) :
    ∃ taken rest, (decoding.readAll script).map Prod.fst = taken ++ rest ∧
      Follows terminal.dialect editor (keys ++ taken) (s.read terminal decoding script).session ∧
      Closes terminal editor (s.read terminal decoding script).session rest
        (s.read terminal decoding script).ending := by
  induction script generalizing s keys decoding with
  | nil =>
    rw [read,Decoding.readAll]
    split
    · exact ⟨[],[],rfl,by rwa [List.append_nil],.spent⟩
    · split
      · rename_i ended
        obtain ⟨taken,rest,split,there,closes⟩ := turnEnds follows ended
        exact ⟨taken,rest,split,there,closes rest⟩
      · rename_i goes
        exact ⟨[Decoding.cancel],[],rfl,turnGoes follows goes,.spent⟩
  | cons entry script ih =>
    cases stepped : decoding.step entry with
    | inr next =>
      rw [read,Decoding.readAll,stepped]
      exact ih follows next
    | inl key =>
      rw [read,Decoding.readAll,stepped]
      dsimp only
      split
      · rename_i ended
        obtain ⟨taken,rest,split,there,closes⟩ := turnEnds follows ended
        refine ⟨taken,rest ++ (Decoding.idle.readAll script).map Prod.fst,?_,there,closes _⟩
        rw [← List.append_assoc,← split]
        rfl
      · rename_i goes
        obtain ⟨taken,rest,split,there,closes⟩ := ih (turnGoes follows goes) .idle
        refine ⟨key :: taken,rest,?_,?_,closes⟩
        · rw [List.map_cons,split,List.cons_append]
        · rwa [List.append_assoc] at there

theorem runPlayed (terminal : Terminal) (editor : Editor) (tree : FileTree) (script : Script) :
    ∃ taken rest, (readKeys script).map Prod.fst = taken ++ rest ∧
      Follows terminal.dialect editor taken (run terminal editor tree script).session ∧
      Closes terminal editor (run terminal editor tree script).session rest
        (run terminal editor tree script).ending := by
  have begun : Follows terminal.dialect editor [] ⟨editor, tree, []⟩ := ⟨⟨[],rfl,rfl⟩,nofun⟩
  obtain ⟨follows,closes⟩ := drawPlayed begun
  rw [run]
  split
  · rename_i ended
    rw [ended] at follows closes
    exact ⟨[],_,rfl,follows,closes _ rfl _⟩
  · rename_i goes
    rw [goes] at follows
    exact readPlayed follows .idle script

theorem runSteady (terminal : Terminal) {editor : Editor} (steady : editor.Steady) (tree : FileTree)
    (script : Script) :
    (run terminal editor tree script).session.editor.Steady ∧
      ∀ frame ∈ (run terminal editor tree script).session.frames, ∃ e after : Editor,
        e.Steady ∧ Frame.refresh terminal.dialect e e.now = .ok (after, frame) := by
  obtain ⟨_,_,_,follows,_⟩ := runPlayed terminal editor tree script
  obtain ⟨_,_,led⟩ := follows.handled
  refine ⟨Editor.eventsSteady steady led,?_⟩
  intro frame member
  obtain ⟨_,e,after,before,refreshed⟩ := follows.frames frame member
  exact ⟨e,after,Editor.eventsSteady steady before,refreshed⟩

end Session

def Ends {α : Type} (run : Except Impasse α) : Prop := run ≠ .error .endless

theorem endsOk {α : Type} (out : α) : Ends (.ok out) := nofun

theorem answersEnds {α : Type} {run : Except Impasse α} {able : Prop} (answers : Answers run able) :
    Ends run := by
  intro endless
  by_cases so : able
  · obtain ⟨out,ok⟩ := answers.returns so
    cases ok.symm.trans endless
  · obtain ⟨overflow,refused⟩ := answers.overflows so
    cases refused.symm.trans endless

theorem endsBind {α β : Type} {run : Except Impasse α} {next : α → Except Impasse β} (first : Ends run)
    (later : ∀ out, Ends (next out)) : Ends (run.bind next) := by
  cases run with
  | ok out => exact later out
  | error impasse => exact fun endless => first (congrArg Except.error (Except.error.inj endless))

namespace Frame

theorem followEnds (offset room goal : Nat) : Ends (Viewport.follow offset room goal) := by
  unfold Viewport.follow
  dsimp only
  split
  · exact endsOk _
  · refine endsBind (answersEnds (answersIf _ _)) ?_
    intro edge
    split
    · exact endsBind (answersEnds (answersIf _ _)) fun next => answersEnds (answersIf _ _)
    · exact endsOk _

theorem scrollEnds (e : Editor) : Ends e.scroll := by
  refine endsBind ?_ fun _ => endsOk _
  exact endsBind (followEnds _ _ _) fun _ => endsBind (followEnds _ _ _) fun _ => endsOk _

theorem statusEnds (dialect : Dialect) (e : Editor) : Ends (statusLine dialect e) := by
  refine endsBind ?_ fun _ => endsOk _
  refine endsBind (endsBind (answersEnds (answersIf _ _)) fun _ => endsOk _) ?_
  intro right
  dsimp only
  split
  · exact endsBind (answersEnds (answersIf _ _)) fun _ => endsOk _
  · exact endsOk _

theorem refreshEnds {dialect : Dialect} (moves : ∀ column row, Ends (dialect.moveTo column row)) (e : Editor)
    (now : Nat) : Ends (refresh dialect e now) := by
  refine endsBind (scrollEnds e) fun e => endsBind ?_ fun _ => endsOk _
  exact endsBind (moves _ _) fun _ => endsBind (statusEnds dialect e) fun _ =>
    endsBind (moves _ _) fun _ => endsOk _

end Frame

theorem Session.runEnds {terminal : Terminal} (moves : ∀ column row, Ends (terminal.dialect.moveTo column row))
    {editor : Editor} (steady : editor.Steady) (tree : FileTree) (script : Script) :
    (run terminal editor tree script).ending ≠ .broken .endless := by
  obtain ⟨_,_,_,_,closes⟩ := runPlayed terminal editor tree script
  intro endless
  rw [endless] at closes
  cases closes with
  | stuckKey ran stuck => exact answersEnds (Editor.keyAnswers (Editor.eventsSteady steady ran) _ _) stuck
  | stuckFrame ran stuck => exact Frame.refreshEnds moves _ _ stuck

namespace Program

theorem makeRoomEnds (tabStop : Nat) (contents : List Bytes) : Ends (Document.makeRoom tabStop contents) := by
  induction contents with
  | nil => exact endsOk ()
  | cons content rest ih => exact endsBind (answersEnds (roomAnswers tabStop content)) fun _ => ih

theorem ofReadEnds (path : String) (tabStop : Nat) (outcome : Except Fault Bytes) :
    Ends (Document.ofRead path tabStop outcome) := by
  unfold Document.ofRead
  split
  · exact endsBind (endsBind (makeRoomEnds _ _) fun _ => endsOk _) fun _ => endsOk _
  · exact endsOk _
  · exact endsOk _

section
variable {settings : Settings} {window : Window} {file : Option String} {outcome : String → Except Fault Bytes}
  {now : Nat}

theorem openEditorEnds : Ends (openEditor settings window file outcome now) := by
  unfold openEditor
  dsimp only
  split
  · exact endsOk _
  · refine endsBind (ofReadEnds _ _ _) ?_
    intro loaded
    cases loaded with
    | ok document => exact endsOk _
    | error fault => exact endsOk _

theorem openEditorSteady {editor : Editor} (opened : openEditor settings window file outcome now = .ok editor) :
    editor.Steady := by
  have blank := Editor.startCalm (.blank settings.tabStop) settings window now
  unfold openEditor at opened
  dsimp only at opened
  split at opened
  · cases Except.ok.inj opened
    exact .calm blank
  · obtain ⟨loaded,read,opened⟩ := bindOk opened
    cases loaded with
    | ok document =>
      cases Except.ok.inj opened
      exact .calm (Editor.startCalm (.read read) settings window now)
    | error fault =>
      cases Except.ok.inj opened
      exact .calm ⟨blank.inside,blank.idle,blank.mode,blank.prompt,blank.confirming,blank.settled,blank.marked⟩

end

section
variable {dialect : Dialect} (moves : ∀ column row, Ends (dialect.moveTo column row))
include moves

theorem partEnds (output : Bytes) (tree : FileTree) : ∃ exit, part dialect output tree = some exit := by
  have ends : Ends (farewell dialect) := endsBind (moves 0 0) fun _ => endsOk _
  unfold part
  split
  · exact ⟨_,rfl⟩
  · rename_i impasse failed
    cases impasse with
    | overflow overflow => exact ⟨_,rfl⟩
    | endless => exact absurd failed ends

theorem concludeEnds (terminated : Bool) (output : Bytes) (tree : FileTree) {ending : Session.Ending}
    (other : ending ≠ .broken .endless) : ∃ exit, conclude dialect terminated output tree ending = some exit := by
  cases ending with
  | left => exact partEnds moves output tree
  | failed fault =>
    rw [conclude]
    split
    · exact partEnds moves output tree
    · exact ⟨_,rfl⟩
  | broken impasse =>
    cases impasse with
    | overflow overflow => exact ⟨_,rfl⟩
    | endless => exact absurd rfl other

theorem runSessionEnds (launch : Launch) (options : Options) (tree : FileTree) :
    ∃ exit, runSession dialect launch options tree = some exit := by
  unfold runSession
  dsimp only
  split
  · exact ⟨_,rfl⟩
  · split
    · rename_i impasse failed
      cases impasse with
      | overflow overflow => exact ⟨_,rfl⟩
      | endless => exact absurd failed openEditorEnds
    · rename_i opened
      exact concludeEnds moves _ _ _ (Session.runEnds moves (openEditorSteady opened) _ _)

theorem runEnds (launch : Launch) : ∃ exit, run dialect launch = some exit := by
  unfold run
  split
  · exact ⟨_,rfl⟩
  · split
    · exact runSessionEnds moves _ _ _
    · split
      · exact ⟨_,rfl⟩
      · exact runSessionEnds moves _ _ _

end

example (launch : Launch) : ∃ exit, run Escape.standard launch = some exit :=
  runEnds (fun _ _ => answersEnds (answersIf _ _)) launch

end Program
end Vellum
