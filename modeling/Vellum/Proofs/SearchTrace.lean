import Vellum.Proofs.Modes

/-! A search leaves no trace. While it runs, the document differs from the one on
which it was begun by the marked match alone; when it ends, that document is back,
and unless the match was accepted the cursor and the view are back too. -/
namespace Vellum.Editor

structure Back (origin after : Editor) : Prop where
  document : after.document = origin.document
  mode : after.mode = .editing
  search : after.search = none

theorem steadyEditing {e : Editor} (steady : e.Steady) (editing : e.mode = .editing) : e.Calm := by
  cases steady with
  | calm calm => exact calm
  | searching running => cases running.mode.symm.trans editing

theorem findBegins {e : Editor} (calm : e.Calm) (editing : e.mode = .editing)
    (outcome : Except Fault Unit) : ∃ begun, e.handle (.key (.action .find) outcome) = .ok begun ∧
      Searching e (.start e.cursor e.view) begun := by
  have prompt : e.prompt = [] := calm.prompt (by rw [editing]; exact nofun)
  refine ⟨e.askQuery.rest,?_,askQueryBegins calm prompt⟩
  rw [handleTyping (.inl editing),unconfirmEditing editing]
  rfl

theorem handleRuns {origin e after : Editor} {search : Search} {event : Event}
    (running : Searching origin search e) (stays : event.endsSearch = false)
    (ok : e.handle event = .ok after) : ∃ next, Searching origin next after := by
  rcases handleOther ok with ⟨key,outcome,rfl⟩ | ⟨view,now,rfl⟩
  · rw [handleSearching running] at ok
    cases Except.ok.inj ok
    exact searchKeyRuns running stays
  · exact ⟨search,shownElsewhere running view now⟩

theorem sessionRuns {origin begun e : Editor} {search : Search} {during : List Event}
    (running : Searching origin search begun) (stays : ∀ event ∈ during, event.endsSearch = false)
    (ran : during.foldlM handle begun = .ok e) : ∃ next, Searching origin next e := by
  refine @foldKeeps _ _ _ handle (fun e => ∃ next, Searching origin next e) during ?_ _ _
    ⟨search,running⟩ ran
  rintro before event after member ⟨next,still⟩ ok
  exact handleRuns still (stays event member) ok

section
variable {origin e : Editor} {search : Search} (running : Searching origin search e)
include running

theorem enterGives (outcome : Except Fault Unit) :
    ∃ after, e.handle (.key (.action .enter) outcome) = .ok after ∧ origin.Back after ∧
      after.cursor = e.cursor := by
  refine ⟨_,handleSearching running _ outcome,?_⟩
  change origin.Back (e.endSearch search) ∧ (e.endSearch search).cursor = e.cursor
  rw [endSearchGives running]
  exact ⟨⟨rfl,rfl,rfl⟩,rfl⟩

theorem cancelGives {key : Key} (cancels : key = .action .cancel ∨ key = .action .interrupt)
    (outcome : Except Fault Unit) :
    ∃ after, e.handle (.key key outcome) = .ok after ∧ origin.Back after ∧
      after.cursor = origin.cursor ∧ after.view = origin.view := by
  have back : origin.Back (e.abandonSearch search) ∧
      (e.abandonSearch search).cursor = origin.cursor ∧
      (e.abandonSearch search).view = origin.view := by
    rw [abandonSearch,endSearchGives running]
    exact ⟨⟨rfl,rfl,rfl⟩,running.cursor,running.view⟩
  refine ⟨_,handleSearching running key outcome,?_⟩
  rcases cancels with rfl | rfl
  · exact back
  · exact back

end

theorem searchLeavesNoTrace {doc : Document} {settings : Settings} {window : Window} {now : Nat}
    {before : List Event} {origin : Editor} (loaded : doc.Loaded)
    (ran : before.foldlM handle (start doc settings window now) = .ok origin)
    (editing : origin.mode = .editing) (outcome : Except Fault Unit) :
    ∃ begun, origin.handle (.key (.action .find) outcome) = .ok begun ∧
      ∀ (during : List Event) (e : Editor), (∀ event ∈ during, event.endsSearch = false) →
        during.foldlM handle begun = .ok e → ∃ search, e.search = some search ∧
          e.document = origin.document.marked search.query search.found ∧
          (∀ i j, e.document.styleAt i j = some .found ↔
            ∃ p line, search.found = some p ∧ p.line = i ∧ origin.document.lines[i]? = some line ∧
              line.shownColumn origin.document.tabStop p.column ≤ j ∧
              j < line.shownColumn origin.document.tabStop (p.column + search.query.length)) ∧
          (∀ key outcome, ∃ after, e.handle (.key key outcome) = .ok after) ∧
          (∀ outcome, ∃ after, e.handle (.key (.action .enter) outcome) = .ok after ∧
            origin.Back after ∧ after.cursor = e.cursor) ∧
          ∀ key outcome, key = .action .cancel ∨ key = .action .interrupt →
            ∃ after, e.handle (.key key outcome) = .ok after ∧ origin.Back after ∧
              after.cursor = origin.cursor ∧ after.view = origin.view := by
  have calm := steadyEditing (sessionSteady loaded ran) editing
  obtain ⟨begun,found,started⟩ := findBegins calm editing outcome
  refine ⟨begun,found,?_⟩
  intro during e stays went
  obtain ⟨search,running⟩ := sessionRuns started stays went
  refine ⟨search,running.held,running.shows.document,?_,?_,enterGives running,?_⟩
  · rw [running.shows.document]
    exact Document.foundStyles calm.settled search.query search.found
  · exact fun key outcome => ⟨_,handleSearching running key outcome⟩
  · exact fun key outcome cancels => cancelGives running cancels outcome

theorem searchLeavesNoTraceAfterTab :
    ∃ doc begun e search after, Document.ofBytes [97, 9, 98, 10, 99] 4 = .ok doc ∧
      (start doc {} ⟨10, 20⟩).handle (.key (.action .find) (.ok ())) = .ok begun ∧
      [Event.key (.literal 98) (.ok ()), .resize ⟨3, 9⟩, .scroll].foldlM handle begun = .ok e ∧
      e.search = some search ∧ search.found = some ⟨0, 2⟩ ∧ e.view = ⟨0, 0, 1, 9⟩ ∧
      (∀ j, e.document.styleAt 0 j = some .found ↔ j = 4) ∧
      e.handle (.key (.action .cancel) (.ok ())) = .ok after ∧ after.document = doc ∧
      after.view = ⟨0, 0, 8, 20⟩ := by
  obtain ⟨doc,begun,e,search,read,asked,went,held,found,query,view,line,here,first,last⟩ :
      ∃ doc begun e search, Document.ofBytes [97, 9, 98, 10, 99] 4 = .ok doc ∧
      (start doc {} ⟨10, 20⟩).handle (.key (.action .find) (.ok ())) = .ok begun ∧
      [Event.key (.literal 98) (.ok ()), .resize ⟨3, 9⟩, .scroll].foldlM handle begun = .ok e ∧
      e.search = some search ∧ search.found = some ⟨0, 2⟩ ∧ search.query = [98] ∧
      e.view = ⟨0, 0, 1, 9⟩ ∧ ∃ line, doc.lines[0]? = some line ∧
        line.shownColumn doc.tabStop 2 = 4 ∧ line.shownColumn doc.tabStop 3 = 5 :=
    ⟨_,_,_,_,rfl,rfl,rfl,rfl,rfl,rfl,rfl,_,rfl,rfl,rfl⟩
  obtain ⟨other,again,traceless⟩ :=
    @searchLeavesNoTrace doc {} ⟨10, 20⟩ 0 [] _ (.bytes read) rfl rfl (.ok ())
  cases Except.ok.inj (again.symm.trans asked)
  obtain ⟨same,known,_,styles,_,_,cancel⟩ := traceless _ e (by decide) went
  cases Option.some.inj (known.symm.trans held)
  obtain ⟨after,left,back,_,restored⟩ := cancel (.action .cancel) (.ok ()) (.inl rfl)
  refine ⟨doc,begun,e,search,after,read,asked,went,held,found,view,?_,left,back.document,restored⟩
  intro j
  rw [styles,query]
  constructor
  · rintro ⟨p,shown,given,_,there,least,below⟩
    cases Option.some.inj (given.symm.trans found)
    cases Option.some.inj (there.symm.trans here)
    have below : j < line.shownColumn doc.tabStop 3 := below
    have least : line.shownColumn doc.tabStop 2 ≤ j := least
    omega
  · rintro rfl
    exact ⟨⟨0, 2⟩,line,found,rfl,here,Nat.le_of_eq first,Nat.lt_of_lt_of_eq (by decide) last.symm⟩

end Vellum.Editor
