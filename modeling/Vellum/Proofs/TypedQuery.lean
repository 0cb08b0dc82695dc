import Vellum.Proofs.MatchTour
import Vellum.Proofs.Quitting
import Vellum.Proofs.SearchTrace

/-! A query typed byte by byte. Every byte makes the search go on from the match that the
bytes before it had, and never from the top. Nothing is missed by that: a longer query
stands only where the shorter one does, so its first match is not before the other's. -/
namespace Vellum

namespace Document

theorem occursShorter {doc : Document} {query more : Bytes} {p : Position} (asked : query ≠ [])
    (occurs : doc.Occurs (query ++ more) p) : doc.Occurs query p := by
  obtain ⟨_,content,found,standing⟩ := occurs
  exact ⟨asked,content,found,(List.prefix_append query more).trans standing⟩

theorem findFirstMatch (doc : Document) (query : Bytes) :
    (∀ p, doc.find query none .forward false = some p ↔
      Direction.forward.First (doc.Occurs query) p) ∧
    (doc.find query none .forward false = none ↔ ∀ p, ¬ doc.Occurs query p) := by
  have finds := doc.nearestFound query none .forward false
  rw [← findNearest] at finds
  generalize doc.find query none .forward false = found at finds
  cases finds with
  | ahead anchored _ => cases anchored
  | @around first _ least =>
    constructor
    · intro p
      constructor
      · intro same
        cases Option.some.inj same
        exact least
      · intro other
        rw [Direction.firstUnique least other]
    · constructor
      · exact nofun
      · intro missing
        exact absurd least.place (missing first)
  | nowhere missing =>
    constructor
    · intro p
      constructor
      · exact nofun
      · intro first
        exact absurd first.place (missing p)
    · exact ⟨fun _ => missing,fun _ => rfl⟩

theorem findExtended (doc : Document) (query more : Bytes) :
    doc.find (query ++ more) (doc.find query none .forward false) .forward true =
      doc.find (query ++ more) none .forward false := by
  obtain ⟨least,_⟩ := doc.findFirstMatch query
  cases before : doc.find query none .forward false with
  | none => rfl
  | some p =>
    have first := (least p).mp before
    have finds := doc.nearestFound (query ++ more) (some p) .forward true
    rw [← findNearest] at finds
    refine Direction.findsUnique finds ?_
    obtain ⟨extended,missing⟩ := doc.findFirstMatch (query ++ more)
    cases found : doc.find (query ++ more) none .forward false with
    | none => exact .nowhere (missing.mp found)
    | some q =>
      have other := (extended q).mp found
      -- The match of the longer query is one of the shorter one too, and so not before the first.
      have shorter := occursShorter first.place.1 other.place
      have ahead : Direction.forward.Ahead true p q := by
        by_cases same : q = p
        · exact .inr ⟨rfl,same⟩
        · exact .inl (first.sooner q shorter same)
      refine .ahead rfl ⟨⟨other.place,ahead⟩,?_⟩
      intro r candidate
      exact other.sooner r candidate.1

end Document

namespace Editor

structure Querying (origin : Editor) (query : Bytes) (search : Search) (e : Editor) : Prop where
  running : Searching origin search e
  asked : search.query = query
  found : search.found = origin.document.find query none .forward false

theorem queryTyped {origin e : Editor} {search : Search} {query : Bytes} {b : UInt8}
    (querying : Querying origin query search e) (printable : Byte.isControl b = false) :
    ∃ next, Querying origin (query ++ [b]) next (e.searchKey search (.literal b)) := by
  obtain ⟨running,asked,stands⟩ := querying
  have literal : (Key.literal b).printable? = some b := by
    rw [Key.printable?,printable]
    rfl
  obtain ⟨shows,cursor,view⟩ :=
    Search.runShows running.shows (search.query ++ [b]) .forward true
  obtain ⟨found,typed,_⟩ :=
    Search.runFinds { search with query := search.query ++ [b] } e.document .forward true
  have same := Search.showsContents running.shows
  refine ⟨_,?_,typed.trans (by rw [asked]),?_⟩
  · simp only [searchKey,literal]
    exact continueRuns running shows cursor view
  · rw [found,Document.findContents same,asked,stands]
    exact Document.findExtended origin.document query [b]

theorem queryAnswered {origin e : Editor} {search : Search} {query bytes : Bytes}
    (querying : Querying origin query search e)
    (printable : ∀ b ∈ bytes, Byte.isControl b = false) (outcome : Except Fault Unit) :
    ∃ after, (bytes.map fun b => Event.key (.literal b) outcome).foldlM handle e = .ok after := by
  induction bytes generalizing e search query with
  | nil => exact ⟨e,rfl⟩
  | cons b bytes ih =>
    obtain ⟨shown,later⟩ := List.forall_mem_cons.mp printable
    obtain ⟨next,typed⟩ := queryTyped querying shown
    obtain ⟨after,ran⟩ := ih typed later
    refine ⟨after,?_⟩
    simp only [List.map_cons,List.foldlM_cons,handleSearching querying.running]
    exact ran

theorem queryRuns {origin e after : Editor} {search : Search} {query bytes : Bytes}
    {during : List Event} (querying : Querying origin query search e)
    (printable : ∀ b ∈ bytes, Byte.isControl b = false)
    (keys : Event.pressed during = bytes.map Key.literal) (ran : during.foldlM handle e = .ok after) :
    ∃ next, Querying origin (query ++ bytes) next after := by
  induction during generalizing e search query bytes with
  | nil =>
    cases Except.ok.inj ran
    cases List.map_eq_nil_iff.mp keys.symm
    exact ⟨search,by rwa [List.append_nil]⟩
  | cons event during ih =>
    obtain ⟨middle,first,ran⟩ := bindOk ran
    cases event with
    | key pressed outcome =>
      obtain ⟨b,rest,rfl,rfl,others⟩ := List.map_eq_cons_iff.mp keys.symm
      obtain ⟨shown,later⟩ := List.forall_mem_cons.mp printable
      rw [handleSearching querying.running] at first
      cases Except.ok.inj first
      obtain ⟨next,typed⟩ := queryTyped querying shown
      obtain ⟨last,whole⟩ := ih typed later others.symm ran
      exact ⟨last,by rwa [List.append_assoc] at whole⟩
    | _ =>
      rcases handleOther first with ⟨_,_,key⟩ | ⟨view,now,rfl⟩
      · cases key
      · have shown := shownElsewhere querying.running view now
        exact ih ⟨shown,querying.asked,querying.found⟩ printable keys ran

theorem typedQueryFindsFirst {doc : Document} {settings : Settings} {window : Window} {now : Nat}
    {before : List Event} {origin : Editor} {query : Bytes} (loaded : doc.Loaded)
    (ran : before.foldlM handle (start doc settings window now) = .ok origin)
    (editing : origin.mode = .editing) (printable : ∀ b ∈ query, Byte.isControl b = false)
    (outcome : Except Fault Unit) :
    ∃ begun, origin.handle (.key (.action .find) outcome) = .ok begun ∧
      (∃ e, (query.map fun b => Event.key (.literal b) outcome).foldlM handle begun = .ok e) ∧
      ∀ (during : List Event) (e : Editor), Event.pressed during = query.map Key.literal →
        during.foldlM handle begun = .ok e → ∃ search, e.search = some search ∧
          search.query = query ∧ e.document.contents = origin.document.contents ∧
          search.found = origin.document.find query none .forward false ∧
          (∀ p, search.found = some p ↔
            Direction.forward.First (origin.document.Occurs query) p) ∧
          (search.found = none ↔ ∀ p, ¬ origin.document.Occurs query p) := by
  have calm := steadyEditing (sessionSteady loaded ran) editing
  obtain ⟨begun,asked,running⟩ := findBegins calm editing outcome
  have querying : Querying origin [] (.start origin.cursor origin.view) begun := ⟨running,rfl,rfl⟩
  refine ⟨begun,asked,queryAnswered querying printable outcome,?_⟩
  intro during e keys went
  obtain ⟨search,running,typed,found⟩ := queryRuns querying printable keys went
  obtain ⟨first,missing⟩ := origin.document.findFirstMatch query
  refine ⟨search,running.held,typed,Search.showsContents running.shows,found,?_⟩
  rw [found]
  exact ⟨first,missing⟩

theorem typedQueryFindsFirstLater :
    ∃ doc begun e search, Document.ofBytes [97, 98, 32, 97, 98, 97, 10, 97, 98, 97] 8 = .ok doc ∧
      (start doc {} ⟨10, 20⟩).handle (.key (.action .find) (.ok ())) = .ok begun ∧
      [Event.key (.literal 97) (.ok ()), .key (.literal 98) (.ok ()), .resize ⟨4, 5⟩,
        .key (.literal 97) (.ok ())].foldlM handle begun = .ok e ∧
      e.search = some search ∧ search.found = some ⟨0, 3⟩ ∧
      Direction.forward.First (doc.Occurs [97, 98, 97]) ⟨0, 3⟩ := by
  obtain ⟨doc,begun,e,search,read,asked,went,held,found⟩ : ∃ doc begun e search,
      Document.ofBytes [97, 98, 32, 97, 98, 97, 10, 97, 98, 97] 8 = .ok doc ∧
      (start doc {} ⟨10, 20⟩).handle (.key (.action .find) (.ok ())) = .ok begun ∧
      [Event.key (.literal 97) (.ok ()), .key (.literal 98) (.ok ()), .resize ⟨4, 5⟩,
        .key (.literal 97) (.ok ())].foldlM handle begun = .ok e ∧
      e.search = some search ∧ search.found = some ⟨0, 3⟩ := ⟨_,_,_,_,rfl,rfl,rfl,rfl,rfl⟩
  have printable : ∀ b ∈ [97, 98, 97], Byte.isControl b = false := by simp [Byte.isControl]
  obtain ⟨other,again,_,finds⟩ :=
    @typedQueryFindsFirst doc {} ⟨10, 20⟩ 0 [] _ [97, 98, 97] (.bytes read) rfl rfl printable (.ok ())
  cases Except.ok.inj (again.symm.trans asked)
  obtain ⟨same,known,_,_,_,first,_⟩ := finds _ e rfl went
  cases Option.some.inj (known.symm.trans held)
  exact ⟨doc,begun,e,search,read,asked,went,held,found,(first _).mp found⟩

end Editor
end Vellum
