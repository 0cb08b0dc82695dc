import Vellum.Search
import Vellum.Proofs.Edits
import Vellum.Proofs.SearchWalk

/-! A running search and the document that it was begun on. The match is painted
in, on its shown columns and nowhere else; everything that the search does can
be taken back, since the styles under the match are kept. -/
namespace Vellum

namespace Document

def Occurs (doc : Document) (query : Bytes) (p : Position) : Prop :=
  query ≠ [] ∧ ∃ content, doc.contents[p.line]? = some content ∧ query <+: content.drop p.column

def inMatch (tabStop : Nat) (query : Bytes) (found : Option Position) (i : Nat) (line : Line)
    (j : Nat) : Bool :=
  found.any fun p => p.line == i && decide (line.shownColumn tabStop p.column ≤ j) &&
    decide (j < line.shownColumn tabStop (p.column + query.length))

theorem inMatchIff {tabStop : Nat} {query : Bytes} {found : Option Position} {i j : Nat} {line : Line} :
    inMatch tabStop query found i line j = true ↔
      ∃ p, found = some p ∧ p.line = i ∧ line.shownColumn tabStop p.column ≤ j ∧
        j < line.shownColumn tabStop (p.column + query.length) := by
  cases found with
  | none => simp [inMatch]
  | some p => simp [inMatch,and_assoc]

def marked (doc : Document) (query : Bytes) (found : Option Position) : Document :=
  { doc with lines := doc.lines.mapIdx fun i line =>
      { line with styles := line.styles.mapIdx fun j style =>
          if inMatch doc.tabStop query found i line j then .found else style } }

theorem findOccurs {doc : Document} {query : Bytes} {anchor : Option Position}
    {direction : Direction} {inclusive : Bool} {p : Position}
    (found : doc.find query anchor direction inclusive = some p) : doc.Occurs query p := by
  rw [findTour] at found
  have member := tourMember.mp (List.mem_of_head? found)
  have asked : query ≠ [] := by
    intro empty
    simp [occurrences,empty] at member
  exact ⟨asked,(occurrenceMember asked).mp member⟩

theorem occursInside {doc : Document} {query : Bytes} {p : Position} (occurs : doc.Occurs query p) :
    doc.Inside p := by
  obtain ⟨asked,content,found,standing⟩ := occurs
  have some := List.length_pos_iff.mpr asked
  have long := standing.length_le
  rw [List.length_drop] at long
  constructor
  · rw [countContents]
    exact (List.getElem?_eq_some_iff.mp found).1
  · rw [lineSizeAt,found]
    change p.column ≤ content.length
    omega

theorem occursSame {doc other : Document} {query : Bytes} {p : Position}
    (same : other.contents = doc.contents) (occurs : doc.Occurs query p) : other.Occurs query p := by
  rwa [Occurs,same]

theorem mapIdxSame {α : Type} (xs : List α) (f : Nat → α → α) (same : ∀ i a, f i a = a) :
    xs.mapIdx f = xs := by
  apply List.ext_getElem?
  intro i
  rw [List.getElem?_mapIdx]
  cases xs[i]? with
  | none => rfl
  | some a => exact congrArg some (same i a)

theorem markedNone (doc : Document) (query : Bytes) : doc.marked query none = doc := by
  have same : doc.lines.mapIdx (fun i line => { line with
      styles := line.styles.mapIdx fun j style =>
        if inMatch doc.tabStop query none i line j then .found else style }) = doc.lines := by
    apply mapIdxSame
    intro i line
    have styles := mapIdxSame line.styles (fun j style =>
      if inMatch doc.tabStop query none i line j then .found else style) fun _ _ => rfl
    rw [styles]
  simp only [marked,same]

theorem markedAt (doc : Document) (query : Bytes) (found : Option Position) (i : Nat) :
    (doc.marked query found).lines[i]? = doc.lines[i]?.map fun line =>
      { line with styles := line.styles.mapIdx fun j style =>
          if inMatch doc.tabStop query found i line j then .found else style } := by
  rw [marked,List.getElem?_mapIdx]

theorem markedElsewhere {doc : Document} {query : Bytes} {p : Position} {i : Nat}
    (other : p.line ≠ i) : (doc.marked query (some p)).lines[i]? = doc.lines[i]? := by
  rw [markedAt]
  cases doc.lines[i]? with
  | none => rfl
  | some line =>
    have outside (j : Nat) : inMatch doc.tabStop query (some p) i line j = false := by
      simp [inMatch,other]
    have styles := mapIdxSame line.styles (fun j style =>
      if inMatch doc.tabStop query (some p) i line j then .found else style)
      fun j style => by rw [outside]; rfl
    simp only [Option.map_some,styles]

theorem contentsOfMarked (doc : Document) (query : Bytes) (found : Option Position) :
    (doc.marked query found).contents = doc.contents := by
  apply List.ext_getElem?
  intro i
  simp only [contents,List.getElem?_map,markedAt,Option.map_map]
  rfl

theorem overlaidStyles {α : Type} (xs : List α) (a : α) (first last : Nat) :
    xs.take first ++ ((List.replicate (min last xs.length - first) a).take (xs.length - first) ++
        xs.drop (first + (min last xs.length - first))) =
      xs.mapIdx fun j x => if first ≤ j ∧ j < last then a else x := by
  have within : min last xs.length - first ≤ xs.length - first := by omega
  have size : (xs.take first).length = min first xs.length := List.length_take
  have middle := List.length_replicate (n := min last xs.length - first) (a := a)
  rw [List.take_replicate,Nat.min_eq_right within]
  apply List.ext_getElem?
  intro j
  rw [List.getElem?_mapIdx]
  by_cases before : j < (xs.take first).length
  · have outside : ¬(first ≤ j ∧ j < last) := by omega
    rw [List.getElem?_append_left before,List.getElem?_take_of_lt (by omega)]
    simp only [outside,if_false,Option.map_id_fun',id]
  rw [List.getElem?_append_right (by omega),size]
  by_cases among : j < min last xs.length
  · have inside : first ≤ j ∧ j < last := by omega
    rw [List.getElem?_append_left (by omega),List.getElem?_replicate_of_lt (by omega),
      List.getElem?_eq_getElem (show j < xs.length by omega)]
    simp only [inside,and_self,if_true,Option.map_some]
  rw [List.getElem?_append_right (by omega),List.getElem?_drop,middle]
  by_cases here : j < xs.length
  · have outside : ¬(first ≤ j ∧ j < last) := by omega
    have place : first + (min last xs.length - first) +
        (j - min first xs.length - (min last xs.length - first)) = j := by omega
    simp only [place,outside,if_false,Option.map_id_fun',id]
  · rw [List.getElem?_eq_none (by omega),List.getElem?_eq_none (by omega),Option.map_none]

theorem coveredMarked {doc : Document} {query : Bytes} {p : Position} {line : Line}
    (found : doc.lines[p.line]? = some line) :
    let first := line.shownColumn doc.tabStop p.column
    let last := min (line.shownColumn doc.tabStop (p.column + query.length)) line.styles.length
    doc.overlay p.line first (List.replicate (last - first) .found) = doc.marked query (some p) := by
  intro first last
  have lines : (doc.overlay p.line first (List.replicate (last - first) .found)).lines =
      (doc.marked query (some p)).lines := by
    apply List.ext_getElem?
    intro i
    rw [overlay,List.getElem?_modify]
    by_cases here : p.line = i
    · subst here
      have same (j : Nat) : inMatch doc.tabStop query (some p) p.line line j =
          decide (first ≤ j ∧ j < line.shownColumn doc.tabStop (p.column + query.length)) := by
        simp [inMatch,first]
      have styles := overlaidStyles line.styles Style.found first
        (line.shownColumn doc.tabStop (p.column + query.length))
      rw [markedAt,found]
      simp only [if_true,Option.map_eq_map,Option.map_some,List.length_replicate,last,styles,same,
        decide_eq_true_eq]
    · rw [markedElsewhere here]
      simp only [here,if_false,Option.map_eq_map,Option.map_id_fun',id]
  exact congrArg (fun lines => { doc with lines }) lines

def styleAt (doc : Document) (i j : Nat) : Option Style := doc.lines[i]?.bind (·.styles[j]?)

theorem shownColumnWithin (tabStop : Nat) (line : Line) (column : Nat) :
    line.shownColumn tabStop column ≤ (expandTabs tabStop line.content).length := by
  rw [Line.shownColumnLength]
  exact (expandTabsTake tabStop line.content column).length_le

theorem foundStyles {doc : Document} (settled : doc.Settled) (query : Bytes)
    (found : Option Position) (i j : Nat) :
    (doc.marked query found).styleAt i j = some .found ↔
      ∃ p line, found = some p ∧ p.line = i ∧ doc.lines[i]? = some line ∧
        line.shownColumn doc.tabStop p.column ≤ j ∧
        j < line.shownColumn doc.tabStop (p.column + query.length) := by
  rw [styleAt,markedAt]
  cases here : doc.lines[i]? with
  | none => simp
  | some line =>
    have full := settledLine settled here
    obtain ⟨length,bare⟩ := Painting.whole full.painted
    rw [full.shown] at length
    simp only [Option.map_some,Option.bind_some,List.getElem?_mapIdx,Option.map_eq_some_iff]
    constructor
    · rintro ⟨style,standing,same⟩
      by_cases inside : inMatch doc.tabStop query found i line j = true
      · obtain ⟨p,given,place,first,last⟩ := inMatchIff.mp inside
        exact ⟨p,line,given,place,rfl,first,last⟩
      · rw [if_neg inside] at same
        subst same
        exact absurd (List.mem_of_getElem? standing) bare
    · rintro ⟨p,other,given,place,same,first,last⟩
      cases Option.some.inj same
      have within : j < line.styles.length := by
        rw [length]
        exact Nat.lt_of_lt_of_le last (shownColumnWithin _ _ _)
      refine ⟨line.styles[j],List.getElem?_eq_getElem within,?_⟩
      rw [if_pos (inMatchIff.mpr ⟨p,given,place,first,last⟩)]

end Document

namespace Search

/- What a search has made of the document `base`: the match is marked, and the styles it covers are
kept. -/
structure Shows (search : Search) (base doc : Document) : Prop where
  document : doc = base.marked search.query search.found
  covered : search.covered = search.found.bind fun p =>
    base.lines[p.line]?.map fun line => (p.line, line.styles)
  occurs : ∀ p, search.found = some p → base.Occurs search.query p

theorem showsContents {search : Search} {base doc : Document} (shows : search.Shows base doc) :
    doc.contents = base.contents := by
  rw [shows.document,Document.contentsOfMarked]

theorem occursLine {doc : Document} {query : Bytes} {p : Position} (occurs : doc.Occurs query p) :
    ∃ line, doc.lines[p.line]? = some line ∧ query <+: line.content.drop p.column := by
  obtain ⟨_,content,found,standing⟩ := occurs
  rw [Document.contents,List.getElem?_map,Option.map_eq_some_iff] at found
  obtain ⟨line,found,rfl⟩ := found
  exact ⟨line,found,standing⟩

theorem restored {base : Document} {query : Bytes} {p : Position} {line : Line}
    (found : base.lines[p.line]? = some line) :
    (base.marked query (some p)).lines.modify p.line (fun shown =>
      if shown.styles.length = line.styles.length then { shown with styles := line.styles }
      else shown) = base.lines := by
  apply List.ext_getElem?
  intro i
  rw [List.getElem?_modify]
  by_cases here : p.line = i
  · subst here
    rw [Document.markedAt,found]
    simp only [if_true,Option.map_eq_map,Option.map_some,List.length_mapIdx]
  · rw [Document.markedElsewhere here]
    simp only [here,if_false,Option.map_eq_map,Option.map_id_fun',id]

theorem uncoverShows {search : Search} {base doc : Document} (shows : search.Shows base doc)
    (query : Bytes) :
    { search with query }.uncover doc = ({ search with query, covered := none }, base) := by
  have document := shows.document
  have covered := shows.covered
  cases found : search.found with
  | none =>
    rw [found,Document.markedNone] at document
    rw [found] at covered
    simp only [uncover,covered,document,Option.bind_none]
  | some p =>
    obtain ⟨line,here,_⟩ := occursLine (shows.occurs p found)
    rw [found] at document
    rw [found,Option.bind_some,here,Option.map_some] at covered
    simp only [uncover,covered]
    rw [document,restored here]
    rfl

theorem runShows {search : Search} {base doc : Document} (shows : search.Shows base doc)
    (query : Bytes) (direction : Direction) (inclusive : Bool) :
    let out := { search with query }.run doc direction inclusive
    out.1.Shows base out.2 ∧ out.1.cursor = search.cursor ∧ out.1.view = search.view := by
  simp only [run,uncoverShows shows query]
  split
  · rename_i missing
    refine ⟨⟨?_,?_,?_⟩,rfl,rfl⟩
    · rw [missing,Document.markedNone]
    · rw [missing]
      rfl
    · intro p found
      rw [missing] at found
      cases found
  · rename_i p found
    have occurs := Document.findOccurs found
    obtain ⟨line,here,_⟩ := occursLine occurs
    simp only [cover,here,and_self,and_true]
    refine ⟨?_,?_,?_⟩
    · rw [found]
      exact Document.coveredMarked here
    · rw [found,Option.bind_some,here,Option.map_some]
    · intro q same
      cases found.symm.trans same
      exact occurs

end Search
end Vellum
