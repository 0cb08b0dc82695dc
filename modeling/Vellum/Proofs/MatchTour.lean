import Vellum.Proofs.NearestMatch

/-! Going from match to match. The matches of a query stand in a circle: a step leads from
each of them to the next one on the way, from the last one to the first, and a step the
other way leads back. Painting a match over its line leaves the circle as it is. -/
namespace Vellum

def Direction.opposite : Direction → Direction
  | .forward => .backward
  | .backward => .forward

namespace Document

theorem findContents {doc other : Document} (same : other.contents = doc.contents) (query : Bytes)
    (anchor : Option Position) (direction : Direction) (inclusive : Bool) :
    other.find query anchor direction inclusive = doc.find query anchor direction inclusive := by
  have count : other.count = doc.count := by rw [countContents,countContents,same]
  have spots : other.spotsIn query = doc.spotsIn query := by
    funext i
    rw [spotsIn,spotsIn,columnsIn,columnsIn,contentAt,contentAt,same]
  rw [findTour,findTour]
  simp only [tour,occurrences,count,spots]

def Turned (doc : Document) (query : Bytes) (direction : Direction) (tour : List Position) : Prop :=
  ∃ first last, doc.visits query direction = first ++ last ∧ tour = last ++ first

section
variable {doc : Document} {query : Bytes} {direction : Direction} {tour : List Position}

theorem turnedNext {q : Position} {rest : List Position}
    (turned : doc.Turned query direction (q :: rest)) :
    doc.Turned query direction (rest ++ [q]) := by
  obtain ⟨first,last,visits,whole⟩ := turned
  cases last with
  | nil =>
    rw [List.nil_append] at whole
    subst whole
    exact ⟨[q],rest,by rw [visits,List.append_nil]; rfl,rfl⟩
  | cons head last =>
    obtain ⟨rfl,rfl⟩ := List.cons.inj whole
    exact ⟨first ++ [q],last,by rw [visits,List.append_assoc]; rfl,List.append_assoc _ _ _⟩

theorem visitsOpposite (doc : Document) (query : Bytes) (direction : Direction) :
    doc.visits query direction.opposite = (doc.visits query direction).reverse := by
  cases direction with
  | forward => rfl
  | backward => exact (List.reverse_reverse _).symm

theorem turnedReverse (turned : doc.Turned query direction tour) :
    doc.Turned query direction.opposite tour.reverse := by
  obtain ⟨first,last,visits,rfl⟩ := turned
  refine ⟨last.reverse,first.reverse,?_,List.reverse_append⟩
  rw [visitsOpposite,visits,List.reverse_append]

theorem turnedMember (turned : doc.Turned query direction tour) (p : Position) :
    p ∈ tour ↔ doc.Occurs query p := by
  obtain ⟨first,last,visits,rfl⟩ := turned
  have member : p ∈ doc.visits query direction ↔ doc.Occurs query p := visitMember
  rw [← member,visits,List.mem_append,List.mem_append,or_comm]

theorem turnedOnce (turned : doc.Turned query direction tour) : tour.Nodup := by
  obtain ⟨first,last,visits,rfl⟩ := turned
  have once : (doc.visits query direction).Nodup := by
    refine (doc.visitsOrdered query direction).imp ?_
    rintro p _ sooner rfl
    exact Direction.soonerAsymmetric sooner sooner
  rw [visits] at once
  exact List.perm_append_comm.nodup once

theorem turnedFrom {start : Position} (occurs : doc.Occurs query start) (direction : Direction) :
    ∃ tour, doc.Turned query direction tour ∧ tour.getLast? = some start := by
  have member : start ∈ doc.visits query direction := visitMember.mpr occurs
  obtain ⟨before,after,visits⟩ := List.append_of_mem member
  refine ⟨after ++ (before ++ [start]),⟨before ++ [start],after,?_,rfl⟩,?_⟩
  · rw [visits,List.append_assoc]
    rfl
  · rw [← List.append_assoc]
    exact List.getLast?_concat

theorem findBehind {p : Position} {before after : List Position}
    (visits : doc.visits query direction = before ++ p :: after) :
    doc.find query (some p) direction false = (after ++ (before ++ [p])).head? := by
  have ordered := doc.visitsOrdered query direction
  rw [visits,List.pairwise_append,List.pairwise_cons] at ordered
  obtain ⟨_,⟨later,_⟩,earlier⟩ := ordered
  have notAhead {q : Position} (sooner : q = p ∨ direction.Sooner q p) :
      ¬ ahead direction false p q = true := by
    rw [aheadIff]
    rintro (beyond | ⟨impossible,_⟩)
    · rcases sooner with rfl | sooner
      · exact Direction.soonerAsymmetric beyond beyond
      · exact Direction.soonerAsymmetric beyond sooner
    · cases impossible
  have passed : before.find? (ahead direction false p) = none := by
    rw [List.find?_eq_none]
    intro q member
    exact notAhead (.inr (earlier q member p List.mem_cons_self))
  rw [findNearest,nearest,visits,Option.bind_some,List.find?_append,passed,Option.none_or,
    List.find?_cons_of_neg (notAhead (.inl rfl))]
  cases after with
  | nil => rfl
  | cons q rest =>
    have met : ahead direction false p q = true :=
      aheadIff.mpr (.inl (later q List.mem_cons_self))
    rw [List.find?_cons_of_pos met]
    rfl

theorem turnedFind {p : Position} (turned : doc.Turned query direction tour)
    (last : tour.getLast? = some p) : doc.find query (some p) direction false = tour.head? := by
  obtain ⟨first,rest,visits,rfl⟩ := turned
  rcases List.eq_nil_or_concat first with rfl | ⟨front,q,rfl⟩
  · obtain ⟨front,ends⟩ := List.getLast?_eq_some_iff.mp last
    rw [List.append_nil] at ends ⊢
    rw [List.nil_append,ends] at visits
    rw [findBehind visits,ends]
    rfl
  · rw [List.concat_eq_append] at visits last ⊢
    rw [← List.append_assoc,List.getLast?_concat] at last
    cases Option.some.inj last
    rw [List.append_assoc] at visits
    exact findBehind visits

end
end Document

namespace Search

def advances (direction : Direction) : Nat → Search → Document → List (Option Position)
  | 0, _, _ => []
  | n + 1, search, doc =>
    let (next, after) := search.advance doc direction
    next.found :: advances direction n next after

theorem uncoverKeeps (search : Search) (doc : Document) :
    (search.uncover doc).1.query = search.query ∧ (search.uncover doc).1.found = search.found ∧
      (search.uncover doc).2.contents = doc.contents := by
  unfold uncover
  split
  · exact ⟨rfl,rfl,rfl⟩
  · refine ⟨rfl,rfl,doc.modifiedContents _ ?_⟩
    intro line
    split
    · rfl
    · rfl

theorem coverKeeps (search : Search) (doc : Document) (pos : Position) :
    (search.cover doc pos).1.query = search.query ∧ (search.cover doc pos).1.found = search.found ∧
      (search.cover doc pos).2.contents = doc.contents := by
  unfold cover
  split
  · exact ⟨rfl,rfl,rfl⟩
  · exact ⟨rfl,rfl,doc.modifiedContents _ fun _ => rfl⟩

theorem runFinds (search : Search) (doc : Document) (direction : Direction) (inclusive : Bool) :
    let out := search.run doc direction inclusive
    out.1.found = doc.find search.query search.found direction inclusive ∧
      out.1.query = search.query ∧ out.2.contents = doc.contents := by
  obtain ⟨query,found,contents⟩ := search.uncoverKeeps doc
  rw [← Document.findContents contents,← query,← found,← contents]
  simp only [run]
  generalize search.uncover doc = bare
  cases met : bare.2.find bare.1.query bare.1.found direction inclusive with
  | none => exact ⟨rfl,rfl,rfl⟩
  | some pos =>
    obtain ⟨asked,stands,text⟩ := coverKeeps { bare.1 with found := some pos } bare.2 pos
    exact ⟨stands,asked,text⟩

theorem advanceTurned {search : Search} {base doc : Document} {direction : Direction}
    {tour : List Position} {p : Position} (same : doc.contents = base.contents)
    (turned : base.Turned search.query direction tour) (last : tour.getLast? = some p)
    (found : search.found = some p) : (search.advance doc direction).1.found = tour.head? := by
  rw [advance,(search.runFinds doc direction false).1,found,Document.findContents same]
  exact Document.turnedFind turned last

/- The tour is gone along from its front; what has been met is put behind. -/
theorem advancesAlong {search : Search} {base doc : Document} {direction : Direction}
    {ahead behind : List Position} {p : Position} (same : doc.contents = base.contents)
    (turned : base.Turned search.query direction (ahead ++ behind))
    (last : (ahead ++ behind).getLast? = some p) (found : search.found = some p) :
    search.advances direction ahead.length doc = ahead.map some := by
  induction ahead generalizing search doc behind p with
  | nil => rfl
  | cons q rest ih =>
    have next := advanceTurned same turned last found
    obtain ⟨_,query,contents⟩ := search.runFinds doc direction false
    have turned : base.Turned search.query direction (rest ++ (behind ++ [q])) := by
      rw [← List.append_assoc]
      exact Document.turnedNext turned
    have last : (rest ++ (behind ++ [q])).getLast? = some q := by
      rw [← List.append_assoc,List.getLast?_concat]
    have further := @ih (search.advance doc direction).1 (search.advance doc direction).2 _ q
      (contents.trans same) (query ▸ turned) last next
    simp only [List.length_cons,advances,List.map_cons]
    rw [further,next]
    rfl

theorem advancesGoRound {search : Search} {doc : Document} {start : Position}
    (found : search.found = some start) (occurs : doc.Occurs search.query start)
    (direction : Direction) :
    (∃ tour : List Position, search.advances direction tour.length doc = tour.map some ∧
      tour.Nodup ∧ (∀ p, p ∈ tour ↔ doc.Occurs search.query p) ∧ tour.getLast? = some start) ∧
    let next := search.advance doc direction
    (next.1.advance next.2 direction.opposite).1.found = some start := by
  obtain ⟨tour,turned,last⟩ := Document.turnedFrom occurs direction
  constructor
  · refine ⟨tour,?_,Document.turnedOnce turned,Document.turnedMember turned,last⟩
    rw [← List.append_nil tour] at turned last
    exact advancesAlong rfl turned last found
  · obtain ⟨_,query,contents⟩ := search.runFinds doc direction false
    have next := advanceTurned rfl turned last found
    cases tour with
    | nil => cases last
    | cons q rest =>
      -- Seen from the other side, the match that was met ends the tour, and `start` begins it.
      have back := Document.turnedReverse turned
      have ends : (q :: rest).reverse.getLast? = some q := by rw [List.getLast?_reverse]; rfl
      have met := @advanceTurned (search.advance doc direction).1 doc _ direction.opposite _ q
        contents (query ▸ back) ends next
      rwa [List.head?_reverse,last] at met

theorem advancesGoRoundOverlapping :
    let doc := Document.holding [[97, 97, 97], [98], [97, 97]] 8
    let search : Search := ⟨[97, 97], some ⟨0, 1⟩, none, ⟨0, 0, 0⟩, ⟨0, 0, 4, 4⟩⟩
    search.advances .forward 3 doc = [some ⟨2, 0⟩, some ⟨0, 0⟩, some ⟨0, 1⟩] ∧
      doc.Occurs [97, 97] ⟨0, 1⟩ ∧
      (∃ tour : List Position, search.advances .forward tour.length doc = tour.map some ∧
        tour.Nodup ∧ (∀ p, p ∈ tour ↔ doc.Occurs [97, 97] p) ∧ tour.getLast? = some ⟨0, 1⟩) ∧
      let next := search.advance doc .forward
      (next.1.advance next.2 Direction.forward.opposite).1.found = some ⟨0, 1⟩ := by
  intro doc search
  have occurs : doc.Occurs search.query ⟨0, 1⟩ := ⟨nofun,_,rfl,[],rfl⟩
  obtain ⟨goes,back⟩ := advancesGoRound rfl occurs .forward
  exact ⟨by decide +kernel,occurs,goes,back⟩

end Search
end Vellum
