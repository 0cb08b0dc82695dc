import Vellum.Proofs.Searching

/-! Which match is found. The occurrences of a query, several to a line and overlapping
as they may be, are gone through in the order of the document or against it, from an
anchor on and then round the end; the first one met is found, and none is passed over. -/
namespace Vellum

def Position.Before (p q : Position) : Prop :=
  p.line < q.line ∨ p.line = q.line ∧ p.column < q.column

namespace Direction

def Sooner : Direction → Position → Position → Prop
  | .forward, p, q => p.Before q
  | .backward, p, q => q.Before p

structure First (direction : Direction) (Place : Position → Prop) (p : Position) : Prop where
  place : Place p
  sooner : ∀ q, Place q → q ≠ p → direction.Sooner p q

def Ahead (direction : Direction) (inclusive : Bool) (anchor p : Position) : Prop :=
  direction.Sooner anchor p ∨ inclusive = true ∧ p = anchor

/- Where a search comes to. It goes round only if nothing lies ahead of its anchor. -/
inductive Finds (direction : Direction) (inclusive : Bool) (anchor : Option Position)
    (Place : Position → Prop) : Option Position → Prop where
  | ahead {a p} (anchored : anchor = some a)
      (first : direction.First (fun q => Place q ∧ direction.Ahead inclusive a q) p) :
      Finds direction inclusive anchor Place (some p)
  | around {p} (behind : ∀ a, anchor = some a → ∀ q, Place q → ¬ direction.Ahead inclusive a q)
      (first : direction.First Place p) : Finds direction inclusive anchor Place (some p)
  | nowhere (missing : ∀ q, ¬ Place q) : Finds direction inclusive anchor Place none

theorem soonerAsymmetric {direction : Direction} {p q : Position} (one : direction.Sooner p q)
    (other : direction.Sooner q p) : False := by
  cases direction with
  | forward =>
    simp only [Sooner,Position.Before] at one other
    omega
  | backward =>
    simp only [Sooner,Position.Before] at one other
    omega

theorem firstUnique {direction : Direction} {Place : Position → Prop} {p q : Position}
    (one : direction.First Place p) (other : direction.First Place q) : p = q := by
  by_cases same : p = q
  · exact same
  · have ahead := one.sooner q other.place (Ne.symm same)
    exact absurd (other.sooner p one.place same) (soonerAsymmetric ahead)

section
variable {direction : Direction} {inclusive : Bool} {anchor : Option Position}
  {Place : Position → Prop}

theorem findsUnique {found other : Option Position}
    (one : Finds direction inclusive anchor Place found)
    (two : Finds direction inclusive anchor Place other) : found = other := by
  cases one with
  | ahead anchored first =>
    cases two with
    | ahead again second =>
      cases Option.some.inj (anchored.symm.trans again)
      rw [firstUnique first second]
    | around behind second => exact absurd first.place.2 (behind _ anchored _ first.place.1)
    | nowhere missing => exact absurd first.place.1 (missing _)
  | around behind first =>
    cases two with
    | ahead anchored second => exact absurd second.place.2 (behind _ anchored _ second.place.1)
    | around _ second => rw [firstUnique first second]
    | nowhere missing => exact absurd first.place (missing _)
  | nowhere missing =>
    cases two with
    | ahead _ second => exact absurd second.place.1 (missing _)
    | around _ second => exact absurd second.place (missing _)
    | nowhere _ => rfl

end

theorem findFirst {direction : Direction} {places : List Position} {p : Position}
    {test : Position → Bool} (ordered : places.Pairwise direction.Sooner)
    (found : places.find? test = some p) :
    direction.First (fun q => q ∈ places ∧ test q = true) p := by
  induction places with
  | nil => cases found
  | cons head rest ih =>
    obtain ⟨before,ordered⟩ := List.pairwise_cons.mp ordered
    by_cases passes : test head = true
    · rw [List.find?_cons_of_pos passes] at found
      cases Option.some.inj found
      refine ⟨⟨List.mem_cons_self,passes⟩,?_⟩
      intro q inside other
      exact before q (List.mem_of_ne_of_mem other inside.1)
    · rw [List.find?_cons_of_neg passes] at found
      have first := ih ordered found
      refine ⟨⟨List.mem_cons_of_mem head first.place.1,first.place.2⟩,?_⟩
      rintro q ⟨inside,tested⟩ other
      rcases List.mem_cons.mp inside with rfl | later
      · exact absurd tested passes
      · exact first.sooner q ⟨later,tested⟩ other

end Direction

theorem columnsAscend (query : Bytes) (first : Nat) (content : Bytes) :
    (columnsFrom query first content).Pairwise (· < ·) := by
  induction content generalizing first with
  | nil => exact .nil
  | cons b rest ih =>
    simp only [columnsFrom]
    split
    · refine .cons ?_ (ih (first + 1))
      intro column later
      obtain ⟨k,rfl,_⟩ := columnsFromMember.mp later
      omega
    · exact ih (first + 1)

theorem spotsAscend (doc : Document) (query : Bytes) {lines : List Nat}
    (ascend : lines.Pairwise (· < ·)) :
    (lines.flatMap (doc.spotsIn query)).Pairwise Position.Before := by
  rw [List.pairwise_flatMap]
  constructor
  · intro i _
    rw [Document.spotsIn,List.pairwise_map]
    exact (columnsAscend query 0 (doc.content i)).imp fun less => .inr ⟨rfl,less⟩
  · refine ascend.imp ?_
    intro i k less p here q later
    obtain ⟨column,_,rfl⟩ := List.mem_map.mp here
    obtain ⟨other,_,rfl⟩ := List.mem_map.mp later
    exact .inl less

namespace Document

def visits (doc : Document) (query : Bytes) (direction : Direction) : List Position :=
  doc.tour query none direction false

theorem visitMember {doc : Document} {query : Bytes} {direction : Direction} {p : Position} :
    p ∈ doc.visits query direction ↔ doc.Occurs query p := by
  rw [visits,tourMember]
  by_cases asked : query = []
  · simp [occurrences,asked,Occurs]
  · rw [occurrenceMember asked]
    exact ⟨fun found => ⟨asked,found⟩,And.right⟩

theorem visitsOrdered (doc : Document) (query : Bytes) (direction : Direction) :
    (doc.visits query direction).Pairwise direction.Sooner := by
  have ascend : (doc.occurrences query).Pairwise Position.Before := by
    unfold occurrences
    split
    · exact .nil
    · exact spotsAscend doc query List.pairwise_lt_range
  cases direction with
  | forward => exact ascend
  | backward => exact List.pairwise_reverse.mpr ascend

theorem aheadIff {direction : Direction} {inclusive : Bool} {anchor p : Position} :
    ahead direction inclusive anchor p = true ↔ direction.Ahead inclusive anchor p := by
  rw [Direction.Ahead,eq_comm (a := p)]
  cases direction with
  | forward =>
    simp only [ahead,Direction.Sooner,Position.Before,Bool.or_eq_true,Bool.and_eq_true,decide_eq_true_eq,
      beq_iff_eq]
  | backward =>
    simp only [ahead,Direction.Sooner,Position.Before,Bool.or_eq_true,Bool.and_eq_true,decide_eq_true_eq,
      beq_iff_eq]

section
variable (doc : Document) (query : Bytes) (anchor : Option Position) (direction : Direction)
  (inclusive : Bool)

def nearest : Option Position :=
  (anchor.bind fun a => (doc.visits query direction).find? (ahead direction inclusive a)).or
    (doc.visits query direction).head?

theorem nearestWithin {a : Position} (inside : a.line < doc.count) :
    doc.find query (some a) direction inclusive = doc.nearest query (some a) direction inclusive := by
  have split : doc.tour query (some a) direction inclusive =
      (doc.visits query direction).filter (ahead direction inclusive a) ++
        (doc.visits query direction).filter (not ∘ ahead direction inclusive a) := by
    simp only [tour,if_pos inside,List.partition_eq_filter_filter]
    rfl
  rw [findTour,nearest,split,List.head?_append,List.head?_filter,Option.bind_some]
  cases met : (doc.visits query direction).find? (ahead direction inclusive a) with
  | some p => rfl
  | none =>
    have behind : (doc.visits query direction).filter (not ∘ ahead direction inclusive a) =
        doc.visits query direction := by
      rw [List.filter_eq_self]
      intro q member
      simpa using List.find?_eq_none.mp met q member
    rw [behind]

theorem nearestPast {a : Position} (past : ¬ a.line < doc.count) :
    doc.find query (some a) direction inclusive = doc.nearest query (some a) direction inclusive := by
  have whole : doc.tour query (some a) direction inclusive = doc.visits query direction := by
    simp only [tour,if_neg past]
    rfl
  have before (q : Position) (member : q ∈ doc.visits query direction) : q.line < a.line :=
    Nat.lt_of_lt_of_le (occursInside (visitMember.mp member)).line (Nat.not_lt.mp past)
  rw [findTour,nearest,whole,Option.bind_some]
  cases direction with
  | forward =>
    have none : (doc.visits query .forward).find? (ahead .forward inclusive a) = none := by
      rw [List.find?_eq_none]
      intro q member met
      have line := before q member
      rcases aheadIff.mp met with beyond | ⟨_,rfl⟩
      · simp only [Direction.Sooner,Position.Before] at beyond
        omega
      · exact Nat.lt_irrefl _ line
    rw [none]
    rfl
  | backward =>
    cases visited : doc.visits query .backward with
    | nil => rfl
    | cons q rest =>
      have line := before q (visited ▸ List.mem_cons_self)
      have met : ahead .backward inclusive a q = true := aheadIff.mpr (.inl (.inl line))
      rw [List.find?_cons_of_pos met]
      rfl

theorem findNearest : doc.find query anchor direction inclusive = doc.nearest query anchor direction inclusive := by
  cases anchor with
  | none => exact doc.findTour query inclusive none direction
  | some a =>
    by_cases inside : a.line < doc.count
    · exact nearestWithin doc query direction inclusive inside
    · exact nearestPast doc query direction inclusive inside

theorem nearestFound :
    direction.Finds inclusive anchor (doc.Occurs query) (doc.nearest query anchor direction inclusive) := by
  have ordered := doc.visitsOrdered query direction
  unfold nearest
  cases met : anchor.bind fun a => (doc.visits query direction).find? (ahead direction inclusive a) with
  | some p =>
    obtain ⟨a,anchored,met⟩ := Option.bind_eq_some_iff.mp met
    have first := Direction.findFirst ordered met
    simp only [visitMember,aheadIff] at first
    exact .ahead anchored first
  | none =>
    have behind (a : Position) (anchored : anchor = some a) (q : Position) (occurs : doc.Occurs query q) :
        ¬ direction.Ahead inclusive a q := by
      rw [anchored] at met
      rw [← aheadIff]
      exact List.find?_eq_none.mp met q (visitMember.mpr occurs)
    have visit (q : Position) : q ∈ doc.visits query direction ↔ doc.Occurs query q := visitMember
    cases visited : doc.visits query direction with
    | nil =>
      rw [visited] at visit
      apply Direction.Finds.nowhere
      intro q occurs
      exact List.not_mem_nil ((visit q).mpr occurs)
    | cons p rest =>
      rw [visited] at ordered visit
      apply Direction.Finds.around behind
      constructor
      · exact (visit p).mp List.mem_cons_self
      · intro q occurs other
        have later := List.mem_of_ne_of_mem other ((visit q).mpr occurs)
        exact (List.pairwise_cons.mp ordered).1 q later

end

theorem findsNearest (doc : Document) (query : Bytes) (anchor : Option Position)
    (direction : Direction) (inclusive : Bool) :
    (∀ found, doc.find query anchor direction inclusive = found ↔
      direction.Finds inclusive anchor (doc.Occurs query) found) ∧
      doc.find [] anchor direction inclusive = none := by
  have finds (query : Bytes) : direction.Finds inclusive anchor (doc.Occurs query)
      (doc.find query anchor direction inclusive) := by
    rw [findNearest]
    exact nearestFound doc query anchor direction inclusive
  constructor
  · intro found
    constructor
    · rintro rfl
      exact finds query
    · intro given
      exact Direction.findsUnique (finds query) given
  · exact Direction.findsUnique (finds []) (.nowhere fun q occurs => occurs.1 rfl)

example : (holding [[97, 97, 97], [98]] 8).find [97, 97] (some ⟨0, 0⟩) .forward false = some ⟨0, 1⟩ := rfl

end Document
end Vellum
