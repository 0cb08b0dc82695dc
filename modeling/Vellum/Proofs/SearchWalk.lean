import Vellum.Finding

/-! What a search goes through. The occurrences of a query in the order of the document,
cut at an anchor and put together again the other way round, are the tour of a search;
forward and backward, the walk over the lines finds the first place of its tour. -/
namespace Vellum

theorem columnsFromMember {query : Bytes} {first : Nat} {content : Bytes} {column : Nat} :
    column ∈ columnsFrom query first content ↔
      ∃ k, column = first + k ∧ k < content.length ∧ query <+: content.drop k := by
  induction content generalizing first with
  | nil => simp [columnsFrom]
  | cons b rest ih =>
    have later : (∃ k, column = first + 1 + k ∧ k < rest.length ∧ query <+: rest.drop k) ↔
        ∃ k, column = first + (k + 1) ∧ k + 1 < (b :: rest).length ∧
          query <+: (b :: rest).drop (k + 1) := by
      simp [Nat.add_assoc,Nat.add_comm 1]
    simp only [columnsFrom]
    constructor
    · intro member
      split at member
      · rename_i here
        rcases List.mem_cons.mp member with same | inside
        · exact ⟨0,by omega,by simp,by simpa using List.isPrefixOf_iff_prefix.mp here⟩
        · obtain ⟨k,found⟩ := later.mp (ih.mp inside)
          exact ⟨k + 1,found⟩
      · obtain ⟨k,found⟩ := later.mp (ih.mp member)
        exact ⟨k + 1,found⟩
    · rintro ⟨k,place,inside,standing⟩
      cases k with
      | zero =>
        have here : query.isPrefixOf (b :: rest) = true :=
          List.isPrefixOf_iff_prefix.mpr (by simpa using standing)
        simp [here,place]
      | succ k =>
        have member := ih.mpr (later.mpr ⟨k,place,inside,standing⟩)
        split
        · exact List.mem_cons_of_mem first member
        · exact member

namespace Document

def spotsIn (doc : Document) (query : Bytes) (i : Nat) : List Position :=
  (doc.columnsIn query i).map (Position.mk i)

def occurrences (doc : Document) (query : Bytes) : List Position :=
  if query.isEmpty then [] else (List.range doc.count).flatMap (doc.spotsIn query)

def ahead (direction : Direction) (inclusive : Bool) (anchor p : Position) : Bool :=
  let order (a b : Position) : Bool := a.line < b.line || a.line == b.line && a.column < b.column
  match direction with
  | .forward => order anchor p || inclusive && anchor == p
  | .backward => order p anchor || inclusive && anchor == p

def tour (doc : Document) (query : Bytes) (anchor : Option Position) (direction : Direction)
    (inclusive : Bool) : List Position :=
  let ordered := match direction with
    | .forward => doc.occurrences query
    | .backward => (doc.occurrences query).reverse
  match anchor with
  | none => ordered
  | some a =>
    if a.line < doc.count then
      let (first, last) := ordered.partition (ahead direction inclusive a)
      first ++ last
    else ordered

theorem occurrenceMember {doc : Document} {query : Bytes} (asked : query ≠ []) {p : Position} :
    p ∈ doc.occurrences query ↔
      ∃ content, doc.contents[p.line]? = some content ∧ query <+: content.drop p.column := by
  have shape : query.isEmpty = false := by simpa using asked
  simp only [occurrences,shape,Bool.false_eq_true,if_false,List.mem_flatMap,List.mem_range,spotsIn,
    List.mem_map,columnsIn,columnsFromMember,Nat.zero_add]
  constructor
  · rintro ⟨i,inside,_,⟨k,rfl,_,standing⟩,rfl⟩
    have line := List.getElem?_eq_getElem inside
    refine ⟨doc.content i,?_,standing⟩
    simp [contents,content,line]
  · rintro ⟨text,found,standing⟩
    have inside : p.line < doc.count := by
      simpa [contents,count] using (List.getElem?_eq_some_iff.mp found).1
    have same : doc.content p.line = text := by
      rw [contents,List.getElem?_map] at found
      rw [content,found]
      rfl
    have long := standing.length_le
    have some := List.length_pos_iff.mpr asked
    rw [List.length_drop] at long
    exact ⟨p.line,inside,p.column,⟨p.column,rfl,by rw [same]; omega,same ▸ standing⟩,rfl⟩

theorem tourMember {doc : Document} {query : Bytes} {anchor : Option Position}
    {direction : Direction} {inclusive : Bool} {p : Position} :
    p ∈ doc.tour query anchor direction inclusive ↔ p ∈ doc.occurrences query := by
  unfold tour
  cases anchor with
  | none => cases direction <;> simp
  | some a =>
    simp only
    split
    · simp only [List.partition_eq_filter_filter,List.mem_append,List.mem_filter]
      cases direction <;> simp [← and_or_left]
    · cases direction <;> simp

theorem aheadAbove {a p : Position} (inclusive : Bool) (above : p.line < a.line) :
    ahead .forward inclusive a p = false ∧ ahead .backward inclusive a p = true := by
  have apart : (a == p) = false := by
    rw [beq_eq_false_iff_ne]
    rintro rfl
    omega
  have other : ¬ a.line < p.line := by omega
  have unlike : a.line ≠ p.line := by omega
  simp [ahead,apart,above,other,unlike]

theorem aheadBelow {a p : Position} (inclusive : Bool) (below : a.line < p.line) :
    ahead .forward inclusive a p = true ∧ ahead .backward inclusive a p = false := by
  have apart : (a == p) = false := by
    rw [beq_eq_false_iff_ne]
    rintro rfl
    omega
  have other : ¬ p.line < a.line := by omega
  have unlike : p.line ≠ a.line := by omega
  simp [ahead,apart,below,other,unlike]

theorem besideEq (a : Position) (column : Nat) :
    (a == ⟨a.line, column⟩) = decide (a.column = column) := by
  obtain ⟨line,start⟩ := a
  rw [Bool.eq_iff_iff]
  simp

theorem aheadForward (inclusive : Bool) (a : Position) :
    ahead .forward inclusive a ∘ Position.mk a.line = fun column =>
      if inclusive then decide (a.column ≤ column) else decide (a.column < column) := by
  funext column
  cases inclusive with
  | false => simp [ahead]
  | true => simp [ahead,besideEq,Nat.le_iff_lt_or_eq]

theorem aheadBackward (inclusive : Bool) (a : Position) :
    ahead .backward inclusive a ∘ Position.mk a.line = fun column =>
      if inclusive then decide (column ≤ a.column) else decide (column < a.column) := by
  funext column
  cases inclusive with
  | false => simp [ahead]
  | true => simp [ahead,besideEq,Nat.le_iff_lt_or_eq,eq_comm]

section
variable (doc : Document) (query : Bytes)

theorem headOfSpots (is : List Nat) :
    (is.flatMap (doc.spotsIn query)).head? = is.findSome? (doc.firstIn query) := by
  simp only [List.head?_flatMap,spotsIn,List.head?_map]
  rfl

theorem lastOfSpots (is : List Nat) :
    (is.flatMap (doc.spotsIn query)).reverse.head? = is.reverse.findSome? (doc.lastIn query) := by
  simp only [List.head?_reverse,List.getLast?_flatMap,spotsIn,List.getLast?_map]
  rfl

theorem occurrencesAround {i : Nat} (asked : query.isEmpty = false) (inside : i < doc.count) :
    doc.occurrences query = (List.range i).flatMap (doc.spotsIn query) ++
      (doc.spotsIn query i ++ (doc.linesAfter i).flatMap (doc.spotsIn query)) := by
  have lines : List.range doc.count = List.range i ++ (i :: doc.linesAfter i) := by
    have rest : doc.count - i = doc.count - (i + 1) + 1 := by omega
    have whole : doc.count = i + (doc.count - i) := by omega
    rw [List.range_eq_range',whole,← List.range'_append_1,Nat.zero_add,rest,List.range'_succ,linesAfter,
      List.range_eq_range']
  simp only [occurrences,asked,Bool.false_eq_true,if_false,lines,List.flatMap_append,List.flatMap_cons]

theorem spotAbove {i : Nat} {p : Position} (above : p ∈ (List.range i).flatMap (doc.spotsIn query)) :
    p.line < i := by
  obtain ⟨k,before,spot⟩ := List.mem_flatMap.mp above
  obtain ⟨column,_,rfl⟩ := List.mem_map.mp spot
  exact List.mem_range.mp before

theorem spotBelow {i : Nat} {p : Position}
    (below : p ∈ (doc.linesAfter i).flatMap (doc.spotsIn query)) : i < p.line := by
  obtain ⟨k,after,spot⟩ := List.mem_flatMap.mp below
  obtain ⟨column,_,rfl⟩ := List.mem_map.mp spot
  exact (List.mem_range'_1.mp after).1

theorem occurrencesCut {i : Nat} (test : Position → Bool) (asked : query.isEmpty = false)
    (inside : i < doc.count) (above : ∀ p, p.line < i → test p = false)
    (below : ∀ p, i < p.line → test p = true) :
    (doc.occurrences query).filter test =
        (doc.spotsIn query i).filter test ++ (doc.linesAfter i).flatMap (doc.spotsIn query) ∧
      (doc.occurrences query).filter (not ∘ test) =
        (List.range i).flatMap (doc.spotsIn query) ++ (doc.spotsIn query i).filter (not ∘ test) := by
  have sooner (p : Position) (member : p ∈ (List.range i).flatMap (doc.spotsIn query)) :
      test p = false := above p (doc.spotAbove query member)
  have later (p : Position) (member : p ∈ (doc.linesAfter i).flatMap (doc.spotsIn query)) :
      test p = true := below p (doc.spotBelow query member)
  have upper : ((List.range i).flatMap (doc.spotsIn query)).filter test = [] := by
    rw [List.filter_eq_nil_iff]
    intro p member
    simp [sooner p member]
  have upperRest : ((List.range i).flatMap (doc.spotsIn query)).filter (not ∘ test) =
      (List.range i).flatMap (doc.spotsIn query) := by
    rw [List.filter_eq_self]
    intro p member
    simp [sooner p member]
  have lower : ((doc.linesAfter i).flatMap (doc.spotsIn query)).filter test =
      (doc.linesAfter i).flatMap (doc.spotsIn query) := List.filter_eq_self.mpr later
  have lowerRest : ((doc.linesAfter i).flatMap (doc.spotsIn query)).filter (not ∘ test) = [] := by
    rw [List.filter_eq_nil_iff]
    intro p member
    simp [later p member]
  rw [doc.occurrencesAround query asked inside]
  simp only [List.filter_append,upper,upperRest,lower,lowerRest,List.nil_append,List.append_nil,
    and_self]

variable (inclusive : Bool) {a : Position}

theorem walkForwardTour (asked : query.isEmpty = false) (inside : a.line < doc.count) :
    doc.walkForward query inclusive a = (doc.tour query (some a) .forward inclusive).head? := by
  obtain ⟨lead,trail⟩ := doc.occurrencesCut query _ asked inside
    (fun p above => (aheadAbove inclusive above).1) fun p below => (aheadBelow inclusive below).1
  have others : (not ∘ ahead .forward inclusive a) ∘ Position.mk a.line = not ∘ _ :=
    congrArg (not ∘ ·) (aheadForward inclusive a)
  simp only [tour,if_pos inside,List.partition_eq_filter_filter,lead,trail]
  simp only [List.append_assoc,List.head?_append,headOfSpots,spotsIn,List.filter_map,List.head?_map,
    List.head?_filter,others,aheadForward]
  simp only [walkForward,List.findSome?_append,Option.or_assoc]
  rfl

theorem walkBackwardTour (asked : query.isEmpty = false) (inside : a.line < doc.count) :
    doc.walkBackward query inclusive a = (doc.tour query (some a) .backward inclusive).head? := by
  have twice : not ∘ not ∘ ahead .backward inclusive a = ahead .backward inclusive a := by
    funext p
    exact Bool.not_not _
  -- Backward, it is the places behind the anchor that stand below it.
  obtain ⟨trail,lead⟩ := doc.occurrencesCut query (not ∘ ahead .backward inclusive a) asked inside
    (fun p above => by simp [(aheadAbove inclusive above).2])
    fun p below => by simp [(aheadBelow inclusive below).2]
  rw [twice] at lead
  have others : (not ∘ ahead .backward inclusive a) ∘ Position.mk a.line = not ∘ _ :=
    congrArg (not ∘ ·) (aheadBackward inclusive a)
  simp only [tour,if_pos inside,List.partition_eq_filter_filter,List.filter_reverse,lead,trail,
    List.reverse_append,List.append_assoc]
  simp only [List.head?_append,lastOfSpots]
  simp only [List.head?_reverse,spotsIn,List.filter_map,List.getLast?_map,others,aheadBackward]
  simp only [walkBackward,List.findSome?_append,Option.or_assoc]
  rfl

theorem findTour (anchor : Option Position) (direction : Direction) :
    doc.find query anchor direction inclusive = (doc.tour query anchor direction inclusive).head? := by
  by_cases asked : query.isEmpty = true
  · have nothing : doc.tour query anchor direction inclusive = [] := by
      apply List.eq_nil_iff_forall_not_mem.mpr
      intro p
      rw [tourMember]
      simp [occurrences,asked]
    rw [nothing,find.eq_def,if_pos asked]
    rfl
  have named : query.isEmpty = false := by simpa using asked
  have whole : doc.occurrences query = (List.range doc.count).flatMap (doc.spotsIn query) := by
    rw [occurrences,if_neg asked]
  rw [find.eq_def,if_neg asked]
  cases anchor with
  | none =>
    cases direction with
    | forward => simp only [tour,whole,headOfSpots]; rfl
    | backward => simp only [tour,whole,lastOfSpots]; rfl
  | some a =>
    by_cases inside : a.line < doc.count
    · simp only [Option.filter_some,decide_eq_true inside,if_true]
      cases direction with
      | forward => exact doc.walkForwardTour query inclusive named inside
      | backward => exact doc.walkBackwardTour query inclusive named inside
    · simp only [Option.filter_some,decide_eq_false inside,Bool.false_eq_true,if_false]
      cases direction with
      | forward => simp only [tour,if_neg inside,whole,headOfSpots]
      | backward => simp only [tour,if_neg inside,whole,lastOfSpots]

end
end Document
end Vellum
