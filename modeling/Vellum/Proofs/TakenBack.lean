import Vellum.Proofs.Reopening

/-! Edits and the edits that take them back. A break goes when the two lines are joined
again, a byte when it is deleted, and lines that were joined are broken where they met.
An edit may paint any number of lines below it in other colours; since lines are always
as if painted at once, the lines of before come back as a whole. -/
namespace Vellum

theorem fitsWithin {tabStop : Nat} {part whole : Bytes} (within : List.Sublist part whole)
    (fits : Fits tabStop whole) : Fits tabStop part := by
  have length := within.length_le
  have tabs := Nat.mul_le_mul_right (max tabStop 1 - 1) (within.count_le Byte.tab)
  unfold Fits at fits ⊢
  omega

theorem partsFit {tabStop : Nat} {left right : Bytes} (fits : Fits tabStop (left ++ right)) :
    ∀ c ∈ [left, right], Fits tabStop c := by
  refine List.forall_mem_cons.mpr ⟨?_,List.forall_mem_singleton.mpr ?_⟩
  · exact fitsWithin (List.sublist_append_left left right) fits
  · exact fitsWithin (List.sublist_append_right left right) fits

namespace Document

/- What `again` does to the document that an edit leaves takes the edit back: the document is as
before, and only its edits are two more. -/
def TakenBack {α β : Type} (doc : Document) (edit : Except Impasse (Document × α)) (answer : α)
    (again : Document → Except Impasse (Document × β)) (gap : β) : Prop :=
  ∃ put, edit = .ok (put, answer) ∧ again put = .ok ({ doc with edits := doc.edits + 2 }, gap)

theorem settledAgain {doc put back : Document} (settled : doc.Settled) (again : back.Settled)
    (contents : back.contents = doc.contents) (first : put = { doc with lines := put.lines }.edited)
    (second : back = { put with lines := back.lines }.edited) :
    back = { doc with edits := doc.edits + 2 } := by
  have language : back.language = doc.language := by
    rw [second,first]
    rfl
  have tabStop : back.tabStop = doc.tabStop := by
    rw [second,first]
    rfl
  have lines : back.lines = doc.lines := settledUnique settled again contents language tabStop
  calc
    back = { put with lines := back.lines }.edited := second
    _ = { doc with edits := doc.edits + 2 } := by
      rw [lines,first]
      rfl

theorem Yields.returned {α : Type} {doc : Document} {edit : Except Impasse (Document × α)}
    {shown contents : List Bytes} {answer : α} (yields : Yields doc edit shown contents answer)
    (marked : Language.Marked doc.language) (room : ∀ c ∈ shown, Fits doc.tabStop c) :
    ∃ after, edit = .ok (after, answer) := by
  obtain ⟨⟨after,given⟩,ok⟩ := (yields.answers marked).returns room
  obtain ⟨rfl,_⟩ := yields.sound ok
  exact ⟨after,ok⟩

theorem takenBack {α β : Type} {doc : Document} {edit : Except Impasse (Document × α)}
    {shown again contents : List Bytes} {answer : α} {undo : Document → Except Impasse (Document × β)}
    {gap : β} (settled : doc.Settled) (marked : Language.Marked doc.language)
    (forth : Yields doc edit shown contents answer) (room : ∀ c ∈ shown, Fits doc.tabStop c)
    (kept : ∀ {put}, edit = .ok (put, answer) → put.Settled)
    (back : ∀ {put : Document}, put.contents = contents → Yields put (undo put) again doc.contents gap)
    (roomAgain : ∀ c ∈ again, Fits doc.tabStop c)
    (settles : ∀ {put last : Document}, put.Settled → undo put = .ok (last, gap) → last.Settled) :
    TakenBack doc edit answer undo gap := by
  obtain ⟨put,done⟩ := forth.returned marked room
  have rest := forth.rest done
  have tabStop : put.tabStop = doc.tabStop := by
    rw [rest]
    rfl
  have language : put.language = doc.language := by
    rw [rest]
    rfl
  have yields := back (forth.sound done).2
  obtain ⟨last,undone⟩ := yields.returned (language ▸ marked) (tabStop ▸ roomAgain)
  have same := settledAgain settled (settles (kept done) undone) (yields.sound undone).2 rest
    (yields.rest undone)
  rw [same] at undone
  exact ⟨put,done,undone⟩

theorem spotFits {doc : Document} {s : Spot} (laid : doc.Laid) (held : doc.contents = s.contents) :
    Fits doc.tabStop (s.left ++ s.right) := by
  apply laidFits laid
  rw [held,Spot.contents]
  exact List.mem_append_right _ List.mem_cons_self

section
variable {doc : Document} (settled : doc.Settled) (marked : Language.Marked doc.language)
include settled marked

theorem splitTakenBack (laid : doc.Laid) {s : Spot} (held : doc.contents = s.contents) :
    TakenBack doc (doc.insertNewline s.position) true
      (fun put => put.deleteByte ⟨s.above.length + 1, 0⟩) (some s.position) := by
  have own := spotFits laid held
  refine takenBack settled marked (insertNewlineYields held) (partsFit own)
    (insertNewlineSettled settled) ?_ (List.forall_mem_singleton.mpr own) deleteByteSettled
  intro put contents
  have back := deleteByteYields (.line s.above s.left s.right s.below) contents
  rw [held]
  simp only [Spot.position,List.length_append,List.length_singleton,List.length_nil] at back
  exact back

theorem insertionTakenBack (laid : doc.Laid) {s : Spot} (held : doc.contents = s.contents) {b : UInt8}
    (fits : Fits doc.tabStop (s.left ++ [b] ++ s.right)) :
    TakenBack doc (doc.insertByte s.position b) true
      (fun put => put.deleteByte ⟨s.above.length, s.left.length + 1⟩) (some s.position) := by
  refine takenBack settled marked (insertByteYields held b) (List.forall_mem_singleton.mpr fits)
    (insertByteSettled settled) ?_ (List.forall_mem_singleton.mpr (spotFits laid held)) deleteByteSettled
  intro put contents
  have back := deleteByteYields (.byte s.above s.left b s.right s.below) contents
  rw [held]
  simp only [Spot.position,List.length_append,List.length_singleton] at back
  exact back

theorem joinTakenBack {upper lower : List Bytes} {left right : Bytes}
    (held : doc.contents = (Spot.mk (upper ++ [left]) [] right lower).contents)
    (fits : Fits doc.tabStop (left ++ right)) :
    TakenBack doc (doc.deleteByte (Spot.mk (upper ++ [left]) [] right lower).position)
      (some ⟨upper.length, left.length⟩) (fun put => put.insertNewline ⟨upper.length, left.length⟩)
      true := by
  have back {put : Document} (contents : put.contents = (Spot.mk upper left right lower).contents) :
      Yields put (put.insertNewline ⟨upper.length, left.length⟩) [left, right] doc.contents true := by
    rw [held]
    exact insertNewlineYields contents
  exact takenBack settled marked (deleteByteYields (.line upper left right lower) held)
    (List.forall_mem_singleton.mpr fits) (deleteByteSettled settled) back (partsFit fits)
    insertNewlineSettled

end

theorem reachedLaid {doc : Document} (reached : doc.Reached) : doc.Laid := by
  obtain ⟨origin,edits,loaded,ran⟩ := reached
  refine foldKeeps ?_ (loadedLaid loaded) ran
  intro before edit after _ laid ok
  obtain ⟨done,performed⟩ := followOk ok
  exact performLaid laid performed

theorem meetingSpot {doc : Document} {above : Nat} (inside : above + 1 < doc.count) :
    ∃ upper lower, let left := doc.content above
      let meeting : Spot := ⟨upper ++ [left], [], doc.content (above + 1), lower⟩
      doc.contents = meeting.contents ∧ upper.length = above ∧ meeting.position = ⟨above + 1, 0⟩ ∧
        doc.lineSize above = left.length := by
  obtain ⟨s,held,position⟩ := insideSpot (⟨inside,Nat.zero_le _⟩ : doc.Inside ⟨above + 1, 0⟩)
  obtain ⟨front,left,right,lower⟩ := s
  obtain ⟨line,column⟩ := Position.mk.inj position
  cases List.length_eq_zero_iff.mp column.symm
  rcases front.eq_nil_or_concat with rfl | ⟨upper,last,same⟩
  · cases line
  · rw [List.concat_eq_append] at same
    subst same
    have length : upper.length = above := by
      rw [List.length_append] at line
      exact (Nat.succ.inj line).symm
    subst length
    have first : doc.contents[upper.length]? = some last := by
      rw [held,Spot.contents]
      simp
    have second : doc.contents[upper.length + 1]? = some right := by
      rw [held,Spot.contents]
      simp
    refine ⟨upper,lower,?_,rfl,by simp [Spot.position],?_⟩
    · rw [contentAt,contentAt,first,second]
      exact held
    · rw [lineSizeAt,contentAt,first]
      rfl

theorem editsTakenBack {doc : Document} (reached : doc.Reached) (marked : Language.Marked doc.language) :
    (∀ pos, doc.Inside pos →
      TakenBack doc (doc.insertNewline pos) true (fun put => put.deleteByte ⟨pos.line + 1, 0⟩) (some pos) ∧
      ∀ b, let longer := (doc.content pos.line).insertIdx pos.column b
        (Fits doc.tabStop longer → TakenBack doc (doc.insertByte pos b) true
          (fun put => put.deleteByte ⟨pos.line, pos.column + 1⟩) (some pos)) ∧
        (¬ Fits doc.tabStop longer → ∃ overflow, doc.insertByte pos b = .error (.overflow overflow))) ∧
    ∀ above, above + 1 < doc.count →
      let both := doc.content above ++ doc.content (above + 1)
      let gap : Position := ⟨above, doc.lineSize above⟩
      (Fits doc.tabStop both → TakenBack doc (doc.deleteByte ⟨above + 1, 0⟩) (some gap)
        (fun put => put.insertNewline gap) true) ∧
      (¬ Fits doc.tabStop both → ∃ overflow, doc.deleteByte ⟨above + 1, 0⟩ = .error (.overflow overflow)) := by
  have settled := reachedSettled reached
  have laid := reachedLaid reached
  constructor
  · intro pos inside
    obtain ⟨s,held,rfl⟩ := insideSpot inside
    refine ⟨splitTakenBack settled marked laid held,?_⟩
    intro b longer
    have text : longer = s.left ++ [b] ++ s.right := by
      rw [List.append_assoc]
      simp only [longer,Spot.position,spotContent held]
      exact insertIdxMiddle s.left b s.right
    rw [text]
    exact ⟨insertionTakenBack settled marked laid held,
      fun wide => ((insertByteYields held b).answers marked).overflows (mt List.forall_mem_singleton.mp wide)⟩
  · intro above inside
    obtain ⟨upper,lower,held,rfl,position,size⟩ := meetingSpot inside
    have joins := joinTakenBack settled marked held
    have yields := deleteByteYields (.line upper _ _ lower) held
    rw [position] at joins yields
    simp only [size]
    exact ⟨joins,fun wide => (yields.answers marked).overflows (mt List.forall_mem_singleton.mp wide)⟩

theorem editsTakenBackInComment :
    ∃ origin doc put, ofBytes [97, 40, 98, 10, 99, 41, 100] 4 = .ok origin ∧
      [Edit.setLanguage (some { name := "sample", blockComment := some ([40], [41]) })].foldlM follow
        origin = .ok doc ∧
      doc.lines[1]?.map Line.styles = some [.blockComment, .blockComment, .plain] ∧
      doc.insertByte ⟨0, 2⟩ 41 = .ok (put, true) ∧
      put.lines[1]?.map Line.styles = some [.plain, .plain, .plain] ∧
      put.deleteByte ⟨0, 3⟩ = .ok ({ doc with edits := doc.edits + 2 }, some ⟨0, 2⟩) ∧
      TakenBack doc (doc.deleteByte ⟨1, 0⟩) (some ⟨0, 3⟩) (fun put => put.insertNewline ⟨0, 3⟩) true := by
  obtain ⟨origin,doc,other,read,ran,language,coloured,count,size,first,second,tabStop,done,plain⟩ :
      ∃ origin doc other, ofBytes [97, 40, 98, 10, 99, 41, 100] 4 = .ok origin ∧
      [Edit.setLanguage (some { name := "sample", blockComment := some ([40], [41]) })].foldlM follow
        origin = .ok doc ∧
      doc.language = some { name := "sample", blockComment := some ([40], [41]) } ∧
      doc.lines[1]?.map Line.styles = some [.blockComment, .blockComment, .plain] ∧
      doc.count = 2 ∧ doc.lineSize 0 = 3 ∧ doc.content 0 = [97, 40, 98] ∧ doc.content 1 = [99, 41, 100] ∧
      doc.tabStop = 4 ∧ doc.insertByte ⟨0, 2⟩ 41 = .ok (other, true) ∧
      other.lines[1]?.map Line.styles = some [.plain, .plain, .plain] :=
    ⟨_,_,_,rfl,rfl,rfl,rfl,rfl,rfl,rfl,rfl,rfl,rfl,rfl⟩
  have inside : doc.Inside ⟨0, 2⟩ := by
    constructor
    · rw [count]
      decide
    · rw [size]
      decide
  have marked : Language.Marked doc.language := by
    intro own named
    rw [language] at named
    cases Option.some.inj named
    decide
  obtain ⟨edits,joins⟩ := editsTakenBack ⟨origin,_,.bytes read,ran⟩ marked
  have longer : Fits doc.tabStop ((doc.content 0).insertIdx 2 41) := by
    rw [first,tabStop,Fits]
    decide
  have both : Fits doc.tabStop (doc.content 0 ++ doc.content 1) := by
    rw [first,second,tabStop,Fits]
    decide
  obtain ⟨put,same,back⟩ := ((edits ⟨0, 2⟩ inside).2 41).1 longer
  have joined := (joins 0 (by rw [count]; decide)).1 both
  cases Except.ok.inj (done.symm.trans same)
  rw [size] at joined
  exact ⟨origin,doc,other,read,ran,coloured,done,plain,back,joined⟩

theorem wideTabNotTakenBack :
    ¬ ∀ (doc : Document) (pos : Position) (b : UInt8), doc.Reached → doc.Inside pos →
      TakenBack doc (doc.insertByte pos b) true
        (fun put => put.deleteByte ⟨pos.line, pos.column + 1⟩) (some pos) := by
  intro always
  obtain ⟨doc,read,count,refused⟩ : ∃ doc, ofBytes [97, 98] 18446744073709551615 = .ok doc ∧
      doc.count = 1 ∧ doc.insertByte ⟨0, 0⟩ Byte.tab = .error (.overflow .sum) := ⟨_,rfl,rfl,rfl⟩
  have inside : doc.Inside ⟨0, 0⟩ := by
    refine ⟨?_,Nat.zero_le _⟩
    rw [count]
    decide
  obtain ⟨put,done,_⟩ := always doc ⟨0, 0⟩ Byte.tab ⟨doc,[],.bytes read,rfl⟩ inside
  cases refused.symm.trans done

end Document
end Vellum
