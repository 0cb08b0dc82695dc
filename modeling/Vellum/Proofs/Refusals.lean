import Vellum.Proofs.Unsaved

/-! Edits that are refused. Which ones those are can be told from the document alone,
and from what writing comes to; a refused edit always gets its answer, and it leaves the
document as it was. There is one exception: a byte put one past the last line, and past
the first column there. The line for it is added before the column is looked at, and it
stays. -/
namespace Vellum.Document

def Refuses (doc : Document) : Edit → Prop
  | .insertLine i _ => doc.count < i
  | .deleteLine i => doc.count ≤ i
  | .insertByte pos _ => doc.count < pos.line ∨ doc.lineSize pos.line < pos.column
  | .deleteByte pos => doc.count ≤ pos.line ∨ doc.lineSize pos.line < pos.column ∨ pos = ⟨0, 0⟩
  | .insertNewline pos => doc.count < pos.line
  | .setPath _ | .setLanguage _ => False
  | .save write => ∀ path, doc.path = some path → ∃ fault, write path doc.toBytes = .error fault
  | .saveAs write path => ∃ fault, write path doc.toBytes = .error fault

def Overreaches (doc : Document) : Edit → Prop
  | .insertByte pos _ => pos.line = doc.count ∧ 0 < pos.column
  | _ => False

inductive Outcome (doc : Document) (edit : Edit) : Document → Bool → Prop where
  | done {after} (taken : ¬ doc.Refuses edit) (within : ¬ doc.Overreaches edit) :
      Outcome doc edit after true
  | refused (refuses : doc.Refuses edit) (within : ¬ doc.Overreaches edit) : Outcome doc edit doc false
  | begun {after added} (refuses : doc.Refuses edit) (past : doc.Overreaches edit)
      (grown : doc.insertLine doc.count [] = .ok (after, added)) : Outcome doc edit after false

theorem lineSizeFound {doc : Document} {i : Nat} {line : Line} (found : doc.lines[i]? = some line) :
    doc.lineSize i = line.size := by simp [lineSize,found]

theorem lineSizeEnd {doc : Document} {i : Nat} (last : i = doc.count) : doc.lineSize i = 0 := by
  have missing : doc.lines[i]? = none := List.getElem?_eq_none (Nat.le_of_eq last.symm)
  simp [lineSize,missing]

theorem outsideMissing {doc : Document} {i : Nat} (missing : doc.lines[i]? = none) : doc.count ≤ i :=
  List.getElem?_eq_none_iff.mp missing

theorem insertLineOutcome {doc after : Document} {i : Nat} {content : Bytes} {done : Bool}
    (ok : doc.insertLine i content = .ok (after, done)) :
    Outcome doc (.insertLine i content) after done := by
  unfold insertLine at ok
  split at ok
  · rename_i outside
    cases Except.ok.inj ok
    exact .refused outside id
  · rename_i inside
    obtain ⟨shown,_,last⟩ := bindOk ok
    cases Except.ok.inj last
    exact .done inside id

theorem deleteLineOutcome {doc after : Document} {i : Nat} {done : Bool}
    (ok : doc.deleteLine i = .ok (after, done)) : Outcome doc (.deleteLine i) after done := by
  unfold deleteLine at ok
  split at ok
  · rename_i outside
    cases Except.ok.inj ok
    exact .refused outside id
  · rename_i inside
    obtain ⟨painted,_,last⟩ := bindOk ok
    cases Except.ok.inj last
    exact .done inside id

theorem insertWithinAnswer {doc after : Document} {pos : Position} {b : UInt8} {done : Bool}
    (ok : doc.insertWithin pos b = .ok (after, done)) :
    (done = true ∧ pos.line < doc.count ∧ pos.column ≤ doc.lineSize pos.line) ∨
      (done = false ∧ after = doc ∧ (doc.count ≤ pos.line ∨ doc.lineSize pos.line < pos.column)) := by
  unfold insertWithin at ok
  split at ok
  · rename_i missing
    cases Except.ok.inj ok
    exact .inr ⟨rfl,rfl,.inl (outsideMissing missing)⟩
  · rename_i line found
    rw [lineSizeFound found]
    split at ok
    · rename_i beyond
      cases Except.ok.inj ok
      exact .inr ⟨rfl,rfl,.inr beyond⟩
    · rename_i within
      obtain ⟨shown,_,last⟩ := bindOk ok
      cases Except.ok.inj last
      exact .inl ⟨rfl,insideFound found,Nat.le_of_not_lt within⟩

theorem addedSize {doc grown : Document} {added : Bool}
    (growing : doc.insertLine doc.count [] = .ok (grown, added)) : grown.lineSize doc.count = 0 := by
  rw [lineSizeAt,((insertLineYields (Nat.le_refl _) []).sound growing).2,List.getElem?_insertIdx_self]
  split <;> rfl

theorem insertByteOutcome {doc after : Document} {pos : Position} {b : UInt8} {done : Bool}
    (ok : doc.insertByte pos b = .ok (after, done)) : Outcome doc (.insertByte pos b) after done := by
  unfold insertByte at ok
  split at ok
  · rename_i last
    obtain ⟨⟨grown,added⟩,growing,ok⟩ := bindOk ok
    have empty := lineSizeEnd last
    rw [last] at growing
    have size := addedSize growing
    rw [← last] at size
    have inside : pos.line < grown.count := by
      rw [countContents,((insertLineYields (Nat.le_refl _) []).sound growing).2,countContents,
        List.insertIdx_length_self,last,countContents,List.length_append,List.length_singleton]
      exact Nat.lt_succ_self _
    rcases insertWithinAnswer ok with ⟨rfl,_,fits⟩ | ⟨rfl,rfl,beyond⟩
    · refine .done ?_ ?_
      · rintro (far | wide)
        · omega
        · omega
      · rintro ⟨_,positive⟩
        omega
    · refine .begun (.inr ?_) ⟨last,?_⟩ growing
      · omega
      · omega
  · rename_i other
    have within : ¬ doc.Overreaches (.insertByte pos b) := fun past => other past.1
    rcases insertWithinAnswer ok with ⟨rfl,inside,fits⟩ | ⟨rfl,rfl,beyond⟩
    · refine .done ?_ within
      rintro (far | wide)
      · omega
      · omega
    · refine .refused ?_ within
      rcases beyond with far | wide
      · exact .inl (by omega)
      · exact .inr wide

theorem deleteByteOutcome {doc after : Document} {pos : Position} {gap : Option Position}
    (ok : doc.deleteByte pos = .ok (after, gap)) : Outcome doc (.deleteByte pos) after gap.isSome := by
  unfold deleteByte at ok
  split at ok
  · rename_i missing
    cases Except.ok.inj ok
    exact .refused (.inl (outsideMissing missing)) id
  · rename_i line found
    have inside := insideFound found
    have size := lineSizeFound found
    split at ok
    · rename_i beyond
      cases Except.ok.inj ok
      exact .refused (.inr (.inl (size ▸ beyond))) id
    · rename_i within
      have taken (other : pos ≠ ⟨0, 0⟩) : ¬ doc.Refuses (.deleteByte pos) := by
        rintro (far | wide | same)
        · omega
        · omega
        · exact other same
      split at ok
      · rename_i column line
        cases Except.ok.inj ok
        exact .refused (.inr (.inr (by cases pos; simp_all))) id
      · rename_i above _ line
        obtain ⟨shown,_,last⟩ := bindOk ok
        cases Except.ok.inj last
        refine .done (taken ?_) id
        rintro rfl
        cases line
      · rename_i column line
        obtain ⟨shown,_,last⟩ := bindOk ok
        cases Except.ok.inj last
        refine .done (taken ?_) id
        rintro rfl
        cases line

theorem insertNewlineOutcome {doc after : Document} {pos : Position} {done : Bool}
    (ok : doc.insertNewline pos = .ok (after, done)) : Outcome doc (.insertNewline pos) after done := by
  unfold insertNewline at ok
  split at ok
  · rename_i last
    obtain ⟨rfl,_⟩ := (insertLineYields (Nat.le_of_eq last) []).sound ok
    exact .done (Nat.not_lt_of_le (Nat.le_of_eq last)) id
  · rename_i other
    split at ok
    · rename_i missing
      cases Except.ok.inj ok
      exact .refused (Nat.lt_of_le_of_ne (outsideMissing missing) (Ne.symm other)) id
    · rename_i line found
      have inside := insideFound found
      obtain ⟨head,fresh,ok⟩ := bindOk ok
      have count : head.count = doc.count := by
        rw [countContents,contentsOfRefresh fresh,contentsOfSetContent,List.length_set,← countContents]
      obtain ⟨rfl,_⟩ := (insertLineYields (by omega) _).sound ok
      exact .done (Nat.not_lt_of_le (Nat.le_of_lt inside)) id

theorem saveOutcome {doc after : Document} {write : String → Bytes → Except Fault Unit} {done : Bool}
    (ok : doc.perform (.save write) = .ok (after, done)) : Outcome doc (.save write) after done := by
  simp only [perform,saveBy] at ok
  cases named : doc.path with
  | none =>
    rw [named] at ok
    cases Except.ok.inj ok
    refine .refused ?_ id
    intro path given
    cases named.symm.trans given
  | some path =>
    rw [named] at ok
    cases written : write path doc.toBytes with
    | error fault =>
      simp only [written] at ok
      cases Except.ok.inj ok
      refine .refused ?_ id
      intro other given
      cases named.symm.trans given
      exact ⟨fault,written⟩
    | ok stored =>
      simp only [written] at ok
      cases Except.ok.inj ok
      refine .done ?_ id
      intro fails
      obtain ⟨fault,failed⟩ := fails path named
      cases written.symm.trans failed

theorem saveAsOutcome {doc after : Document} {write : String → Bytes → Except Fault Unit}
    {path : String} {done : Bool} (ok : doc.perform (.saveAs write path) = .ok (after, done)) :
    Outcome doc (.saveAs write path) after done := by
  simp only [perform,saveAsBy] at ok
  cases written : write path doc.toBytes with
  | error fault =>
    simp only [written] at ok
    cases Except.ok.inj ok
    exact .refused ⟨fault,written⟩ id
  | ok stored =>
    simp only [written] at ok
    cases Except.ok.inj ok
    refine .done ?_ id
    rintro ⟨fault,failed⟩
    cases written.symm.trans failed

theorem performOutcome {doc after : Document} {edit : Edit} {done : Bool}
    (ok : doc.perform edit = .ok (after, done)) : Outcome doc edit after done := by
  cases edit with
  | insertLine i content => exact insertLineOutcome ok
  | deleteLine i => exact deleteLineOutcome ok
  | insertByte pos b => exact insertByteOutcome ok
  | deleteByte pos =>
    obtain ⟨⟨cut,gap⟩,deleted,last⟩ := bindOk ok
    cases Except.ok.inj last
    exact deleteByteOutcome deleted
  | insertNewline pos => exact insertNewlineOutcome ok
  | setPath path =>
    obtain ⟨_,rfl⟩ := Prod.mk.inj (Except.ok.inj ok)
    exact .done id id
  | setLanguage language =>
    obtain ⟨painted,_,last⟩ := bindOk ok
    cases Except.ok.inj last
    exact .done id id
  | save write => exact saveOutcome ok
  | saveAs write path => exact saveAsOutcome ok

theorem emptyLastPainted {line : Line} (empty : line.shown = []) (language : Option Language) (carried : Bool)
    (lines : List Line) :
    ∃ after, Vellum.repaintFrom language lines.length carried (lines ++ [line]) = some after := by
  induction lines generalizing carried with
  | nil =>
    have painted : ∃ painting, Painting.of language carried line.shown = some painting := by
      rw [empty]
      cases language with
      | none => exact ⟨_,rfl⟩
      | some l => exact ⟨_,rfl⟩
    obtain ⟨painting,painted⟩ := painted
    simp only [List.length_nil,List.nil_append,Vellum.repaintFrom,repaint,Line.paint,painted]
    split
    · exact ⟨_,rfl⟩
    · exact ⟨_,rfl⟩
  | cons above lines ih =>
    obtain ⟨after,painted⟩ := ih above.opens
    exact ⟨above :: after,by simp only [List.length_cons,List.cons_append,Vellum.repaintFrom,painted]; rfl⟩

theorem emptyLineAdded (doc : Document) : ∃ after, doc.insertLine doc.count [] = .ok (after, true) := by
  let line := Line.ofContent doc.count []
  let put := { doc with lines := doc.lines ++ [line] }.edited
  have lines : renumberFrom doc.count (doc.lines.insertIdx doc.count line) = doc.lines ++ [line] := by
    rw [count,List.insertIdx_length_self,renumberFromAppend]
    rfl
  have content : put.content doc.count = [] := by
    simp only [put,edited,Document.content,count]
    simp [line,Line.ofContent]
  have fits : Fits doc.tabStop (put.content doc.count) := by
    rw [content,Fits,List.length_nil,List.count_nil,Nat.zero_mul]
    decide
  obtain ⟨room,granted⟩ := (roomAnswers _ _).returns fits
  have shown : put.lines.modify doc.count (Line.rendered doc.tabStop) =
      doc.lines ++ [line.rendered doc.tabStop] := modifyMiddle doc.lines line [] _
  obtain ⟨after,painted⟩ := @emptyLastPainted (line.rendered doc.tabStop) rfl doc.language false doc.lines
  have refreshed : put.refresh doc.count = .ok { put with lines := after } := by
    have repainted : Vellum.repaintFrom doc.language doc.count false
        (put.lines.modify doc.count (Line.rendered doc.tabStop)) = some after := by
      rw [shown]
      exact painted
    simp only [refresh,bind,Except.bind,repaintFrom]
    have room : roomFor put.tabStop (put.content doc.count) = .ok room := granted
    have language : put.language = doc.language := rfl
    have tabStop : put.tabStop = doc.tabStop := rfl
    rw [room,language,tabStop,repainted]
  refine ⟨{ put with lines := after },?_⟩
  rw [insertLine,if_neg (Nat.lt_irrefl _),lines]
  simp only [bind,Except.bind]
  rw [refreshed]

theorem insertWithinRefused {doc : Document} {pos : Position}
    (beyond : doc.count ≤ pos.line ∨ doc.lineSize pos.line < pos.column) (b : UInt8) :
    doc.insertWithin pos b = .ok (doc, false) := by
  unfold insertWithin
  split
  · rfl
  · rename_i line found
    rcases beyond with far | wide
    · exact absurd (insideFound found) (Nat.not_lt_of_le far)
    · rw [lineSizeFound found] at wide
      exact if_pos wide

theorem refusalAnswered {doc : Document} {edit : Edit} (refuses : doc.Refuses edit) :
    ∃ after done, doc.perform edit = .ok (after, done) := by
  cases edit with
  | insertLine i content => exact ⟨_,_,if_pos refuses⟩
  | deleteLine i => exact ⟨_,_,if_pos refuses⟩
  | insertByte pos b =>
    change ∃ after done, doc.insertByte pos b = .ok (after, done)
    by_cases last : pos.line = doc.count
    · obtain ⟨grown,growing⟩ := emptyLineAdded doc
      have size := addedSize growing
      rw [← last] at growing size
      have empty := lineSizeEnd last
      have wide : grown.lineSize pos.line < pos.column := by
        rcases refuses with far | wide
        · omega
        · omega
      refine ⟨grown,false,?_⟩
      rw [insertByte,if_pos last,growing]
      exact insertWithinRefused (.inr wide) b
    · refine ⟨doc,false,?_⟩
      rw [insertByte,if_neg last]
      exact insertWithinRefused (refuses.imp Nat.le_of_lt id) b
  | deleteByte pos =>
    have kept : doc.deleteByte pos = .ok (doc, none) := by
      unfold deleteByte
      split
      · rfl
      · rename_i line found
        rcases refuses with far | wide | rfl
        · exact absurd (insideFound found) (Nat.not_lt_of_le far)
        · rw [lineSizeFound found] at wide
          exact if_pos wide
        · exact if_neg (Nat.not_lt_zero _)
    refine ⟨doc,false,?_⟩
    rw [perform,kept]
    rfl
  | insertNewline pos =>
    have far : doc.count < pos.line := refuses
    refine ⟨doc,false,?_⟩
    rw [perform,insertNewline,if_neg (Nat.ne_of_gt far),List.getElem?_eq_none (Nat.le_of_lt far)]
  | setPath path => cases refuses
  | setLanguage language => cases refuses
  | save write =>
    simp only [perform]
    split
    · exact ⟨_,_,rfl⟩
    · exact ⟨_,_,rfl⟩
  | saveAs write path =>
    simp only [perform]
    split
    · exact ⟨_,_,rfl⟩
    · exact ⟨_,_,rfl⟩

theorem overreachRefused {doc : Document} {edit : Edit} (past : doc.Overreaches edit) : doc.Refuses edit := by
  cases edit with
  | insertByte pos b =>
    obtain ⟨last,positive⟩ := past
    exact .inr ((lineSizeEnd last).symm ▸ positive)
  | _ => cases past

theorem refusedEditChangesNothing (doc : Document) (edit : Edit) :
    (doc.Refuses edit ↔ ∃ after, doc.perform edit = .ok (after, false)) ∧
      (doc.Refuses edit → ¬ doc.Overreaches edit → doc.perform edit = .ok (doc, false)) ∧
      (doc.Overreaches edit → ∃ after, doc.perform edit = .ok (after, false) ∧
        after.contents = doc.contents ++ [[]] ∧ after.edits = doc.edits + 1 ∧ after.path = doc.path ∧
        after.language = doc.language) := by
  have answered (refuses : doc.Refuses edit) : ∃ after, doc.perform edit = .ok (after, false) := by
    obtain ⟨after,done,ok⟩ := refusalAnswered refuses
    cases performOutcome ok with
    | done taken _ => exact absurd refuses taken
    | refused _ _ => exact ⟨doc,ok⟩
    | begun _ _ _ => exact ⟨after,ok⟩
  refine ⟨⟨answered,?_⟩,?_,?_⟩
  · rintro ⟨after,ok⟩
    cases performOutcome ok with
    | refused refuses _ => exact refuses
    | begun refuses _ _ => exact refuses
  · intro refuses within
    obtain ⟨after,ok⟩ := answered refuses
    cases performOutcome ok with
    | refused _ _ => exact ok
    | begun _ past _ => exact absurd past within
  · intro past
    obtain ⟨after,ok⟩ := answered (overreachRefused past)
    cases performOutcome ok with
    | refused _ within => exact absurd past within
    | begun _ _ grown =>
      have yields := @insertLineYields doc doc.count (Nat.le_refl _) []
      have contents := (yields.sound grown).2
      rw [countContents,List.insertIdx_length_self] at contents
      refine ⟨after,ok,contents,?_⟩
      rw [yields.rest grown]
      exact ⟨rfl,rfl,rfl⟩

theorem refusedEditChangesNothingAfterFailure :
    let edits := [Edit.insertByte ⟨0, 1⟩ 9, .deleteByte ⟨1, 3⟩, .saveAs (fun _ _ => .error .isFolder) "d"]
    ∃ origin doc, ofBytes [97, 10, 98, 99] 4 = .ok origin ∧ edits.foldlM follow origin = .ok doc ∧
      doc.contents = [[97, 9], [98, 99]] ∧ doc.Refuses (.insertByte ⟨0, 3⟩ 120) ∧
      doc.perform (.insertByte ⟨0, 3⟩ 120) = .ok (doc, false) := by
  intro edits
  obtain ⟨origin,doc,read,ran,contents,count,size⟩ : ∃ origin doc,
      ofBytes [97, 10, 98, 99] 4 = .ok origin ∧ edits.foldlM follow origin = .ok doc ∧
      doc.contents = [[97, 9], [98, 99]] ∧ doc.count = 2 ∧ doc.lineSize 0 = 2 := ⟨_,_,rfl,rfl,rfl,rfl,rfl⟩
  have refuses : doc.Refuses (.insertByte ⟨0, 3⟩ 120) := by
    refine .inr ?_
    rw [size]
    decide
  have within : ¬ doc.Overreaches (.insertByte ⟨0, 3⟩ 120) := by
    rintro ⟨last,_⟩
    rw [count] at last
    cases last
  exact ⟨origin,doc,read,ran,contents,refuses,(refusedEditChangesNothing doc _).2.1 refuses within⟩

theorem lineAddedThenRefused :
    ¬ ∀ (doc after : Document) (edit : Edit), doc.Reached → doc.perform edit = .ok (after, false) →
      after = doc := by
  intro unchanged
  obtain ⟨doc,after,read,performed,clean,dirty⟩ : ∃ doc after, ofBytes [120, 10] 8 = .ok doc ∧
      doc.perform (.insertByte ⟨1, 5⟩ 121) = .ok (after, false) ∧ doc.isDirty = false ∧
      after.isDirty = true := ⟨_,_,rfl,rfl,rfl,rfl⟩
  have same := unchanged doc after _ ⟨doc,[],.bytes read,rfl⟩ performed
  rw [same,clean] at dirty
  cases dirty

end Vellum.Document
