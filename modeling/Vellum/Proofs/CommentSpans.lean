import Vellum.Proofs.Edits
import Vellum.Proofs.TokenPainting

/-! Block comments that go over several lines. From a line that leaves a comment open, the
comment goes on through every line without its closing marker, and up to the first such
marker; what stands behind the marker is painted as a line of its own. -/
namespace Vellum

theorem closesSomewhere {closing text : Bytes} : closing <:+: text ↔ ∃ k, Closes closing text k := by
  constructor
  · rintro ⟨front,rest,rfl⟩
    refine ⟨front.length,rest,?_⟩
    rw [List.append_assoc,List.drop_left]
  · rintro ⟨k,front⟩
    exact front.isInfix.trans (List.drop_suffix k text).isInfix

theorem firstClosing {closing text : Bytes} (filled : closing ≠ []) (occurs : closing <:+: text) :
    ∃ front rest, text = front ++ closing ++ rest ∧ ∀ k, Closes closing text k → front.length ≤ k := by
  obtain ⟨n,ended,through⟩ := throughExists text (Closes closing text) closing.length
  cases through with
  | unended never =>
    obtain ⟨k,closes⟩ := closesSomewhere.mp occurs
    exact absurd closes (never k)
  | @ended k closes earlier =>
    have within := closesBounded filled k closes
    obtain ⟨rest,same⟩ := closes
    refine ⟨text.take k,rest,?_,?_⟩
    · rw [List.append_assoc,same,List.take_append_drop]
    · intro j there
      rw [List.length_take,Nat.min_eq_left (by omega)]
      exact Nat.le_of_not_lt fun less => earlier j less there

namespace Language

section
variable {language : Language} {opening closing shown : Bytes}
  (given : language.blockComment = some (opening, closing)) (filled : closing ≠ [])
include given filled

theorem closingMarked : language.blockComment ≠ some ([], []) := by
  intro same
  cases Option.some.inj (given.symm.trans same)
  exact filled rfl

theorem unclosedPainting (never : ∀ k, ¬ Closes closing shown k) :
    Painting.of (some language) true shown = some ⟨List.replicate shown.length .blockComment, true⟩ := by
  obtain ⟨last,run,ends⟩ := commentStrokes given filled (.unended never) true false
  rw [List.drop_length] at run
  have painted := strokesPainting (closingMarked given filled) true (by rw [given]; exact run)
  rw [painted]
  exact congrArg (fun opens => some (Painting.mk _ opens)) ends

theorem closedPainting {front rest : Bytes}
    (first : ∀ k, Closes closing (front ++ closing ++ rest) k → front.length ≤ k) :
    ∃ behind, Painting.of (some language) false rest = some behind ∧
      Painting.of (some language) true (front ++ closing ++ rest) =
        some ⟨List.replicate (front.length + closing.length) .blockComment ++ behind.styles, behind.opens⟩ := by
  have marked := closingMarked given filled
  have closes : Closes closing (front ++ closing ++ rest) front.length := by
    refine ⟨rest,?_⟩
    rw [List.append_assoc,List.drop_left]
  obtain ⟨last,run,rfl⟩ := commentStrokes given filled
    (.ended closes fun k less there => Nat.not_le_of_lt less (first k there)) true false
  rw [← List.length_append,List.drop_left] at run
  obtain ⟨styles,final,later⟩ := strokesExist marked (.start false) rest
  have whole := strokesPainting marked true (by rw [given]; exact strokesTrans run later)
  rw [List.length_append] at whole
  exact ⟨_,strokesPainting marked false later,whole⟩

end
end Language

namespace Document

section
variable {doc : Document} (settled : doc.Settled)
include settled

theorem carriedPainting {k : Nat} {above line : Line} (there : doc.lines[k]? = some above)
    (opened : above.opens = true) (found : doc.lines[k + 1]? = some line) :
    Painting.of doc.language true line.shown = some ⟨line.styles, line.opens⟩ := by
  have carried : opensBefore false doc.lines (k + 1) = true := by
    rw [opensBefore,there]
    exact opened
  have full := settledLine settled found
  rw [carried] at full
  exact full.painted

section
variable {language : Language} {opening closing : Bytes} {i : Nat} {first : Line}
  (spoken : doc.language = some language) (given : language.blockComment = some (opening, closing))
  (filled : closing ≠ []) (begins : doc.lines[i]? = some first) (opened : first.opens = true)
include spoken given filled begins opened

theorem commentStaysOpen {n : Nat}
    (unclosed : ∀ k line, i < k → k ≤ i + n → doc.lines[k]? = some line → ¬ closing <:+: line.shown)
    {line : Line} (found : doc.lines[i + n]? = some line) : line.opens = true := by
  induction n generalizing line with
  | zero =>
    cases Option.some.inj (begins.symm.trans found)
    exact opened
  | succ n ih =>
    have inside : i + n < doc.lines.length := Nat.lt_of_succ_lt (insideFound found)
    have there := List.getElem?_eq_getElem inside
    have above := ih (fun k line after before => unclosed k line after (by omega)) there
    have painted := carriedPainting settled there above found
    have never := unclosed _ line (by omega) (Nat.le_refl _) found
    rw [spoken,Language.unclosedPainting given filled (not_exists.mp (mt closesSomewhere.mpr never))] at painted
    exact (Painting.mk.inj (Option.some.inj painted)).2.symm

theorem commentCarried {j k : Nat} {line : Line} (after : i < k) (before : k ≤ j)
    (unclosed : ∀ k line, i < k → k < j → doc.lines[k]? = some line → ¬ closing <:+: line.shown)
    (found : doc.lines[k]? = some line) :
    Painting.of (some language) true line.shown = some ⟨line.styles, line.opens⟩ := by
  obtain ⟨n,rfl⟩ := Nat.exists_eq_add_of_lt after
  have inside : i + n < doc.lines.length := Nat.lt_of_succ_lt (insideFound found)
  have there := List.getElem?_eq_getElem inside
  have above := commentStaysOpen settled spoken given filled begins opened
    (fun k line after within => unclosed k line after (by omega)) there
  rw [← spoken]
  exact carriedPainting settled there above found

end
end

theorem commentSpansLines {doc : Document} {language : Language} {opening closing : Bytes} {i j : Nat}
    {first : Line} (reached : doc.Reached) (spoken : doc.language = some language)
    (given : language.blockComment = some (opening, closing)) (filled : closing ≠ [])
    (begins : doc.lines[i]? = some first) (opened : first.opens = true) (order : i < j)
    (unclosed : ∀ k line, i < k → k < j → doc.lines[k]? = some line → ¬ closing <:+: line.shown) :
    (∀ k line, i < k → k < j → doc.lines[k]? = some line →
      line.styles = List.replicate line.shown.length .blockComment ∧ line.opens = true) ∧
    ∀ line, doc.lines[j]? = some line → closing <:+: line.shown →
      ∃ front rest behind, line.shown = front ++ closing ++ rest ∧
        (∀ k, Closes closing line.shown k → front.length ≤ k) ∧
        Painting.of doc.language false rest = some behind ∧
        line.styles = List.replicate (front.length + closing.length) .blockComment ++ behind.styles ∧
        line.opens = behind.opens := by
  have settled := reachedSettled reached
  constructor
  · intro k line after before found
    have painted := commentCarried settled spoken given filled begins opened after (Nat.le_of_lt before)
      unclosed found
    have never := not_exists.mp (mt closesSomewhere.mpr (unclosed k line after before found))
    rw [Language.unclosedPainting given filled never] at painted
    obtain ⟨styles,opens⟩ := Painting.mk.inj (Option.some.inj painted)
    exact ⟨styles.symm,opens.symm⟩
  · intro line found occurs
    have painted := commentCarried settled spoken given filled begins opened order (Nat.le_refl j)
      unclosed found
    obtain ⟨front,rest,cut,least⟩ := firstClosing filled occurs
    rw [cut] at painted least
    obtain ⟨behind,alone,whole⟩ := Language.closedPainting given filled least
    obtain ⟨styles,opens⟩ := Painting.mk.inj (Option.some.inj (painted.symm.trans whole))
    exact ⟨front,rest,behind,cut,cut ▸ least,spoken ▸ alone,styles,opens⟩

theorem commentSpansLinesToKeyword :
    let sample : Language :=
      { name := "sample", keywords := [[105, 102]], blockComment := some ([47, 42], [42, 47]) }
    ∃ origin doc second third, ofBytes [47, 42, 10, 105, 102, 10, 42, 42, 47, 105, 102] 4 = .ok origin ∧
      [Edit.setLanguage (some sample)].foldlM follow origin = .ok doc ∧
      doc.lines[1]? = some second ∧ second.content = [105, 102] ∧
      second.styles = [.blockComment, .blockComment] ∧ second.opens = true ∧
      doc.lines[2]? = some third ∧ third.content = [42, 42, 47, 105, 102] ∧
      third.styles = [.blockComment, .blockComment, .blockComment, .keyword, .keyword] ∧
      third.opens = false := by
  intro sample
  obtain ⟨origin,doc,first,second,third,read,ran,spoken,begins,opened,between,text,shown,below,last,whole⟩ :
      ∃ origin doc first second third,
      ofBytes [47, 42, 10, 105, 102, 10, 42, 42, 47, 105, 102] 4 = .ok origin ∧
      [Edit.setLanguage (some sample)].foldlM follow origin = .ok doc ∧ doc.language = some sample ∧
      doc.lines[0]? = some first ∧ first.opens = true ∧
      doc.lines[1]? = some second ∧ second.content = [105, 102] ∧ second.shown = [105, 102] ∧
      doc.lines[2]? = some third ∧ third.content = [42, 42, 47, 105, 102] ∧
      third.shown = [42, 42, 47, 105, 102] :=
    ⟨_,_,_,_,_,rfl,rfl,rfl,rfl,rfl,rfl,rfl,rfl,rfl,rfl,rfl⟩
  have unclosed : ∀ k line, 0 < k → k < 2 → doc.lines[k]? = some line → ¬ [42, 47] <:+: line.shown := by
    intro k line after before found
    obtain rfl : k = 1 := by omega
    cases Option.some.inj (between.symm.trans found)
    rw [shown]
    decide
  obtain ⟨lines,ending⟩ := commentSpansLines ⟨origin,_,.bytes read,ran⟩ spoken rfl (by decide) begins opened
    Nat.two_pos unclosed
  obtain ⟨inside,carried⟩ := lines 1 second Nat.one_pos (by decide) between
  obtain ⟨front,rest,behind,cut,least,alone,styles,closed⟩ := ending third below (by rw [whole]; decide)
  rw [whole] at cut least
  -- The marker stands at column 1 and not before.
  have near : front.length ≤ 1 := least 1 ⟨[105, 102],rfl⟩
  obtain ⟨rfl,rfl⟩ : front = [42] ∧ rest = [105, 102] := by
    cases front with
    | nil => cases cut
    | cons b front =>
      cases List.length_eq_zero_iff.mp (Nat.le_zero.mp (Nat.le_of_succ_le_succ near))
      cases cut
      exact ⟨rfl,rfl⟩
  have keyword : Painting.of (some sample) false [105, 102] = some ⟨[.keyword, .keyword], false⟩ := by decide
  rw [spoken] at alone
  cases Option.some.inj (alone.symm.trans keyword)
  rw [shown] at inside
  exact ⟨origin,doc,second,third,read,ran,between,text,inside,carried,below,last,styles,closed⟩

end Document
end Vellum
