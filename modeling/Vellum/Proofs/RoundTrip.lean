import Vellum.Proofs.Edits

/-! Lines written out and read in again. A text that is read comes back when it is
written, with a newline at its end; lines that are written come back when they are
read, as long as none of them holds a newline. Reading fails for one reason only,
that some line is too wide to be shown. -/
namespace Vellum

theorem piecesTerminated {α : Type} [BEq α] [LawfulBEq α] {sep : α} {parts : List (List α)}
    (free : ∀ p ∈ parts, sep ∉ p) (rest : List α) :
    pieces sep (parts.flatMap (· ++ [sep]) ++ rest) = parts ++ pieces sep rest := by
  induction parts with
  | nil => rfl
  | cons p parts ih =>
    have first := free p List.mem_cons_self
    have later := ih fun q member => free q (List.mem_cons_of_mem p member)
    rw [List.flatMap_cons,List.append_assoc,List.append_assoc,List.singleton_append,
      piecesAppend first,later,List.cons_append]

theorem piecesEnded {α : Type} [BEq α] [LawfulBEq α] (sep : α) (xs : List α) :
    pieces sep (xs ++ [sep]) = pieces sep xs ++ [[]] := by
  have terminated := piecesTerminated (fun p => @pieceFree α _ _ sep xs p) []
  rwa [piecesJoined,List.append_nil] at terminated

namespace Document

theorem splitLinesEnded (front : Bytes) :
    splitLines (front ++ [Byte.newline]) = pieces Byte.newline front := by
  simp only [splitLines,List.getLast?_concat,if_true,piecesEnded,List.dropLast_concat]

theorem splitLinesOpen {bytes : Bytes} (opened : bytes.getLast? ≠ some Byte.newline) :
    splitLines bytes = pieces Byte.newline bytes := by
  simp only [splitLines,if_neg opened]

theorem splitLinesWritten {contents : List Bytes} (nonempty : contents ≠ [])
    (free : ∀ c ∈ contents, Byte.newline ∉ c) :
    splitLines (contents.flatMap (· ++ [Byte.newline])) = contents := by
  have cut := piecesTerminated free []
  rw [List.append_nil,Spot.terminated Byte.newline nonempty,piecesEnded] at cut
  rw [Spot.terminated Byte.newline nonempty,splitLinesEnded]
  exact List.append_cancel_right cut

theorem ofBytesWritten {doc : Document} {tabStop : Nat} (nonempty : doc.contents ≠ [])
    (free : ∀ c ∈ doc.contents, Byte.newline ∉ c) (fits : ∀ c ∈ doc.contents, Fits tabStop c) :
    ofBytes doc.toBytes tabStop = .ok (holding doc.contents tabStop) := by
  have split : splitLines doc.toBytes = doc.contents := splitLinesWritten nonempty free
  obtain ⟨read,ok⟩ := ofContentsFits.mpr fits
  rw [ofBytes,split,ok,ofContentsOk ok]

theorem writtenSplit (bytes : Bytes) :
    (splitLines bytes).flatMap (· ++ [Byte.newline]) =
      if bytes.getLast? = some Byte.newline then bytes else bytes ++ [Byte.newline] := by
  by_cases closed : bytes.getLast? = some Byte.newline
  · obtain ⟨front,rfl⟩ := List.getLast?_eq_some_iff.mp closed
    rw [splitLinesEnded,piecesJoined,if_pos closed]
  · rw [splitLinesOpen closed,piecesJoined,if_neg closed]

theorem splitLinesFits {tabStop : Nat} {bytes : Bytes} :
    (∀ c ∈ splitLines bytes, Fits tabStop c) ↔ ∀ c ∈ pieces Byte.newline bytes, Fits tabStop c := by
  by_cases closed : bytes.getLast? = some Byte.newline
  · obtain ⟨front,rfl⟩ := List.getLast?_eq_some_iff.mp closed
    have empty : Fits tabStop [] := by simp [Fits,Size.textLimit,Size.limit]
    rw [splitLinesEnded,piecesEnded]
    constructor
    · intro fits c member
      rcases List.mem_append.mp member with inside | last
      · exact fits c inside
      · rw [List.mem_singleton.mp last]
        exact empty
    · intro fits c member
      exact fits c (List.mem_append_left _ member)
  · rw [splitLinesOpen closed]

theorem splitLinesFree {bytes content : Bytes} (member : content ∈ splitLines bytes) :
    Byte.newline ∉ content := by
  by_cases closed : bytes.getLast? = some Byte.newline
  · obtain ⟨front,rfl⟩ := List.getLast?_eq_some_iff.mp closed
    rw [splitLinesEnded] at member
    exact pieceFree member
  · rw [splitLinesOpen closed] at member
    exact pieceFree member

theorem textReadAndWritten (bytes : Bytes) (tabStop : Nat) (doc : Document) :
    ((∃ read, ofBytes bytes tabStop = .ok read) ↔
      ∀ content ∈ pieces Byte.newline bytes, Fits tabStop content) ∧
    (∀ read, ofBytes bytes tabStop = .ok read →
      read.toBytes =
        (if bytes.getLast? = some Byte.newline then bytes else bytes ++ [Byte.newline]) ∧
      ∀ content ∈ read.contents, Byte.newline ∉ content) ∧
    (doc.contents ≠ [] → (∀ content ∈ doc.contents, Byte.newline ∉ content) →
      (∀ content ∈ doc.contents, Fits tabStop content) →
      ∃ again, ofBytes doc.toBytes tabStop = .ok again ∧ again.contents = doc.contents) := by
  refine ⟨?_,?_,?_⟩
  · rw [← splitLinesFits]
    exact ofContentsFits
  · intro read ok
    have contents : read.contents = splitLines bytes := by rw [ofContentsOk ok,contentsOfHolding]
    rw [toBytes,contents]
    exact ⟨writtenSplit bytes,fun content => splitLinesFree⟩
  · intro nonempty free fits
    exact ⟨_,ofBytesWritten nonempty free fits,contentsOfHolding _ _⟩

theorem textReadAndWrittenOpen :
    ∃ read again, ofBytes [97, 10, 10, 10, 9, 98] 4 = .ok read ∧
      read.toBytes = [97, 10, 10, 10, 9, 98, 10] ∧
      ofBytes read.toBytes 8 = .ok again ∧ again.contents = [[97], [], [], [9, 98]] := by
  obtain ⟨read,ok,contents⟩ : ∃ read, ofBytes [97, 10, 10, 10, 9, 98] 4 = .ok read ∧
      read.contents = [[97], [], [], [9, 98]] := ⟨_,rfl,rfl⟩
  obtain ⟨_,_,lines⟩ := textReadAndWritten [97, 10, 10, 10, 9, 98] 8 read
  have back := ((textReadAndWritten [97, 10, 10, 10, 9, 98] 4 read).2.1 read ok).1
  rw [contents] at lines
  obtain ⟨again,reread,same⟩ := lines (by decide) (by decide) (by unfold Fits; decide)
  exact ⟨read,again,ok,back,reread,same⟩

theorem wideTabUnread :
    ¬ ∃ read, ofBytes [9, 97, 98] 18446744073709551615 = .ok read ∧
      read.toBytes = [9, 97, 98, 10] := by
  rintro ⟨read,ok,_⟩
  have refused : ofBytes [9, 97, 98] 18446744073709551615 = .error (.overflow .sum) := rfl
  cases refused.symm.trans ok

end Document
end Vellum
