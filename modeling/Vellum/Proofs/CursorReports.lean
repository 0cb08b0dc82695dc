import Mathlib.Data.List.Basic
import Mathlib.Data.List.Induction
import Mathlib.Data.List.TakeDrop
import Vellum.Proofs.ScreenReading
import Vellum.Window

/-! Reports of where the cursor stands. A grammar says which bytes are a report and of which
window, and exactly those are read. A report as terminals send it is taken whole, and nothing
of the input behind it, as long as its numbers have no more than 28 digits together; whatever
comes instead, the probe is over after 32 entries. -/
namespace Vellum

namespace Decimal

/- Digits and the number they stand for: each one counts ten times as much as the one behind it. -/
inductive Digits : Bytes → Nat → Prop where
  | one {d : UInt8} (digit : Byte.isDigit d = true) : Digits [d] (d.toNat - 48)
  | more {front : Bytes} {n : Nat} {d : UInt8} (before : Digits front n) (digit : Byte.isDigit d = true) :
      Digits (front ++ [d]) (10 * n + (d.toNat - 48))

inductive Numeral : Bytes → Nat → Prop where
  | bare {text : Bytes} {n : Nat} (digits : Digits text n) : Numeral text n
  | signed {text : Bytes} {n : Nat} (digits : Digits text n) : Numeral (43 :: text) n

theorem valueNext (front : Bytes) (d : UInt8) :
    value (front ++ [d]) = 10 * value front + (d.toNat - 48) := by
  rw [value,List.foldl_append,Nat.mul_comm]
  rfl

theorem digitsExact {text : Bytes} {n : Nat} :
    Digits text n ↔ text ≠ [] ∧ (∀ d ∈ text, Byte.isDigit d = true) ∧ value text = n := by
  constructor
  · intro digits
    induction digits with
    | one digit => exact ⟨by simp,by simpa using digit,by simp [value]⟩
    | @more front n d _ digit ih =>
      obtain ⟨_,all,same⟩ := ih
      refine ⟨by simp,?_,by rw [valueNext,same]⟩
      intro c member
      rcases List.mem_append.mp member with early | last
      · exact all c early
      · cases List.mem_singleton.mp last
        exact digit
  · rintro ⟨some,all,rfl⟩
    induction text using List.reverseRecOn with
    | nil => exact absurd rfl some
    | append_singleton front d ih =>
      have digit := all d (by simp)
      rw [valueNext]
      by_cases empty : front = []
      · subst empty
        simpa [value] using Digits.one digit
      · exact .more (ih empty fun c member => all c (List.mem_append_left _ member)) digit

theorem digitsFree {text : Bytes} {n : Nat} {b : UInt8} (digits : Digits text n)
    (other : Byte.isDigit b = false) : b ∉ text := by
  intro member
  have digit := (digitsExact.mp digits).2.1 b member
  exact Bool.false_ne_true (other.symm.trans digit)

theorem numeralFree {text : Bytes} {n : Nat} {b : UInt8} (numeral : Numeral text n)
    (other : Byte.isDigit b = false) (unsigned : b ≠ 43) : b ∉ text := by
  cases numeral with
  | bare digits => exact digitsFree digits other
  | signed digits => simpa [unsigned] using digitsFree digits other

theorem sizeSigned {digits : Bytes} {n : Nat} :
    size? (43 :: digits) = some n ↔ Digits digits n ∧ n < Size.limit := by
  simp only [size?]
  rw [digitsExact]
  split
  · rename_i unreadable
    refine ⟨by simp,?_⟩
    rintro ⟨⟨some,all,_⟩,_⟩
    rcases unreadable with empty | other
    · exact absurd empty some
    · exact absurd (List.all_eq_true.mpr all) other
  · rename_i readable
    obtain ⟨some,all⟩ := not_or.mp readable
    have all := List.all_eq_true.mp (not_not.mp all)
    split
    · rename_i within
      constructor
      · rintro ⟨⟩
        exact ⟨⟨some,all,rfl⟩,within⟩
      · rintro ⟨⟨_,_,rfl⟩,_⟩
        rfl
    · rename_i beyond
      refine ⟨by simp,?_⟩
      rintro ⟨⟨_,_,rfl⟩,within⟩
      exact absurd within beyond

theorem sizeUnsigned {text : Bytes} (bare : text.head? ≠ some 43) : size? text = size? (43 :: text) := by
  cases text with
  | nil => rfl
  | cons b rest =>
    have other : b ≠ 43 := by simpa using bare
    simp [size?,other]

theorem sizeExact {text : Bytes} {n : Nat} : size? text = some n ↔ Numeral text n ∧ n < Size.limit := by
  by_cases sign : text.head? = some 43
  · obtain ⟨digits,rfl⟩ := List.head?_eq_some_iff.mp sign
    rw [sizeSigned]
    refine and_congr_left fun _ => ⟨.signed,?_⟩
    intro numeral
    cases numeral with
    | bare digits => exact absurd List.mem_cons_self (digitsFree digits rfl)
    | signed digits => exact digits
  · rw [sizeUnsigned sign,sizeSigned]
    refine and_congr_left fun _ => ⟨.bare,?_⟩
    intro numeral
    cases numeral with
    | bare digits => exact digits
    | signed _ => exact absurd rfl sign

theorem spelledDigits (n : Nat) : Digits (Byte.ascii (toString n)) n := by
  rw [Byte.ascii,Nat.toString_eq_repr,Nat.toList_repr]
  have each (c : Char) (member : c ∈ Nat.toDigits 10 n) :=
    Screen.digitByte (Nat.isDigit_of_mem_toDigits (by decide) (by decide) member)
  refine digitsExact.mpr ⟨by simp,?_,?_⟩
  · intro d member
    obtain ⟨c,inside,rfl⟩ := List.mem_map.mp member
    exact (each c inside).1
  · calc value ((Nat.toDigits 10 n).map fun c => c.val.toUInt8)
        = Nat.ofDigitChars 10 (Nat.toDigits 10 n) 0 := by
          rw [value,List.foldl_map,Nat.ofDigitChars]
          refine List.foldl_ext _ _ 0 fun sum c member => ?_
          rw [(each c member).2.1,Nat.mul_comm]
          rfl
      _ = n := Nat.ofDigitChars_toDigits (by decide) (by decide)

theorem spelledSize (n : Nat) :
    size? (Byte.ascii (toString n)) = if n < Size.limit then some n else none := by
  have digits := spelledDigits n
  split
  · rename_i within
    exact sizeExact.mpr ⟨.bare digits,within⟩
  · rename_i beyond
    have bare : (Byte.ascii (toString n)).head? ≠ some 43 := fun sign =>
      digitsFree digits rfl (List.mem_of_head? sign)
    refine Option.eq_none_iff_forall_ne_some.mpr ?_
    intro m read
    obtain ⟨again,within⟩ := sizeSigned.mp (sizeUnsigned bare ▸ read)
    cases (digitsExact.mp digits).2.2.symm.trans (digitsExact.mp again).2.2
    exact beyond within

end Decimal

namespace Window
open Decimal

inductive Numbers : Bytes → Window → Prop where
  | pair {rows cols : Bytes} {w : Window} (height : Numeral rows w.rows) (width : Numeral cols w.cols)
      (tall : w.rows < Size.limit) (wide : w.cols < Size.limit) : Numbers (rows ++ 59 :: cols) w

inductive Report : Bytes → Window → Prop where
  | cut {body : Bytes} {w : Window} (numbers : Numbers body w) : Report (Byte.escape :: 91 :: body) w
  | closed {body : Bytes} {w : Window} (numbers : Numbers body w) :
      Report (Byte.escape :: 91 :: (body ++ [82])) w

theorem reportClosed {body : Bytes} (unclosed : body.getLast? ≠ some 82) :
    report? (Byte.escape :: 91 :: (body ++ [82])) = report? (Byte.escape :: 91 :: body) := by
  simp [report?,Byte.escape,unclosed]

theorem pairUnclosed {rows cols : Bytes} (unclosed : 82 ∉ cols) : (rows ++ 59 :: cols).getLast? ≠ some 82 := by
  intro last
  rw [List.getLast?_append_of_ne_nil _ (List.cons_ne_nil _ _)] at last
  simpa [unclosed] using List.mem_of_getLast? last

theorem reportPair {rows cols : Bytes} (apart : 59 ∉ rows) (unclosed : 82 ∉ cols) :
    report? (Byte.escape :: 91 :: (rows ++ 59 :: cols)) =
      (size? rows).bind fun height => (size? cols).bind fun width => some ⟨height, width⟩ := by
  have before : ∀ b ∈ rows, (b ≠ 59 : Bool) = true := by
    intro b member
    have other : b ≠ 59 := by
      rintro rfl
      exact apart member
    simpa using other
  have split : (rows ++ 59 :: cols).span (· ≠ 59) = (rows, 59 :: cols) := by
    rw [List.span_eq_takeWhile_dropWhile,List.takeWhile_append_of_pos before,List.dropWhile_append_of_pos before]
    simp
  simp only [report?,Byte.escape,if_neg (pairUnclosed unclosed),split]
  rfl

theorem numbersRead {body : Bytes} {w : Window} (numbers : Numbers body w) :
    report? (Byte.escape :: 91 :: body) = some w ∧ body.getLast? ≠ some 82 := by
  cases numbers with
  | pair height width tall wide =>
    have unclosed := numeralFree (b := 82) width rfl (by decide)
    refine ⟨?_,pairUnclosed unclosed⟩
    rw [reportPair (numeralFree height rfl (by decide)) unclosed,sizeExact.mpr ⟨height,tall⟩,
      sizeExact.mpr ⟨width,wide⟩]
    rfl

theorem spanCut {body rows cols : Bytes} {b : UInt8} (cut : body.span (· ≠ 59) = (rows, b :: cols)) :
    body = rows ++ 59 :: cols := by
  rw [List.span_eq_takeWhile_dropWhile] at cut
  obtain ⟨front,back⟩ := Prod.mk.inj cut
  have first := List.head?_dropWhile_not (fun b : UInt8 => decide (b ≠ 59)) body
  rw [back] at first
  have same : b = 59 := by simpa using first
  rw [← same,← front,← back]
  exact List.takeWhile_append_dropWhile.symm

theorem reportExact {reply : Bytes} {w : Window} : report? reply = some w ↔ Report reply w := by
  constructor
  · intro read
    unfold report? at read
    split at read
    · rename_i body
      -- The numbers, without the `R` if there is one.
      generalize inside : (if body.getLast? = some 82 then body.dropLast else body) = inner at read
      have numbers : Numbers inner w := by
        simp only at read
        split at read
        · rename_i rows _ cols cut
          obtain ⟨height,rowsRead,read⟩ := Option.bind_eq_some_iff.mp read
          obtain ⟨width,colsRead,⟨⟩⟩ := Option.bind_eq_some_iff.mp read
          obtain ⟨rowsNumeral,tall⟩ := sizeExact.mp rowsRead
          obtain ⟨colsNumeral,wide⟩ := sizeExact.mp colsRead
          rw [spanCut cut]
          exact .pair rowsNumeral colsNumeral tall wide
        · cases read
      split at inside
      · rename_i closed
        have whole := List.dropLast_append_getLast? 82 closed
        rw [inside] at whole
        rw [← whole]
        exact .closed numbers
      · subst inside
        exact .cut numbers
    · cases read
  · intro report
    cases report with
    | cut numbers => exact (numbersRead numbers).1
    | closed numbers =>
      obtain ⟨read,unclosed⟩ := numbersRead numbers
      rw [reportClosed unclosed,read]

theorem replyWhole {bytes : Bytes} (unclosed : 82 ∉ bytes) {room : Nat} (fits : bytes.length < room) (rest : Script) :
    reply room (.ofBytes bytes ++ some 82 :: rest) = (bytes, rest) := by
  induction bytes generalizing room with
  | nil =>
    cases room with
    | zero => exact absurd fits (Nat.not_lt_zero 0)
    | succ room => rfl
  | cons b bytes ih =>
    obtain ⟨other,later⟩ := not_or.mp (mt List.mem_cons.mpr unclosed)
    cases room with
    | zero => exact absurd fits (Nat.not_lt_zero _)
    | succ room =>
      have taken := ih later (Nat.lt_of_succ_lt_succ fits)
      rw [Script.ofBytes] at taken
      simp only [Script.ofBytes,List.map_cons,List.cons_append,reply,taken,if_neg (Ne.symm other)]

theorem replyTaken (room : Nat) (script : Script) :
    ∃ taken, script = taken ++ (reply room script).2 ∧ taken.length ≤ room := by
  induction script generalizing room with
  | nil => cases room <;> exact ⟨[],rfl,Nat.zero_le _⟩
  | cons entry rest ih =>
    cases room with
    | zero => exact ⟨[],rfl,Nat.le_refl 0⟩
    | succ room =>
      cases entry with
      | none => exact ⟨[none],rfl,Nat.succ_le_succ (Nat.zero_le room)⟩
      | some b =>
        simp only [reply]
        split
        · exact ⟨[some b],rfl,Nat.succ_le_succ (Nat.zero_le room)⟩
        · obtain ⟨taken,shape,few⟩ := ih room
          exact ⟨some b :: taken,congrArg (some b :: ·) shape,Nat.succ_le_succ few⟩

theorem probeLeaves (script : Script) : (probe script).2 = (reply replyRoom script).2 := by
  simp only [probe]
  split <;> rfl

theorem probePositive {script : Script} {w : Window} (found : (probe script).1 = .ok w) : 0 < w.rows ∧ 0 < w.cols := by
  simp only [probe] at found
  split at found
  · split at found
    · rename_i positive
      cases found
      exact positive
    · cases found
  · cases found

def sent (w : Window) : Bytes := Escape.sequence (toString w.rows ++ ";" ++ toString w.cols ++ "R")

def digits (w : Window) : Nat := (toString w.rows).length + (toString w.cols).length

theorem sentSpelled (w : Window) : w.sent = (Byte.escape :: 91 ::
    (Byte.ascii (toString w.rows) ++ 59 :: Byte.ascii (toString w.cols))) ++ [82] := by
  have marks : Byte.ascii "[" = [91] ∧ Byte.ascii ";" = [59] ∧ Byte.ascii "R" = [82] := ⟨rfl,rfl,rfl⟩
  simp only [sent,Escape.sequence,Screen.asciiAppend,marks]
  simp

theorem replySent {w : Window} (rest : Script) (few : w.digits ≤ 28) :
    reply replyRoom (.ofBytes w.sent ++ rest) = (Byte.escape :: 91 ::
      (Byte.ascii (toString w.rows) ++ 59 :: Byte.ascii (toString w.cols)), rest) := by
  have height := digitsFree (b := 82) (spelledDigits w.rows) rfl
  have width := digitsFree (b := 82) (spelledDigits w.cols) rfl
  have length (n : Nat) : (Byte.ascii (toString n)).length = (toString n).length := by
    rw [Byte.ascii,List.length_map,String.length_toList]
  rw [sentSpelled,Script.ofBytes,List.map_append,List.append_assoc]
  apply replyWhole
  · simp only [List.mem_cons,List.mem_append,not_or]
    exact ⟨by decide,by decide,height,by decide,width⟩
  · -- With ESC, the bracket and the semicolon that is 31 bytes, so the `R` is still read.
    unfold digits at few
    simp only [List.length_cons,List.length_append,length,replyRoom]
    omega

theorem probeSent {w : Window} (rest : Script) (tall : 0 < w.rows) (wide : 0 < w.cols) (few : w.digits ≤ 28) :
    probe (.ofBytes w.sent ++ rest) =
      (if w.rows < Size.limit ∧ w.cols < Size.limit then .ok w else .error .windowSize, rest) := by
  have read := reportPair (digitsFree (spelledDigits w.rows) rfl) (digitsFree (spelledDigits w.cols) rfl)
  rw [spelledSize,spelledSize] at read
  simp only [probe,replySent rest few,read]
  by_cases height : w.rows < Size.limit
  · by_cases width : w.cols < Size.limit
    · simp [height,width,tall,wide]
    · simp [height,width]
  · simp [height]

theorem reportsReadExactly :
    (∀ reply w, report? reply = some w ↔ Report reply w) ∧
    (∀ (w : Window) (rest : Script), 0 < w.rows → 0 < w.cols → w.digits ≤ 28 →
      ask .whole (.ofBytes w.sent ++ rest) =
        (if w.rows < Size.limit ∧ w.cols < Size.limit then .ok w else .error .windowSize, question, rest)) ∧
    ∀ uptake script, ∃ taken, script = taken ++ (ask uptake script).2.2 ∧ taken.length ≤ 32 ∧
      ∀ w, (ask uptake script).1 = .ok w → 0 < w.rows ∧ 0 < w.cols := by
  refine ⟨fun _ _ => reportExact,?_,?_⟩
  · intro w rest tall wide few
    simp only [ask,probeSent rest tall wide few]
  · intro uptake script
    cases uptake with
    | whole =>
      obtain ⟨taken,shape,few⟩ := replyTaken replyRoom script
      rw [← probeLeaves] at shape
      exact ⟨taken,shape,few,fun w => probePositive⟩
    | refused text | stuck text => exact ⟨[],rfl,Nat.zero_le _,by simp [ask]⟩

theorem reportsReadExactlyWithKey :
    let w : Window := ⟨18446744073709551615, 12345678⟩
    0 < w.rows ∧ 0 < w.cols ∧ w.digits = 28 ∧
      ask .whole (Script.ofBytes w.sent ++ [some 82, none]) = (.ok w, question, [some 82, none]) := by
  intro w
  have few : w.digits = 28 := by decide
  have read := reportsReadExactly.2.1 w [some 82, none] (by decide) (by decide) (Nat.le_of_eq few)
  rw [if_pos (by simp [w,Size.limit])] at read
  exact ⟨by decide,by decide,few,read⟩

theorem wideReportUnread :
    let w : Window := ⟨18446744073709551616, 1⟩
    w.digits = 21 ∧ ask .whole (Script.ofBytes w.sent ++ []) = (.error .windowSize, question, []) ∧
      ¬ ∀ (w : Window) (rest : Script), 0 < w.rows → 0 < w.cols → w.digits ≤ 28 →
        ask .whole (Script.ofBytes w.sent ++ rest) = (.ok w, question, rest) := by
  intro w
  have many : w.digits = 21 := by decide
  have few : w.digits ≤ 28 := by omega
  have refused : ask .whole (Script.ofBytes w.sent ++ []) = (.error .windowSize, question, []) := by
    rw [ask,probeSent [] (by decide) (by decide) few,if_neg (by simp [w,Size.limit])]
  refine ⟨many,refused,?_⟩
  intro all
  cases refused.symm.trans (all w [] (by decide) (by decide) few)

end Window
end Vellum
