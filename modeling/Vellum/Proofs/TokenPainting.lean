import Vellum.Proofs.Strokes

/-! Painting follows the tokens. The strokes that paint a line know nothing of tokens:
they take comments, strings and numbers byte by byte, and remember in the pen what they
are in. From a pen that stands where a token begins, a run of strokes covers that token
in its style and comes to stand where the next one begins. -/
namespace Vellum

/- The pen before a token. After a number nothing can follow that would carry it on; at the end of
the line only an open comment still matters. -/
inductive Pen.At : Pen → Zone → Bytes → Prop where
  | finished {pen : Pen} {zone : Zone} (same : pen.inBlock = (zone == .comment)) : At pen zone []
  | comment {boundary afterNumber : Bool} {text : Bytes} :
      At ⟨boundary, none, true, afterNumber⟩ .comment text
  | text {boundary afterNumber : Bool} {text : Bytes}
      (fresh : afterNumber = true → ∀ b, text.head? = some b → Byte.isNumeric b = false) :
      At ⟨boundary, none, false, afterNumber⟩ (.text boundary) text

theorem Pen.atText {boundary : Bool} {text : Bytes} :
    At ⟨boundary, none, false, false⟩ (.text boundary) text := by
  refine .text ?_
  intro after
  cases after

section
variable {text : Bytes} {Ends : Nat → Prop} {width n : Nat} {ended : Bool}

theorem throughAtOnce (here : Ends 0) (through : Through text Ends width n ended) :
    n = width ∧ ended = true := by
  have once := @Through.ended text Ends width 0 here nofun
  rw [Nat.zero_add] at once
  exact throughUnique through once

theorem throughNext {b : UInt8} {Later : Nat → Prop} (not : ¬ Ends 0)
    (same : ∀ k, Ends (k + 1) ↔ Later k) (through : Through (b :: text) Ends width n ended) :
    ∃ m, n = 1 + m ∧ Through text Later width m ended := by
  cases through with
  | @ended n here first =>
    cases n with
    | zero => exact absurd here not
    | succ k =>
      refine ⟨k + width,by omega,.ended ((same k).mp here) ?_⟩
      intro j less ends
      exact first (j + 1) (Nat.succ_lt_succ less) ((same j).mpr ends)
  | unended never =>
    refine ⟨text.length,Nat.add_comm _ _,.unended ?_⟩
    intro k ends
    exact never (k + 1) ((same k).mpr ends)

end

theorem escapedNext {b : UInt8} (other : b ≠ 92) (rest : Bytes) (n : Nat) :
    escaped (b :: rest) (n + 1) = escaped rest n := by
  induction n with
  | zero => simp [escaped,other]
  | succ n ih => rw [escaped,ih,List.getElem?_cons_succ,escaped]

theorem escapedPair (c : UInt8) (rest : Bytes) (n : Nat) :
    escaped (92 :: c :: rest) (n + 2) = escaped rest n := by
  induction n with
  | zero => simp [escaped]
  | succ n ih => rw [escaped,ih,List.getElem?_cons_succ,List.getElem?_cons_succ,escaped]

theorem numericPlain {b : UInt8} (numeric : Byte.isNumeric b = true) :
    b ≠ 34 ∧ b ≠ 39 ∧ Byte.isControl b = false := by
  have range : b = 46 ∨ 48 ≤ b ∧ b ≤ 57 := by
    simpa [Byte.isNumeric,Byte.isDigit,or_comm] using numeric
  rcases range with rfl | ⟨least,most⟩
  · decide
  · rw [Byte.printableNat]
    simp only [UInt8.le_iff_toNat_le,UInt8.reduceToNat,ne_eq,← UInt8.toNat_inj] at *
    omega

namespace Language

variable {language : Language}

def Draws (language : Language) (pen : Pen) (text : Bytes) (n : Nat) (style : Style) (zone : Zone) : Prop :=
  ∃ last, language.Strokes pen text (List.replicate n style) last (text.drop n) ∧
    last.At zone (text.drop n)

section
variable {pen next : Pen} {text : Bytes} {width m : Nat} {style : Style} {zone : Zone}

theorem drawsNone (there : pen.At zone text) : language.Draws pen text 0 style zone :=
  ⟨pen,.none,there⟩

theorem drawsNext {b : UInt8} {rest : Bytes} (drawn : language.stroke pen b rest = .of width style next)
    (later : language.Draws (next.past width style) ((b :: rest).drop width) m style zone) :
    language.Draws pen (b :: rest) (width + m) style zone := by
  obtain ⟨last,run,there⟩ := later
  rw [List.drop_drop] at run there
  refine ⟨last,?_,there⟩
  rw [← List.replicate_append_replicate]
  exact .next drawn run

theorem drawsOne {b : UInt8} {rest : Bytes} (drawn : language.stroke pen b rest = .of width style next)
    (there : (next.past width style).At zone ((b :: rest).drop width)) :
    language.Draws pen (b :: rest) width style zone :=
  drawsNext drawn (drawsNone there)

end

section
variable {boundary afterNumber : Bool} {b : UInt8} {rest text : Bytes}

theorem blockAbsent (absent : ¬ language.Applies boundary text .block) :
    language.blockStroke? ⟨boundary, none, false, afterNumber⟩ text = none := by
  unfold blockStroke?
  split
  · rfl
  · rename_i opening closing given
    have missing : ¬ opening <+: text := fun front => absent ⟨opening,closing,given,front⟩
    simp [missing]

theorem lineAbsent (absent : ¬ language.Applies boundary text .line) :
    language.lineStroke? ⟨boundary, none, false, afterNumber⟩ text = none := by
  unfold lineStroke?
  split
  · rfl
  · rename_i marker given
    have missing : ¬ marker <+: text := fun front => absent ⟨marker,given,front⟩
    simp [missing]

theorem stringAbsent (absent : ¬ language.Applies boundary (b :: rest) .string) :
    language.stringStroke? ⟨boundary, none, false, afterNumber⟩ b rest = none := by
  unfold stringStroke?
  split
  · rename_i strings
    have missing : ¬ (b = 34 ∨ b = 39) := by
      intro quote
      exact absent ⟨strings,by simpa using quote⟩
    simp [missing]
  · rfl

theorem numberAbsent (absent : ¬ language.Applies boundary (b :: rest) .number)
    (fresh : afterNumber = true → Byte.isNumeric b = false) :
    language.numberStroke? ⟨boundary, none, false, afterNumber⟩ b rest = none := by
  simp only [numberStroke?]
  apply if_neg
  simp only [Bool.and_eq_true,Bool.or_eq_true,beq_iff_eq,Option.any_eq_true]
  rintro ⟨numbers,(⟨digit,here | after⟩ | ⟨rfl,after⟩) | ⟨⟨sign,here⟩,digit⟩⟩
  · exact absent ⟨numbers,here,.inl digit⟩
  · have numeric : Byte.isNumeric b = true := by
      rw [Byte.isNumeric,digit]
      rfl
    cases numeric.symm.trans (fresh after)
  · exact absurd (fresh after) (by decide)
  · exact absent ⟨numbers,here,.inr ⟨sign,digit⟩⟩

theorem numberPresent (applies : language.Applies boundary (b :: rest) .number) :
    language.numberStroke? ⟨boundary, none, false, afterNumber⟩ b rest =
      some (.of 1 .number ⟨false, none, false, afterNumber⟩) := by
  obtain ⟨numbers,here,begins⟩ := applies
  simp only [numberStroke?]
  apply if_pos
  simp only [Bool.and_eq_true,Bool.or_eq_true,beq_iff_eq,Option.any_eq_true]
  rcases begins with digit | ⟨sign,digit⟩
  · exact ⟨numbers,.inl (.inl ⟨digit,.inl here⟩)⟩
  · exact ⟨numbers,.inr ⟨⟨sign,here⟩,digit⟩⟩

theorem wordAbsent (absent : ¬ language.Applies boundary text .word) :
    language.wordStroke? ⟨boundary, none, false, afterNumber⟩ text = none := by
  unfold wordStroke?
  split
  · rename_i here
    cases found : language.word? text with
    | none => rfl
    | some pair => exact absurd ⟨here,pair.1,pair.2,wordExact.mp found⟩ absent
  · rfl

theorem strokePrintable (absent : ∀ other : TokenRule, other.rank < TokenRule.number.rank →
      ¬ language.Applies boundary (b :: rest) other) :
    language.stroke ⟨boundary, none, false, afterNumber⟩ b rest =
      (language.numberStroke? ⟨boundary, none, false, afterNumber⟩ b rest).getD
        ((language.wordStroke? ⟨boundary, none, false, afterNumber⟩ (b :: rest)).getD
          (.of 1 .plain ⟨Byte.isSeparator b, none, false, afterNumber⟩)) := by
  have printable : ¬ Byte.isControl b = true :=
    fun control => absent .control (by decide) ⟨b,rfl,control⟩
  rw [stroke,blockAbsent (absent .block (by decide)),lineAbsent (absent .line (by decide)),
    stringAbsent (absent .string (by decide)),if_neg printable]
  rfl

end

section
variable {opening closing text : Bytes} {n : Nat} {closed : Bool}

theorem commentStroke {pen : Pen} (given : language.blockComment = some (opening, closing))
    (inside : pen.inBlock = true) (b : UInt8) (rest : Bytes) :
    language.stroke pen b rest =
      if closing <+: b :: rest then
        .of closing.length .blockComment { pen with inBlock := false, boundary := true }
      else .of 1 .blockComment pen := by
  by_cases closes : closing <+: b :: rest
  · simp [stroke,blockStroke?,given,inside,closes]
  · simp [stroke,blockStroke?,given,inside,closes]

/- Within a comment every stroke covers one byte, until the closing marker stands next. Behind the
marker the pen is as at the start of a line. -/
theorem commentStrokes (given : language.blockComment = some (opening, closing)) (filled : closing ≠ [])
    (through : Through text (Closes closing text) closing.length n closed)
    (boundary afterNumber : Bool) :
    ∃ last, language.Strokes ⟨boundary, none, true, afterNumber⟩ text (List.replicate n .blockComment)
      last (text.drop n) ∧ if closed then last = .start false else last.inBlock = true := by
  induction text generalizing n afterNumber with
  | nil =>
    cases through with
    | ended here _ =>
      have bound := closesBounded filled _ here
      have positive := List.length_pos_iff.mpr filled
      simp only [List.length_nil] at bound
      omega
    | unended _ => exact ⟨_,.none,rfl⟩
  | cons b rest ih =>
    have drawn := @commentStroke language opening closing ⟨boundary, none, true, afterNumber⟩ given rfl b rest
    by_cases closes : closing <+: b :: rest
    · rw [if_pos closes] at drawn
      obtain ⟨rfl,rfl⟩ := throughAtOnce (show Closes closing (b :: rest) 0 from closes) through
      have run := Strokes.next drawn .none
      rw [List.append_nil] at run
      refine ⟨_,run,?_⟩
      simp only [if_true,Stroke.of,Pen.past,if_neg (mt List.length_eq_zero_iff.mp filled)]
      rfl
    · rw [if_neg closes] at drawn
      have first : ¬ Closes closing (b :: rest) 0 := closes
      obtain ⟨m,rfl,later⟩ := throughNext first (fun _ => Iff.rfl) through
      obtain ⟨last,run,ends⟩ := ih later false
      refine ⟨last,?_,ends⟩
      rw [← List.replicate_append_replicate,← List.drop_drop]
      exact .next drawn run

theorem commentDrawn (regular : language.Regular)
    (given : language.blockComment = some (opening, closing))
    (through : Through text (Closes closing text) closing.length n closed)
    (boundary afterNumber : Bool) :
    language.Draws ⟨boundary, none, true, afterNumber⟩ text n .blockComment (.behind closed) := by
  obtain ⟨last,run,ends⟩ := commentStrokes given (markerSome regular (blockMarkers given).2) through
    boundary afterNumber
  refine ⟨last,run,?_⟩
  cases through with
  | ended _ _ =>
    subst ends
    exact Pen.atText
  | unended _ =>
    rw [List.drop_length]
    exact .finished ends

end

section
variable {boundary afterNumber : Bool} {b quote : UInt8} {rest text : Bytes} {n : Nat} {ended : Bool}

theorem stringStroke (strings : language.strings = true) :
    language.stroke ⟨boundary, some quote, false, afterNumber⟩ b rest =
      if b = 92 ∧ rest ≠ [] then .of 2 .quoted ⟨boundary, some quote, false, afterNumber⟩
      else .of 1 .quoted ⟨boundary, if b = quote then none else some quote, false, afterNumber⟩ := by
  have block : language.blockStroke? ⟨boundary, some quote, false, afterNumber⟩ (b :: rest) = none := by
    unfold blockStroke?
    split <;> rfl
  have line : language.lineStroke? ⟨boundary, some quote, false, afterNumber⟩ (b :: rest) = none := by
    unfold lineStroke?
    split <;> rfl
  rw [stroke,block,line,stringStroke?,if_pos strings]
  by_cases pair : b = 92 ∧ rest ≠ []
  · simp only [if_pos pair,Option.getD_none,Option.getD_some]
  · simp only [if_neg pair,Option.getD_none,Option.getD_some]
    split <;> rfl

theorem endsStringNext (other : b ≠ 92) (k : Nat) :
    EndsString quote (b :: rest) (k + 1) ↔ EndsString quote rest k := by
  rw [EndsString,List.getElem?_cons_succ,escapedNext other,EndsString]

theorem endsStringPair (k : Nat) :
    EndsString quote (92 :: b :: rest) (k + 2) ↔ EndsString quote rest k := by
  rw [EndsString,List.getElem?_cons_succ,List.getElem?_cons_succ,escapedPair,EndsString]

theorem stringDrawn (strings : language.strings = true) (other : quote ≠ 92)
    (through : Through text (EndsString quote text) 1 n ended) (afterNumber : Bool) :
    language.Draws ⟨false, some quote, false, afterNumber⟩ text n .quoted (.text false) := by
  induction size : text.length using Nat.strongRecOn generalizing text n afterNumber with
  | ind length ih =>
    match text, through with
    | [], through =>
      cases through with
      | ended here _ => cases here.1
      | unended _ => exact drawsNone (.finished rfl)
    | b :: rest, through =>
      have drawn := @stringStroke language false afterNumber b quote rest strings
      by_cases backslash : b = 92
      · subst backslash
        have first : ¬ EndsString quote (92 :: rest) 0 :=
          fun ends => other (Option.some.inj ends.1).symm
        obtain ⟨m,rfl,later⟩ := throughNext first (fun _ => Iff.rfl) through
        match rest, later with
        | [], later =>
          cases later with
          | ended here _ => cases here.1
          | unended _ =>
            rw [if_neg (fun pair => pair.2 rfl),if_neg other.symm] at drawn
            exact drawsOne drawn (.finished rfl)
        | c :: rest, later =>
          have second : ¬ EndsString quote (92 :: c :: rest) 1 := fun ends => Bool.noConfusion ends.2
          obtain ⟨k,rfl,behind⟩ := throughNext second endsStringPair later
          rw [if_pos ⟨rfl,nofun⟩] at drawn
          have shorter : rest.length < length := by
            rw [← size]
            exact Nat.lt_add_of_pos_right Nat.two_pos
          rw [← Nat.add_assoc]
          exact drawsNext drawn (ih _ shorter behind false rfl)
      · rw [if_neg (fun pair => backslash pair.1)] at drawn
        by_cases ends : b = quote
        · subst ends
          obtain ⟨rfl,rfl⟩ := throughAtOnce (show EndsString b (b :: rest) 0 from ⟨rfl,rfl⟩) through
          rw [if_pos rfl] at drawn
          exact drawsOne drawn Pen.atText
        · rw [if_neg ends] at drawn
          have first : ¬ EndsString quote (b :: rest) 0 := fun here => ends (Option.some.inj here.1)
          obtain ⟨m,rfl,later⟩ := throughNext first (endsStringNext backslash) through
          have shorter : rest.length < length := by
            rw [← size]
            exact Nat.lt_succ_self _
          exact drawsNext drawn (ih _ shorter later false rfl)

end

section
variable {boundary : Bool} {b : UInt8} {rest text : Bytes}

theorem numericUnmarked (regular : language.Regular) (numeric : Byte.isNumeric b = true)
    (other : TokenRule) (before : other.rank < TokenRule.number.rank) :
    ¬ language.Applies boundary (b :: rest) other := by
  obtain ⟨double,single,printable⟩ := numericPlain numeric
  have unmarked {m : Bytes} (member : m ∈ language.markers) : ¬ m <+: b :: rest := by
    intro front
    obtain ⟨c,more,rfl,begins⟩ := regular.markers m member
    rw [(List.cons_prefix_cons.mp front).1] at begins
    cases numeric.symm.trans begins
  cases other with
  | block =>
    rintro ⟨opening,closing,given,front⟩
    exact unmarked (blockMarkers given).1 front
  | line =>
    rintro ⟨marker,given,front⟩
    exact unmarked (lineMarker given) front
  | string =>
    rintro ⟨_,quote | quote⟩
    · exact double (Option.some.inj quote)
    · exact single (Option.some.inj quote)
  | control =>
    rintro ⟨_,⟨⟩,control⟩
    cases control.symm.trans printable
  | number | word | plain => exact absurd before (by decide)

theorem numberGoesOn (regular : language.Regular) (numbers : language.numbers = true)
    (numeric : Byte.isNumeric b = true) :
    language.stroke ⟨false, none, false, true⟩ b rest = .of 1 .number ⟨false, none, false, true⟩ := by
  have number : language.numberStroke? ⟨false, none, false, true⟩ b rest =
      some (.of 1 .number ⟨false, none, false, true⟩) := by
    simp only [numberStroke?]
    apply if_pos
    simpa [numbers,Byte.isNumeric] using numeric
  rw [strokePrintable (numericUnmarked regular numeric),number]
  rfl

theorem numberDrawn (regular : language.Regular) (numbers : language.numbers = true) {n : Nat}
    {ended : Bool} (through : Through text (EndsNumber text) 0 n ended) :
    language.Draws ⟨false, none, false, true⟩ text n .number (.text false) := by
  induction text generalizing n with
  | nil =>
    cases through with
    | ended here _ =>
      obtain ⟨_,found,_⟩ := here
      cases found
    | unended _ => exact drawsNone (.finished rfl)
  | cons b rest ih =>
    cases numeric : Byte.isNumeric b with
    | true =>
      have first : ¬ EndsNumber (b :: rest) 0 := by
        rintro ⟨_,⟨⟩,other⟩
        cases numeric.symm.trans other
      obtain ⟨m,rfl,later⟩ := throughNext first (fun _ => Iff.rfl) through
      exact drawsNext (numberGoesOn regular numbers numeric) (ih later)
    | false =>
      obtain ⟨rfl,rfl⟩ := throughAtOnce (show EndsNumber (b :: rest) 0 from ⟨b,rfl,numeric⟩) through
      apply drawsNone
      refine .text ?_
      rintro _ _ ⟨⟩
      exact numeric

end

section
variable {boundary afterNumber : Bool} {text : Bytes} {rule : TokenRule} {n : Nat} {style : Style}
  {zone : Zone}

theorem cutDrawn (regular : language.Regular) (some : text ≠ [])
    (fresh : afterNumber = true → ∀ b, text.head? = .some b → Byte.isNumeric b = false)
    (applies : language.Applies boundary text rule)
    (first : ∀ other : TokenRule, other.rank < rule.rank → ¬ language.Applies boundary text other)
    (cut : language.Cut text rule n style zone) :
    language.Draws ⟨boundary, none, false, afterNumber⟩ text n style zone := by
  obtain ⟨b,rest,rfl⟩ := List.exists_cons_of_ne_nil some
  cases cut with
  | @block opening closing n closed given through =>
    obtain ⟨_,_,same,front⟩ := applies
    cases Option.some.inj (same.symm.trans given)
    have nonempty := markerSome regular (blockMarkers given).1
    have drawn : language.stroke ⟨boundary, none, false, afterNumber⟩ b rest =
        .of opening.length .blockComment ⟨boundary, none, true, afterNumber⟩ := by
      simp [stroke,blockStroke?,given,front]
    apply drawsNext drawn
    rw [Pen.past,if_neg (mt List.length_eq_zero_iff.mp nonempty)]
    exact commentDrawn regular given through boundary false
  | line =>
    obtain ⟨marker,given,front⟩ := applies
    have drawn : language.stroke ⟨boundary, none, false, afterNumber⟩ b rest =
        .of (b :: rest).length .comment ⟨boundary, none, false, afterNumber⟩ := by
      rw [stroke,blockAbsent (first .block (by decide))]
      simp [lineStroke?,given,front]
    apply drawsOne drawn
    rw [List.drop_length]
    exact .finished rfl
  | string begins through =>
    cases begins
    obtain ⟨strings,quote⟩ := applies
    have quote : b = 34 ∨ b = 39 := by simpa using quote
    have drawn : language.stroke ⟨boundary, none, false, afterNumber⟩ b rest =
        .of 1 .quoted ⟨false, .some b, false, afterNumber⟩ := by
      rw [stroke,blockAbsent (first .block (by decide)),lineAbsent (first .line (by decide))]
      simp [stringStroke?,strings,quote]
    have other : b ≠ 92 := by
      rcases quote with rfl | rfl <;> decide
    exact drawsNext drawn (stringDrawn strings other through false)
  | control =>
    obtain ⟨_,⟨⟩,control⟩ := applies
    have drawn : language.stroke ⟨boundary, none, false, afterNumber⟩ b rest =
        .of 1 .control ⟨false, none, false, afterNumber⟩ := by
      rw [stroke,blockAbsent (first .block (by decide)),lineAbsent (first .line (by decide)),
        stringAbsent (first .string (by decide)),if_pos control]
      rfl
    exact drawsOne drawn Pen.atText
  | number begins through =>
    cases begins
    have drawn : language.stroke ⟨boundary, none, false, afterNumber⟩ b rest =
        .of 1 .number ⟨false, none, false, afterNumber⟩ := by
      rw [strokePrintable first,numberPresent applies]
      rfl
    exact drawsNext drawn (numberDrawn regular applies.1 through)
  | word word =>
    have drawn : language.stroke ⟨boundary, none, false, afterNumber⟩ b rest =
        .of n style ⟨false, none, false, afterNumber⟩ := by
      rw [strokePrintable (fun _ before => first _ (Nat.lt_trans before (by decide))),
        numberAbsent (first .number (by decide)) (fun after => fresh after b rfl),
        wordStroke?,if_pos applies.1,wordExact.mpr word]
      rfl
    apply drawsOne drawn
    rw [Pen.past,if_neg (Nat.ne_of_gt (wordBounds regular word).1)]
    cases word <;> exact Pen.atText
  | plain begins =>
    cases begins
    have drawn : language.stroke ⟨boundary, none, false, afterNumber⟩ b rest =
        .of 1 .plain ⟨Byte.isSeparator b, none, false, afterNumber⟩ := by
      rw [strokePrintable (fun _ before => first _ (Nat.lt_trans before (by decide))),
        numberAbsent (first .number (by decide)) (fun after => fresh after b rfl),
        wordAbsent (first .word (by decide))]
      rfl
    exact drawsOne drawn Pen.atText

end

theorem drawsThen {pen : Pen} {text : Bytes} {n : Nat} {style : Style} {zone : Zone}
    {styles : List Style} {opens : Bool} (drawn : language.Draws pen text n style zone)
    (within : n ≤ text.length)
    (later : ∀ pen : Pen, pen.At zone (text.drop n) → ∃ last,
      language.Strokes pen (text.drop n) styles last [] ∧ last.inBlock = opens) :
    ∃ last, language.Strokes pen text ((Token.mk (text.take n) style).styles ++ styles) last [] ∧
      last.inBlock = opens := by
  obtain ⟨middle,run,there⟩ := drawn
  obtain ⟨last,rest,same⟩ := later middle there
  rw [tokenStyles within]
  exact ⟨last,strokesTrans run rest,same⟩

theorem tokensDrawn (regular : language.Regular) {zone : Zone} {text : Bytes} {tokens : List Token}
    {opens : Bool} (cut : language.Tokens zone text tokens opens) {pen : Pen} (there : pen.At zone text) :
    ∃ last, language.Strokes pen text (tokens.flatMap Token.styles) last [] ∧ last.inBlock = opens := by
  induction cut generalizing pen with
  | done =>
    refine ⟨pen,.none,?_⟩
    cases there with
    | finished same => exact same
    | comment => rfl
    | text _ => rfl
  | comment some given through _ ih =>
    cases there with
    | finished _ => exact absurd rfl some
    | comment =>
      exact drawsThen (commentDrawn regular given through _ _) (commentBounds regular some given through).2
        fun _ => ih
  | token some applies first cut _ ih =>
    cases there with
    | finished _ => exact absurd rfl some
    | text fresh =>
      exact drawsThen (cutDrawn regular some fresh applies first cut) (cutBounds regular some applies cut).2
        fun _ => ih

def startZone (language : Language) (carried : Bool) : Zone :=
  if carried && language.blockComment.isSome then .comment else .text true

theorem startAt (language : Language) (carried : Bool) (text : Bytes) :
    (Pen.start (carried && language.blockComment.isSome)).At (language.startZone carried) text := by
  unfold startZone
  cases carried && language.blockComment.isSome with
  | true => exact .comment
  | false => exact Pen.atText

theorem startCommented {carried : Bool} (comment : language.startZone carried = .comment) :
    ∃ pair, language.blockComment = some pair := by
  unfold startZone at comment
  split at comment
  · rename_i both
    exact Option.isSome_iff_exists.mp (Bool.and_eq_true_iff.mp both).2
  · cases comment

theorem tokensPainting (regular : language.Regular) {carried : Bool} {shown : Bytes} {tokens : List Token}
    {opens : Bool} (cut : language.Tokens (language.startZone carried) shown tokens opens) :
    Painting.of (some language) carried shown = some ⟨tokens.flatMap Token.styles, opens⟩ := by
  obtain ⟨last,run,rfl⟩ := tokensDrawn regular cut (startAt language carried shown)
  exact strokesPainting (filledMarked (regularFilled regular)) carried run

theorem paintedByTokens (regular : language.Regular) (carried : Bool) (shown : Bytes) :
    ∃ tokens opens, language.Tokens (language.startZone carried) shown tokens opens ∧
      (∀ others opened, language.Tokens (language.startZone carried) shown others opened →
        others = tokens ∧ opened = opens) ∧
      tokens.flatMap Token.text = shown ∧ (∀ token ∈ tokens, token.text ≠ []) ∧
      Painting.of (some language) carried shown = some ⟨tokens.flatMap Token.styles, opens⟩ := by
  obtain ⟨tokens,opens,cut⟩ := tokensExist regular shown startCommented
  exact ⟨tokens,opens,cut,fun _ _ => tokensUnique cut,tokensJoined cut,tokensSome regular cut,
    tokensPainting regular cut⟩

theorem paintedByTokensCarried :
    let shown := Byte.ascii "*/if \"\\\"\" -1.5x/*"
    c.Regular ∧ ∃ tokens, c.Tokens .comment shown tokens true ∧ tokens.flatMap Token.text = shown ∧
      tokens.flatMap Token.styles = [.blockComment, .blockComment, .keyword, .keyword, .plain, .quoted,
        .quoted, .quoted, .quoted, .plain, .number, .number, .number, .number, .plain, .blockComment,
        .blockComment] := by
  intro shown
  have regular : c.Regular := knownRegular List.mem_cons_self
  obtain ⟨tokens,opens,cut,_,joined,_,painted⟩ := paintedByTokens regular true shown
  have evaluated : Painting.of (some c) true shown = some ⟨[.blockComment, .blockComment, .keyword, .keyword,
      .plain, .quoted, .quoted, .quoted, .quoted, .plain, .number, .number, .number, .number, .plain,
      .blockComment, .blockComment], true⟩ := by
    decide +kernel
  obtain ⟨styles,rfl⟩ := Painting.mk.inj (Option.some.inj (painted.symm.trans evaluated))
  exact ⟨regular,tokens,cut,joined,styles⟩

end Language
end Vellum
