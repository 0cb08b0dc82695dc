import Mathlib.Data.Nat.Find
import Vellum.Colour.Painting

/-! A line cut into tokens. Which rule begins a token, and how far the token goes, is said
of the text as a whole, without going over it byte by byte. The first rule that applies
decides; whatever the line, there is one way to cut it, and only one. -/
namespace Vellum

structure Token where
  text : Bytes
  style : Style
  deriving DecidableEq, Repr

def Token.styles (token : Token) : List Style := List.replicate token.text.length token.style

theorem tokenStyles {text : Bytes} {n : Nat} {style : Style} (within : n ≤ text.length) :
    (Token.mk (text.take n) style).styles = List.replicate n style := by
  rw [Token.styles,List.length_take,Nat.min_eq_left within]

inductive Zone where
  | comment
  | text (boundary : Bool)
  deriving DecidableEq, Repr

def Zone.behind (closed : Bool) : Zone := if closed then .text true else .comment

inductive TokenRule where
  | block | line | string | control | number | word | plain
  deriving DecidableEq, Repr

def TokenRule.rank : TokenRule → Nat
  | .block => 0
  | .line => 1
  | .string => 2
  | .control => 3
  | .number => 4
  | .word => 5
  | .plain => 6

/- How far something goes that the first of its ends ends, with `width` more bytes for the end
itself. Without an end it takes all of the text. -/
inductive Through (text : Bytes) (Ends : Nat → Prop) (width : Nat) : Nat → Bool → Prop where
  | ended {n : Nat} (here : Ends n) (first : ∀ k, k < n → ¬ Ends k) :
      Through text Ends width (n + width) true
  | unended (never : ∀ k, ¬ Ends k) : Through text Ends width text.length false

def Closes (closing text : Bytes) (k : Nat) : Prop := closing <+: text.drop k

def escaped (text : Bytes) : Nat → Bool
  | 0 => false
  | n + 1 => text[n]? == some 92 && !escaped text n

def EndsString (quote : UInt8) (text : Bytes) (k : Nat) : Prop :=
  text[k]? = some quote ∧ escaped text k = false

def Byte.isNumeric (b : UInt8) : Bool := isDigit b || b == 46

def EndsNumber (text : Bytes) (k : Nat) : Prop := ∃ b, text[k]? = some b ∧ Byte.isNumeric b = false

def BeginsNumber : Bytes → Prop
  | [] => False
  | b :: rest => Byte.isDigit b = true ∨ (b = 45 ∨ b = 43) ∧ ∃ d, rest.head? = some d ∧ Byte.isDigit d = true

structure Standing (text word : Bytes) : Prop where
  front : word <+: text
  bounded : ∀ b, text[word.length]? = some b → Byte.isSeparator b = true

namespace Language

def markers (language : Language) : List Bytes :=
  language.lineComment.toList ++ language.blockComment.toList.flatMap fun pair => [pair.1, pair.2]

/- Words and markers are not empty, and a marker does not begin as a number goes on. -/
structure Regular (language : Language) : Prop where
  words : ∀ w, w ∈ language.keywords ∨ w ∈ language.types → w ≠ []
  markers : ∀ m ∈ language.markers, ∃ b rest, m = b :: rest ∧ Byte.isNumeric b = false

inductive Word (language : Language) (text : Bytes) : Nat → Style → Prop where
  | keyword {w : Bytes} (listed : w ∈ language.keywords) (standing : Standing text w)
      (longest : ∀ v, v ∈ language.keywords ∨ v ∈ language.types → Standing text v → v.length ≤ w.length) :
      Word language text w.length .keyword
  | typeName {w : Bytes} (listed : w ∈ language.types) (standing : Standing text w)
      (longer : ∀ v, v ∈ language.keywords → Standing text v → v.length < w.length)
      (longest : ∀ v, v ∈ language.types → Standing text v → v.length ≤ w.length) :
      Word language text w.length .typeName

def Applies (language : Language) (boundary : Bool) (text : Bytes) : TokenRule → Prop
  | .block => ∃ opening closing, language.blockComment = some (opening, closing) ∧ opening <+: text
  | .line => ∃ marker, language.lineComment = some marker ∧ marker <+: text
  | .string => language.strings = true ∧ (text.head? = some 34 ∨ text.head? = some 39)
  | .control => ∃ b, text.head? = some b ∧ Byte.isControl b = true
  | .number => language.numbers = true ∧ boundary = true ∧ BeginsNumber text
  | .word => boundary = true ∧ ∃ n style, language.Word text n style
  | .plain => True

inductive Cut (language : Language) (text : Bytes) : TokenRule → Nat → Style → Zone → Prop where
  | block {opening closing : Bytes} {n : Nat} {closed : Bool}
      (markers : language.blockComment = some (opening, closing))
      (through : Through (text.drop opening.length) (Closes closing (text.drop opening.length))
        closing.length n closed) :
      Cut language text .block (opening.length + n) .blockComment (.behind closed)
  | line : Cut language text .line text.length .comment (.text false)
  | string {quote : UInt8} {inner : Bytes} {n : Nat} {closed : Bool} (begins : text = quote :: inner)
      (through : Through inner (EndsString quote inner) 1 n closed) :
      Cut language text .string (1 + n) .quoted (.text false)
  | control : Cut language text .control 1 .control (.text false)
  | number {first : UInt8} {rest : Bytes} {n : Nat} {ended : Bool} (begins : text = first :: rest)
      (through : Through rest (EndsNumber rest) 0 n ended) :
      Cut language text .number (1 + n) .number (.text false)
  | word {n : Nat} {style : Style} (word : language.Word text n style) :
      Cut language text .word n style (.text false)
  | plain {b : UInt8} (begins : text.head? = some b) :
      Cut language text .plain 1 .plain (.text (Byte.isSeparator b))

inductive Tokens (language : Language) : Zone → Bytes → List Token → Bool → Prop where
  | done {zone : Zone} : Tokens language zone [] [] (zone == .comment)
  | comment {text opening closing : Bytes} {n : Nat} {closed : Bool} {tokens : List Token}
      {opens : Bool} (some : text ≠ []) (markers : language.blockComment = .some (opening, closing))
      (through : Through text (Closes closing text) closing.length n closed)
      (later : Tokens language (.behind closed) (text.drop n) tokens opens) :
      Tokens language .comment text (⟨text.take n, .blockComment⟩ :: tokens) opens
  | token {boundary : Bool} {text : Bytes} {rule : TokenRule} {n : Nat} {style : Style} {zone : Zone}
      {tokens : List Token} {opens : Bool} (some : text ≠ [])
      (applies : language.Applies boundary text rule)
      (first : ∀ other : TokenRule, other.rank < rule.rank → ¬ language.Applies boundary text other)
      (cut : language.Cut text rule n style zone)
      (later : Tokens language zone (text.drop n) tokens opens) :
      Tokens language (.text boundary) text (⟨text.take n, style⟩ :: tokens) opens

end Language

section
variable {text : Bytes} {Ends : Nat → Prop} {width n : Nat} {ended : Bool}

theorem throughExists (text : Bytes) (Ends : Nat → Prop) (width : Nat) :
    ∃ n ended, Through text Ends width n ended := by
  classical
  by_cases some : ∃ k, Ends k
  · exact ⟨_,_,.ended (Nat.find_spec some) fun _ => Nat.find_min some⟩
  · exact ⟨_,_,.unended (not_exists.mp some)⟩

theorem throughUnique {m : Nat} {other : Bool} (one : Through text Ends width n ended)
    (two : Through text Ends width m other) : n = m ∧ ended = other := by
  cases one with
  | ended here first =>
    cases two with
    | ended there second =>
      rename_i k l
      have notBefore : ¬ l < k := fun less => first l less there
      have notBehind : ¬ k < l := fun less => second k less here
      exact ⟨by omega,rfl⟩
    | unended never => exact absurd here (never _)
  | unended never =>
    cases two with
    | ended there _ => exact absurd there (never _)
    | unended _ => exact ⟨rfl,rfl⟩

theorem throughBounded (inside : ∀ k, Ends k → k + width ≤ text.length)
    (through : Through text Ends width n ended) : n ≤ text.length := by
  cases through with
  | ended here _ => exact inside _ here
  | unended _ => exact Nat.le_refl _

end

theorem closesBounded {closing text : Bytes} (some : closing ≠ []) (k : Nat)
    (closes : Closes closing text k) : k + closing.length ≤ text.length := by
  have long := closes.length_le
  have positive := List.length_pos_iff.mpr some
  rw [List.length_drop] at long
  omega

theorem endsStringBounded {quote : UInt8} {text : Bytes} (k : Nat) (ends : EndsString quote text k) :
    k + 1 ≤ text.length :=
  (List.getElem?_eq_some_iff.mp ends.1).1

theorem endsNumberBounded {text : Bytes} (k : Nat) (ends : EndsNumber text k) :
    k + 0 ≤ text.length := by
  obtain ⟨_,found,_⟩ := ends
  exact Nat.le_of_lt (List.getElem?_eq_some_iff.mp found).1

namespace Language

section
variable {language : Language} {boundary : Bool} {text : Bytes} {rule : TokenRule} {n : Nat}
  {style : Style} {zone : Zone}

theorem wordUnique {m : Nat} {other : Style} (one : language.Word text n style)
    (two : language.Word text m other) : n = m ∧ style = other := by
  cases one with
  | keyword listed standing longest =>
    cases two with
    | keyword listed' standing' longest' =>
      exact ⟨Nat.le_antisymm (longest' _ (.inl listed) standing) (longest _ (.inl listed') standing'),rfl⟩
    | typeName listed' standing' longer' _ =>
      have shorter := longer' _ listed standing
      have notShorter := longest _ (.inr listed') standing'
      omega
  | typeName listed standing longer longest =>
    cases two with
    | keyword listed' standing' longest' =>
      have shorter := longer _ listed' standing'
      have notShorter := longest' _ (.inr listed) standing
      omega
    | typeName listed' standing' _ longest' =>
      exact ⟨Nat.le_antisymm (longest' _ listed standing) (longest _ listed' standing'),rfl⟩

theorem wordBounds (regular : language.Regular) (word : language.Word text n style) :
    0 < n ∧ n ≤ text.length := by
  cases word with
  | keyword listed standing _ =>
    exact ⟨List.length_pos_iff.mpr (regular.words _ (.inl listed)),standing.front.length_le⟩
  | typeName listed standing _ _ =>
    exact ⟨List.length_pos_iff.mpr (regular.words _ (.inr listed)),standing.front.length_le⟩

theorem markerSome (regular : language.Regular) {m : Bytes} (member : m ∈ language.markers) :
    m ≠ [] := by
  obtain ⟨b,rest,rfl,_⟩ := regular.markers m member
  exact nofun

theorem blockMarkers {opening closing : Bytes} (given : language.blockComment = some (opening, closing)) :
    opening ∈ language.markers ∧ closing ∈ language.markers := by
  simp [markers,given]

theorem lineMarker {marker : Bytes} (given : language.lineComment = some marker) :
    marker ∈ language.markers := by
  simp [markers,given]

theorem commentBounds (regular : language.Regular) {opening closing : Bytes} {closed : Bool}
    (some : text ≠ []) (given : language.blockComment = .some (opening, closing))
    (through : Through text (Closes closing text) closing.length n closed) :
    0 < n ∧ n ≤ text.length := by
  have nonempty := markerSome regular (blockMarkers given).2
  have bound := throughBounded (closesBounded nonempty) through
  refine ⟨?_,bound⟩
  cases through with
  | ended _ _ => exact Nat.lt_of_lt_of_le (List.length_pos_iff.mpr nonempty) (Nat.le_add_left _ _)
  | unended _ => exact List.length_pos_iff.mpr some

theorem cutBounds (regular : language.Regular) (some : text ≠ [])
    (applies : language.Applies boundary text rule) (cut : language.Cut text rule n style zone) :
    0 < n ∧ n ≤ text.length := by
  have positive := List.length_pos_iff.mpr some
  cases cut with
  | @block opening closing n closed given through =>
    obtain ⟨_,_,same,front⟩ := applies
    cases Option.some.inj (same.symm.trans given)
    obtain ⟨first,last⟩ := blockMarkers given
    have opened := List.length_pos_iff.mpr (markerSome regular first)
    have bound := throughBounded (closesBounded (markerSome regular last)) through
    have fits := front.length_le
    rw [List.length_drop] at bound
    omega
  | line => exact ⟨positive,Nat.le_refl _⟩
  | string begins through =>
    subst begins
    have bound := throughBounded endsStringBounded through
    simp only [List.length_cons]
    omega
  | control => exact ⟨Nat.one_pos,positive⟩
  | number begins through =>
    subst begins
    have bound := throughBounded endsNumberBounded through
    simp only [List.length_cons]
    omega
  | word word => exact wordBounds regular word
  | plain _ => exact ⟨Nat.one_pos,positive⟩

theorem rankInjective {one other : TokenRule} (same : one.rank = other.rank) : one = other := by
  cases one <;> cases other <;> cases same <;> rfl

theorem firstRule (language : Language) (boundary : Bool) (text : Bytes) :
    ∃ rule, language.Applies boundary text rule ∧
      ∀ other : TokenRule, other.rank < rule.rank → ¬ language.Applies boundary text other := by
  classical
  have some : ∃ rank, ∃ rule : TokenRule, rule.rank = rank ∧ language.Applies boundary text rule :=
    ⟨6,.plain,rfl,trivial⟩
  obtain ⟨rule,rank,applies⟩ := Nat.find_spec some
  refine ⟨rule,applies,?_⟩
  intro other earlier too
  rw [rank] at earlier
  exact Nat.find_min some earlier ⟨other,rfl,too⟩

theorem cutExists (some : text ≠ []) (applies : language.Applies boundary text rule) :
    ∃ n style zone, language.Cut text rule n style zone := by
  obtain ⟨b,rest,rfl⟩ := List.exists_cons_of_ne_nil some
  cases rule with
  | block =>
    obtain ⟨opening,closing,given,_⟩ := applies
    obtain ⟨n,closed,through⟩ := throughExists ((b :: rest).drop opening.length)
      (Closes closing ((b :: rest).drop opening.length)) closing.length
    exact ⟨_,_,_,.block given through⟩
  | line => exact ⟨_,_,_,.line⟩
  | string =>
    obtain ⟨n,closed,through⟩ := throughExists rest (EndsString b rest) 1
    exact ⟨_,_,_,.string rfl through⟩
  | control => exact ⟨_,_,_,.control⟩
  | number =>
    obtain ⟨n,ended,through⟩ := throughExists rest (EndsNumber rest) 0
    exact ⟨_,_,_,.number rfl through⟩
  | word =>
    obtain ⟨_,n,style,word⟩ := applies
    exact ⟨_,_,_,.word word⟩
  | plain => exact ⟨_,_,_,.plain rfl⟩

theorem cutUnique {m : Nat} {other : Style} {next : Zone} (one : language.Cut text rule n style zone)
    (two : language.Cut text rule m other next) : n = m ∧ style = other ∧ zone = next := by
  cases one with
  | block given through =>
    cases two with
    | block given' through' =>
      cases Option.some.inj (given.symm.trans given')
      obtain ⟨rfl,rfl⟩ := throughUnique through through'
      exact ⟨rfl,rfl,rfl⟩
  | line =>
    cases two
    exact ⟨rfl,rfl,rfl⟩
  | string begins through =>
    cases two with
    | string begins' through' =>
      cases begins.symm.trans begins'
      obtain ⟨rfl,_⟩ := throughUnique through through'
      exact ⟨rfl,rfl,rfl⟩
  | control =>
    cases two
    exact ⟨rfl,rfl,rfl⟩
  | number begins through =>
    cases two with
    | number begins' through' =>
      cases begins.symm.trans begins'
      obtain ⟨rfl,_⟩ := throughUnique through through'
      exact ⟨rfl,rfl,rfl⟩
  | word word =>
    cases two with
    | word word' =>
      obtain ⟨rfl,rfl⟩ := wordUnique word word'
      exact ⟨rfl,rfl,rfl⟩
  | plain begins =>
    cases two with
    | plain begins' =>
      cases Option.some.inj (begins.symm.trans begins')
      exact ⟨rfl,rfl,rfl⟩

theorem cutZone (cut : language.Cut text rule n style .comment) :
    ∃ pair, language.blockComment = some pair := by
  generalize same : Zone.comment = zone at cut
  cases cut with
  | block given _ => exact ⟨_,given⟩
  | _ => cases same

end

theorem knownRegular {language : Language} (known : language ∈ known) : language.Regular := by
  have words : Language.known.all (fun l => (l.keywords ++ l.types).all fun w => !w.isEmpty) = true := by
    decide +kernel
  have markers : Language.known.all (fun l => l.markers.all fun m =>
      m.head?.any fun b => !Byte.isNumeric b) = true := by
    decide +kernel
  constructor
  · intro w listed
    have filled := List.all_eq_true.mp (List.all_eq_true.mp words _ known) w (List.mem_append.mpr listed)
    rintro rfl
    cases filled
  · intro m member
    have begins := List.all_eq_true.mp (List.all_eq_true.mp markers _ known) m member
    cases m with
    | nil => cases begins
    | cons b rest => exact ⟨b,rest,rfl,by simpa using begins⟩

theorem tokensExist {language : Language} (regular : language.Regular) {zone : Zone}
    (text : Bytes) (commented : zone = .comment → ∃ pair, language.blockComment = some pair) :
    ∃ tokens opens, language.Tokens zone text tokens opens := by
  induction size : text.length using Nat.strongRecOn generalizing zone text with
  | ind length ih =>
    by_cases empty : text = []
    · subst empty
      exact ⟨_,_,.done⟩
    -- Every token has a byte at least, so what is left behind it is shorter.
    have shorter {n : Nat} (bounds : 0 < n ∧ n ≤ text.length) : (text.drop n).length < length := by
      rw [List.length_drop]
      omega
    cases zone with
    | comment =>
      obtain ⟨⟨opening,closing⟩,given⟩ := commented rfl
      obtain ⟨n,closed,through⟩ := throughExists text (Closes closing text) closing.length
      have bounds := commentBounds regular empty given through
      obtain ⟨tokens,opens,later⟩ := @ih _ (shorter bounds) (.behind closed) (text.drop n)
        (fun _ => ⟨_,given⟩) rfl
      exact ⟨_,_,.comment empty given through later⟩
    | text boundary =>
      obtain ⟨rule,applies,first⟩ := language.firstRule boundary text
      obtain ⟨n,style,zone,cut⟩ := cutExists empty applies
      have bounds := cutBounds regular empty applies cut
      have commented : zone = .comment → ∃ pair, language.blockComment = some pair := by
        rintro rfl
        exact cutZone cut
      obtain ⟨tokens,opens,later⟩ := ih _ (shorter bounds) (text.drop n) commented rfl
      exact ⟨_,_,.token empty applies first cut later⟩

section
variable {language : Language} {zone : Zone} {text : Bytes} {tokens others : List Token}
  {opens opened : Bool}

theorem tokensUnique (one : language.Tokens zone text tokens opens)
    (two : language.Tokens zone text others opened) : others = tokens ∧ opened = opens := by
  induction one generalizing others opened with
  | done =>
    cases two with
    | done => exact ⟨rfl,rfl⟩
    | comment some _ _ _ => exact absurd rfl some
    | token some _ _ _ _ => exact absurd rfl some
  | comment some given through _ ih =>
    cases two with
    | done => exact absurd rfl some
    | comment _ given' through' later' =>
      cases Option.some.inj (given.symm.trans given')
      obtain ⟨rfl,rfl⟩ := throughUnique through through'
      obtain ⟨rfl,rfl⟩ := ih later'
      exact ⟨rfl,rfl⟩
  | @token boundary text rule n style zone tokens opens some applies first cut _ ih =>
    cases two with
    | done => exact absurd rfl some
    | @token _ _ rule' _ _ _ _ _ _ applies' first' cut' later' =>
      have notBefore : ¬ rule'.rank < rule.rank := fun earlier => first rule' earlier applies'
      have notBehind : ¬ rule.rank < rule'.rank := fun earlier => first' rule earlier applies
      cases rankInjective (show rule.rank = rule'.rank by omega)
      obtain ⟨rfl,rfl,rfl⟩ := cutUnique cut cut'
      obtain ⟨rfl,rfl⟩ := ih later'
      exact ⟨rfl,rfl⟩

theorem tokensJoined (cut : language.Tokens zone text tokens opens) :
    tokens.flatMap Token.text = text := by
  induction cut with
  | done => rfl
  | comment _ _ _ _ ih => rw [List.flatMap_cons,ih,List.take_append_drop]
  | token _ _ _ _ _ ih => rw [List.flatMap_cons,ih,List.take_append_drop]

theorem tokensSome (regular : language.Regular) (cut : language.Tokens zone text tokens opens) :
    ∀ token ∈ tokens, token.text ≠ [] := by
  have front {text : Bytes} {n : Nat} (bounds : 0 < n ∧ n ≤ text.length) : text.take n ≠ [] := by
    apply List.ne_nil_of_length_pos
    rw [List.length_take]
    omega
  induction cut with
  | done => exact nofun
  | comment some given through _ ih =>
    exact List.forall_mem_cons.mpr ⟨front (commentBounds regular some given through),ih⟩
  | token some applies _ cut _ ih =>
    exact List.forall_mem_cons.mpr ⟨front (cutBounds regular some applies cut),ih⟩

end
end Language
end Vellum
