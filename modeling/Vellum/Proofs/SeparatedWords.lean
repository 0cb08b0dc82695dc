import Vellum.Proofs.TokenPainting

/-! Words between separators. The tokens of a line come to every place that nothing engulfs
and that has a separator before it: a separator ends its token. If it has a glyph, a word
may begin behind it, and the word that stands there is painted whole. Behind a control
byte no word begins, though some of them separate words on the other side. -/
namespace Vellum

def Style.engulfs : Style → Bool
  | .comment | .blockComment | .quoted | .number => true
  | _ => false

/- A place that nothing engulfs, at the start or behind a separator that is not part of a number. -/
structure Parted (text : Bytes) (styles : List Style) (i : Nat) : Prop where
  inside : i < text.length
  free : ∀ style, styles[i]? = some style → style.engulfs = false
  separated : ∀ j c, i = j + 1 → text[j]? = some c → Byte.isSeparator c = true
  unnumbered : ∀ j, i = j + 1 → styles[j]? ≠ some .number

theorem partedBehind {before rest : Bytes} {styles : List Style} {n : Nat} (begins : rest ≠ []) (positive : 0 < n)
    (separated : ∀ c, before.getLast? = some c → Byte.isSeparator c = true)
    (free : ∀ style ∈ (styles.drop before.length).take n, style.engulfs = false)
    (unnumbered : (styles.take before.length).getLast? ≠ some .number) :
    Parted (before ++ rest) styles before.length := by
  constructor
  · rw [List.length_append]
    exact Nat.lt_add_of_pos_right (List.length_pos_iff.mpr begins)
  · intro style here
    apply free
    apply List.mem_of_getElem? (i := 0)
    rw [List.getElem?_take_of_lt positive,List.getElem?_drop]
    exact here
  · intro j c last found
    rw [List.getElem?_append_left (by omega)] at found
    apply separated
    rw [List.getLast?_eq_getElem?,last]
    exact found
  · intro j last here
    apply unnumbered
    rw [last,List.getLast?_take,if_neg (Nat.succ_ne_zero j),Nat.add_sub_cancel,here]
    rfl

theorem partedLater {text : Bytes} {styles : List Style} {n i : Nat} {style : Style}
    (parted : Parted text (List.replicate n style ++ styles) (n + i)) : Parted (text.drop n) styles i := by
  have shifted (j : Nat) : (List.replicate n style ++ styles)[n + j]? = styles[j]? := by
    rw [List.getElem?_append_right (by simp),List.length_replicate,Nat.add_sub_cancel_left]
  constructor
  · have inside := parted.inside
    rw [List.length_drop]
    omega
  · intro other here
    rw [← shifted] at here
    exact parted.free other here
  · intro j c next found
    rw [List.getElem?_drop] at found
    exact parted.separated (n + j) c (by omega) found
  · intro j next
    rw [← shifted]
    exact parted.unnumbered (n + j) (by omega)

theorem closingLast {closing text : Bytes} {k : Nat} {c : UInt8} (closes : Closes closing text k)
    (filled : closing ≠ []) (found : text[k + closing.length - 1]? = some c) : c ∈ closing := by
  have positive := List.length_pos_iff.mpr filled
  obtain ⟨rest,same⟩ := closes
  have inside : closing.length - 1 < closing.length := by omega
  have place : (closing ++ rest)[closing.length - 1]? = some c := by
    rw [same,List.getElem?_drop,← found]
    congr 1
    omega
  rw [List.getElem?_append_left inside] at place
  exact List.mem_of_getElem? place

def Byte.isWordByte (b : UInt8) : Bool :=
  97 ≤ b.toNat && b.toNat ≤ 122 || 65 ≤ b.toNat && b.toNat ≤ 90 || b.toNat == 95 ||
    48 ≤ b.toNat && b.toNat ≤ 57

theorem letterGlyph {b : UInt8} (letter : Byte.isWordByte b = true) : Byte.isControl b = false := by
  simp only [Byte.isWordByte,Bool.or_eq_true,Bool.and_eq_true,decide_eq_true_eq,beq_iff_eq] at letter
  rw [Byte.printableNat]
  omega

theorem letterWithin {b : UInt8} (letter : Byte.isWordByte b = true) : Byte.isSeparator b = false := by
  have others : (0 :: 32 :: 9 :: 10 :: 12 :: 13 :: Byte.punctuation).all (fun c => !Byte.isWordByte c) = true := by
    decide +kernel
  rw [Bool.eq_false_iff]
  intro separator
  have member : b ∈ 0 :: 32 :: 9 :: 10 :: 12 :: 13 :: Byte.punctuation := by
    simpa [Byte.isSeparator,Byte.isBlank,or_assoc] using separator
  have other := List.all_eq_true.mp others b member
  rw [letter] at other
  cases other

namespace Language

structure Lettered (language : Language) : Prop extends Regular language where
  letters : ∀ w, w ∈ language.keywords ∨ w ∈ language.types → ∀ b ∈ w, Byte.isWordByte b = true
  glyphs : ∀ m ∈ language.markers, ∀ b ∈ m, Byte.isControl b = false

theorem knownLettered {language : Language} (known : language ∈ known) : language.Lettered := by
  have letters : Language.known.all (fun l => (l.keywords ++ l.types).all fun w => w.all Byte.isWordByte) = true := by
    decide +kernel
  have glyphs : Language.known.all (fun l => l.markers.all fun m => m.all fun b => !Byte.isControl b) = true := by
    decide +kernel
  refine ⟨knownRegular known,?_,?_⟩
  · intro w listed b member
    have all := List.all_eq_true.mp (List.all_eq_true.mp letters _ known) w (List.mem_append.mpr listed)
    exact List.all_eq_true.mp all b member
  · intro m marker b member
    have all := List.all_eq_true.mp (List.all_eq_true.mp glyphs _ known) m marker
    simpa using List.all_eq_true.mp all b member

variable {language : Language}

theorem closingGlyph (lettered : language.Lettered) {opening closing text : Bytes} {k : Nat} {c : UInt8}
    (given : language.blockComment = some (opening, closing)) (closes : Closes closing text k)
    (found : text[k + closing.length - 1]? = some c) : Byte.isControl c = false := by
  have marker := (blockMarkers given).2
  have filled := markerSome lettered.toRegular marker
  exact lettered.glyphs closing marker c (closingLast closes filled found)

theorem wordLetters (lettered : language.Lettered) {text : Bytes} {n : Nat} {style : Style}
    (word : language.Word text n style) {j : Nat} {c : UInt8} (inside : j < n) (found : text[j]? = some c) :
    Byte.isSeparator c = false := by
  have letter {w : Bytes} (listed : w ∈ language.keywords ∨ w ∈ language.types) (front : w <+: text)
      (within : j < w.length) : Byte.isSeparator c = false := by
    obtain ⟨rest,rfl⟩ := front
    rw [List.getElem?_append_left within] at found
    exact letterWithin (lettered.letters w listed c (List.mem_of_getElem? found))
  cases word with
  | keyword listed standing _ => exact letter (.inl listed) standing.front inside
  | typeName listed standing _ _ => exact letter (.inr listed) standing.front inside

theorem cutWithin (lettered : language.Lettered) {text : Bytes} {styles : List Style} {rule : TokenRule}
    {n i : Nat} {style : Style} {zone : Zone} (cut : language.Cut text rule n style zone)
    (free : style.engulfs = false) (parted : Parted text styles i) (across : i < n) : i = 0 := by
  cases cut with
  | block _ _ | line | string _ _ | number _ _ => cases free
  | control | plain _ => omega
  | word word =>
    cases i with
    | zero => rfl
    | succ j =>
      have found := List.getElem?_eq_getElem (Nat.lt_of_succ_lt parted.inside)
      have letter := wordLetters lettered word (Nat.lt_of_succ_lt across) found
      rw [parted.separated j _ rfl found] at letter
      cases letter

theorem cutEnds (lettered : language.Lettered) {boundary : Bool} {text : Bytes} {styles : List Style}
    {rule : TokenRule} {j : Nat} {style : Style} {zone : Zone} {c : UInt8}
    (applies : language.Applies boundary text rule)
    (first : ∀ other : TokenRule, other.rank < rule.rank → ¬ language.Applies boundary text other)
    (cut : language.Cut text rule (j + 1) style zone) (other : style ≠ .number)
    (parted : Parted text styles (j + 1)) (found : text[j]? = some c) :
    zone = .comment ∨ zone = .text (!Byte.isControl c) := by
  have separated := parted.separated j c rfl found
  have inside := parted.inside
  generalize size : j + 1 = n at cut
  cases cut with
  | @block opening closing m closed given through =>
    cases through with
    | @ended k closes _ =>
      have positive := List.length_pos_iff.mpr (markerSome lettered.toRegular (blockMarkers given).2)
      have last : (text.drop opening.length)[k + closing.length - 1]? = some c := by
        rw [List.getElem?_drop,← found]
        congr 1
        omega
      exact .inr (by rw [closingGlyph lettered given closes last]; rfl)
    | unended _ => exact .inl rfl
  | line => omega
  | @string quote inner m closed begins through =>
    subst begins
    cases through with
    | @ended k ends _ =>
      obtain rfl : j = k + 1 := by omega
      cases Option.some.inj (ends.1.symm.trans found)
      rcases applies.2 with double | single
      · cases Option.some.inj double
        cases separated
      · cases Option.some.inj single
        cases separated
    | unended _ =>
      rw [List.length_cons] at inside
      omega
  | control =>
    obtain rfl : j = 0 := by omega
    obtain ⟨b,head,control⟩ := applies
    rw [List.head?_eq_getElem?] at head
    cases Option.some.inj (head.symm.trans found)
    exact .inr (by rw [control]; rfl)
  | number _ _ => exact absurd rfl other
  | word word =>
    have letter := wordLetters lettered word (by omega) found
    rw [separated] at letter
    cases letter
  | @plain b head =>
    obtain rfl : j = 0 := by omega
    have printable : ¬ Byte.isControl b = true := fun control => first .control (by decide) ⟨b,head,control⟩
    rw [List.head?_eq_getElem?] at head
    cases Option.some.inj (head.symm.trans found)
    exact .inr (by rw [separated,Bool.eq_false_iff.mpr printable]; rfl)

/- A token begins at the place, and words begin there unless a control byte is before it. -/
def Arrives (language : Language) (zone : Zone) (text : Bytes) (styles : List Style) (opens : Bool)
    (i : Nat) : Prop :=
  ∃ boundary later, language.Tokens (.text boundary) (text.drop i) later opens ∧
    styles.drop i = later.flatMap Token.styles ∧ (i = 0 → zone = .text boundary) ∧
    ∀ j c, i = j + 1 → text[j]? = some c → boundary = !Byte.isControl c

section
variable {zone next : Zone} {text : Bytes} {styles : List Style} {opens : Bool} {n i : Nat} {style : Style}

theorem tokenCovers (across : i < n) : (List.replicate n style ++ styles)[i]? = some style := by
  rw [List.getElem?_append_left (by simpa using across),List.getElem?_replicate,if_pos across]

theorem arrivesLater (positive : 0 < n) (there : language.Arrives next (text.drop n) styles opens i)
    (ends : ∀ c, i = 0 → text[n - 1]? = some c → next = .comment ∨ next = .text (!Byte.isControl c)) :
    language.Arrives zone text (List.replicate n style ++ styles) opens (n + i) := by
  obtain ⟨boundary,later,cut,same,start,behind⟩ := there
  rw [List.drop_drop] at cut
  refine ⟨boundary,later,cut,?_,by omega,?_⟩
  · rw [← same,List.drop_append,List.length_replicate,Nat.add_sub_cancel_left,
      List.drop_eq_nil_of_le (by simp),List.nil_append]
  · intro j c place found
    cases i with
    | zero =>
      obtain rfl : j = n - 1 := by omega
      rcases ends c rfl found with comment | text
      · cases (start rfl).symm.trans comment
      · exact Zone.text.inj ((start rfl).symm.trans text)
    | succ k =>
      obtain rfl : j = n + k := by omega
      exact behind k c rfl (by rw [List.getElem?_drop,found])

end

theorem tokensArrive (lettered : language.Lettered) {zone : Zone} {text : Bytes} {tokens : List Token}
    {opens : Bool} (cut : language.Tokens zone text tokens opens) {i : Nat}
    (parted : Parted text (tokens.flatMap Token.styles) i) :
    language.Arrives zone text (tokens.flatMap Token.styles) opens i := by
  induction cut generalizing i with
  | done => exact absurd parted.inside (Nat.not_lt_zero i)
  | @comment text opening closing n closed tokens opens some given through _ ih =>
    have bounds := commentBounds lettered.toRegular some given through
    rw [List.flatMap_cons,tokenStyles bounds.2] at parted ⊢
    by_cases across : i < n
    · cases parted.free _ (tokenCovers across)
    · obtain ⟨k,rfl⟩ := Nat.exists_eq_add_of_le (Nat.not_lt.mp across)
      refine arrivesLater bounds.1 (ih (partedLater parted)) ?_
      intro c _ found
      cases through with
      | ended closes _ => exact .inr (by rw [closingGlyph lettered given closes found]; rfl)
      | unended _ => exact .inl rfl
  | @token boundary text rule n style zone tokens opens some applies first cut later ih =>
    have bounds := cutBounds lettered.toRegular some applies cut
    have whole : language.Tokens (.text boundary) text (⟨text.take n, style⟩ :: tokens) opens :=
      .token some applies first cut later
    rw [List.flatMap_cons,tokenStyles bounds.2] at parted ⊢
    by_cases across : i < n
    · obtain rfl := cutWithin lettered cut (parted.free _ (tokenCovers across)) parted across
      refine ⟨boundary,_,whole,?_,fun _ => rfl,nofun⟩
      rw [List.flatMap_cons,tokenStyles bounds.2,List.drop_zero]
    · obtain ⟨k,rfl⟩ := Nat.exists_eq_add_of_le (Nat.not_lt.mp across)
      refine arrivesLater bounds.1 (ih (partedLater parted)) ?_
      rintro c rfl found
      obtain ⟨j,rfl⟩ := Nat.exists_eq_succ_of_ne_zero (Nat.ne_of_gt bounds.1)
      refine cutEnds lettered applies first cut ?_ parted found
      rintro rfl
      exact parted.unnumbered j rfl (tokenCovers (Nat.lt_succ_self j))

def styleOf (language : Language) (word : Bytes) : Style :=
  if word ∈ language.keywords then .keyword else .typeName

theorem standingNoLonger (lettered : language.Lettered) {text v w : Bytes}
    (listed : v ∈ language.keywords ∨ v ∈ language.types) (one : Standing text v) (two : Standing text w) :
    v.length ≤ w.length := by
  by_contra longer
  have inside : w.length < v.length := Nat.not_le.mp longer
  obtain ⟨rest,rfl⟩ := one.front
  have found : (v ++ rest)[w.length]? = some v[w.length] := by
    rw [List.getElem?_append_left inside,List.getElem?_eq_getElem inside]
  have letter := letterWithin (lettered.letters v listed _ (List.getElem_mem inside))
  rw [two.bounded _ found] at letter
  cases letter

theorem wordAlone (lettered : language.Lettered) {text word : Bytes}
    (listed : word ∈ language.keywords ∨ word ∈ language.types) (standing : Standing text word) :
    language.Word text word.length (language.styleOf word) := by
  unfold styleOf
  split
  · rename_i keyword
    exact .keyword keyword standing fun v among stands => standingNoLonger lettered among stands standing
  · rename_i other
    refine .typeName (listed.resolve_left other) standing ?_
      fun v among stands => standingNoLonger lettered (.inr among) stands standing
    intro v among stands
    have bound := standingNoLonger lettered (.inl among) stands standing
    refine Nat.lt_of_le_of_ne bound ?_
    intro same
    have front := List.prefix_of_prefix_length_le stands.front standing.front bound
    exact other (front.eq_of_length same ▸ among)

section
variable {boundary : Bool} {b : UInt8} {rest : Bytes} {tokens : List Token} {opens : Bool}

theorem tokensAtGlyph (lettered : language.Lettered) (glyph : Byte.isControl b = false)
    (cut : language.Tokens (.text boundary) (b :: rest) tokens opens)
    (free : ∀ {style}, (tokens.flatMap Token.styles)[0]? = some style → style.engulfs = false) :
    (∃ n style later, language.Word (b :: rest) n style ∧ boundary = true ∧
      tokens.flatMap Token.styles = List.replicate n style ++ later) ∨
    ¬ language.Applies boundary (b :: rest) .word ∧ ∃ later,
      language.Tokens (.text (Byte.isSeparator b)) rest later opens ∧
        tokens.flatMap Token.styles = .plain :: later.flatMap Token.styles := by
  cases cut with
  | @token _ _ rule n style zone tokens _ some applies first cut later =>
    have bounds := cutBounds lettered.toRegular some applies cut
    rw [List.flatMap_cons,tokenStyles bounds.2] at free ⊢
    have unclaimed := free (tokenCovers bounds.1)
    cases cut with
    | block _ _ | line | string _ _ | number _ _ => cases unclaimed
    | control =>
      obtain ⟨_,⟨⟩,control⟩ := applies
      rw [glyph] at control
      cases control
    | word word => exact .inl ⟨n,style,_,word,applies.1,rfl⟩
    | plain head =>
      cases Option.some.inj head
      exact .inr ⟨first .word (by decide),_,later,rfl⟩

theorem freeFirst {styles : List Style} {n : Nat}
    (free : ∀ style ∈ styles.take (n + 1), style.engulfs = false) {style : Style}
    (here : styles[0]? = some style) : style.engulfs = false := by
  cases styles with
  | nil => cases here
  | cons first later =>
    cases Option.some.inj here
    exact free style List.mem_cons_self

theorem wordCovered (lettered : language.Lettered) {word after : Bytes}
    (listed : word ∈ language.keywords ∨ word ∈ language.types) (standing : Standing (word ++ after) word)
    (cut : language.Tokens (.text true) (word ++ after) tokens opens)
    (free : ∀ style ∈ (tokens.flatMap Token.styles).take word.length, style.engulfs = false) :
    (tokens.flatMap Token.styles).take word.length = List.replicate word.length (language.styleOf word) := by
  have word' := wordAlone lettered listed standing
  obtain ⟨b,letters,rfl⟩ := List.exists_cons_of_ne_nil (lettered.words word listed)
  have glyph := letterGlyph (lettered.letters _ listed b List.mem_cons_self)
  rcases tokensAtGlyph lettered glyph cut (freeFirst free) with ⟨n,style,later,word,_,styles⟩ | ⟨missing,_⟩
  · obtain ⟨rfl,rfl⟩ := wordUnique word word'
    rw [styles,List.take_append_of_le_length (by simp),List.take_of_length_le (by simp)]
  · exact absurd ⟨rfl,_,_,word'⟩ missing

theorem lettersPlain (lettered : language.Lettered) {letters after : Bytes}
    (all : ∀ b ∈ letters, Byte.isWordByte b = true)
    (cut : language.Tokens (.text false) (letters ++ after) tokens opens)
    (free : ∀ style ∈ (tokens.flatMap Token.styles).take letters.length, style.engulfs = false) :
    (tokens.flatMap Token.styles).take letters.length = List.replicate letters.length .plain := by
  induction letters generalizing tokens with
  | nil => rfl
  | cons b letters ih =>
    obtain ⟨letter,others⟩ := List.forall_mem_cons.mp all
    rcases tokensAtGlyph lettered (letterGlyph letter) cut (freeFirst free) with
      ⟨_,_,_,_,boundary,_⟩ | ⟨_,later,next,styles⟩
    · cases boundary
    · rw [letterWithin letter] at next
      rw [styles] at free ⊢
      rw [List.length_cons,List.take_succ_cons,ih others next,List.replicate_succ]
      intro style member
      exact free style (List.mem_cons_of_mem _ member)

end

theorem standingAlone {word after : Bytes} (right : ∀ c, after.head? = some c → Byte.isSeparator c = true) :
    Standing (word ++ after) word := by
  refine ⟨List.prefix_append _ _,?_⟩
  intro c found
  rw [List.getElem?_append_right (Nat.le_refl _),Nat.sub_self,← List.head?_eq_getElem?] at found
  exact right c found

theorem startBoundary {carried boundary : Bool} {before rest : Bytes}
    (begins : (before.length = 0 → language.startZone carried = .text boundary) ∧
      ∀ j c, before.length = j + 1 → (before ++ rest)[j]? = some c → boundary = !Byte.isControl c) :
    boundary = !before.getLast?.any Byte.isControl := by
  rcases List.eq_nil_or_concat before with rfl | ⟨init,last,rfl⟩
  · have zone := begins.1 rfl
    unfold startZone at zone
    split at zone
    · cases zone
    · exact (Zone.text.inj zone).symm
  · rw [List.concat_eq_append,List.getLast?_concat]
    refine begins.2 init.length last (by simp) ?_
    simp

theorem separatedWordsPainted (built : language ∈ known) (carried : Bool) {before word after : Bytes}
    (listed : word ∈ language.keywords ∨ word ∈ language.types)
    (left : ∀ c, before.getLast? = some c → Byte.isSeparator c = true)
    (right : ∀ c, after.head? = some c → Byte.isSeparator c = true) :
    ∃ styles opens, Painting.of (some language) carried (before ++ word ++ after) = some ⟨styles, opens⟩ ∧
      ((∀ style ∈ (styles.drop before.length).take word.length, style.engulfs = false) →
        (styles.take before.length).getLast? ≠ some .number →
        (styles.drop before.length).take word.length = List.replicate word.length
          (if before.getLast?.any Byte.isControl then .plain else language.styleOf word)) := by
  have lettered := knownLettered built
  have filled := lettered.words word listed
  obtain ⟨tokens,opens,cut⟩ := tokensExist lettered.toRegular (before ++ word ++ after)
    (@startCommented language carried)
  refine ⟨_,opens,tokensPainting lettered.toRegular cut,?_⟩
  intro free unnumbered
  rw [List.append_assoc] at cut
  have parted := partedBehind (List.append_ne_nil_of_left_ne_nil filled after)
    (List.length_pos_iff.mpr filled) left free unnumbered
  obtain ⟨boundary,later,rest,same,begins⟩ := tokensArrive lettered cut parted
  rw [List.drop_left,startBoundary begins] at rest
  rw [same] at free ⊢
  cases control : before.getLast?.any Byte.isControl with
  | true =>
    rw [control] at rest
    exact lettersPlain lettered (lettered.letters word listed) rest free
  | false =>
    rw [control] at rest
    exact wordCovered lettered listed (standingAlone right) rest free

theorem separatedWordsPaintedBehindComment :
    let before := Byte.ascii "a*/"
    let word := Byte.ascii "int"
    ∃ styles, Painting.of (some c) true (before ++ word ++ Byte.ascii ";") = some ⟨styles, false⟩ ∧
      word ∈ c.types ∧ styles.take before.length = [.blockComment, .blockComment, .blockComment] ∧
      (styles.drop before.length).take word.length = [.typeName, .typeName, .typeName] := by
  intro before word
  have evaluated : Painting.of (some c) true (before ++ word ++ Byte.ascii ";") =
      some ⟨[.blockComment, .blockComment, .blockComment, .typeName, .typeName, .typeName, .plain], false⟩ := by
    decide +kernel
  have listed : word ∈ c.types := by
    decide +kernel
  have left : ∀ b, before.getLast? = some b → Byte.isSeparator b = true := by
    rintro _ ⟨⟩
    rfl
  have right : ∀ b, (Byte.ascii ";").head? = some b → Byte.isSeparator b = true := by
    rintro _ ⟨⟩
    rfl
  have style : c.styleOf word = .typeName := by
    decide +kernel
  obtain ⟨_,_,painted,covered⟩ := separatedWordsPainted List.mem_cons_self true (.inr listed) left right
  cases Option.some.inj (painted.symm.trans evaluated)
  have word := covered (by decide) (by decide)
  rw [if_neg (by decide),style] at word
  exact ⟨_,evaluated,listed,rfl,word⟩

theorem wordBehindZeroPlain :
    (¬ ∀ (language : Language) (carried : Bool) (before word after : Bytes) (styles : List Style)
      (opens : Bool),
      language ∈ known → word ∈ language.keywords ∨ word ∈ language.types →
      (∀ b, before.getLast? = some b → Byte.isSeparator b = true) →
      (∀ b, after.head? = some b → Byte.isSeparator b = true) →
      Painting.of (some language) carried (before ++ word ++ after) = some ⟨styles, opens⟩ →
      (∀ style ∈ (styles.drop before.length).take word.length, style.engulfs = false) →
      (styles.take before.length).getLast? ≠ some .number →
      ∀ style ∈ (styles.drop before.length).take word.length, style = .keyword ∨ style = .typeName) ∧
    Painting.of (some c) false (0 :: Byte.ascii "int") =
      some ⟨[.control, .plain, .plain, .plain], false⟩ := by
  have evaluated : Painting.of (some c) false ([0] ++ Byte.ascii "int" ++ []) =
      some ⟨[.control, .plain, .plain, .plain], false⟩ := by
    decide +kernel
  refine ⟨?_,evaluated⟩
  intro covered
  have listed : Byte.ascii "int" ∈ c.types := by
    decide +kernel
  have separates : ∀ b, [(0 : UInt8)].getLast? = some b → Byte.isSeparator b = true := by
    rintro _ ⟨⟩
    rfl
  have word := covered c false [0] (Byte.ascii "int") [] _ _ List.mem_cons_self (.inr listed) separates nofun
    evaluated (by decide) (by decide) .plain (by decide)
  rcases word with keyword | typeName
  · cases keyword
  · cases typeName

end Language
end Vellum
