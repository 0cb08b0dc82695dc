import Vellum.Proofs.TokenPainting

/-! A plain space keeps what is before it and what is behind it apart. No word and no
marker goes over a space; what does, an escape in a string, a comment, gives the space
its own style. Where the space is plain, the strokes before it cannot tell what follows
it, and the pen behind it is as at the start of a line. -/
namespace Vellum

section
variable {m text : Bytes} (free : Byte.space ∉ m) (rest : Bytes)
include free

theorem prefixUpTo : m <+: text ++ Byte.space :: rest ↔ m <+: text := by
  constructor
  · rintro ⟨more,same⟩
    rcases List.append_eq_append_iff.mp same with ⟨middle,whole,_⟩ | ⟨middle,whole,after⟩
    · exact ⟨middle,whole.symm⟩
    · cases middle with
      | nil =>
        rw [List.append_nil] at whole
        subst whole
        exact List.prefix_rfl
      | cons b middle =>
        cases (List.cons.inj after).1
        exact absurd (whole ▸ List.mem_append_right text List.mem_cons_self) free
  · intro front
    exact front.trans (List.prefix_append _ _)

theorem standingUpTo : Standing (text ++ Byte.space :: rest) m ↔ Standing text m := by
  constructor
  · rintro ⟨front,bounded⟩
    refine ⟨(prefixUpTo free rest).mp front,?_⟩
    intro b found
    apply bounded
    rw [List.getElem?_append_left (List.getElem?_eq_some_iff.mp found).1]
    exact found
  · rintro ⟨front,bounded⟩
    refine ⟨(prefixUpTo free rest).mpr front,?_⟩
    intro b found
    rcases Nat.lt_or_eq_of_le front.length_le with inside | last
    · rw [List.getElem?_append_left inside] at found
      exact bounded b found
    · rw [last,List.getElem?_append_right (Nat.le_refl _),Nat.sub_self] at found
      cases Option.some.inj found
      decide

theorem notAtSpace (filled : m ≠ []) : ¬ m <+: Byte.space :: rest := by
  intro front
  exact filled (List.prefix_nil.mp ((@prefixUpTo m [] free rest).mp front))

end

namespace Language

structure Spaceless (language : Language) : Prop extends Filled language where
  wordsFree : ∀ w, w ∈ language.keywords ∨ w ∈ language.types → Byte.space ∉ w
  markersFree : ∀ m ∈ language.markers, Byte.space ∉ m

structure Allows (language : Language) (pen : Pen) : Prop where
  block : pen.inBlock = true → ∃ pair, language.blockComment = some pair
  string : pen.quote ≠ none → language.strings = true

variable {language : Language}

theorem allowsOf {pen : Pen} (allowed : language.Allows pen) (width : Nat) (style : Style) :
    language.Allows (Stroke.of width style pen).pen := by
  simp only [Stroke.of,Pen.past]
  split
  · exact allowed
  · exact ⟨allowed.block,allowed.string⟩

theorem drawnAllowed {pen : Pen} {text : Bytes} {s : Stroke} (allowed : language.Allows pen)
    (drawn : language.Drawn pen text s) : language.Allows s.pen := by
  cases drawn with
  | closes _ _ _ =>
    apply allowsOf
    exact ⟨nofun,allowed.string⟩
  | opens given _ _ _ =>
    apply allowsOf
    exact ⟨fun _ => ⟨_,given⟩,allowed.string⟩
  | string _ _ strings same =>
    apply allowsOf
    exact ⟨same ▸ allowed.block,fun _ => strings⟩
  | comment | line => exact allowsOf allowed _ _
  | single _ _ | word _ _ _ _ =>
    apply allowsOf
    exact ⟨allowed.block,allowed.string⟩

theorem startAllowed (language : Language) (carried : Bool) :
    language.Allows (.start (carried && language.blockComment.isSome)) := by
  refine ⟨?_,fun quoted => absurd rfl quoted⟩
  intro inside
  exact Option.isSome_iff_exists.mp (Bool.and_eq_true_iff.mp inside).2

theorem wordSame {text other : Bytes} {n : Nat} {style : Style}
    (same : ∀ w, w ∈ language.keywords ∨ w ∈ language.types → (Standing text w ↔ Standing other w))
    (word : language.Word text n style) : language.Word other n style := by
  cases word with
  | keyword listed standing longest =>
    refine .keyword listed ((same _ (.inl listed)).mp standing) ?_
    intro v among stands
    exact longest v among ((same v among).mpr stands)
  | typeName listed standing longer longest =>
    refine .typeName listed ((same _ (.inr listed)).mp standing) ?_ ?_
    · intro v among stands
      exact longer v among ((same v (.inl among)).mpr stands)
    · intro v among stands
      exact longest v among ((same v (.inr among)).mpr stands)

theorem numberUpTo (language : Language) (pen : Pen) (b : UInt8) (text rest : Bytes) :
    language.numberStroke? pen b (text ++ Byte.space :: rest) = language.numberStroke? pen b text := by
  have digit : (text ++ Byte.space :: rest).head?.any Byte.isDigit = text.head?.any Byte.isDigit := by
    cases text with
    | nil => rfl
    | cons c text => rfl
  simp only [numberStroke?,digit]

theorem stringUpTo {pen : Pen} {b : UInt8} {text : Bytes}
    (ordinary : ¬ (language.strings = true ∧ pen.quote ≠ none ∧ b = 92 ∧ text = [])) (rest : Bytes) :
    language.stringStroke? pen b (text ++ Byte.space :: rest) = language.stringStroke? pen b text := by
  unfold stringStroke?
  split
  · rename_i strings
    split
    · rename_i quote quoted
      have same : (b = 92 ∧ text ++ Byte.space :: rest ≠ []) ↔ (b = 92 ∧ text ≠ []) := by
        constructor
        · rintro ⟨backslash,_⟩
          refine ⟨backslash,?_⟩
          intro empty
          exact ordinary ⟨strings,by rw [quoted]; exact nofun,backslash,empty⟩
        · rintro ⟨backslash,_⟩
          exact ⟨backslash,by simp⟩
      simp only [same]
    · rfl
  · rfl

section
variable (spaceless : language.Spaceless) (pen : Pen) (text rest : Bytes)
include spaceless

theorem markerUpTo {m : Bytes} (member : m ∈ language.markers) :
    m.isPrefixOf (text ++ Byte.space :: rest) = m.isPrefixOf text := by
  rw [Bool.eq_iff_iff,List.isPrefixOf_iff_prefix,List.isPrefixOf_iff_prefix]
  exact prefixUpTo (spaceless.markersFree m member) rest

theorem blockUpTo :
    language.blockStroke? pen (text ++ Byte.space :: rest) = language.blockStroke? pen text := by
  unfold blockStroke?
  split
  · rfl
  · rename_i opening closing given
    rw [markerUpTo spaceless text rest (blockMarkers given).1,
      markerUpTo spaceless text rest (blockMarkers given).2]

theorem lineUpTo : language.lineStroke? pen (text ++ Byte.space :: rest) =
    (language.lineStroke? pen text).map fun _ => .of (text ++ Byte.space :: rest).length .comment pen := by
  unfold lineStroke?
  split
  · rfl
  · rename_i marker given
    rw [markerUpTo spaceless text rest (lineMarker given)]
    split <;> rfl

theorem wordUpTo : language.wordStroke? pen (text ++ Byte.space :: rest) = language.wordStroke? pen text := by
  have same (w : Bytes) (listed : w ∈ language.keywords ∨ w ∈ language.types) :
      Standing (text ++ Byte.space :: rest) w ↔ Standing text w :=
    standingUpTo (spaceless.wordsFree w listed) rest
  have word : language.word? (text ++ Byte.space :: rest) = language.word? text := by
    apply Option.ext
    rintro ⟨n,style⟩
    rw [wordExact,wordExact]
    exact ⟨wordSame same,wordSame fun w listed => (same w listed).symm⟩
  simp only [wordStroke?,word]

theorem strokeUpTo (b : UInt8) :
    (∀ rest, language.stroke pen b (text ++ Byte.space :: rest) = language.stroke pen b text) ∨
      ∀ rest, let s := language.stroke pen b (text ++ Byte.space :: rest)
        text.length + 1 < s.width ∧ s.style ≠ .plain := by
  have block := blockUpTo spaceless pen (b :: text)
  have line := lineUpTo spaceless pen (b :: text)
  have word := wordUpTo spaceless pen (b :: text)
  simp only [List.cons_append] at block line word
  cases blocked : language.blockStroke? pen (b :: text) with
  | some s =>
    refine .inl fun rest => ?_
    simp only [stroke,block,blocked,Option.getD_some]
  | none =>
    cases lined : language.lineStroke? pen (b :: text) with
    | some s =>
      refine .inr fun rest => ?_
      simp [stroke,block,blocked,line,lined,Stroke.of]
    | none =>
      by_cases escape : language.strings = true ∧ pen.quote ≠ none ∧ b = 92 ∧ text = []
      · obtain ⟨strings,quoted,rfl,rfl⟩ := escape
        obtain ⟨quote,open'⟩ := Option.ne_none_iff_exists'.mp quoted
        refine .inr fun rest => ?_
        simp only [List.nil_append] at block line ⊢
        simp [stroke,block,blocked,line,lined,stringStroke?,strings,open',Stroke.of]
      · refine .inl fun rest => ?_
        simp only [stroke,block,blocked,line,lined,Option.map_none,stringUpTo escape,numberUpTo,word]

end

theorem spaceUnruled (spaceless : language.Spaceless) (boundary : Bool) (rest : Bytes) (other : TokenRule)
    (tells : other ≠ .plain) : ¬ language.Applies boundary (Byte.space :: rest) other := by
  have unmarked {m : Bytes} (member : m ∈ language.markers) : ¬ m <+: Byte.space :: rest :=
    notAtSpace (spaceless.markersFree m member) rest (spaceless.markers m member)
  have unworded {w : Bytes} (listed : w ∈ language.keywords ∨ w ∈ language.types) :
      ¬ w <+: Byte.space :: rest :=
    notAtSpace (spaceless.wordsFree w listed) rest (spaceless.words w listed)
  intro applies
  cases other with
  | block =>
    obtain ⟨_,_,given,front⟩ := applies
    exact unmarked (blockMarkers given).1 front
  | line =>
    obtain ⟨_,given,front⟩ := applies
    exact unmarked (lineMarker given) front
  | string =>
    obtain ⟨_,quote⟩ := applies
    revert quote
    simp [Byte.space]
  | control =>
    obtain ⟨_,⟨⟩,control⟩ := applies
    cases control
  | number =>
    obtain ⟨_,_,digit | ⟨sign,_⟩⟩ := applies
    · cases digit
    · revert sign
      simp [Byte.space]
  | word =>
    obtain ⟨_,_,_,word⟩ := applies
    cases word with
    | keyword listed standing _ => exact unworded (.inl listed) standing.front
    | typeName listed standing _ _ => exact unworded (.inr listed) standing.front
  | plain => exact tells rfl

theorem spaceStroke (spaceless : language.Spaceless) {pen : Pen} (allowed : language.Allows pen) :
    (∀ rest, language.stroke pen Byte.space rest = ⟨1, .plain, .start false⟩) ∨
      ∀ rest, let s := language.stroke pen Byte.space rest
        0 < s.width ∧ s.style ≠ .plain := by
  obtain ⟨boundary,quote,inBlock,afterNumber⟩ := pen
  cases inBlock with
  | true =>
    obtain ⟨⟨opening,closing⟩,given⟩ := allowed.block rfl
    have member := (blockMarkers given).2
    refine .inr fun rest => ?_
    have missing := notAtSpace (spaceless.markersFree _ member) rest (spaceless.markers _ member)
    rw [commentStroke given rfl,if_neg missing]
    exact ⟨Nat.one_pos,nofun⟩
  | false =>
    cases quote with
    | some quote =>
      refine .inr fun rest => ?_
      rw [stringStroke (allowed.string nofun),if_neg (fun pair => absurd pair.1 (by decide))]
      exact ⟨Nat.one_pos,nofun⟩
    | none =>
      refine .inl fun rest => ?_
      have absent := spaceUnruled spaceless boundary rest
      have earlier (other : TokenRule) (before : other.rank < TokenRule.number.rank) : other ≠ .plain := by
        rintro rfl
        exact absurd before (by decide)
      rw [strokePrintable (fun other before => absent other (earlier other before)),
        numberAbsent (absent .number (by decide)) (fun _ => by decide),wordAbsent (absent .word (by decide))]
      rfl

def Hides (language : Language) (pen : Pen) (before : Bytes) : Prop :=
  ∀ rest styles last, language.Strokes pen (before ++ Byte.space :: rest) styles last [] →
    styles[before.length]? ≠ some .plain

theorem coveredStyle {pen last : Pen} {b : UInt8} {rest : Bytes} {styles : List Style} {n : Nat}
    (run : language.Strokes pen (b :: rest) styles last []) (within : n < (language.stroke pen b rest).width) :
    styles[n]? = some (language.stroke pen b rest).style := by
  obtain ⟨later,rfl,_⟩ := strokesFrom run
  rw [List.getElem?_append_left (by simpa using within),List.getElem?_replicate,if_pos within]

theorem hidesLater {pen : Pen} {b : UInt8} {text : Bytes} {s : Stroke}
    (same : ∀ rest, language.stroke pen b (text ++ Byte.space :: rest) = s) (bound : s.width ≤ text.length + 1)
    (hides : language.Hides s.pen ((b :: text).drop s.width)) : language.Hides pen (b :: text) := by
  intro rest styles last run
  rw [List.cons_append] at run
  obtain ⟨styles,rfl,later⟩ := strokesFrom run
  have cut := @List.drop_append_of_le_length _ (b :: text) (Byte.space :: rest) _ bound
  rw [List.cons_append] at cut
  rw [same rest,cut] at later
  have behind := hides rest styles last later
  rw [List.length_drop] at behind
  rwa [same rest,List.getElem?_append_right (by simpa using bound),List.length_replicate]

/- Up to a plain space and over it, strokes go the same way whatever is behind it. -/
theorem strokesApart (spaceless : language.Spaceless) {pen : Pen} (allowed : language.Allows pen)
    (before : Bytes) :
    (∃ front middle, language.Strokes pen before front middle [] ∧ ∀ rest,
      language.Strokes pen (before ++ Byte.space :: rest) (front ++ [.plain]) (.start false) rest) ∨
    language.Hides pen before := by
  induction size : before.length using Nat.strongRecOn generalizing pen before with
  | ind length ih =>
    cases before with
    | nil =>
      rcases spaceStroke spaceless allowed with fresh | coloured
      · exact .inl ⟨[],pen,.none,fun rest => .next (fresh rest) .none⟩
      · refine .inr fun rest styles last run => ?_
        obtain ⟨covers,kind⟩ := coloured rest
        rw [List.length_nil,coveredStyle run covers]
        exact fun plain => kind (Option.some.inj plain)
    | cons b text =>
      rcases strokeUpTo spaceless pen text b with same | beyond
      · have covers : 0 < (language.stroke pen b text).width := strokeCovers spaceless.toFilled pen b text
        have bound := drawnBounded (strokeDrawn language pen b text)
        have shorter : ((b :: text).drop (language.stroke pen b text).width).length < length := by
          rw [List.length_drop,← size,List.length_cons]
          omega
        have next := drawnAllowed allowed (strokeDrawn language pen b text)
        rcases ih _ shorter next _ rfl with ⟨front,middle,alone,ahead⟩ | hides
        · refine .inl ⟨_,middle,.next rfl alone,?_⟩
          intro rest
          have cut := @List.drop_append_of_le_length _ (b :: text) (Byte.space :: rest) _ bound
          rw [List.cons_append] at cut ⊢
          rw [List.append_assoc]
          refine .next (same rest) ?_
          rw [cut]
          exact ahead rest
        · exact .inr (hidesLater same bound hides)
      · refine .inr fun rest styles last run => ?_
        obtain ⟨wide,kind⟩ := beyond rest
        rw [List.length_cons,coveredStyle run wide]
        exact fun plain => kind (Option.some.inj plain)

theorem paintingsApart (spaceless : language.Spaceless) (carried : Bool) (before after : Bytes) :
    ∃ whole, Painting.of (some language) carried (before ++ Byte.space :: after) = some whole ∧
      (whole.styles[before.length]? = some .plain →
        ∃ front left, Painting.of (some language) carried before = some front ∧
          Painting.of (some language) carried (before ++ [Byte.space]) = some left ∧
          left.styles = front.styles ++ [.plain] ∧
          ∀ other, ∃ right, Painting.of (some language) false other = some right ∧
            Painting.of (some language) carried (before ++ Byte.space :: other) =
              some ⟨left.styles ++ right.styles, right.opens⟩) := by
  have marked := filledMarked spaceless.toFilled
  obtain ⟨styles,last,run⟩ := strokesExist marked
    (.start (carried && language.blockComment.isSome)) (before ++ Byte.space :: after)
  refine ⟨_,strokesPainting marked carried run,?_⟩
  intro plain
  rcases strokesApart spaceless (startAllowed language carried) before with ⟨front,middle,alone,ahead⟩ | hides
  · refine ⟨_,_,strokesPainting marked carried alone,strokesPainting marked carried (ahead []),rfl,?_⟩
    intro other
    obtain ⟨behind,final,later⟩ := strokesExist marked (.start false) other
    exact ⟨_,strokesPainting marked false later,
      strokesPainting marked carried (strokesTrans (ahead other) later)⟩
  · exact absurd plain (hides after styles last run)

theorem paintingsApartInLine :
    let sample : Language :=
      { name := "sample", keywords := [[105, 102]], lineComment := some [47, 47]
        blockComment := some ([47, 42], [42, 47]), numbers := true, strings := true }
    let before : Bytes := [42, 47, 105, 102]
    let after : Bytes := [45, 49, 32, 34]
    sample.Spaceless ∧ ∃ right,
      Painting.of (some sample) true before =
        some ⟨[.blockComment, .blockComment, .keyword, .keyword], false⟩ ∧
      Painting.of (some sample) false after = some right ∧
      right.styles = [.number, .number, .plain, .quoted] ∧
      Painting.of (some sample) true (before ++ 32 :: after) =
        some ⟨[.blockComment, .blockComment, .keyword, .keyword, .plain] ++ right.styles, right.opens⟩ := by
  intro sample before after
  have spaceless : sample.Spaceless := by
    refine ⟨⟨?_,?_⟩,?_,?_⟩ <;> simp [sample,markers,Byte.space]
  have painted : Painting.of (some sample) true (before ++ 32 :: after) =
      some ⟨[.blockComment, .blockComment, .keyword, .keyword, .plain, .number, .number, .plain, .quoted],
        false⟩ := by
    decide
  have front : Painting.of (some sample) true before =
      some ⟨[.blockComment, .blockComment, .keyword, .keyword], false⟩ := by
    decide
  obtain ⟨whole,again,apart⟩ := paintingsApart spaceless true before after
  cases Option.some.inj (again.symm.trans painted)
  obtain ⟨head,left,alone,_,styles,apart⟩ := apart rfl
  obtain ⟨right,behind,same⟩ := apart after
  cases Option.some.inj (alone.symm.trans front)
  rw [styles] at same
  have joined := congrArg Painting.styles (Option.some.inj (same.symm.trans painted))
  exact ⟨spaceless,right,front,behind,List.append_cancel_left joined,same⟩

end Language
end Vellum
