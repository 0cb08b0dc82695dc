import Vellum.Colour.Painting
/-! What a stroke can be, where it leaves the pen, and how far it goes. Only an empty
marker or an empty word covers nothing. Unless both markers of a block comment are
empty, no more than two such strokes follow each other, so the strokes that there are
for a line reach its end, and every byte of it gets one style. -/
namespace Vellum

theorem getDHolds {α : Type} (Holds : α → Prop) {answer : Option α} {other : α}
    (given : ∀ a, answer = some a → Holds a) (missing : Holds other) : Holds (answer.getD other) := by
  cases answer with
  | none => exact missing
  | some a => exact given a rfl

namespace Language

inductive Listed (language : Language) : Bytes → Style → Prop where
  | keyword {word : Bytes} (member : word ∈ language.keywords) : Listed language word .keyword
  | typeName {word : Bytes} (member : word ∈ language.types) : Listed language word .typeName

theorem wordListed {language : Language} {text : Bytes} {found : Nat × Style}
    (ok : language.word? text = some found) :
    ∃ word, language.Listed word found.2 ∧ word <+: text ∧ found.1 = word.length := by
  revert ok
  refine List.foldlRecOn (motive := fun best => best = some found →
    ∃ word, language.Listed word found.2 ∧ word <+: text ∧ found.1 = word.length) _ _ nofun ?_
  intro best held entry member here
  split at here
  · rename_i standing
    have front : entry.1 <+: text :=
      List.isPrefixOf_iff_prefix.mp (Bool.and_eq_true_iff.mp standing).1
    have listed : language.Listed entry.1 entry.2 := by
      rcases List.mem_append.mp member with keyword | type
      · obtain ⟨word,among,rfl⟩ := List.mem_map.mp keyword
        exact .keyword among
      · obtain ⟨word,among,rfl⟩ := List.mem_map.mp type
        exact .typeName among
    unfold longer at here
    split at here
    · cases here
      exact ⟨_,listed,front,rfl⟩
    · split at here
      · cases here
        exact ⟨_,listed,front,rfl⟩
      · exact held here
  · exact held here

theorem blockMissing {language : Language} {pen : Pen} {text opening closing : Bytes}
    (missing : language.blockStroke? pen text = none)
    (given : language.blockComment = some (opening, closing)) :
    pen.inBlock = false ∧ (opening = [] → pen.quote ≠ none) := by
  simp only [blockStroke?,given] at missing
  split at missing
  · split at missing <;> cases missing
  · rename_i outside
    refine ⟨Bool.eq_false_iff.mpr outside,?_⟩
    rintro rfl unquoted
    simp [unquoted] at missing

inductive Drawn (language : Language) (pen : Pen) (text : Bytes) : Stroke → Prop where
  | closes {opening closing : Bytes} (given : language.blockComment = some (opening, closing))
      (inside : pen.inBlock = true) (front : closing <+: text) : Drawn language pen text
        (.of closing.length .blockComment { pen with inBlock := false, boundary := true })
  | comment : Drawn language pen text (.of 1 .blockComment pen)
  | opens {opening closing : Bytes} (given : language.blockComment = some (opening, closing))
      (outside : pen.inBlock = false) (unquoted : pen.quote = none) (front : opening <+: text) :
      Drawn language pen text (.of opening.length .blockComment { pen with inBlock := true })
  | line : Drawn language pen text (.of text.length .comment pen)
  | string {width : Nat} {next : Pen} (covers : 0 < width) (within : width ≤ text.length)
      (strings : language.strings = true) (same : next.inBlock = pen.inBlock) :
      Drawn language pen text (.of width .quoted next)
  | single {style : Style} (boundary : Bool) (bare : style ≠ .found) :
      Drawn language pen text (.of 1 style { pen with boundary })
  | word {word : Bytes} {style : Style} (boundary : pen.boundary = true)
      (listed : language.Listed word style) (front : word <+: text)
      (outside : ∀ opening closing, language.blockComment = some (opening, closing) →
        pen.inBlock = false ∧ (opening = [] → pen.quote ≠ none)) :
      Drawn language pen text (.of word.length style { pen with boundary := false })

theorem blockStrokeDrawn {language : Language} {pen : Pen} {text : Bytes} {s : Stroke}
    (block : language.blockStroke? pen text = some s) : language.Drawn pen text s := by
  unfold blockStroke? at block
  split at block
  · cases block
  · rename_i opening closing given
    split at block
    · rename_i inside
      split at block <;> cases block
      · rename_i front
        exact .closes given inside (List.isPrefixOf_iff_prefix.mp front)
      · exact .comment
    · rename_i outside
      split at block <;> cases block
      rename_i both
      obtain ⟨unquoted,front⟩ := Bool.and_eq_true_iff.mp both
      exact .opens given (Bool.eq_false_iff.mpr outside) (Option.isNone_iff_eq_none.mp unquoted)
        (List.isPrefixOf_iff_prefix.mp front)

theorem stringStrokeDrawn {language : Language} {pen : Pen} {b : UInt8} {rest : Bytes} {s : Stroke}
    (string : language.stringStroke? pen b rest = some s) : language.Drawn pen (b :: rest) s := by
  have one : 1 ≤ (b :: rest).length := Nat.succ_pos _
  unfold stringStroke? at string
  split at string
  · rename_i strings
    split at string
    · split at string <;> cases string
      · rename_i escape
        have more := List.length_pos_iff.mpr escape.2
        exact .string Nat.two_pos (Nat.succ_le_succ more) strings rfl
      · refine .string Nat.one_pos one strings ?_
        split <;> rfl
    · split at string <;> cases string
      exact .string Nat.one_pos one strings rfl
  · cases string

theorem strokeDrawn (language : Language) (pen : Pen) (b : UInt8) (rest : Bytes) :
    language.Drawn pen (b :: rest) (language.stroke pen b rest) := by
  have single {style : Style} {boundary : Bool} (bare : style ≠ .found) :
      language.Drawn pen (b :: rest) (.of 1 style { pen with boundary }) := .single boundary bare
  unfold stroke
  cases block : language.blockStroke? pen (b :: rest) with
  | some s => exact blockStrokeDrawn block
  | none =>
    rw [Option.getD_none]
    refine getDHolds _ ?_ (getDHolds _ (fun _ => stringStrokeDrawn) ?_)
    · intro s line
      unfold lineStroke? at line
      split at line
      · cases line
      · split at line <;> cases line
        exact .line
    · split
      · exact single (by decide)
      · refine getDHolds _ ?_ (getDHolds _ ?_ (single (by decide)))
        · intro s number
          simp only [numberStroke?] at number
          split at number <;> cases number
          exact single (by decide)
        · intro s word
          unfold wordStroke? at word
          split at word
          · rename_i boundary
            obtain ⟨⟨n,style⟩,ok,rfl⟩ := Option.map_eq_some_iff.mp word
            obtain ⟨word,listed,front,rfl⟩ := wordListed ok
            exact .word boundary listed front fun _ _ given => blockMissing block given
          · cases word

theorem drawnBounded {language : Language} {pen : Pen} {b : UInt8} {rest : Bytes} {s : Stroke}
    (drawn : language.Drawn pen (b :: rest) s) : s.width ≤ (b :: rest).length := by
  cases drawn with
  | closes _ _ front | opens _ _ _ front | word _ _ front _ => exact front.length_le
  | comment | single _ _ => exact Nat.succ_pos _
  | line => exact Nat.le_refl _
  | string _ within _ _ => exact within

theorem drawnBare {language : Language} {pen : Pen} {text : Bytes} {s : Stroke}
    (drawn : language.Drawn pen text s) : s.style ≠ .found := by
  cases drawn with
  | closes _ _ _ | comment | opens _ _ _ _ | line | string _ _ _ _ => exact nofun
  | single _ bare => exact bare
  | word _ listed _ _ => cases listed <;> exact nofun

theorem paintWithWhole {language : Language} {fuel : Nat} {pen : Pen} {shown : Bytes}
    {painting : Painting} (ok : language.paintWith fuel pen shown = some painting) :
    painting.styles.length = shown.length ∧ Style.found ∉ painting.styles := by
  induction fuel generalizing pen shown painting with
  | zero =>
    cases shown with
    | nil =>
      cases Option.some.inj ok
      exact ⟨rfl,List.not_mem_nil⟩
    | cons b rest => cases ok
  | succ fuel ih =>
    cases shown with
    | nil =>
      cases Option.some.inj ok
      exact ⟨rfl,List.not_mem_nil⟩
    | cons b rest =>
      obtain ⟨p,inner,rfl⟩ := Option.map_eq_some_iff.mp ok
      obtain ⟨length,bare⟩ := ih inner
      have drawn := strokeDrawn language pen b rest
      constructor
      · have bound := drawnBounded drawn
        rw [List.length_append,List.length_replicate,length,List.length_drop]
        omega
      · intro member
        rcases List.mem_append.mp member with here | later
        · exact drawnBare drawn (List.eq_of_mem_replicate here).symm
        · exact bare later

/- What a stroke that covers nothing can do. An empty marker or an empty word only changes the pen. -/
inductive Idles (language : Language) (pen : Pen) : Pen → Prop where
  | closes {opening : Bytes} (given : language.blockComment = some (opening, []))
      (inside : pen.inBlock = true) : Idles language pen { pen with inBlock := false, boundary := true }
  | opens {closing : Bytes} (given : language.blockComment = some ([], closing))
      (outside : pen.inBlock = false) (unquoted : pen.quote = none) :
      Idles language pen { pen with inBlock := true }
  | word {style : Style} (listed : language.Listed [] style) (boundary : pen.boundary = true)
      (outside : ∀ opening closing, language.blockComment = some (opening, closing) →
        pen.inBlock = false ∧ (opening = [] → pen.quote ≠ none)) :
      Idles language pen { pen with boundary := false }

def Advances (language : Language) (pen : Pen) (s : Stroke) : Prop :=
  0 < s.width ∨ language.Idles pen s.pen

theorem advancesOf {language : Language} {pen next : Pen} {width : Nat} {style : Style}
    (idles : width = 0 → language.Idles pen next) : language.Advances pen (.of width style next) := by
  cases width with
  | zero => exact .inr (idles rfl)
  | succ width => exact .inl (Nat.succ_pos width)

theorem drawnAdvances {language : Language} {pen : Pen} {b : UInt8} {rest : Bytes} {s : Stroke}
    (drawn : language.Drawn pen (b :: rest) s) : language.Advances pen s := by
  cases drawn with
  | closes given inside _ =>
    apply advancesOf
    intro empty
    cases List.length_eq_zero_iff.mp empty
    exact .closes given inside
  | opens given outside unquoted _ =>
    apply advancesOf
    intro empty
    cases List.length_eq_zero_iff.mp empty
    exact .opens given outside unquoted
  | word boundary listed _ outside =>
    apply advancesOf
    intro empty
    cases List.length_eq_zero_iff.mp empty
    exact .word listed boundary outside
  | comment | single _ _ => exact .inl Nat.one_pos
  | line => exact .inl (Nat.succ_pos rest.length)
  | string covers _ _ _ => exact .inl covers

def idle (language : Language) (pen : Pen) : Nat :=
  match language.blockComment with
  | none => pen.boundary.toNat
  | some (opening, closing) =>
    if pen.inBlock then if closing = [] then 2 else 0
    else if opening = [] ∧ pen.quote = none then 1
    else pen.boundary.toNat

theorem idleBounded (language : Language) (pen : Pen) : language.idle pen ≤ 2 := by
  have boundary : pen.boundary.toNat ≤ 1 := Bool.toNat_le pen.boundary
  unfold idle
  split
  · omega
  · split
    · split <;> decide
    · split <;> omega

theorem idleFalls {language : Language} (marked : language.blockComment ≠ some ([], [])) {pen next : Pen}
    (idles : language.Idles pen next) : language.idle next < language.idle pen := by
  cases idles with
  | @closes opening given inside =>
    have filled : opening ≠ [] := by
      rintro rfl
      exact marked given
    simp [idle,given,inside,filled]
  | @opens closing given outside unquoted =>
    have filled : closing ≠ [] := by
      rintro rfl
      exact marked given
    simp [idle,given,outside,unquoted,filled]
  | word _ boundary outside =>
    cases given : language.blockComment with
    | none => simp [idle,given,boundary]
    | some pair =>
      obtain ⟨out,quoted⟩ := outside pair.1 pair.2 given
      have unopened : ¬ (pair.1 = [] ∧ pen.quote = none) := fun both => quoted both.1 both.2
      simp [idle,given,out,unopened,boundary]

def work (language : Language) (pen : Pen) : Bytes → Nat
  | [] => 0
  | _ :: rest => 3 * rest.length + language.idle pen + 1

theorem workBounded (language : Language) (pen : Pen) (text : Bytes) :
    language.work pen text ≤ 3 * text.length := by
  cases text with
  | nil => exact Nat.zero_le _
  | cons b rest =>
    have bound := idleBounded language pen
    simp only [work,List.length_cons]
    omega

theorem workFalls {language : Language} (marked : language.blockComment ≠ some ([], [])) (pen : Pen)
    (b : UInt8) (rest : Bytes) :
    let s := language.stroke pen b rest
    language.work s.pen ((b :: rest).drop s.width) < language.work pen (b :: rest) := by
  intro s
  rcases Nat.eq_zero_or_pos s.width with still | covers
  · rcases drawnAdvances (strokeDrawn language pen b rest) with covers | idles
    · exact absurd still (Nat.ne_of_gt covers)
    · have less := idleFalls marked idles
      rw [still,List.drop_zero]
      simp only [work]
      exact Nat.succ_lt_succ (Nat.add_lt_add_left less _)
  · have bound := workBounded language s.pen ((b :: rest).drop s.width)
    rw [List.length_drop,List.length_cons] at bound
    change _ < 3 * rest.length + language.idle pen + 1
    omega

theorem paintWithEnds {language : Language} (marked : language.blockComment ≠ some ([], [])) {fuel : Nat}
    {pen : Pen} {text : Bytes} (enough : language.work pen text ≤ fuel) :
    (language.paintWith fuel pen text).isSome = true := by
  induction fuel generalizing pen text with
  | zero =>
    cases text with
    | nil => rfl
    | cons b rest => cases enough
  | succ fuel ih =>
    cases text with
    | nil => rfl
    | cons b rest =>
      have less := workFalls marked pen b rest
      rw [paintWith,Option.isSome_map]
      exact ih (by omega)

def Marked (language : Option Language) : Prop :=
  ∀ l, language = some l → l.blockComment ≠ some ([], [])

theorem unmarkedNone : Marked none := nofun

theorem ofPathMarked (path : String) : Marked (ofPath? path) := by
  intro l found
  have among : l ∈ known := List.mem_of_find?_eq_some found
  simp only [known,List.mem_cons,List.not_mem_nil,or_false] at among
  rcases among with rfl | rfl | rfl
  · decide
  · decide
  · decide

end Language

namespace Painting

theorem whole {language : Option Language} {carried : Bool} {shown : Bytes} {painting : Painting}
    (painted : Painting.of language carried shown = some painting) :
    painting.styles.length = shown.length ∧ Style.found ∉ painting.styles := by
  cases language with
  | none =>
    cases Option.some.inj painted
    simp
  | some l => exact Language.paintWithWhole painted

theorem ends {language : Option Language} (marked : Language.Marked language) (carried : Bool)
    (shown : Bytes) : (Painting.of language carried shown).isSome = true := by
  cases language with
  | none => rfl
  | some l => exact Language.paintWithEnds (marked l rfl) (Language.workBounded l _ shown)

end Painting
end Vellum
