import Mathlib.Data.List.Induction
import Vellum.Colour.Strokes
import Vellum.Proofs.Tokens

/-! Runs of strokes. A line is painted by a run that leaves nothing of it; where runs
follow each other, so do their styles. Unless both markers of a block comment are empty,
such a run exists for every line, and its styles are those of the painting. -/
namespace Vellum

def Stroke.Covering (s : Stroke) : Prop := 0 < s.width

namespace Language

inductive Strokes (language : Language) : Pen → Bytes → List Style → Pen → Bytes → Prop where
  | none {pen : Pen} {text : Bytes} : Strokes language pen text [] pen text
  | next {pen : Pen} {b : UInt8} {rest : Bytes} {s : Stroke} {styles : List Style} {last : Pen}
      {left : Bytes} (drawn : language.stroke pen b rest = s)
      (later : Strokes language s.pen ((b :: rest).drop s.width) styles last left) :
      Strokes language pen (b :: rest) (List.replicate s.width s.style ++ styles) last left

theorem strokesTrans {language : Language} {pen middle last : Pen} {text rest left : Bytes}
    {styles others : List Style} (first : language.Strokes pen text styles middle rest)
    (second : language.Strokes middle rest others last left) :
    language.Strokes pen text (styles ++ others) last left := by
  induction first with
  | none => exact second
  | next drawn _ ih =>
    rw [List.append_assoc]
    exact .next drawn (ih second)

theorem strokesFrom {language : Language} {pen last : Pen} {b : UInt8} {rest : Bytes} {styles : List Style}
    (run : language.Strokes pen (b :: rest) styles last []) :
    let s := language.stroke pen b rest
    ∃ later, styles = List.replicate s.width s.style ++ later ∧
      language.Strokes s.pen ((b :: rest).drop s.width) later last [] := by
  cases run with
  | next drawn later =>
    subst drawn
    exact ⟨_,rfl,later⟩

theorem wordAtIff {text word : Bytes} : wordAt text word = true ↔ Standing text word := by
  rw [wordAt,Bool.and_eq_true,List.isPrefixOf_iff_prefix]
  constructor
  · rintro ⟨front,bounded⟩
    refine ⟨front,?_⟩
    intro b found
    rwa [found] at bounded
  · rintro ⟨front,bounded⟩
    refine ⟨front,?_⟩
    cases found : text[word.length]? with
    | none => rfl
    | some b => exact bounded b found

inductive Best (text : Bytes) (entries : List (Bytes × Style)) : Option (Nat × Style) → Prop where
  | none (missing : ∀ x ∈ entries, ¬ Standing text x.1) : Best text entries none
  | some {before after : List (Bytes × Style)} {word : Bytes} {style : Style}
      (split : entries = before ++ (word, style) :: after) (standing : Standing text word)
      (longer : ∀ x ∈ before, Standing text x.1 → x.1.length < word.length)
      (longest : ∀ x ∈ after, Standing text x.1 → x.1.length ≤ word.length) :
      Best text entries (some (word.length, style))

theorem bestNext {text : Bytes} {entries : List (Bytes × Style)} {best : Option (Nat × Style)}
    (so : Best text entries best) (word : Bytes) (style : Style) :
    Best text (entries ++ [(word, style)])
      (if wordAt text word then longer best (word.length, style) else best) := by
  by_cases standing : Standing text word
  · rw [if_pos (wordAtIff.mpr standing)]
    cases so with
    | none missing =>
      exact .some rfl standing (fun x member stands => absurd stands (missing x member)) nofun
    | @some before after other kind split stands longer longest =>
      simp only [Language.longer]
      by_cases more : other.length < word.length
      · rw [if_pos more]
        refine .some rfl standing ?_ nofun
        intro x member there
        rw [split,List.mem_append,List.mem_cons] at member
        rcases member with early | rfl | late
        · exact Nat.lt_trans (longer x early there) more
        · exact more
        · exact Nat.lt_of_le_of_lt (longest x late there) more
      · rw [if_neg more]
        refine .some (by rw [split,List.append_assoc]; rfl) stands longer ?_
        intro x member there
        rcases List.mem_append.mp member with late | last
        · exact longest x late there
        · cases List.mem_singleton.mp last
          exact Nat.not_lt.mp more
  · rw [if_neg (mt wordAtIff.mp standing)]
    cases so with
    | none missing =>
      refine .none ?_
      intro x member
      rcases List.mem_append.mp member with early | last
      · exact missing x early
      · cases List.mem_singleton.mp last
        exact standing
    | @some before after other kind split stands longer longest =>
      refine .some (by rw [split,List.append_assoc]; rfl) stands longer ?_
      intro x member there
      rcases List.mem_append.mp member with late | last
      · exact longest x late there
      · cases List.mem_singleton.mp last
        exact absurd there standing

theorem bestPicked (text : Bytes) (entries : List (Bytes × Style)) :
    Best text entries (entries.foldl (fun best entry =>
      if wordAt text entry.1 then longer best (entry.1.length, entry.2) else best) none) := by
  induction entries using List.reverseRecOn with
  | nil => exact .none nofun
  | append_singleton entries entry ih =>
    rw [List.foldl_append]
    exact bestNext ih entry.1 entry.2

theorem bestWord {language : Language} {text : Bytes} {best : Option (Nat × Style)}
    (so : Best text ((language.keywords.map fun w => (w, Style.keyword)) ++
      language.types.map fun w => (w, Style.typeName)) best) :
    (∀ found, best = some found → language.Word text found.1 found.2) ∧
      (best = none → ∀ v, v ∈ language.keywords ∨ v ∈ language.types → ¬ Standing text v) := by
  have entered (v : Bytes) (listed : v ∈ language.keywords ∨ v ∈ language.types) :
      ∃ style, (v, style) ∈ (language.keywords.map fun w => (w, Style.keyword)) ++
        language.types.map fun w => (w, Style.typeName) := by
    rcases listed with keyword | type
    · exact ⟨_,List.mem_append_left _ (List.mem_map_of_mem keyword)⟩
    · exact ⟨_,List.mem_append_right _ (List.mem_map_of_mem type)⟩
  cases so with
  | none missing =>
    refine ⟨nofun,?_⟩
    intro _ v listed
    obtain ⟨_,member⟩ := entered v listed
    exact missing _ member
  | @some before after word style split standing longer longest =>
    refine ⟨?_,nofun⟩
    rintro _ ⟨⟩
    have bound (v : Bytes) (listed : v ∈ language.keywords ∨ v ∈ language.types)
        (stands : Standing text v) : v.length ≤ word.length := by
      obtain ⟨_,member⟩ := entered v listed
      rw [split,List.mem_append,List.mem_cons] at member
      rcases member with early | same | late
      · exact Nat.le_of_lt (longer _ early stands)
      · cases same
        exact Nat.le_refl _
      · exact longest _ late stands
    have member : (word, style) ∈ (language.keywords.map fun w => (w, Style.keyword)) ++
        language.types.map fun w => (w, Style.typeName) := by
      rw [split]
      exact List.mem_append_right _ List.mem_cons_self
    rcases List.mem_append.mp member with keyword | type
    · obtain ⟨_,listed,⟨⟩⟩ := List.mem_map.mp keyword
      exact .keyword listed standing bound
    · obtain ⟨_,listed,⟨⟩⟩ := List.mem_map.mp type
      refine .typeName listed standing ?_ fun v among => bound v (.inr among)
      -- The keywords all come before the type that was picked.
      intro v among stands
      have keyword := List.mem_map_of_mem (f := fun w => (w, Style.keyword)) among
      rcases List.append_eq_append_iff.mp split with ⟨more,early,_⟩ | ⟨more,early,late⟩
      · exact longer _ (early ▸ List.mem_append_left _ keyword) stands
      · cases more with
        | nil =>
          rw [List.append_nil] at early
          exact longer _ (early ▸ keyword) stands
        | cons head more =>
          obtain ⟨rfl,_⟩ := List.cons.inj late
          have inside := List.mem_append_right before (List.mem_cons_self (a := (word, Style.typeName)) (l := more))
          rw [← early] at inside
          obtain ⟨_,_,⟨⟩⟩ := List.mem_map.mp inside

theorem wordExact {language : Language} {text : Bytes} {n : Nat} {style : Style} :
    language.word? text = some (n, style) ↔ language.Word text n style := by
  obtain ⟨found,missing⟩ := bestWord (bestPicked text _)
  constructor
  · exact found (n, style)
  · intro word
    cases picked : language.word? text with
    | none =>
      cases word with
      | keyword listed standing _ => exact absurd standing (missing picked _ (.inl listed))
      | typeName listed standing _ _ => exact absurd standing (missing picked _ (.inr listed))
    | some other =>
      obtain ⟨length,kind⟩ := wordUnique (found other picked) word
      rw [← length,← kind]

structure Filled (language : Language) : Prop where
  words : ∀ w, w ∈ language.keywords ∨ w ∈ language.types → w ≠ []
  markers : ∀ m ∈ language.markers, m ≠ []

theorem regularFilled {language : Language} (regular : language.Regular) : language.Filled :=
  ⟨regular.words,fun _ => markerSome regular⟩

theorem strokeCovers {language : Language} (filled : language.Filled) (pen : Pen) (b : UInt8)
    (rest : Bytes) : (language.stroke pen b rest).Covering := by
  rcases drawnAdvances (strokeDrawn language pen b rest) with covers | idles
  · exact covers
  · generalize (language.stroke pen b rest).pen = next at idles
    cases idles with
    | closes given _ => exact absurd rfl (filled.markers _ (blockMarkers given).2)
    | opens given _ _ => exact absurd rfl (filled.markers _ (blockMarkers given).1)
    | word listed _ _ =>
      cases listed with
      | keyword member => exact absurd rfl (filled.words [] (.inl member))
      | typeName member => exact absurd rfl (filled.words [] (.inr member))

theorem filledMarked {language : Language} (filled : language.Filled) :
    language.blockComment ≠ some ([], []) := fun given => filled.markers _ (blockMarkers given).1 rfl

section
variable {language : Language} (marked : language.blockComment ≠ some ([], []))
include marked

theorem strokesPaint {pen last : Pen} {text left : Bytes} {styles : List Style}
    (run : language.Strokes pen text styles last left) (whole : left = []) {fuel : Nat}
    (enough : language.work pen text ≤ fuel) :
    language.paintWith fuel pen text = some ⟨styles, last.inBlock⟩ := by
  induction run generalizing fuel with
  | none =>
    subst whole
    cases fuel <;> rfl
  | @next pen b rest s styles last left drawn _ ih =>
    have less := workFalls marked pen b rest
    simp only [drawn] at less
    cases fuel with
    | zero => omega
    | succ fuel =>
      have later := @ih whole fuel (by omega)
      simp only [paintWith,drawn,later,Option.map_some]

theorem strokesPainting (carried : Bool) {shown : Bytes} {styles : List Style} {last : Pen}
    (run : language.Strokes (.start (carried && language.blockComment.isSome)) shown styles last []) :
    Painting.of (some language) carried shown = some ⟨styles, last.inBlock⟩ :=
  strokesPaint marked run rfl (workBounded _ _ _)

theorem strokesExist (pen : Pen) (text : Bytes) : ∃ styles last, language.Strokes pen text styles last [] := by
  induction size : language.work pen text using Nat.strongRecOn generalizing pen text with
  | ind work ih =>
    cases text with
    | nil => exact ⟨[],pen,.none⟩
    | cons b rest =>
      have less := workFalls marked pen b rest
      rw [size] at less
      obtain ⟨styles,last,later⟩ := ih _ less _ _ rfl
      exact ⟨_,last,.next rfl later⟩

end

end Language
end Vellum
