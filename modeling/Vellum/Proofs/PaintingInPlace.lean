import Vellum.Proofs.Strokes

/-! Painting a row in place. The row has a style for every byte from the beginning, and each
turn writes over a slice of it. No turn writes outside of the row, none of its places is
visited by more than three turns, and what stands there in the end is the painting of the
line. Only where both markers of a block comment are empty, the turns go on for ever. -/
namespace Vellum

structure Easel where
  place : Nat
  pen : Pen
  row : List Style
  deriving DecidableEq, Repr

namespace Easel

def start (inBlock : Bool) (shown : Bytes) : Easel :=
  ⟨0, .start inBlock, shown.map fun b => if Byte.isControl b then .control else .plain⟩

def fill? (row : List Style) (place width : Nat) (style : Style) : Option (List Style) :=
  if place + width ≤ row.length then
    some (row.take place ++ (List.replicate width style ++ row.drop (place + width)))
  else none

def stroke? (language : Language) (shown : Bytes) (e : Easel) : Option Stroke :=
  match shown.drop e.place with
  | [] => none
  | b :: rest => some (language.stroke e.pen b rest)

def turn? (language : Language) (shown : Bytes) (e : Easel) : Option Easel := do
  let s ← e.stroke? language shown
  let row ← fill? e.row e.place s.width s.style
  some ⟨e.place + s.width, s.pen, row⟩

inductive Turns (language : Language) (shown : Bytes) : Easel → List Easel → Easel → Prop where
  | done {e : Easel} (ended : shown.length ≤ e.place) : Turns language shown e [] e
  | turn {e next last : Easel} {visited : List Easel} (begun : e.place < shown.length)
      (turned : e.turn? language shown = some next) (later : Turns language shown next visited last) :
      Turns language shown e (e :: visited) last

/- Up to its place, the row is what a run of strokes over the text before has painted. -/
structure Sound (language : Language) (first : Pen) (shown : Bytes) (e : Easel) : Prop where
  size : e.row.length = shown.length
  within : e.place ≤ shown.length
  run : language.Strokes first shown (e.row.take e.place) e.pen (shown.drop e.place)

variable {language : Language} {first : Pen} {shown : Bytes} {e next last : Easel} {visited : List Easel}

theorem startSound (language : Language) (inBlock : Bool) (shown : Bytes) :
    (start inBlock shown).Sound language (.start inBlock) shown :=
  ⟨List.length_map _,Nat.zero_le _,.none⟩

theorem fillTake {row : List Style} {place width : Nat} {style : Style} (fits : place + width ≤ row.length) :
    (row.take place ++ (List.replicate width style ++ row.drop (place + width))).take (place + width) =
      row.take place ++ List.replicate width style := by
  have long : (row.take place ++ List.replicate width style).length = place + width := by
    rw [List.length_append,List.length_take,List.length_replicate]
    omega
  rw [← List.append_assoc,← long]
  exact List.take_left

theorem turnExact : e.turn? language shown = some next ↔
    ∃ s, e.stroke? language shown = some s ∧ e.place + s.width ≤ e.row.length ∧
      next = ⟨e.place + s.width, s.pen,
        e.row.take e.place ++ (List.replicate s.width s.style ++ e.row.drop (e.place + s.width))⟩ := by
  simp only [turn?,bind,Option.bind_eq_some_iff]
  constructor
  · rintro ⟨s,drawn,row,filled,⟨⟩⟩
    unfold fill? at filled
    split at filled
    · rename_i fits
      cases filled
      exact ⟨s,drawn,fits,rfl⟩
    · cases filled
  · rintro ⟨s,drawn,fits,rfl⟩
    exact ⟨s,drawn,_,if_pos fits,rfl⟩

theorem placeDrawn (language : Language) (begun : e.place < shown.length) :
    ∃ b rest, shown.drop e.place = b :: rest ∧
      e.stroke? language shown = some (language.stroke e.pen b rest) ∧
      e.place + (language.stroke e.pen b rest).width ≤ shown.length := by
  have split := List.drop_eq_getElem_cons begun
  refine ⟨_,_,split,by simp only [stroke?,split],?_⟩
  have bound := Language.drawnBounded (language.strokeDrawn e.pen shown[e.place] (shown.drop (e.place + 1)))
  rw [List.length_cons,List.length_drop] at bound
  omega

theorem turnSound (sound : e.Sound language first shown) (begun : e.place < shown.length) :
    ∃ next, e.turn? language shown = some next ∧ next.Sound language first shown := by
  obtain ⟨b,rest,split,drawn,fits⟩ := placeDrawn language begun
  have inside := sound.size ▸ fits
  refine ⟨_,turnExact.mpr ⟨_,drawn,inside,rfl⟩,?_,fits,?_⟩
  · have size := sound.size
    simp only [List.length_append,List.length_take,List.length_replicate,List.length_drop]
    omega
  · have before := sound.run
    rw [split] at before
    have run := Language.strokesTrans before (.next rfl .none)
    rw [List.append_nil,← split,List.drop_drop] at run
    rw [fillTake inside]
    exact run

theorem turnTaken (begun : e.place < shown.length) (turned : e.turn? language shown = some next) :
    ∃ b rest, shown.drop e.place = b :: rest ∧ next.pen = (language.stroke e.pen b rest).pen ∧
      next.place = e.place + (language.stroke e.pen b rest).width := by
  obtain ⟨b,rest,split,drawn,_⟩ := placeDrawn language begun
  obtain ⟨s,same,_,rfl⟩ := turnExact.mp turned
  cases drawn.symm.trans same
  exact ⟨b,rest,split,rfl,rfl⟩

theorem turnWorks (marked : language.blockComment ≠ some ([], [])) (begun : e.place < shown.length)
    (turned : e.turn? language shown = some next) :
    language.work next.pen (shown.drop next.place) < language.work e.pen (shown.drop e.place) := by
  obtain ⟨b,rest,split,pen,place⟩ := turnTaken begun turned
  have less := Language.workFalls marked e.pen b rest
  simp only [← split,List.drop_drop] at less
  rw [pen,place]
  exact less

theorem turnsEnd (marked : language.blockComment ≠ some ([], [])) (sound : e.Sound language first shown) :
    ∃ visited last, Turns language shown e visited last ∧ last.Sound language first shown ∧
      last.place = shown.length := by
  induction size : language.work e.pen (shown.drop e.place) using Nat.strongRecOn generalizing e with
  | ind work ih =>
    by_cases begun : e.place < shown.length
    · obtain ⟨next,turned,kept⟩ := turnSound sound begun
      obtain ⟨visited,last,later,ends⟩ := ih _ (size ▸ turnWorks marked begun turned) kept rfl
      exact ⟨e :: visited,last,.turn begun turned later,ends⟩
    · have ended := Nat.not_lt.mp begun
      exact ⟨[],e,.done ended,sound,Nat.le_antisymm sound.within ended⟩

theorem turnsSound (sound : e.Sound language first shown) (turns : Turns language shown e visited last) :
    ∀ each ∈ visited, each.place < shown.length ∧ each.Sound language first shown := by
  induction turns with
  | done _ => exact nofun
  | turn begun turned _ ih =>
    obtain ⟨next,same,kept⟩ := turnSound sound begun
    cases turned.symm.trans same
    exact List.forall_mem_cons.mpr ⟨⟨begun,sound⟩,ih kept⟩

theorem turnsUnique {others : List Easel} {other : Easel} (one : Turns language shown e visited last)
    (two : Turns language shown e others other) : others = visited ∧ other = last := by
  induction one generalizing others other with
  | done ended =>
    cases two with
    | done _ => exact ⟨rfl,rfl⟩
    | turn begun _ _ => exact absurd begun (Nat.not_lt.mpr ended)
  | turn begun turned _ ih =>
    cases two with
    | done ended => exact absurd begun (Nat.not_lt.mpr ended)
    | turn _ turned' later =>
      cases turned.symm.trans turned'
      obtain ⟨rfl,rfl⟩ := ih later
      exact ⟨rfl,rfl⟩

theorem turnsWork (marked : language.blockComment ≠ some ([], [])) (turns : Turns language shown e visited last)
    {k : Nat} {each : Easel} (found : visited[k]? = some each) :
    language.work each.pen (shown.drop each.place) + k ≤ language.work e.pen (shown.drop e.place) := by
  induction turns generalizing k with
  | done _ => cases found
  | turn begun turned _ ih =>
    cases k with
    | zero =>
      cases found
      exact Nat.le_refl _
    | succ k =>
      have less := turnWorks marked begun turned
      have later := ih found
      omega

theorem workLeast (language : Language) (pen : Pen) (text : Bytes) :
    3 * text.length ≤ language.work pen text + 2 := by
  cases text with
  | nil => exact Nat.zero_le _
  | cons b rest =>
    simp only [Language.work,List.length_cons]
    omega

theorem turnsApart (marked : language.blockComment ≠ some ([], [])) (turns : Turns language shown e visited last)
    {k : Nat} {one other : Easel} (here : visited[k]? = some one) (there : visited[k + 3]? = some other) :
    one.place < other.place := by
  induction turns generalizing k with
  | done _ => cases here
  | turn begun turned later ih =>
    cases k with
    | zero =>
      cases here
      -- Three turns take three off the work that is left, and at one place it varies by two at most.
      have worked := turnsWork marked (.turn begun turned later) there
      have most := language.workBounded one.pen (shown.drop one.place)
      have least := workLeast language other.pen (shown.drop other.place)
      rw [List.length_drop] at most least
      omega
    | succ k => exact ih here there

theorem emptyMarkersStroke (empty : language.blockComment = some ([], [])) {pen : Pen} (unquoted : pen.quote = none)
    (b : UInt8) (rest : Bytes) :
    (language.stroke pen b rest).width = 0 ∧ (language.stroke pen b rest).pen.quote = none := by
  cases inside : pen.inBlock <;>
    simp [Language.stroke,Language.blockStroke?,empty,inside,unquoted,Stroke.of,Pen.past]

theorem emptyMarkersPainting (empty : language.blockComment = some ([], [])) {pen : Pen}
    (unquoted : pen.quote = none) {text : Bytes} (more : text ≠ []) (fuel : Nat) :
    language.paintWith fuel pen text = none := by
  induction fuel generalizing pen with
  | zero =>
    cases text with
    | nil => exact absurd rfl more
    | cons b rest => rfl
  | succ fuel ih =>
    cases text with
    | nil => exact absurd rfl more
    | cons b rest =>
      obtain ⟨still,outside⟩ := emptyMarkersStroke empty unquoted b rest
      simp only [Language.paintWith]
      rw [still,List.drop_zero,ih outside]
      rfl

theorem turnsForever (empty : language.blockComment = some ([], [])) (unquoted : e.pen.quote = none)
    (begun : e.place < shown.length) : ¬ Turns language shown e visited last := by
  intro turns
  induction turns with
  | done ended => exact Nat.not_le.mpr begun ended
  | turn _ turned _ ih =>
    obtain ⟨b,rest,_,pen,place⟩ := turnTaken begun turned
    obtain ⟨still,outside⟩ := emptyMarkersStroke empty unquoted b rest
    rw [still,Nat.add_zero] at place
    exact ih (pen ▸ outside) (place ▸ begun)

end Easel

theorem rowPaintedInPlace (language : Language) (carried : Bool) (shown : Bytes) :
    let begun := Easel.start (carried && language.blockComment.isSome) shown
    (language.blockComment ≠ some ([], []) → ∃ visited last,
      Easel.Turns language shown begun visited last ∧
      Painting.of (some language) carried shown = some ⟨last.row, last.pen.inBlock⟩ ∧
      last.row.length = shown.length ∧
      (∀ (k : Nat) (one other : Easel), visited[k]? = some one → visited[k + 3]? = some other →
        one.place < other.place) ∧
      ∀ e ∈ visited, e.row.length = shown.length ∧
        ∃ s, e.stroke? language shown = some s ∧ e.place + s.width ≤ shown.length) ∧
    (language.blockComment = some ([], []) → shown ≠ [] →
      Painting.of (some language) carried shown = none ∧
        ∀ visited last, ¬ Easel.Turns language shown begun visited last) := by
  intro begun
  have sound := Easel.startSound language (carried && language.blockComment.isSome) shown
  constructor
  · intro marked
    obtain ⟨visited,last,turns,kept,ended⟩ := Easel.turnsEnd marked sound
    have run := kept.run
    rw [ended,List.drop_length,← kept.size,List.take_length] at run
    refine ⟨visited,last,turns,Language.strokesPainting marked carried run,kept.size,
      fun _ _ _ => Easel.turnsApart marked turns,?_⟩
    intro e member
    obtain ⟨inside,held⟩ := Easel.turnsSound sound turns e member
    obtain ⟨b,rest,_,drawn,fits⟩ := Easel.placeDrawn language inside
    exact ⟨held.size,_,drawn,fits⟩
  · intro empty some
    refine ⟨Easel.emptyMarkersPainting empty rfl some _,?_⟩
    intro visited last
    exact Easel.turnsForever empty rfl (List.length_pos_iff.mpr some)

theorem rowPaintedInPlaceThrice :
    let language : Language := { name := "", keywords := [[]], blockComment := some ([40], []) }
    ∃ visited last, Easel.Turns language [44, 120] (.start true [44, 120]) visited last ∧
      visited.map Easel.place = [0, 0, 0, 1] ∧ last.row = [.plain, .plain] ∧
      Painting.of (some language) true [44, 120] = some ⟨last.row, last.pen.inBlock⟩ := by
  intro language
  obtain ⟨visited,last,turns,painted,_⟩ := (rowPaintedInPlace language true [44, 120]).1 (by decide)
  have closed : Easel.turn? language [44, 120] ⟨0, ⟨true, none, true, false⟩, [.plain, .plain]⟩ =
      some ⟨0, ⟨true, none, false, false⟩, [.plain, .plain]⟩ := by decide +kernel
  have word : Easel.turn? language [44, 120] ⟨0, ⟨true, none, false, false⟩, [.plain, .plain]⟩ =
      some ⟨0, ⟨false, none, false, false⟩, [.plain, .plain]⟩ := by decide +kernel
  have comma : Easel.turn? language [44, 120] ⟨0, ⟨false, none, false, false⟩, [.plain, .plain]⟩ =
      some ⟨1, ⟨true, none, false, false⟩, [.plain, .plain]⟩ := by decide +kernel
  have letter : Easel.turn? language [44, 120] ⟨1, ⟨true, none, false, false⟩, [.plain, .plain]⟩ =
      some ⟨2, ⟨false, none, false, false⟩, [.plain, .plain]⟩ := by decide +kernel
  have drawn := Easel.Turns.turn (by decide) closed (.turn (by decide) word (.turn (by decide) comma
    (.turn (by decide) letter (.done (by decide)))))
  obtain ⟨rfl,rfl⟩ := Easel.turnsUnique drawn turns
  exact ⟨_,_,drawn,rfl,rfl,painted⟩

end Vellum
