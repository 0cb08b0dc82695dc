import Vellum.Proofs.CursorSpot

/-! Columns of the content and columns of what is shown. Every byte of a line takes a
stretch of shown columns of its own; the stretches follow each other without a gap, so
that a shown column within the line belongs to one byte, and leads back to it. -/
namespace Vellum

inductive ShownAs (tabStop first : Nat) : UInt8 → Bytes → Prop where
  | tab {width : Nat} (some : 0 < width) (short : width ≤ max tabStop 1)
      (stops : max tabStop 1 ∣ first + width) :
      ShownAs tabStop first Byte.tab (List.replicate width Byte.space)
  | other {b : UInt8} (untabbed : b ≠ Byte.tab) : ShownAs tabStop first b [b]

theorem tabStops (tabStop column : Nat) :
    max tabStop 1 ∣ column + shownWidth tabStop column Byte.tab := by
  have positive : 0 < max tabStop 1 := by omega
  have below := Nat.mod_lt column positive
  have whole := Nat.div_add_mod column (max tabStop 1)
  have next : column + shownWidth tabStop column Byte.tab =
      max tabStop 1 * (column / max tabStop 1 + 1) := by
    rw [shownWidth,if_pos rfl,Nat.mul_add,Nat.mul_one]
    omega
  rw [next]
  exact Nat.dvd_mul_right _ _

theorem cellShown (tabStop column : Nat) (b : UInt8) :
    ShownAs tabStop column b (cell tabStop column b) := by
  by_cases tab : b = Byte.tab
  · subst tab
    have short : shownWidth tabStop column Byte.tab ≤ max tabStop 1 := by
      rw [shownWidth,if_pos rfl]
      exact Nat.sub_le _ _
    rw [cell,if_pos rfl]
    exact .tab (shownWidthPositive _ _ _) short (tabStops tabStop column)
  · rw [cell,if_neg tab]
    exact .other tab

namespace Line

theorem columnFromBrackets {tabStop goal first : Nat} (within : first ≤ goal) (content : Bytes) :
    let column := columnFrom tabStop goal first content
    widthFrom tabStop first (content.take column) ≤ goal ∧
      (column < content.length → goal < widthFrom tabStop first (content.take (column + 1))) := by
  induction content generalizing first with
  | nil => exact ⟨within,nofun⟩
  | cons b rest ih =>
    by_cases beyond : goal < first + shownWidth tabStop first b
    · rw [columnFromCons,if_pos beyond]
      refine ⟨within,fun _ => ?_⟩
      rwa [Nat.zero_add,List.take_succ_cons,widthFromCons,List.take_zero]
    · obtain ⟨least,most⟩ := ih (Nat.not_lt.mp beyond)
      simp only [columnFromCons,if_neg beyond,Nat.add_comm 1,List.take_succ_cons,widthFromCons]
      refine ⟨least,?_⟩
      intro inside
      exact most (Nat.lt_of_succ_lt_succ inside)

section
variable (tabStop : Nat) (line : Line)

theorem expandedNext {column : Nat} {b : UInt8} (found : line.content[column]? = some b) :
    expandTabs tabStop (line.content.take (column + 1)) =
      expandTabs tabStop (line.content.take column) ++
        cell tabStop (line.shownColumn tabStop column) b := by
  have next : line.content.take (column + 1) = line.content.take column ++ [b] := by
    rw [List.take_add_one,found,Option.toList_some]
  rw [next,expandTabsAppend,shownColumnLength,expandFrom,expandFrom,List.append_nil]

theorem shownColumnNext {column : Nat} {b : UInt8} (found : line.content[column]? = some b) :
    line.shownColumn tabStop (column + 1) = line.shownColumn tabStop column +
      shownWidth tabStop (line.shownColumn tabStop column) b := by
  rw [shownColumnLength,expandedNext tabStop line found,List.length_append,cellLength,
    ← shownColumnLength]

theorem shownColumnEnd {column : Nat} (past : line.size ≤ column) :
    line.shownColumn tabStop column = (expandTabs tabStop line.content).length := by
  rw [shownColumnLength,List.take_of_length_le past]

theorem shownColumnAscends {one other : Nat} (less : one < other) (inside : other ≤ line.size) :
    line.shownColumn tabStop one < line.shownColumn tabStop other := by
  induction other with
  | zero => cases less
  | succ middle ih =>
    have wide := shownWidthPositive tabStop (line.shownColumn tabStop middle) line.content[middle]
    have next := shownColumnNext tabStop line (List.getElem?_eq_getElem inside)
    rcases Nat.lt_or_eq_of_le (Nat.le_of_lt_succ less) with before | rfl
    · have ascends := ih before (Nat.le_of_succ_le inside)
      omega
    · omega

theorem bracketedOrder {goal one other : Nat} (inside : one ≤ line.size)
    (least : line.shownColumn tabStop one ≤ goal)
    (most : other < line.size → goal < line.shownColumn tabStop (other + 1)) : one ≤ other := by
  apply Nat.le_of_not_lt
  intro after
  have beyond := most (Nat.lt_of_lt_of_le after inside)
  rcases Nat.lt_or_eq_of_le (show other + 1 ≤ one from after) with further | rfl
  · have ascends := shownColumnAscends tabStop line further inside
    omega
  · omega

theorem columnAtBrackets (goal : Nat) :
    let column := line.columnAt tabStop goal
    column ≤ line.size ∧ line.shownColumn tabStop column ≤ goal ∧
      (column < line.size → goal < line.shownColumn tabStop (column + 1)) :=
  ⟨columnFromBounded _ _ _ _,columnFromBrackets (Nat.zero_le goal) line.content⟩

theorem columnAtBetween {goal column : Nat} (inside : column ≤ line.size)
    (least : line.shownColumn tabStop column ≤ goal)
    (most : column < line.size → goal < line.shownColumn tabStop (column + 1)) :
    line.columnAt tabStop goal = column := by
  obtain ⟨bound,lower,upper⟩ := columnAtBrackets tabStop line goal
  exact Nat.le_antisymm (bracketedOrder tabStop line bound lower most)
    (bracketedOrder tabStop line inside least upper)

theorem columnAtShown {column : Nat} (inside : column ≤ line.size) :
    line.columnAt tabStop (line.shownColumn tabStop column) = column := by
  apply columnAtBetween tabStop line inside (Nat.le_refl _)
  intro more
  exact shownColumnAscends tabStop line (Nat.lt_succ_self column) more

theorem columnAtEnd {goal : Nat} (past : (expandTabs tabStop line.content).length ≤ goal) :
    line.columnAt tabStop goal = line.size := by
  apply columnAtBetween tabStop line (Nat.le_refl _)
  · rwa [shownColumnEnd tabStop line (Nat.le_refl _)]
  · intro more
    exact absurd more (Nat.lt_irrefl _)

theorem columnAtCovers {goal column : Nat}
    (shown : goal < (expandTabs tabStop line.content).length) :
    line.columnAt tabStop goal = column ↔
      line.shownColumn tabStop column ≤ goal ∧ goal < line.shownColumn tabStop (column + 1) := by
  constructor
  · rintro rfl
    obtain ⟨bound,lower,upper⟩ := columnAtBrackets tabStop line goal
    refine ⟨lower,upper (Nat.lt_of_le_of_ne bound ?_)⟩
    intro same
    rw [same,shownColumnEnd tabStop line (Nat.le_refl _)] at lower
    omega
  · rintro ⟨least,most⟩
    refine columnAtBetween tabStop line ?_ least fun _ => most
    apply Nat.le_of_not_lt
    intro past
    rw [shownColumnEnd tabStop line (Nat.le_of_lt past)] at least
    omega

end

theorem shownColumnsInvert (tabStop : Nat) (line : Line) :
    (∀ column, line.shownColumn tabStop column =
        (expandTabs tabStop (line.content.take column)).length ∧
      expandTabs tabStop (line.content.take column) <+: expandTabs tabStop line.content) ∧
    (∀ one other, one < other → other ≤ line.size →
      line.shownColumn tabStop one < line.shownColumn tabStop other) ∧
    (∀ column, column ≤ line.size →
      line.columnAt tabStop (line.shownColumn tabStop column) = column) ∧
    (∀ goal, goal < (expandTabs tabStop line.content).length → ∀ column,
      line.columnAt tabStop goal = column ↔
        line.shownColumn tabStop column ≤ goal ∧ goal < line.shownColumn tabStop (column + 1)) ∧
    (∀ goal, (expandTabs tabStop line.content).length ≤ goal →
      line.columnAt tabStop goal = line.size) ∧
    (∀ column b, line.content[column]? = some b → ∃ cell,
      ShownAs tabStop (line.shownColumn tabStop column) b cell ∧
      expandTabs tabStop (line.content.take (column + 1)) =
        expandTabs tabStop (line.content.take column) ++ cell ∧
      (b = Byte.tab → max tabStop 1 ∣ line.shownColumn tabStop (column + 1))) := by
  refine ⟨?_,fun _ _ => shownColumnAscends tabStop line,fun _ => columnAtShown tabStop line,
    fun _ shown _ => columnAtCovers tabStop line shown,fun _ => columnAtEnd tabStop line,?_⟩
  · intro column
    exact ⟨shownColumnLength tabStop line column,expandTabsTake tabStop line.content column⟩
  · intro column b found
    refine ⟨_,cellShown _ _ _,expandedNext tabStop line found,?_⟩
    rintro rfl
    rw [shownColumnNext tabStop line found]
    exact tabStops tabStop _

theorem shownColumnsInvertInTab :
    let line := ofContent 0 [97, 9, 98]
    expandTabs 4 line.content = [97, 32, 32, 32, 98] ∧ line.columnAt 4 3 = 1 ∧
      line.columnAt 4 (line.shownColumn 4 2) = 2 ∧ line.columnAt 4 9 = 3 ∧
      4 ∣ line.shownColumn 4 2 := by
  obtain ⟨_,_,inverts,covers,beyond,cells⟩ := shownColumnsInvert 4 (ofContent 0 [97, 9, 98])
  obtain ⟨_,_,_,stops⟩ := cells 1 Byte.tab rfl
  exact ⟨rfl,(covers 3 (by decide) 1).mpr (by decide),inverts 2 (by decide),beyond 9 (by decide),
    stops rfl⟩

end Line
end Vellum
