import Vellum.Line

/-! How wide a byte is shown. A tab is pushed as spaces until the tab stop divides what
has been pushed; columns are summed up without pushing anything. Both come to the same
width, which depends on nothing but the column that the byte begins at. -/
namespace Vellum

def shownWidth (tabStop : Nat) (column : Nat) (b : UInt8) : Nat :=
  if b = Byte.tab then max tabStop 1 - column % max tabStop 1 else 1

def cell (tabStop column : Nat) (b : UInt8) : Bytes :=
  if b = Byte.tab then List.replicate (shownWidth tabStop column b) Byte.space else [b]

def expandFrom (tabStop : Nat) : Nat → Bytes → Bytes
  | _, [] => []
  | column, b :: rest =>
    cell tabStop column b ++ expandFrom tabStop (column + shownWidth tabStop column b) rest

section
variable (tabStop : Nat)

theorem shownWidthPositive (column : Nat) (b : UInt8) : 0 < shownWidth tabStop column b := by
  unfold shownWidth
  split
  · have positive : 0 < max tabStop 1 := by omega
    have below := Nat.mod_lt column positive
    omega
  · exact Nat.one_pos

theorem cellLength (column : Nat) (b : UInt8) :
    (cell tabStop column b).length = shownWidth tabStop column b := by
  by_cases tab : b = Byte.tab
  · rw [cell,if_pos tab,List.length_replicate]
  · rw [cell,if_neg tab,shownWidth,if_neg tab,List.length_singleton]

theorem pushToStopEnds (shown : Array UInt8) :
    (pushToStop tabStop shown).toList = shown.toList ++
      List.replicate ((max tabStop 1 - shown.size % max tabStop 1) % max tabStop 1) Byte.space := by
  induction shown using pushToStop.induct tabStop with
  | case1 shown divides =>
    rw [pushToStop,if_pos divides,divides,Nat.sub_zero,Nat.mod_self]
    exact (List.append_nil _).symm
  | case2 shown off ih =>
    rw [pushToStop,if_neg off,ih,Array.size_push,Array.toList_push,paddingBefore off,
      ← paddingAfter (Nat.le_max_right tabStop 1) shown.size,List.replicate_succ,List.append_assoc]
    rfl

theorem pushedShown (shown : Array UInt8) (b : UInt8) :
    (pushShown tabStop shown b).toList = shown.toList ++ cell tabStop shown.size b := by
  by_cases tab : b = Byte.tab
  · rw [pushShown,if_pos tab,pushToStopEnds,Array.size_push,Array.toList_push,cell,if_pos tab,shownWidth,
      if_pos tab,← paddingAfter (Nat.le_max_right tabStop 1) shown.size,List.replicate_succ,List.append_assoc]
    rfl
  · rw [pushShown,if_neg tab,Array.toList_push,cell,if_neg tab]

theorem pushedFrom (shown : Array UInt8) (content : Bytes) :
    (content.foldl (pushShown tabStop) shown).toList =
      shown.toList ++ expandFrom tabStop shown.size content := by
  induction content generalizing shown with
  | nil => exact (List.append_nil _).symm
  | cons b rest ih =>
    have pushed := pushedShown tabStop shown b
    have size : (pushShown tabStop shown b).size = shown.size + shownWidth tabStop shown.size b := by
      rw [← Array.length_toList,pushed,List.length_append,cellLength,Array.length_toList]
    rw [List.foldl_cons,ih,pushed,size,List.append_assoc,expandFrom]

theorem expandTabsFrom (content : Bytes) : expandTabs tabStop content = expandFrom tabStop 0 content :=
  pushedFrom tabStop #[] content

theorem reachedColumn (column : Nat) (b : UInt8) :
    (if b = Byte.tab then column + (max tabStop 1 - 1 - column % max tabStop 1) else column) + 1 =
      column + shownWidth tabStop column b := by
  have below := Nat.mod_lt column (Nat.le_max_right tabStop 1)
  by_cases tab : b = Byte.tab
  · rw [if_pos tab,shownWidth,if_pos tab]
    omega
  · rw [if_neg tab,shownWidth,if_neg tab]

namespace Line

theorem widthFromCons (column : Nat) (b : UInt8) (rest : Bytes) :
    widthFrom tabStop column (b :: rest) =
      widthFrom tabStop (column + shownWidth tabStop column b) rest := by
  rw [widthFrom,reachedColumn]

theorem columnFromCons (goal column : Nat) (b : UInt8) (rest : Bytes) :
    columnFrom tabStop goal column (b :: rest) =
      if goal < column + shownWidth tabStop column b then 0
      else 1 + columnFrom tabStop goal (column + shownWidth tabStop column b) rest := by
  rw [columnFrom,reachedColumn]

theorem expandFromLength (column : Nat) (content : Bytes) :
    column + (expandFrom tabStop column content).length = widthFrom tabStop column content := by
  induction content generalizing column with
  | nil => rfl
  | cons b rest ih => rw [widthFromCons,← ih,expandFrom,List.length_append,cellLength,Nat.add_assoc]

theorem expandFromAppend (column : Nat) (left right : Bytes) :
    expandFrom tabStop column (left ++ right) =
      expandFrom tabStop column left ++
        expandFrom tabStop (column + (expandFrom tabStop column left).length) right := by
  induction left generalizing column with
  | nil => rfl
  | cons b rest ih =>
    simp only [List.cons_append,expandFrom,ih,List.append_assoc,List.length_append,cellLength,
      Nat.add_assoc]

theorem expandFromBounded (column : Nat) (content : Bytes) :
    (expandFrom tabStop column content).length ≤
      content.length + content.count Byte.tab * (max tabStop 1 - 1) := by
  induction content generalizing column with
  | nil => exact Nat.zero_le _
  | cons b rest ih =>
    rw [expandFrom,List.length_append,cellLength,List.length_cons]
    by_cases tab : b = Byte.tab
    · subst b
      have width : shownWidth tabStop column Byte.tab ≤ max tabStop 1 := by
        rw [shownWidth,if_pos rfl]
        exact Nat.sub_le _ _
      have later := ih (column + shownWidth tabStop column Byte.tab)
      rw [List.count_cons_self,Nat.succ_mul]
      omega
    · have later := ih (column + 1)
      rw [List.count_cons_of_ne tab,shownWidth,if_neg tab]
      omega

theorem columnFromBounded (goal column : Nat) (content : Bytes) :
    columnFrom tabStop goal column content ≤ content.length := by
  induction content generalizing column with
  | nil => exact Nat.le_refl 0
  | cons b rest ih =>
    rw [columnFromCons]
    split
    · exact Nat.zero_le _
    · have later := ih (column + shownWidth tabStop column b)
      rw [List.length_cons]
      omega

theorem shownColumnLength (line : Line) (column : Nat) :
    line.shownColumn tabStop column = (expandTabs tabStop (line.content.take column)).length := by
  have length := expandFromLength tabStop 0 (line.content.take column)
  rw [Nat.zero_add] at length
  rw [shownColumn,expandTabsFrom,length]

end Line

theorem expandTabsAppend (left right : Bytes) :
    expandTabs tabStop (left ++ right) =
      expandTabs tabStop left ++ expandFrom tabStop (expandTabs tabStop left).length right := by
  rw [expandTabsFrom,expandTabsFrom,Line.expandFromAppend,Nat.zero_add]

theorem expandTabsTake (content : Bytes) (n : Nat) :
    expandTabs tabStop (content.take n) <+: expandTabs tabStop content := by
  have whole := expandTabsAppend tabStop (content.take n) (content.drop n)
  rw [List.take_append_drop] at whole
  exact ⟨_,whole.symm⟩

theorem expandTabsBounded (content : Bytes) :
    (expandTabs tabStop content).length ≤
      content.length + content.count Byte.tab * (max tabStop 1 - 1) := by
  rw [expandTabsFrom]
  exact Line.expandFromBounded tabStop 0 content

theorem expandTabsPositive (content : Bytes) :
    expandTabs (max tabStop 1) content = expandTabs tabStop content := by
  have same : max (max tabStop 1) 1 = max tabStop 1 := by omega
  have width : shownWidth (max tabStop 1) = shownWidth tabStop := by
    funext column b
    rw [shownWidth,shownWidth,same]
  have cells : cell (max tabStop 1) = cell tabStop := by
    funext column b
    rw [cell,cell,width]
  have expanded (column : Nat) :
      expandFrom (max tabStop 1) column content = expandFrom tabStop column content := by
    induction content generalizing column with
    | nil => rfl
    | cons b rest ih => rw [expandFrom,expandFrom,width,cells,ih]
  rw [expandTabsFrom,expandTabsFrom,expanded]

end
end Vellum
