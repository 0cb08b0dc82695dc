import Vellum.Colour.Strokes
import Vellum.Size
/-! One line of a document: its bytes, how they are shown, and how those are
painted. Columns count bytes of the content; shown columns count bytes after tabs
have been expanded. -/
namespace Vellum

structure Line where
  index : Nat
  content : Bytes
  shown : Bytes
  styles : List Style
  opens : Bool
  /-- What the styles were painted from; `none` once they are out of date. -/
  paintedFrom : Option Bool
  deriving DecidableEq, Repr

theorem paddingAfter {stop : Nat} (positive : 0 < stop) (n : Nat) :
    (stop - (n + 1) % stop) % stop + 1 = stop - n % stop := by
  have below := Nat.mod_lt n positive
  by_cases last : n % stop + 1 = stop
  · have full : (n + 1) % stop = 0 := by rw [← Nat.mod_add_mod,last,Nat.mod_self]
    rw [full,Nat.sub_zero,Nat.mod_self]
    omega
  · have next : (n + 1) % stop = n % stop + 1 := by
      rw [← Nat.mod_add_mod]
      exact Nat.mod_eq_of_lt (by omega)
    rw [next,Nat.mod_eq_of_lt (by omega)]
    omega

theorem paddingBefore {stop n : Nat} (off : n % stop ≠ 0) :
    (stop - n % stop) % stop = stop - n % stop := by
  rcases Nat.eq_zero_or_pos stop with rfl | positive
  · exact Nat.mod_zero _
  · have below := Nat.mod_lt n positive
    exact Nat.mod_eq_of_lt (by omega)

@[semireducible]
def pushToStop (tabStop : Nat) (shown : Array UInt8) : Array UInt8 :=
  if shown.size % max tabStop 1 = 0 then shown
  else pushToStop tabStop (shown.push Byte.space)
termination_by (max tabStop 1 - shown.size % max tabStop 1) % max tabStop 1
decreasing_by
  rename_i off
  have next := paddingAfter (Nat.le_max_right tabStop 1) shown.size
  rw [Array.size_push,paddingBefore off]
  omega

def pushShown (tabStop : Nat) (shown : Array UInt8) (b : UInt8) : Array UInt8 :=
  if b = Byte.tab then pushToStop tabStop (shown.push Byte.space) else shown.push b

def expandTabs (tabStop : Nat) (content : Bytes) : Bytes :=
  (content.foldl (pushShown tabStop) #[]).toList

/-- The room set aside before tabs are expanded, where every tab counts for a whole tab stop. -/
def roomFor (tabStop : Nat) (content : Bytes) : Except Impasse Nat := do
  let tabs ← Size.mul (content.count Byte.tab) (max tabStop 1 - 1)
  Size.fit (← Size.add content.length tabs)

namespace Line

def ofContent (index : Nat) (content : Bytes) : Line := ⟨index, content, [], [], false, none⟩

def size (line : Line) : Nat := line.content.length

def rendered (tabStop : Nat) (line : Line) : Line :=
  let shown := expandTabs tabStop line.content
  { line with shown, styles := List.replicate shown.length .plain, paintedFrom := none }

def invalidate (line : Line) : Line := { line with paintedFrom := none }

def needsPaint (carried : Bool) (line : Line) : Bool := line.paintedFrom != some carried

def paint (language : Option Language) (carried : Bool) (line : Line) : Option Line :=
  (Painting.of language carried line.shown).map fun painting =>
    { line with styles := painting.styles, opens := painting.opens, paintedFrom := some carried }

def widthFrom (tabStop : Nat) : Nat → Bytes → Nat
  | column, [] => column
  | column, b :: rest =>
    let reached := if b = Byte.tab then column + (max tabStop 1 - 1 - column % max tabStop 1) else column
    widthFrom tabStop (reached + 1) rest

def shownColumn (tabStop : Nat) (line : Line) (column : Nat) : Nat :=
  widthFrom tabStop 0 (line.content.take column)

def columnFrom (tabStop goal : Nat) : Nat → Bytes → Nat
  | _, [] => 0
  | column, b :: rest =>
    let reached := if b = Byte.tab then column + (max tabStop 1 - 1 - column % max tabStop 1) else column
    if goal < reached + 1 then 0 else 1 + columnFrom tabStop goal (reached + 1) rest

def columnAt (tabStop : Nat) (line : Line) (goal : Nat) : Nat :=
  columnFrom tabStop goal 0 line.content

end Line

def Fits (tabStop : Nat) (content : Bytes) : Prop :=
  content.length + content.count Byte.tab * (max tabStop 1 - 1) < Size.textLimit

theorem roomAnswers (tabStop : Nat) (content : Bytes) :
    Answers (roomFor tabStop content) (Fits tabStop content) := by
  have half : Size.textLimit < Size.limit := by decide
  have sum (tabs : Nat) (product : Size.mul (content.count Byte.tab) (max tabStop 1 - 1) = .ok tabs) :
      Answers ((Size.add content.length tabs).bind Size.fit)
        (content.length + content.count Byte.tab * (max tabStop 1 - 1) < Size.limit ∧ Fits tabStop content) := by
    obtain ⟨rfl,_⟩ := Size.mulOk.mp product
    refine answersBind (answersIf _ _) ?_
    intro all added
    obtain ⟨rfl,_⟩ := Size.addOk.mp added
    exact answersIf _ _
  refine answersIff ?_ (answersBind (answersIf _ _) sum)
  unfold Fits
  omega

end Vellum
