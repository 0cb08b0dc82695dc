import Mathlib.Data.Nat.Dist
import Vellum.Viewport

/-! Scrolling. An offset shows a place that lies in the room behind it. Wherever an offset
was before, it moves no further than it must: one that shows the place already stays,
and so scrolling twice is scrolling once. -/
namespace Vellum.Viewport

structure Shows (offset room goal : Nat) : Prop where
  above : offset ≤ goal
  within : goal < offset + room

structure Nearest (offset room goal next : Nat) : Prop where
  shown : Shows next room goal
  least : ∀ other, Shows other room goal → other ≠ next → Nat.dist offset next < Nat.dist offset other

theorem nearestStays {offset room goal next : Nat} (nearest : Nearest offset room goal next)
    (shown : Shows offset room goal) : next = offset := by
  by_contra moved
  have closer := nearest.least offset shown (Ne.symm moved)
  rw [Nat.dist_self] at closer
  exact Nat.not_lt_zero _ closer

theorem followNearest (offset : Nat) {room goal : Nat} (positive : 0 < room)
    (within : goal + room < Size.limit) :
    ∃ next, follow offset room goal = .ok next ∧ Nearest offset room goal next := by
  have some : room ≠ 0 := Nat.ne_of_gt positive
  have edge : Size.add (min goal offset) room = .ok (min goal offset + room) :=
    Size.addOk.mpr ⟨rfl,by omega⟩
  have past : Size.add goal 1 = .ok (goal + 1) := Size.addOk.mpr ⟨rfl,by omega⟩
  simp only [follow,some,if_false,edge,past,bind,Except.bind]
  -- The first guard has put the offset at or above the place, so the second can only move it down.
  split
  · rename_i beyond
    refine ⟨_,Size.subOk.mpr ⟨rfl,by omega⟩,⟨by omega,by omega⟩,?_⟩
    rintro other ⟨above,reached⟩ differs
    simp only [Nat.dist]
    omega
  · rename_i reached
    refine ⟨_,rfl,⟨Nat.min_le_left _ _,Nat.not_le.mp reached⟩,?_⟩
    rintro other ⟨above,_⟩ differs
    simp only [Nat.dist]
    omega

theorem scrollToNearest {view : Viewport} {line column : Nat} (rows : 0 < view.rows) (cols : 0 < view.cols)
    (lines : line + view.rows < Size.limit) (columns : column + view.cols < Size.limit) :
    ∃ top left, view.scrollTo line column = .ok { view with top, left } ∧
      Nearest view.top view.rows line top ∧ Nearest view.left view.cols column left := by
  obtain ⟨top,down,vertical⟩ := followNearest view.top rows lines
  obtain ⟨left,across,horizontal⟩ := followNearest view.left cols columns
  refine ⟨top,left,?_,vertical,horizontal⟩
  simp only [scrollTo,down,across,bind,Except.bind]

theorem scrollsNoFurther {view : Viewport} {line column : Nat} (rows : 0 < view.rows) (cols : 0 < view.cols)
    (lines : line + view.rows < Size.limit) (columns : column + view.cols < Size.limit) :
    ∃ top left, view.scrollTo line column = .ok { view with top, left } ∧
      Nearest view.top view.rows line top ∧ Nearest view.left view.cols column left ∧
      (Shows view.top view.rows line → top = view.top) ∧
      (Shows view.left view.cols column → left = view.left) ∧
      { view with top, left }.scrollTo line column = .ok { view with top, left } := by
  obtain ⟨top,left,scrolled,vertical,horizontal⟩ := scrollToNearest rows cols lines columns
  refine ⟨top,left,scrolled,vertical,horizontal,nearestStays vertical,nearestStays horizontal,?_⟩
  obtain ⟨top',left',again,vertical',horizontal'⟩ :=
    @scrollToNearest { view with top, left } line column rows cols lines columns
  cases nearestStays vertical' vertical.shown
  cases nearestStays horizontal' horizontal.shown
  exact again

theorem scrollsNoFurtherIntoCorner :
    let view : Viewport := ⟨18446744073709551615, 5, 3, 4⟩
    view.scrollTo 7 30 = .ok ⟨7, 27, 3, 4⟩ ∧ Nearest 18446744073709551615 3 7 7 ∧ Nearest 5 4 30 27 ∧
      Viewport.scrollTo ⟨7, 27, 3, 4⟩ 7 30 = .ok ⟨7, 27, 3, 4⟩ := by
  intro view
  have scrolled : view.scrollTo 7 30 = .ok ⟨7, 27, 3, 4⟩ := rfl
  obtain ⟨top,left,there,vertical,horizontal,_,_,again⟩ :=
    @scrollsNoFurther view 7 30 (by decide) (by decide) (by decide) (by decide)
  cases Except.ok.inj (scrolled.symm.trans there)
  exact ⟨scrolled,vertical,horizontal,again⟩

end Vellum.Viewport
