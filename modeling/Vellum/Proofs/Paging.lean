import Vellum.Proofs.VerticalMoves

/-! Paging gets ahead. With the cursor in view, a page down starts at or below it and a page
up at or above it, so each takes a screenful off what is still ahead. Scrolling before
each key, the first and the last line are reached from everywhere, and kept. -/
namespace Vellum

def Direction.page : Direction → Action
  | .forward => .pageDown
  | .backward => .pageUp

def Event.turn (direction : Direction) (outcome : Except Fault Unit) : List Event :=
  [.scroll, .key (.action direction.page) outcome]

def Event.turns (direction : Direction) (outcome : Except Fault Unit) : Nat → List Event
  | 0 => []
  | n + 1 => Event.turn direction outcome ++ Event.turns direction outcome n

namespace Editor

def page (e : Editor) : Direction → Except Impasse Editor
  | .forward => e.pageDown
  | .backward => e.pageUp

def linesAhead (e : Editor) : Direction → Nat
  | .forward => e.lastLine - e.cursor.line
  | .backward => e.cursor.line

structure Pageable (e : Editor) : Prop where
  inside : e.Inside
  laid : e.document.Laid
  editing : e.mode = .editing
  rows : 0 < e.view.rows
  step : e.view.rows < Size.textLimit
  lines : e.document.count + e.view.rows ≤ Size.limit
  cols : ∀ line ∈ e.document.lines, line.shown.length + e.view.cols < Size.limit

theorem pageHandled {e after : Editor} (editing : e.mode = .editing) {direction : Direction}
    (paged : e.page direction = .ok after) (outcome : Except Fault Unit) :
    e.handle (.key (.action direction.page) outcome) = .ok after := by
  rw [handleTyping (.inl editing),unconfirmEditing editing]
  cases direction with
  | forward =>
    change e.pageDown = .ok after at paged
    simp only [Direction.page,Key.command?,Action.command?,obey,execute,paged,bind,Except.bind]
    rfl
  | backward =>
    change e.pageUp = .ok after at paged
    simp only [Direction.page,Key.command?,Action.command?,obey,execute,paged,bind,Except.bind]
    rfl

theorem cursorShownAlong {e : Editor} (laid : e.document.Laid) {line : Line}
    (found : e.document.lines[e.cursor.line]? = some line) : e.cursorShown ≤ line.shown.length := by
  have within := Document.shownColumnWithin e.document.tabStop line e.cursor.column
  rw [← (laid.lines _ line found).shown] at within
  simpa only [cursorShown,cursorLine?,found] using within

theorem pageableScrolls {e : Editor} (pageable : e.Pageable) :
    ∃ top left, e.scroll = .ok { e with view := { e.view with top, left } } ∧
      Viewport.Shows top e.view.rows e.cursor.line := by
  have line : e.cursor.line < e.document.lines.length := pageable.inside.line
  have column := cursorShownAlong pageable.laid (List.getElem?_eq_getElem line)
  have cols := pageable.cols _ (List.getElem_mem line)
  have lines : e.document.lines.length + e.view.rows ≤ Size.limit := pageable.lines
  obtain ⟨top,down,nearest⟩ := Viewport.followNearest e.view.top pageable.rows
    (show e.cursor.line + e.view.rows < Size.limit by omega)
  obtain ⟨left,across,_⟩ := Viewport.followBelow e.view.left
    (show e.cursorShown + e.view.cols < Size.limit by omega)
  refine ⟨top,left,?_,nearest.shown⟩
  simp only [scroll,Viewport.scrollTo,down,across,bind,Except.bind]

theorem pageDownAhead {e : Editor} (pageable : e.Pageable)
    (shown : Viewport.Shows e.view.top e.view.rows e.cursor.line) :
    ∃ line, e.pageDown = .ok (e.land line) ∧ min (e.cursor.line + e.view.rows) e.lastLine ≤ line := by
  have line : e.cursor.line < e.document.count := pageable.inside.line
  have lines := pageable.lines
  have rows := pageable.rows
  have small := pageable.step
  have above := shown.above
  have within := shown.within
  have whole : Size.textLimit + Size.textLimit = Size.limit := by decide
  have bottom := Size.addOk.mpr ⟨rfl,show e.view.top + (e.view.rows - 1) < Size.limit by omega⟩
  have step : Size.toStep e.view.rows = e.view.rows := if_pos (by omega)
  refine ⟨_,by simp only [pageDown,bottom,bind,Except.bind]; rfl,?_⟩
  rw [step]
  unfold Size.move lastLine
  omega

theorem pageUpAhead {e : Editor} (pageable : e.Pageable)
    (shown : Viewport.Shows e.view.top e.view.rows e.cursor.line) :
    ∃ line, e.pageUp = .ok (e.land line) ∧ line ≤ e.cursor.line - e.view.rows := by
  have small := pageable.step
  have above := shown.above
  have whole : Size.textLimit + Size.textLimit = Size.limit := by decide
  have step : Size.toStep e.view.rows = e.view.rows := if_pos (by omega)
  have opposite : Size.negate e.view.rows = .ok (-e.view.rows) := if_neg (by omega)
  refine ⟨_,by simp only [pageUp,step,opposite,bind,Except.bind]; rfl,?_⟩
  unfold Size.move
  omega

theorem pageAhead {e : Editor} (pageable : e.Pageable)
    (shown : Viewport.Shows e.view.top e.view.rows e.cursor.line) (direction : Direction) :
    ∃ line, e.page direction = .ok (e.land line) ∧
      (e.land line).linesAhead direction ≤ e.linesAhead direction - e.view.rows := by
  cases direction with
  | forward =>
    obtain ⟨line,paged,reached⟩ := pageDownAhead pageable shown
    refine ⟨line,paged,?_⟩
    change e.lastLine - min line e.lastLine ≤ e.lastLine - e.cursor.line - e.view.rows
    omega
  | backward =>
    obtain ⟨line,paged,reached⟩ := pageUpAhead pageable shown
    refine ⟨line,paged,?_⟩
    change min line e.lastLine ≤ e.cursor.line - e.view.rows
    omega

structure Leafed (e after : Editor) (direction : Direction) (turns : Nat) : Prop where
  pageable : after.Pageable
  document : after.document = e.document
  rows : after.view.rows = e.view.rows
  ahead : after.linesAhead direction ≤ e.linesAhead direction - turns * e.view.rows

theorem leafedLast {e after : Editor} {direction : Direction} {turns : Nat}
    (leafed : e.Leafed after direction turns) : after.lastLine = e.lastLine := by
  rw [lastLine,leafed.document,lastLine]

theorem leafedWithin {e after : Editor} {direction : Direction} {turns : Nat}
    (leafed : e.Leafed after direction turns) : after.cursor.line ≤ e.lastLine := by
  rw [← leafedLast leafed]
  exact Nat.le_sub_one_of_lt leafed.pageable.inside.line

theorem turnAhead {e : Editor} (pageable : e.Pageable) :
    ∃ shown, e.handle .scroll = .ok shown ∧ ∀ (direction : Direction) (outcome : Except Fault Unit),
      ∃ after, shown.handle (.key (.action direction.page) outcome) = .ok after ∧
        e.Leafed after direction 1 := by
  obtain ⟨top,left,scrolled,shows⟩ := pageableScrolls pageable
  have still : { e with view := { e.view with top, left } }.Pageable :=
    ⟨pageable.inside,pageable.laid,pageable.editing,pageable.rows,pageable.step,pageable.lines,pageable.cols⟩
  refine ⟨_,scrolled,?_⟩
  intro direction outcome
  obtain ⟨line,paged,ahead⟩ := pageAhead still shows direction
  refine ⟨_,pageHandled still.editing paged outcome,?_,rfl,rfl,?_⟩
  · exact ⟨landInside (Document.insideNonempty pageable.inside) line,pageable.laid,pageable.editing,
      pageable.rows,pageable.step,pageable.lines,pageable.cols⟩
  · rw [Nat.one_mul]
    exact ahead

theorem turnsAhead {e : Editor} (pageable : e.Pageable) (direction : Direction)
    (outcome : Except Fault Unit) (n : Nat) :
    ∃ after, (Event.turns direction outcome n).foldlM handle e = .ok after ∧ e.Leafed after direction n := by
  induction n generalizing e with
  | zero => exact ⟨e,rfl,pageable,rfl,rfl,by omega⟩
  | succ n ih =>
    obtain ⟨shown,scrolled,pages⟩ := turnAhead pageable
    obtain ⟨next,paged,first⟩ := pages direction outcome
    obtain ⟨after,ran,later⟩ := ih first.pageable
    refine ⟨after,?_,later.pageable,later.document.trans first.document,later.rows.trans first.rows,?_⟩
    · rw [Event.turns,Event.turn,List.foldlM_append]
      simp only [List.foldlM_cons,List.foldlM_nil,scrolled,paged,bind,Except.bind,pure,Except.pure]
      exact ran
    · have before := first.ahead
      have behind := later.ahead
      rw [first.rows] at behind
      rw [Nat.succ_mul]
      omega

theorem pagingGetsAhead {doc : Document} {settings : Settings} {window : Window} {now : Nat}
    {events : List Event} {e : Editor} (loaded : doc.Loaded)
    (ran : events.foldlM handle (start doc settings window now) = .ok e) (editing : e.mode = .editing)
    (rows : 0 < e.view.rows) (step : e.view.rows < Size.textLimit)
    (lines : e.document.count + e.view.rows ≤ Size.limit)
    (cols : ∀ line ∈ e.document.lines, line.shown.length + e.view.cols < Size.limit)
    (outcome : Except Fault Unit) :
    (∃ shown, e.handle .scroll = .ok shown ∧
      (∃ lower, shown.handle (.key (.action .pageDown) outcome) = .ok lower ∧
        (e.cursor.line ≠ e.lastLine → e.cursor.line < lower.cursor.line) ∧
        (e.cursor.line = e.lastLine → lower.cursor.line = e.cursor.line)) ∧
      ∃ upper, shown.handle (.key (.action .pageUp) outcome) = .ok upper ∧
        (e.cursor.line ≠ 0 → upper.cursor.line < e.cursor.line) ∧
        (e.cursor.line = 0 → upper.cursor.line = 0)) ∧
    (∀ n, e.lastLine ≤ e.cursor.line + n * e.view.rows →
      ∃ after, (Event.turns .forward outcome n).foldlM handle e = .ok after ∧
        after.cursor.line = e.lastLine ∧ after.document = e.document) ∧
    ∀ n, e.cursor.line ≤ n * e.view.rows →
      ∃ after, (Event.turns .backward outcome n).foldlM handle e = .ok after ∧
        after.cursor.line = 0 ∧ after.document = e.document := by
  have fed := sessionFed (.calm (startCalm loaded settings window now)) ran
  have inside := steadyInside (sessionSteady loaded ran)
  have pageable : e.Pageable :=
    ⟨inside,fed.laid (Document.loadedLaid loaded),editing,rows,step,lines,cols⟩
  have here : e.cursor.line ≤ e.lastLine := Nat.le_sub_one_of_lt inside.line
  refine ⟨?_,?_,?_⟩
  · obtain ⟨shown,scrolled,pages⟩ := turnAhead pageable
    obtain ⟨lower,down,below⟩ := pages .forward outcome
    obtain ⟨upper,up,above⟩ := pages .backward outcome
    have ahead := below.ahead
    have behind := above.ahead
    have within := leafedWithin below
    simp only [linesAhead,leafedLast below,Nat.one_mul] at ahead behind
    exact ⟨shown,scrolled,⟨lower,down,by omega,by omega⟩,upper,up,by omega,by omega⟩
  · intro n enough
    obtain ⟨after,went,leafed⟩ := turnsAhead pageable .forward outcome n
    have ahead := leafed.ahead
    have within := leafedWithin leafed
    simp only [linesAhead,leafedLast leafed] at ahead
    exact ⟨after,went,by omega,leafed.document⟩
  · intro n enough
    obtain ⟨after,went,leafed⟩ := turnsAhead pageable .backward outcome n
    have ahead := leafed.ahead
    simp only [linesAhead] at ahead
    exact ⟨after,went,by omega,leafed.document⟩

theorem pagingGetsAheadToLast :
    let press (action : Action) := Event.key (.action action) (.ok ())
    let events := [press .arrowDown, .resize ⟨4, 10⟩]
    ∃ doc e after, Document.ofBytes [97, 10, 98, 10, 9, 10, 10, 101, 10, 102] 4 = .ok doc ∧
      events.foldlM handle (start doc {} ⟨12, 40⟩) = .ok e ∧ e.cursor.line = 1 ∧ e.lastLine = 5 ∧
      (∃ shown lower, e.handle .scroll = .ok shown ∧ shown.handle (press .pageDown) = .ok lower ∧
        1 < lower.cursor.line) ∧
      (Event.turns .forward (.ok ()) 2).foldlM handle e = .ok after ∧ after.cursor.line = 5 := by
  intro press events
  obtain ⟨doc,e,read,ran,editing,line,last,view,count,wide⟩ : ∃ doc e,
      Document.ofBytes [97, 10, 98, 10, 9, 10, 10, 101, 10, 102] 4 = .ok doc ∧
      events.foldlM handle (start doc {} ⟨12, 40⟩) = .ok e ∧ e.mode = .editing ∧ e.cursor.line = 1 ∧
      e.lastLine = 5 ∧ e.view = ⟨0, 0, 2, 10⟩ ∧ e.document.count = 6 ∧
      e.document.lines.map (fun line => line.shown.length) = [1, 1, 4, 0, 1, 1] :=
    ⟨_,_,rfl,rfl,rfl,rfl,rfl,rfl,rfl,rfl⟩
  have short : ∀ line ∈ e.document.lines, line.shown.length + e.view.cols < Size.limit := by
    intro line member
    have listed := List.mem_map_of_mem (f := fun line => line.shown.length) member
    have bound : line.shown.length ≤ 4 := by
      simp only [wide,List.mem_cons,List.not_mem_nil,or_false] at listed
      omega
    rw [view]
    exact Nat.lt_of_le_of_lt (Nat.add_le_add_right bound 10) (by decide)
  obtain ⟨⟨shown,scrolled,⟨lower,down,below,_⟩,_⟩,forward,_⟩ := pagingGetsAhead (.bytes read) ran editing
    (by rw [view]; decide) (by rw [view]; decide) (by rw [view,count]; decide) short (.ok ())
  obtain ⟨after,went,there,_⟩ := forward 2 (by rw [last,line,view]; decide)
  rw [line,last] at below
  refine ⟨doc,e,after,read,ran,line,last,⟨shown,lower,scrolled,down,below (by decide)⟩,went,?_⟩
  rw [there,last]

end Editor
end Vellum
