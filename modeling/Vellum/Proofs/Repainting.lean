import Vellum.Proofs.Spot

/-! Lines that were shown and painted one after the other, each from where the one before
it ended, and the lines from which repainting leads there: lines that are out of date,
followed by lines that were painted one after the other, whatever the first of those
began with. -/
namespace Vellum

structure Line.Full (language : Option Language) (tabStop index : Nat) (carried : Bool) (line : Line) :
    Prop where
  index : line.index = index
  shown : line.shown = expandTabs tabStop line.content
  painted : Painting.of language carried line.shown = some ⟨line.styles, line.opens⟩
  paintedFrom : line.paintedFrom = some carried

inductive Full (language : Option Language) (tabStop : Nat) : Nat → Bool → List Line → Prop where
  | nil {index carried} : Full language tabStop index carried []
  | cons {index carried line rest} (first : line.Full language tabStop index carried)
      (later : Full language tabStop (index + 1) line.opens rest) :
      Full language tabStop index carried (line :: rest)

def opensBefore (carried : Bool) (lines : List Line) : Nat → Bool
  | 0 => carried
  | i + 1 => lines[i]?.any Line.opens

structure Stale (tabStop index : Nat) (line : Line) : Prop where
  index : line.index = index
  shown : line.shown = expandTabs tabStop line.content
  unpainted : line.paintedFrom = none

inductive Repaintable (language : Option Language) (tabStop : Nat) : Nat → List Line → Prop where
  | settled {index carried lines} (full : Full language tabStop index carried lines) :
      Repaintable language tabStop index lines
  | stale {index line rest} (first : Stale tabStop index line)
      (next : Repaintable language tabStop (index + 1) rest) :
      Repaintable language tabStop index (line :: rest)

def renumber : Nat → List Line → List Line
  | _, [] => []
  | index, line :: rest => { line with index } :: renumber (index + 1) rest

theorem renumberFromAppend (above below : List Line) :
    renumberFrom above.length (above ++ below) = above ++ renumber above.length below := by
  have lower (first index : Nat) (reached : first ≤ index) : ∀ lines : List Line,
      (lines.mapIdx fun k line => if first ≤ index + k then { line with index := index + k } else line) =
        renumber index lines := by
    intro lines
    induction lines generalizing index with
    | nil => rfl
    | cons line rest ih =>
      have later := ih (index + 1) (Nat.le_succ_of_le reached)
      rw [List.mapIdx_cons,renumber,← later]
      simp [reached,Nat.add_assoc,Nat.add_comm 1]
  rw [renumberFrom,List.mapIdx_append]
  congr 1
  · apply List.ext_getElem?
    intro i
    rw [List.getElem?_mapIdx]
    by_cases inside : i < above.length
    · simp [Nat.not_le.mpr inside]
    · rw [List.getElem?_eq_none (Nat.not_lt.mp inside)]
      rfl
  · simpa only [Nat.add_comm above.length] using lower above.length above.length (Nat.le_refl _) below

section
variable {language : Option Language} {tabStop index : Nat} {carried : Bool} {lines : List Line}

theorem fullRenumbered (full : Full language tabStop index carried lines) (other : Nat) :
    Full language tabStop other carried (renumber other lines) := by
  induction full generalizing other with
  | nil => exact .nil
  | cons first _ ih =>
    exact .cons ⟨rfl,first.shown,first.painted,first.paintedFrom⟩ (ih (other + 1))

theorem fullSplit {above below : List Line} (full : Full language tabStop index carried (above ++ below)) :
    Full language tabStop index carried above ∧
      ∃ entering, Full language tabStop (index + above.length) entering below := by
  induction above generalizing index carried with
  | nil => exact ⟨.nil,carried,full⟩
  | cons line above ih =>
    cases full with
    | cons first later =>
      obtain ⟨upper,entering,lower⟩ := ih later
      refine ⟨.cons first upper,entering,?_⟩
      rwa [List.length_cons,Nat.add_comm above.length,← Nat.add_assoc]

theorem fullAt (full : Full language tabStop index carried lines) {i : Nat} {line : Line}
    (found : lines[i]? = some line) :
    line.Full language tabStop (index + i) (opensBefore carried lines i) := by
  induction full generalizing i with
  | nil => cases found
  | @cons index carried head rest first _ ih =>
    cases i with
    | zero =>
      cases Option.some.inj found
      exact first
    | succ i =>
      have later := ih found
      rw [Nat.add_assoc,Nat.add_comm 1] at later
      cases i with
      | zero => exact later
      | succ i => exact later

theorem fullUnique {others : List Line} (one : Full language tabStop index carried lines)
    (two : Full language tabStop index carried others)
    (contents : others.map Line.content = lines.map Line.content) : others = lines := by
  induction one generalizing others with
  | nil => exact List.map_eq_nil_iff.mp contents
  | @cons index carried line rest first _ ih =>
    cases two with
    | nil => cases contents
    | @cons _ _ other _ second later =>
      obtain ⟨content,remaining⟩ := List.cons.inj contents
      have same : other = line := by
        have shown : other.shown = line.shown := by rw [second.shown,first.shown,content]
        have painting := second.painted
        rw [shown,first.painted] at painting
        obtain ⟨styles,opens⟩ := Painting.mk.inj (Option.some.inj painting)
        cases other
        cases line
        simp only [Line.mk.injEq]
        exact ⟨second.index.trans first.index.symm,content,shown,styles.symm,opens.symm,
          second.paintedFrom.trans first.paintedFrom.symm⟩
      subst same
      rw [ih later remaining]

theorem stalePaint {line painted : Line} (stale : Stale tabStop index line)
    (ok : line.paint language carried = some painted) : painted.Full language tabStop index carried := by
  obtain ⟨painting,done,rfl⟩ := Option.map_eq_some_iff.mp ok
  exact ⟨stale.index,stale.shown,done,rfl⟩

theorem repaintNext {line : Line} {rest after : List Line} (needed : line.needsPaint carried = true)
    (ok : repaint language carried (line :: rest) = some after) :
    ∃ painted lower, line.paint language carried = some painted ∧
      repaint language painted.opens rest = some lower ∧ after = painted :: lower := by
  rw [repaint,if_pos needed] at ok
  simp only [bind,Option.bind_eq_some_iff] at ok
  obtain ⟨painted,first,lower,later,last⟩ := ok
  exact ⟨painted,lower,first,later,(Option.some.inj last).symm⟩

theorem repaintSettled {before : Bool} {after : List Line}
    (full : Full language tabStop index before lines)
    (ok : repaint language carried lines = some after) : Full language tabStop index carried after := by
  induction full generalizing carried after with
  | nil =>
    cases Option.some.inj ok
    exact .nil
  | @cons index before line rest first later ih =>
    by_cases same : before = carried
    · subst same
      have holds : line.needsPaint before = false := by simp [Line.needsPaint,first.paintedFrom]
      rw [repaint,holds] at ok
      cases Option.some.inj ok
      exact .cons first later
    · have needed : line.needsPaint carried = true := by simp [Line.needsPaint,first.paintedFrom,same]
      obtain ⟨painted,lower,painting,repainted,rfl⟩ := repaintNext needed ok
      have stale : Stale tabStop index line.invalidate := ⟨first.index,first.shown,rfl⟩
      exact .cons (stalePaint stale painting) (ih repainted)

theorem repaintFull {after : List Line} (repaintable : Repaintable language tabStop index lines)
    (ok : repaint language carried lines = some after) : Full language tabStop index carried after := by
  induction repaintable generalizing carried after with
  | settled full => exact repaintSettled full ok
  | @stale index line rest first _ ih =>
    have needed : line.needsPaint carried = true := by simp [Line.needsPaint,first.unpainted]
    obtain ⟨painted,lower,painting,repainted,rfl⟩ := repaintNext needed ok
    exact .cons (stalePaint first painting) (ih repainted)

theorem staleRepaintable (stale : ∀ i line, lines[i]? = some line → Stale tabStop (index + i) line) :
    Repaintable language tabStop index lines := by
  induction lines generalizing index with
  | nil => exact .settled (.nil : Full language tabStop index false [])
  | cons line rest ih =>
    refine .stale (stale 0 line rfl) (ih ?_)
    intro i later found
    have place := stale (i + 1) later found
    rwa [Nat.add_comm i 1,← Nat.add_assoc] at place

theorem repaintFromFull {above below after : List Line} (upper : Full language tabStop index carried above)
    (lower : Repaintable language tabStop (index + above.length) below)
    (ok : repaintFrom language above.length carried (above ++ below) = some after) :
    Full language tabStop index carried after := by
  induction upper generalizing after with
  | @nil index carried =>
    cases below with
    | nil =>
      cases Option.some.inj ok
      exact .nil
    | cons line rest => exact repaintFull lower ok
  | @cons index carried line above first _ ih =>
    obtain ⟨rest,repainted,rfl⟩ := Option.map_eq_some_iff.mp ok
    rw [List.length_cons,Nat.add_comm above.length,← Nat.add_assoc] at lower
    exact .cons first (ih lower repainted)

end
end Vellum
