import Mathlib.Data.List.InsertIdx
import Vellum.Document

/-! What operations on a document leave of its lines. Painting keeps the number, the
content and what is shown of every line; numbering keeps the content. -/
namespace Vellum

def Line.layout (line : Line) : Nat × Bytes × Bytes := (line.index, line.content, line.shown)

section
variable {language : Option Language} {carried : Bool} {lines after : List Line}

theorem layoutPaint {line painted : Line} (ok : line.paint language carried = some painted) :
    painted.layout = line.layout := by
  obtain ⟨painting,_,rfl⟩ := Option.map_eq_some_iff.mp ok
  rfl

theorem layoutRepaint (ok : repaint language carried lines = some after) :
    after.map Line.layout = lines.map Line.layout := by
  induction lines generalizing carried after with
  | nil =>
    cases Option.some.inj ok
    rfl
  | cons line rest ih =>
    rw [repaint] at ok
    split at ok
    · simp only [bind,Option.bind_eq_some_iff] at ok
      obtain ⟨painted,first,lower,later,last⟩ := ok
      cases Option.some.inj last
      rw [List.map_cons,List.map_cons,layoutPaint first,ih later]
    · cases Option.some.inj ok
      rfl

theorem layoutRepaintFrom {i : Nat} (ok : repaintFrom language i carried lines = some after) :
    after.map Line.layout = lines.map Line.layout := by
  induction lines generalizing i carried after with
  | nil =>
    cases i <;> cases Option.some.inj ok <;> rfl
  | cons line rest ih =>
    cases i with
    | zero => exact layoutRepaint ok
    | succ i =>
      obtain ⟨lower,later,rfl⟩ := Option.map_eq_some_iff.mp ok
      rw [List.map_cons,List.map_cons,ih later]

theorem contentsLayout (same : after.map Line.layout = lines.map Line.layout) :
    after.map Line.content = lines.map Line.content := by
  have contents := congrArg (List.map fun layout : Nat × Bytes × Bytes => layout.2.1) same
  rw [List.map_map,List.map_map] at contents
  exact contents

end

theorem renumberAt (first : Nat) (lines : List Line) (i : Nat) :
    (renumberFrom first lines)[i]? =
      lines[i]?.map fun line => if first ≤ i then { line with index := i } else line :=
  List.getElem?_mapIdx

theorem contentsRenumber (first : Nat) (lines : List Line) :
    (renumberFrom first lines).map Line.content = lines.map Line.content := by
  apply List.ext_getElem?
  intro i
  rw [List.getElem?_map,List.getElem?_map,renumberAt,Option.map_map]
  congr 1
  funext line
  simp only [Function.comp_apply]
  split
  · rfl
  · rfl

namespace Document

@[simp]
theorem contentsOfEdited (doc : Document) : doc.edited.contents = doc.contents := rfl

@[simp]
theorem contentsOfSaved (doc : Document) : doc.saved.contents = doc.contents := rfl

theorem repaintFromOk {doc after : Document} {i : Nat} (ok : doc.repaintFrom i = .ok after) :
    ∃ lines, Vellum.repaintFrom doc.language i false doc.lines = some lines ∧ after = { doc with lines } := by
  unfold repaintFrom at ok
  split at ok
  · rename_i lines painted
    exact ⟨lines,painted,(Except.ok.inj ok).symm⟩
  · cases ok

theorem repaintFromMarked {doc : Document} (marked : Language.Marked doc.language) (i : Nat) :
    ∃ after, doc.repaintFrom i = .ok after := by
  obtain ⟨lines,painted⟩ := Option.isSome_iff_exists.mp (repaintFromEnds marked i false doc.lines)
  exact ⟨{ doc with lines },by rw [repaintFrom,painted]⟩

theorem contentsOfRepaintFrom {doc after : Document} {i : Nat} (ok : doc.repaintFrom i = .ok after) :
    after.contents = doc.contents := by
  obtain ⟨lines,painted,rfl⟩ := repaintFromOk ok
  exact contentsLayout (layoutRepaintFrom painted)

theorem setLanguageOk {doc after : Document} {language : Option Language}
    (ok : doc.setLanguage language = .ok after) :
    ∃ lines, repaint language false (doc.lines.map Line.invalidate) = some lines ∧
      after = { doc with language, lines } := by
  unfold setLanguage at ok
  split at ok
  · rename_i lines painted
    exact ⟨lines,painted,(Except.ok.inj ok).symm⟩
  · cases ok

theorem contentsOfSetLanguage {doc after : Document} {language : Option Language}
    (ok : doc.setLanguage language = .ok after) : after.contents = doc.contents := by
  obtain ⟨lines,painted,rfl⟩ := setLanguageOk ok
  have contents := contentsLayout (layoutRepaint painted)
  rw [List.map_map] at contents
  exact contents

theorem setPathOk (doc : Document) (path : String) :
    { doc with path := some path }.setLanguage (Language.ofPath? path) = .ok (doc.setPath path) :=
  setLanguageMarked _ (Language.ofPathMarked path)

@[simp]
theorem languageOfSetPath (doc : Document) (path : String) :
    (doc.setPath path).language = Language.ofPath? path := by rw [setPath,inLanguage]

@[simp]
theorem contentsOfSetPath (doc : Document) (path : String) :
    (doc.setPath path).contents = doc.contents :=
  @contentsOfSetLanguage { doc with path := some path } _ _ (doc.setPathOk path)

@[simp]
theorem contentsOfSavedAs (doc : Document) (path : String) :
    (doc.savedAs path).contents = doc.contents := by rw [savedAs,contentsOfSetPath,contentsOfSaved]

theorem modifiedContents (doc : Document) (i : Nat) {change : Line → Line}
    (kept : ∀ line, (change line).content = line.content) :
    { doc with lines := doc.lines.modify i change }.contents = doc.contents := by
  apply List.ext_getElem?
  intro n
  simp only [contents,List.getElem?_map,List.getElem?_modify]
  cases doc.lines[n]? with
  | none => rfl
  | some line =>
    by_cases here : i = n
    · simp [here,kept]
    · simp [here]

theorem refreshOk {doc after : Document} {i : Nat} (ok : doc.refresh i = .ok after) :
    Fits doc.tabStop (doc.content i) ∧
      { doc with lines := doc.lines.modify i (Line.rendered doc.tabStop) }.repaintFrom i = .ok after := by
  obtain ⟨room,granted,ok⟩ := bindOk ok
  exact ⟨(answersOkIff (roomAnswers _ _)).mp ⟨room,granted⟩,ok⟩

theorem refreshAnswers {doc : Document} (marked : Language.Marked doc.language) (i : Nat) :
    Answers (doc.refresh i) (Fits doc.tabStop (doc.content i)) := by
  refine answersThen (roomAnswers _ _) fun _ _ => ?_
  exact @repaintFromMarked { doc with lines := doc.lines.modify i (Line.rendered doc.tabStop) } marked i

theorem refreshRest {doc after : Document} {i : Nat} (ok : doc.refresh i = .ok after) :
    after = { doc with lines := after.lines } := by
  obtain ⟨lines,_,rfl⟩ := repaintFromOk (refreshOk ok).2
  rfl

theorem contentsOfRefresh {doc after : Document} {i : Nat} (ok : doc.refresh i = .ok after) :
    after.contents = doc.contents := by
  rw [contentsOfRepaintFrom (refreshOk ok).2]
  exact doc.modifiedContents i fun _ => rfl

@[simp]
theorem contentsOfSetContent (doc : Document) (i : Nat) (content : Bytes) :
    (doc.setContent i content).contents = doc.contents.set i content := by
  simp only [setContent,contents]
  apply List.ext_getElem?
  intro n
  simp only [List.getElem?_map,List.getElem?_modify,List.getElem?_set,List.length_map]
  split
  · subst n
    by_cases inside : i < doc.lines.length
    · simp [inside]
    · simp [inside]
  · simp

theorem holdingOk (contents : List Bytes) (tabStop : Nat) :
    repaint none false (contents.mapIdx fun index c => (Line.ofContent index c).rendered tabStop) =
      some (holding contents tabStop).lines := (Option.some_get _).symm

@[simp]
theorem contentsOfHolding (contents : List Bytes) (tabStop : Nat) :
    (holding contents tabStop).contents = contents := by
  rw [Document.contents,contentsLayout (layoutRepaint (holdingOk contents tabStop))]
  apply List.ext_getElem?
  intro i
  rw [List.getElem?_map,List.getElem?_mapIdx,Option.map_map]
  exact Option.map_id'

theorem ofContentsOk {contents : List Bytes} {tabStop : Nat} {doc : Document}
    (ok : ofContents contents tabStop = .ok doc) : doc = holding contents tabStop := by
  obtain ⟨_,_,ok⟩ := bindOk ok
  exact (Except.ok.inj ok).symm

theorem makeRoomFits {tabStop : Nat} {contents : List Bytes} :
    makeRoom tabStop contents = .ok () ↔ ∀ c ∈ contents, Fits tabStop c := by
  induction contents with
  | nil => simp [makeRoom]
  | cons content rest ih =>
    rw [List.forall_mem_cons,← ih,← answersOkIff (roomAnswers tabStop content)]
    constructor
    · intro ok
      obtain ⟨room,granted,later⟩ := bindOk ok
      exact ⟨⟨room,granted⟩,later⟩
    · rintro ⟨⟨room,granted⟩,later⟩
      simp only [makeRoom,granted,bind,Except.bind]
      exact later

theorem ofContentsFits {tabStop : Nat} {contents : List Bytes} :
    (∃ doc, ofContents contents tabStop = .ok doc) ↔ ∀ c ∈ contents, Fits tabStop c := by
  rw [← makeRoomFits]
  constructor
  · rintro ⟨doc,ok⟩
    obtain ⟨_,room,_⟩ := bindOk ok
    exact room
  · intro room
    exact ⟨holding contents tabStop,by simp only [ofContents,room,bind,Except.bind]⟩

theorem saveByOk {α : Type} {doc after : Document} {write : String → Bytes → Except Fault α} {written : α}
    {n : Nat} (ok : doc.saveBy write = .ok (after, written, n)) :
    after = doc.saved ∧ n = doc.toBytes.length ∧
      ∃ path, doc.path = some path ∧ write path doc.toBytes = .ok written := by
  unfold saveBy at ok
  split at ok
  · contradiction
  · rename_i path named
    obtain ⟨_,done,last⟩ := bindOk ok
    cases Except.ok.inj last
    exact ⟨rfl,rfl,path,named,done⟩

theorem saveAsByOk {α : Type} {doc after : Document} {write : String → Bytes → Except Fault α}
    {path : String} {written : α} {n : Nat} (ok : doc.saveAsBy write path = .ok (after, written, n)) :
    after = doc.savedAs path ∧ n = doc.toBytes.length ∧ write path doc.toBytes = .ok written := by
  obtain ⟨_,done,last⟩ := bindOk ok
  cases Except.ok.inj last
  exact ⟨rfl,rfl,done⟩

theorem ofBytesEmpty (tabStop : Nat) : ofBytes [] tabStop = .ok (blank tabStop) := by
  simp [ofBytes,splitLines,pieces,ofContents,makeRoom,roomFor,Size.mul,Size.add,Size.fit,Size.limit,
    Size.textLimit,blank,bind,Except.bind]

end Document
end Vellum
