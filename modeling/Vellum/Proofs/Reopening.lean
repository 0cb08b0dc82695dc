import Vellum.Proofs.RoundTrip

/-! Saving under a name and opening that name again. Whatever was done to a
document, and even after its styles were painted over, each of its lines keeps its
number, what is shown of it, and the room for that. Naming the document paints all
lines anew from there, and that is all that opening the file does. -/
namespace Vellum

structure Line.Laid (tabStop index : Nat) (line : Line) : Prop where
  index : line.index = index
  shown : line.shown = expandTabs tabStop line.content
  fits : Fits tabStop line.content

theorem Line.laidSame {tabStop index : Nat} {line other : Line} (same : line.layout = other.layout)
    (laid : other.Laid tabStop index) : line.Laid tabStop index := by
  obtain ⟨number,texts⟩ := Prod.mk.inj same
  obtain ⟨content,shown⟩ := Prod.mk.inj texts
  constructor
  · rw [number,laid.index]
  · rw [shown,content,laid.shown]
  · rw [content]
    exact laid.fits

theorem renumberLaid {first tabStop n : Nat} {lines : List Line} {line : Line}
    (found : (renumberFrom first lines)[n]? = some line)
    (laid : ∀ old, lines[n]? = some old → ∃ m, old.Laid tabStop m ∧ (n < first → m = n)) :
    line.Laid tabStop n := by
  rw [renumberAt] at found
  obtain ⟨old,there,rfl⟩ := Option.map_eq_some_iff.mp found
  obtain ⟨m,before,kept⟩ := laid old there
  split
  · exact ⟨rfl,before.shown,before.fits⟩
  · rename_i upper
    rwa [kept (Nat.not_le.mp upper)] at before

inductive Operation where
  | edit (edit : Edit)
  | overlay (i start : Nat) (styles : List Style)

namespace Document

def operate (doc : Document) : Operation → Except Impasse Document
  | .edit edit => doc.follow edit
  | .overlay i start styles => .ok (doc.overlay i start styles)

/- Every line is laid out, though perhaps not painted. -/
structure Laid (doc : Document) : Prop where
  tabStop : 0 < doc.tabStop
  lines : ∀ (n : Nat) (line : Line), doc.lines[n]? = some line → line.Laid doc.tabStop n

theorem laidSame {doc after : Document} (laid : doc.Laid) (tabStop : after.tabStop = doc.tabStop)
    (same : after.lines.map Line.layout = doc.lines.map Line.layout) : after.Laid := by
  constructor
  · rw [tabStop]
    exact laid.tabStop
  · intro n line found
    have there : (doc.lines.map Line.layout)[n]? = some line.layout := by
      rw [← same,List.getElem?_map,found]
      rfl
    rw [List.getElem?_map] at there
    obtain ⟨old,before,layout⟩ := Option.map_eq_some_iff.mp there
    rw [tabStop]
    exact Line.laidSame layout.symm (laid.lines n old before)

theorem repaintFromLaid {doc after : Document} {i : Nat} (ok : doc.repaintFrom i = .ok after)
    (laid : doc.Laid) : after.Laid := by
  obtain ⟨lines,painted,rfl⟩ := repaintFromOk ok
  exact laidSame laid rfl (layoutRepaintFrom painted)

theorem refreshLaid {doc after : Document} {i : Nat} (ok : doc.refresh i = .ok after)
    (tabStop : 0 < doc.tabStop)
    (others : ∀ (n : Nat) (line : Line), n ≠ i → doc.lines[n]? = some line → line.Laid doc.tabStop n)
    (index : ∀ line, doc.lines[i]? = some line → line.index = i) : after.Laid := by
  obtain ⟨fits,painted⟩ := refreshOk ok
  refine repaintFromLaid painted ⟨tabStop,?_⟩
  intro n line found
  by_cases here : i = n
  · subst here
    rw [List.getElem?_modify_eq] at found
    obtain ⟨old,there,rfl⟩ := Option.map_eq_some_iff.mp found
    have content : doc.content i = old.content := by simp [Document.content,there]
    rw [content] at fits
    exact ⟨index old there,rfl,fits⟩
  · rw [List.getElem?_modify_ne _ _ here] at found
    exact others n line (Ne.symm here) found

theorem setContentLaid {doc changed after : Document} {i : Nat} {content : Bytes} (laid : doc.Laid)
    (ok : changed.refresh i = .ok after) (tabStop : changed.tabStop = doc.tabStop)
    (lines : changed.lines = (doc.setContent i content).lines) : after.Laid := by
  refine refreshLaid ok (tabStop ▸ laid.tabStop) ?_ ?_
  · intro n line other found
    rw [lines,setContent,List.getElem?_modify_ne _ _ (Ne.symm other)] at found
    rw [tabStop]
    exact laid.lines n line found
  · intro line found
    rw [lines,setContent,List.getElem?_modify_eq] at found
    obtain ⟨old,there,rfl⟩ := Option.map_eq_some_iff.mp found
    exact (laid.lines i old there).index

theorem insertLineLaid {doc after : Document} {i : Nat} {content : Bytes} {done : Bool} (laid : doc.Laid)
    (ok : doc.insertLine i content = .ok (after, done)) : after.Laid := by
  unfold insertLine at ok
  split at ok
  · cases Except.ok.inj ok
    exact laid
  · obtain ⟨shown,fresh,last⟩ := bindOk ok
    cases Except.ok.inj last
    refine refreshLaid fresh laid.tabStop ?_ ?_
    · intro n line other found
      apply renumberLaid found
      intro old there
      rcases Nat.lt_or_gt_of_ne other with before | behind
      · rw [List.getElem?_insertIdx_of_lt before] at there
        exact ⟨n,laid.lines n old there,fun _ => rfl⟩
      · rw [List.getElem?_insertIdx_of_gt behind] at there
        exact ⟨n - 1,laid.lines _ old there,fun upper => absurd upper (Nat.lt_asymm behind)⟩
    · intro line found
      simp only [edited,renumberAt] at found
      obtain ⟨old,_,rfl⟩ := Option.map_eq_some_iff.mp found
      rw [if_pos (Nat.le_refl i)]

theorem erasedLaid {tabStop i n : Nat} {lines : List Line} {line : Line}
    (found : (renumberFrom i (lines.eraseIdx i))[n]? = some line)
    (laid : ∀ m old, lines[m]? = some old → (m < i → m = n) → old.Laid tabStop m) :
    line.Laid tabStop n := by
  apply renumberLaid found
  intro old there
  rw [List.getElem?_eraseIdx] at there
  split at there
  · exact ⟨n,laid n old there fun _ => rfl,fun _ => rfl⟩
  · rename_i lower
    exact ⟨n + 1,laid (n + 1) old there (by omega),fun upper => absurd upper lower⟩

theorem deleteLineLaid {doc after : Document} {i : Nat} {done : Bool} (laid : doc.Laid)
    (ok : doc.deleteLine i = .ok (after, done)) : after.Laid := by
  unfold deleteLine at ok
  split at ok
  · cases Except.ok.inj ok
    exact laid
  · obtain ⟨painted,again,last⟩ := bindOk ok
    cases Except.ok.inj last
    refine repaintFromLaid again ⟨laid.tabStop,?_⟩
    intro n line found
    exact erasedLaid found fun m old there _ => laid.lines m old there

theorem insertWithinLaid {doc after : Document} {pos : Position} {b : UInt8} {done : Bool}
    (laid : doc.Laid) (ok : doc.insertWithin pos b = .ok (after, done)) : after.Laid := by
  unfold insertWithin at ok
  split at ok
  · cases Except.ok.inj ok
    exact laid
  · split at ok
    · cases Except.ok.inj ok
      exact laid
    · obtain ⟨shown,fresh,last⟩ := bindOk ok
      cases Except.ok.inj last
      exact setContentLaid laid fresh rfl rfl

theorem insertByteLaid {doc after : Document} {pos : Position} {b : UInt8} {done : Bool}
    (laid : doc.Laid) (ok : doc.insertByte pos b = .ok (after, done)) : after.Laid := by
  unfold insertByte at ok
  split at ok
  · obtain ⟨⟨grown,_⟩,growing,ok⟩ := bindOk ok
    exact insertWithinLaid (insertLineLaid laid growing) ok
  · exact insertWithinLaid laid ok

theorem joinedLaid {doc changed after : Document} {above : Nat} {content : Bytes} (laid : doc.Laid)
    (ok : changed.refresh above = .ok after) (tabStop : changed.tabStop = doc.tabStop)
    (lines : changed.lines = renumberFrom (above + 1) ((doc.setContent above content).lines.eraseIdx (above + 1))) :
    after.Laid := by
  refine refreshLaid ok (tabStop ▸ laid.tabStop) ?_ ?_
  · intro n line other found
    rw [lines] at found
    rw [tabStop]
    refine erasedLaid found fun m old there upper => ?_
    rw [setContent,List.getElem?_modify_ne _ _ (by omega)] at there
    exact laid.lines m old there
  · intro line found
    rw [lines,renumberAt,List.getElem?_eraseIdx,if_pos (Nat.lt_succ_self above),setContent,
      List.getElem?_modify_eq,Option.map_eq_map,Option.map_map] at found
    obtain ⟨old,there,rfl⟩ := Option.map_eq_some_iff.mp found
    rw [Function.comp_apply,if_neg (Nat.not_succ_le_self above)]
    exact (laid.lines above old there).index

theorem deleteByteLaid {doc after : Document} {pos : Position} {gap : Option Position} (laid : doc.Laid)
    (ok : doc.deleteByte pos = .ok (after, gap)) : after.Laid := by
  unfold deleteByte at ok
  split at ok
  · cases Except.ok.inj ok
    exact laid
  · split at ok
    · cases Except.ok.inj ok
      exact laid
    · split at ok
      · cases Except.ok.inj ok
        exact laid
      · obtain ⟨shown,fresh,last⟩ := bindOk ok
        cases Except.ok.inj last
        exact joinedLaid laid fresh rfl rfl
      · obtain ⟨shown,fresh,last⟩ := bindOk ok
        cases Except.ok.inj last
        exact setContentLaid laid fresh rfl rfl

theorem insertNewlineLaid {doc after : Document} {pos : Position} {done : Bool} (laid : doc.Laid)
    (ok : doc.insertNewline pos = .ok (after, done)) : after.Laid := by
  unfold insertNewline at ok
  split at ok
  · exact insertLineLaid laid ok
  · split at ok
    · cases Except.ok.inj ok
      exact laid
    · obtain ⟨head,fresh,ok⟩ := bindOk ok
      exact insertLineLaid (setContentLaid laid fresh rfl rfl) ok

theorem setLanguageLaid {doc after : Document} {language : Option Language} (laid : doc.Laid)
    (ok : doc.setLanguage language = .ok after) : after.Laid := by
  obtain ⟨lines,painted,rfl⟩ := setLanguageOk ok
  refine laidSame laid rfl ((layoutRepaint painted).trans ?_)
  rw [List.map_map]
  rfl

theorem setPathLaid {doc : Document} (laid : doc.Laid) (path : String) : (doc.setPath path).Laid :=
  @setLanguageLaid { doc with path := some path } _ _ ⟨laid.tabStop,laid.lines⟩ (setPathOk doc path)

theorem overlayLaid {doc : Document} (laid : doc.Laid) (i start : Nat) (styles : List Style) :
    (doc.overlay i start styles).Laid := by
  refine ⟨laid.tabStop,?_⟩
  intro n line found
  by_cases here : i = n
  · subst here
    rw [overlay,List.getElem?_modify_eq] at found
    obtain ⟨old,there,rfl⟩ := Option.map_eq_some_iff.mp found
    have before := laid.lines i old there
    exact ⟨before.index,before.shown,before.fits⟩
  · rw [overlay,List.getElem?_modify_ne _ _ here] at found
    exact laid.lines n line found

theorem performLaid {doc after : Document} {edit : Edit} {done : Bool} (laid : doc.Laid)
    (ok : doc.perform edit = .ok (after, done)) : after.Laid := by
  cases edit with
  | insertLine i content => exact insertLineLaid laid ok
  | deleteLine i => exact deleteLineLaid laid ok
  | insertByte pos b => exact insertByteLaid laid ok
  | deleteByte pos =>
    obtain ⟨⟨cut,gap⟩,deleted,last⟩ := bindOk ok
    cases Except.ok.inj last
    exact deleteByteLaid laid deleted
  | insertNewline pos => exact insertNewlineLaid laid ok
  | setPath path =>
    have named := (Prod.mk.inj (Except.ok.inj ok)).1
    rw [← named]
    exact setPathLaid laid path
  | setLanguage language =>
    obtain ⟨painted,again,last⟩ := bindOk ok
    cases Except.ok.inj last
    exact setLanguageLaid laid again
  | save write =>
    obtain ⟨rfl,_⟩ | ⟨rfl,_⟩ := performSave ok
    · exact ⟨laid.tabStop,laid.lines⟩
    · exact laid
  | saveAs write path =>
    obtain ⟨rfl,_⟩ | ⟨rfl,_⟩ := performSaveAs ok
    · exact @setPathLaid doc.saved ⟨laid.tabStop,laid.lines⟩ path
    · exact laid

theorem holdingLaid {contents : List Bytes} {tabStop : Nat} (fits : ∀ c ∈ contents, Fits tabStop c) :
    (holding contents tabStop).Laid := by
  refine ⟨show 0 < max tabStop 1 by omega,?_⟩
  intro n line found
  have whole := settledLine (holdingSettled contents tabStop) found
  have member : line.content ∈ contents := by
    rw [← contentsOfHolding contents tabStop]
    exact List.mem_map_of_mem (List.mem_of_getElem? found)
  have room := fits line.content member
  refine ⟨whole.index,whole.shown,?_⟩
  change line.content.length + line.content.count Byte.tab * (max (max tabStop 1) 1 - 1) < Size.textLimit
  rwa [Nat.max_assoc,Nat.max_self]

theorem loadedLaid {doc : Document} (loaded : doc.Loaded) : doc.Laid := by
  obtain ⟨bytes,tabStop,fits,rfl | ⟨path,rfl⟩⟩ := loadedHolding loaded
  · exact holdingLaid fits
  · exact setPathLaid (holdingLaid fits) path

theorem laidFits {doc : Document} (laid : doc.Laid) : ∀ c ∈ doc.contents, Fits doc.tabStop c := by
  intro c member
  obtain ⟨line,inside,rfl⟩ := List.mem_map.mp member
  obtain ⟨n,found⟩ := List.getElem?_of_mem inside
  exact (laid.lines n line found).fits

theorem setPathAnew {doc : Document} (laid : doc.Laid) (path : String) : (doc.setPath path).Settled := by
  refine @setLanguageFull { doc with path := some path } _ _ ?_ (setPathOk doc path)
  intro i line found
  have before := laid.lines i line found
  exact ⟨before.index,before.shown⟩

theorem savedAsReopened {doc : Document} (laid : doc.Laid) (path : String) :
    doc.savedAs path = (holding doc.contents doc.tabStop).setPath path := by
  have stop : max doc.tabStop 1 = doc.tabStop := Nat.max_eq_left laid.tabStop
  have mine := @setPathAnew doc.saved ⟨laid.tabStop,laid.lines⟩ path
  have theirs := setPathAnew (holdingLaid (laidFits laid)) path
  have lines : (doc.savedAs path).lines = ((holding doc.contents doc.tabStop).setPath path).lines := by
    refine settledUnique theirs mine ?_ ?_ stop.symm
    · rw [contentsOfSavedAs,contentsOfSetPath,contentsOfHolding]
    · rw [savedAs,languageOfSetPath,languageOfSetPath]
  rw [setPath] at lines ⊢
  rw [savedAs,setPath] at lines ⊢
  simp only [inLanguage] at lines ⊢
  rw [lines]
  simp only [saved,holding,stop]

theorem operationsLaid {origin doc : Document} {operations : List Operation} (loaded : origin.Loaded)
    (ran : operations.foldlM operate origin = .ok doc) : doc.Laid := by
  refine foldKeeps ?_ (loadedLaid loaded) ran
  intro before operation after _ laid ok
  cases operation with
  | edit edit =>
    obtain ⟨done,performed⟩ := followOk ok
    exact performLaid laid performed
  | overlay i start styles =>
    cases Except.ok.inj ok
    exact overlayLaid laid i start styles

theorem savedThenOpened {origin doc : Document} {operations : List Operation} {World : Type}
    {write : String → Bytes → Except Fault World} {read : World → String → Except Fault Bytes}
    {path : String} {world : World} (loaded : origin.Loaded)
    (ran : operations.foldlM operate origin = .ok doc) (nonempty : doc.contents ≠ [])
    (free : ∀ c ∈ doc.contents, Byte.newline ∉ c)
    (faithful : ∀ bytes after, write path bytes = .ok after → read after path = .ok bytes)
    (written : write path doc.toBytes = .ok world) :
    ∃ saved n bytes, doc.saveAsBy write path = .ok (saved, world, n) ∧
      read world path = .ok bytes ∧ n = bytes.length ∧
      ofRead path doc.tabStop (read world path) = .ok (.ok saved) ∧
      saved.contents = doc.contents ∧ saved.isDirty = false ∧ saved.path = some path ∧
      saved.language = Language.ofPath? path ∧ saved.tabStop = doc.tabStop := by
  have laid := operationsLaid loaded ran
  have stored := faithful doc.toBytes world written
  have opened := ofBytesWritten nonempty free (laidFits laid)
  refine ⟨doc.savedAs path,_,_,?_,stored,rfl,?_,contentsOfSavedAs doc path,rfl,rfl,
    languageOfSetPath doc.saved path,rfl⟩
  · simp only [saveAsBy,written,bind,Except.bind]
  · rw [stored,savedAsReopened laid path]
    simp only [ofRead,opened,bind,Except.bind]

theorem savedThenOpenedInTree :
    let operations := [Operation.edit (.setPath "notes.py"), .edit (.insertByte ⟨0, 0⟩ 47),
      .edit (.insertByte ⟨0, 1⟩ 42), .edit (.insertNewline ⟨0, 2⟩), .edit (.insertByte ⟨1, 0⟩ 9),
      .overlay 1 0 [.found]]
    let tree : FileTree := ⟨[(["notes.c"], .file [120])], []⟩
    ∃ doc saved tree', operations.foldlM operate (blank 2) = .ok doc ∧
      doc.contents = [[47, 42], [9]] ∧ doc.isDirty = true ∧
      doc.saveAs tree "notes.c" = .ok (saved, tree', 5) ∧
      load tree' "notes.c" doc.tabStop = .ok (.ok saved) ∧
      saved.lines.map Line.styles = [[.blockComment, .blockComment], [.blockComment, .blockComment]] := by
  intro operations tree
  obtain ⟨doc,tree',ran,contents,dirty,written,painted⟩ : ∃ doc tree',
      operations.foldlM operate (blank 2) = .ok doc ∧ doc.contents = [[47, 42], [9]] ∧
      doc.isDirty = true ∧ tree.write "notes.c" doc.toBytes = .ok tree' ∧
      (doc.savedAs "notes.c").lines.map Line.styles =
        [[.blockComment, .blockComment], [.blockComment, .blockComment]] := ⟨_,_,rfl,rfl,rfl,rfl,rfl⟩
  obtain ⟨saved,n,bytes,stored,_,_,opened,_⟩ := savedThenOpened (.blank 2) ran
    (by rw [contents]; decide) (by rw [contents]; decide)
    (fun _ _ => FileTree.readAfterWrite) written
  obtain ⟨same,size,_⟩ := saveAsByOk stored
  have five : doc.toBytes.length = 5 := by rw [toBytes,contents]; rfl
  rw [size,five] at stored
  subst same
  exact ⟨doc,_,tree',ran,contents,dirty,stored,opened,painted⟩

end Document
end Vellum
