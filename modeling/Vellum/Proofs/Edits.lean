import Vellum.Proofs.Repainting
import Vellum.Proofs.TabStops

/-! Edits of a document as data, and the documents that can be reached by them.
Whatever edits have been made, the lines are as if they had all been shown and
painted at once. -/
namespace Vellum

inductive Edit where
  | insertLine (i : Nat) (content : Bytes)
  | deleteLine (i : Nat)
  | insertByte (pos : Position) (b : UInt8)
  | deleteByte (pos : Position)
  | insertNewline (pos : Position)
  | setPath (path : String)
  | setLanguage (language : Option Language)
  | save (write : String → Bytes → Except Fault Unit)
  | saveAs (write : String → Bytes → Except Fault Unit) (path : String)

namespace Document

def perform (doc : Document) : Edit → Except Impasse (Document × Bool)
  | .insertLine i content => doc.insertLine i content
  | .deleteLine i => doc.deleteLine i
  | .insertByte pos b => doc.insertByte pos b
  | .deleteByte pos => do
    let (after, gap) ← doc.deleteByte pos
    .ok (after, gap.isSome)
  | .insertNewline pos => doc.insertNewline pos
  | .setPath path => .ok (doc.setPath path, true)
  | .setLanguage language => do
    .ok (← doc.setLanguage language, true)
  | .save write =>
    match doc.saveBy write with
    | .ok (after, _) => .ok (after, true)
    | .error _ => .ok (doc, false)
  | .saveAs write path =>
    match doc.saveAsBy write path with
    | .ok (after, _) => .ok (after, true)
    | .error _ => .ok (doc, false)

def follow (doc : Document) (edit : Edit) : Except Impasse Document :=
  (doc.perform edit).map Prod.fst

theorem followOk {doc after : Document} {edit : Edit} (ok : doc.follow edit = .ok after) :
    ∃ done, doc.perform edit = .ok (after, done) := by
  obtain ⟨⟨_,done⟩,performed,rfl⟩ := mapOk ok
  exact ⟨done,performed⟩

theorem performSave {doc after : Document} {write : String → Bytes → Except Fault Unit} {done : Bool}
    (ok : doc.perform (.save write) = .ok (after, done)) :
    after = doc.saved ∧ done = true ∨ after = doc ∧ done = false := by
  simp only [perform] at ok
  split at ok
  · rename_i stored
    cases Except.ok.inj ok
    exact .inl ⟨(saveByOk stored).1,rfl⟩
  · cases Except.ok.inj ok
    exact .inr ⟨rfl,rfl⟩

theorem performSaveAs {doc after : Document} {write : String → Bytes → Except Fault Unit}
    {path : String} {done : Bool} (ok : doc.perform (.saveAs write path) = .ok (after, done)) :
    after = doc.savedAs path ∧ done = true ∨ after = doc ∧ done = false := by
  simp only [perform] at ok
  split at ok
  · rename_i stored
    cases Except.ok.inj ok
    exact .inl ⟨(saveAsByOk stored).1,rfl⟩
  · cases Except.ok.inj ok
    exact .inr ⟨rfl,rfl⟩

inductive Loaded : Document → Prop where
  | bytes {bytes tabStop doc} (ok : ofBytes bytes tabStop = .ok doc) : Loaded doc
  | blank (tabStop) : Loaded (blank tabStop)
  | read {path tabStop outcome doc} (ok : ofRead path tabStop outcome = .ok (.ok doc)) : Loaded doc

def Reached (doc : Document) : Prop :=
  ∃ (origin : Document) (edits : List Edit), Loaded origin ∧ edits.foldlM follow origin = .ok doc

def Settled (doc : Document) : Prop := Full doc.language doc.tabStop 0 false doc.lines

theorem splitAt {lines : List Line} {i : Nat} (within : i ≤ lines.length) :
    ∃ above below, lines = above ++ below ∧ above.length = i :=
  ⟨lines.take i,lines.drop i,(List.take_append_drop i lines).symm,List.length_take_of_le within⟩

theorem modifyMiddle {α : Type} (left : List α) (a : α) (right : List α) (f : α → α) :
    (left ++ a :: right).modify left.length f = left ++ f a :: right := by
  induction left with
  | nil => rfl
  | cons x left ih => simp [ih]

section
variable {doc after : Document} {above below : List Line} {line : Line} {entering : Bool}

theorem repaintedSettled {lower : List Line} (ok : doc.repaintFrom above.length = .ok after)
    (lines : doc.lines = above ++ lower) (upper : Full doc.language doc.tabStop 0 false above)
    (repaintable : Repaintable doc.language doc.tabStop above.length lower) : after.Settled := by
  obtain ⟨all,painted,rfl⟩ := repaintFromOk ok
  rw [lines] at painted
  rw [← Nat.zero_add above.length] at repaintable
  exact repaintFromFull upper repaintable painted

theorem refreshSettled (ok : doc.refresh above.length = .ok after)
    (lines : doc.lines = above ++ line :: below) (upper : Full doc.language doc.tabStop 0 false above)
    (place : line.index = above.length)
    (lower : Full doc.language doc.tabStop (above.length + 1) entering below) : after.Settled := by
  refine repaintedSettled (refreshOk ok).2 (by rw [lines]; exact modifyMiddle above line below _) upper ?_
  exact .stale ⟨place,rfl,rfl⟩ (.settled lower)

theorem settledAround (settled : doc.Settled) {i : Nat} (inside : i < doc.count) :
    ∃ above line below carried entering, doc.lines = above ++ line :: below ∧ above.length = i ∧
      Full doc.language doc.tabStop 0 false above ∧ line.Full doc.language doc.tabStop i carried ∧
      Full doc.language doc.tabStop (i + 1) entering below := by
  obtain ⟨above,lower,lines,length⟩ := splitAt (Nat.le_of_lt inside)
  cases lower with
  | nil =>
    rw [count,lines,List.append_nil,length] at inside
    exact absurd inside (Nat.lt_irrefl i)
  | cons line below =>
    unfold Settled at settled
    rw [lines] at settled
    obtain ⟨upper,carried,rest⟩ := fullSplit settled
    rw [length,Nat.zero_add] at rest
    cases rest with
    | cons first later => exact ⟨above,line,below,carried,_,lines,length,upper,first,later⟩

theorem setContentLines (lines : doc.lines = above ++ line :: below) (content : Bytes) :
    (doc.setContent above.length content).lines = above ++ { line with content } :: below := by
  rw [setContent,lines]
  exact modifyMiddle above line below fun line => { line with content }

theorem setContentSettled (settled : doc.Settled) {i : Nat} (inside : i < doc.count) {content : Bytes}
    {changed : Document} (same : changed = { doc.setContent i content with edits := changed.edits })
    (ok : changed.refresh i = .ok after) : after.Settled := by
  obtain ⟨above,line,below,carried,entering,lines,rfl,upper,first,lower⟩ := settledAround settled inside
  have language : changed.language = doc.language := by
    rw [same]
    rfl
  have tabStop : changed.tabStop = doc.tabStop := by
    rw [same]
    rfl
  have all : changed.lines = above ++ { line with content } :: below := by
    rw [same]
    exact setContentLines lines content
  rw [← language,← tabStop] at upper lower
  exact refreshSettled ok all upper first.index lower

theorem insertLineSettled {i : Nat} {content : Bytes} {done : Bool}
    (settled : doc.Settled) (ok : doc.insertLine i content = .ok (after, done)) : after.Settled := by
  unfold insertLine at ok
  split at ok
  · cases Except.ok.inj ok
    exact settled
  · rename_i within
    obtain ⟨shown,fresh,last⟩ := bindOk ok
    cases Except.ok.inj last
    obtain ⟨above,below,lines,rfl⟩ := splitAt (Nat.not_lt.mp within)
    unfold Settled at settled
    rw [lines] at settled
    obtain ⟨upper,entering,lower⟩ := fullSplit settled
    have numbered : renumberFrom above.length (doc.lines.insertIdx above.length
        (.ofContent above.length content)) =
          above ++ .ofContent above.length content :: renumber (above.length + 1) below := by
      rw [lines,insertIdxMiddle,renumberFromAppend]
      rfl
    rw [Nat.zero_add] at lower
    exact refreshSettled fresh numbered upper rfl (fullRenumbered lower _)

theorem deleteLineSettled {i : Nat} {done : Bool} (settled : doc.Settled)
    (ok : doc.deleteLine i = .ok (after, done)) : after.Settled := by
  unfold deleteLine at ok
  split at ok
  · cases Except.ok.inj ok
    exact settled
  · rename_i within
    obtain ⟨shown,fresh,last⟩ := bindOk ok
    cases Except.ok.inj last
    obtain ⟨above,line,below,carried,entering,lines,rfl,upper,_,lower⟩ :=
      settledAround settled (Nat.lt_of_not_le within)
    have numbered : renumberFrom above.length (doc.lines.eraseIdx above.length) =
        above ++ renumber above.length below := by
      rw [lines,eraseIdxMiddle,renumberFromAppend]
    exact repaintedSettled fresh numbered upper (.settled (fullRenumbered lower _))

theorem insideFound {i : Nat} {line : Line} (found : doc.lines[i]? = some line) :
    i < doc.count := (List.getElem?_eq_some_iff.mp found).1

theorem insertWithinSettled {pos : Position} {b : UInt8} {done : Bool}
    (settled : doc.Settled) (ok : doc.insertWithin pos b = .ok (after, done)) : after.Settled := by
  unfold insertWithin at ok
  split at ok
  · cases Except.ok.inj ok
    exact settled
  · rename_i line found
    split at ok
    · cases Except.ok.inj ok
      exact settled
    · obtain ⟨shown,fresh,last⟩ := bindOk ok
      cases Except.ok.inj last
      exact setContentSettled settled (insideFound found) rfl fresh

theorem insertByteSettled {pos : Position} {b : UInt8} {done : Bool}
    (settled : doc.Settled) (ok : doc.insertByte pos b = .ok (after, done)) : after.Settled := by
  unfold insertByte at ok
  split at ok
  · obtain ⟨⟨grown,_⟩,growing,ok⟩ := bindOk ok
    exact insertWithinSettled (insertLineSettled settled growing) ok
  · exact insertWithinSettled settled ok

theorem joinedSettled (settled : doc.Settled) {above : Nat} {content : Bytes}
    (inside : above + 1 < doc.count)
    {changed : Document} (ok : changed.refresh above = .ok after)
    (same : changed = { doc with edits := changed.edits, lines := changed.lines })
    (joined : changed.lines =
      renumberFrom (above + 1) ((doc.setContent above content).lines.eraseIdx (above + 1))) :
    after.Settled := by
  obtain ⟨upper,first,rest,carried,entering,lines,rfl,higher,place,later⟩ :=
    settledAround settled (Nat.lt_of_succ_lt inside)
  cases rest with
  | nil =>
    rw [count,lines,List.length_append,List.length_singleton] at inside
    exact absurd inside (Nat.lt_irrefl _)
  | cons second below =>
    cases later with
    | cons _ lower =>
      have reset := setContentLines lines content
      have numbered : renumberFrom (upper.length + 1)
          ((doc.setContent upper.length content).lines.eraseIdx (upper.length + 1)) =
            upper ++ { first with content } :: renumber (upper.length + 1) below := by
        have erased := eraseIdxMiddle (upper ++ [{ first with content }]) second below
        have kept := renumberFromAppend (upper ++ [{ first with content }]) below
        rw [List.length_append,List.append_assoc] at erased kept
        rw [List.append_assoc] at erased kept
        rw [reset]
        exact (congrArg _ erased).trans kept
      have language : changed.language = doc.language := by
        rw [same]
      have tabStop : changed.tabStop = doc.tabStop := by
        rw [same]
      rw [← language,← tabStop] at higher lower
      exact refreshSettled ok (joined.trans numbered) higher place.index (fullRenumbered lower _)

theorem deleteByteSettled {pos : Position} {gap : Option Position}
    (settled : doc.Settled) (ok : doc.deleteByte pos = .ok (after, gap)) : after.Settled := by
  unfold deleteByte at ok
  split at ok
  · cases Except.ok.inj ok
    exact settled
  · rename_i line found
    split at ok
    · cases Except.ok.inj ok
      exact settled
    · split at ok
      · cases Except.ok.inj ok
        exact settled
      · rename_i above _ place
        rw [place] at found
        obtain ⟨shown,fresh,last⟩ := bindOk ok
        cases Except.ok.inj last
        exact joinedSettled settled (insideFound found) fresh rfl rfl
      · obtain ⟨shown,fresh,last⟩ := bindOk ok
        cases Except.ok.inj last
        exact setContentSettled settled (insideFound found) rfl fresh

theorem insertNewlineSettled {pos : Position} {done : Bool}
    (settled : doc.Settled) (ok : doc.insertNewline pos = .ok (after, done)) : after.Settled := by
  unfold insertNewline at ok
  split at ok
  · exact insertLineSettled settled ok
  · split at ok
    · cases Except.ok.inj ok
      exact settled
    · rename_i line found
      obtain ⟨head,fresh,ok⟩ := bindOk ok
      exact insertLineSettled (setContentSettled settled (insideFound found) rfl fresh) ok

theorem settledLine (settled : doc.Settled) {i : Nat} {line : Line} (found : doc.lines[i]? = some line) :
    line.Full doc.language doc.tabStop i (opensBefore false doc.lines i) := by
  have full := fullAt settled found
  rwa [Nat.zero_add] at full

theorem setLanguageFull {language : Option Language}
    (shown : ∀ (i : Nat) (line : Line), doc.lines[i]? = some line →
      line.index = i ∧ line.shown = expandTabs doc.tabStop line.content)
    (ok : doc.setLanguage language = .ok after) : after.Settled := by
  obtain ⟨lines,painted,rfl⟩ := setLanguageOk ok
  have repaintable : Repaintable language doc.tabStop 0 (doc.lines.map Line.invalidate) := by
    apply staleRepaintable
    intro i line found
    rw [List.getElem?_map] at found
    obtain ⟨before,there,rfl⟩ := Option.map_eq_some_iff.mp found
    obtain ⟨index,text⟩ := shown i before there
    exact ⟨index.trans (Nat.zero_add i).symm,text,rfl⟩
  exact repaintFull repaintable painted

theorem setLanguageSettled {language : Option Language} (settled : doc.Settled)
    (ok : doc.setLanguage language = .ok after) : after.Settled := by
  refine setLanguageFull ?_ ok
  intro i line found
  have full := settledLine settled found
  exact ⟨full.index,full.shown⟩

theorem setPathSettled (settled : doc.Settled) (path : String) : (doc.setPath path).Settled :=
  @setLanguageSettled { doc with path := some path } _ _ settled (doc.setPathOk path)

end

theorem holdingSettled (contents : List Bytes) (tabStop : Nat) : (holding contents tabStop).Settled := by
  have repaintable : Repaintable none (max tabStop 1) 0
      (contents.mapIdx fun index c => (Line.ofContent index c).rendered tabStop) := by
    apply staleRepaintable
    intro i line found
    rw [List.getElem?_mapIdx] at found
    obtain ⟨content,there,rfl⟩ := Option.map_eq_some_iff.mp found
    exact ⟨(Nat.zero_add i).symm,(expandTabsPositive tabStop content).symm,rfl⟩
  exact repaintFull repaintable (holdingOk contents tabStop)

theorem performSettled {doc after : Document} {edit : Edit} {done : Bool} (settled : doc.Settled)
    (ok : doc.perform edit = .ok (after, done)) : after.Settled := by
  cases edit with
  | insertLine i content => exact insertLineSettled settled ok
  | deleteLine i => exact deleteLineSettled settled ok
  | insertByte pos b => exact insertByteSettled settled ok
  | deleteByte pos =>
    obtain ⟨⟨cut,gap⟩,deleted,last⟩ := bindOk ok
    cases Except.ok.inj last
    exact deleteByteSettled settled deleted
  | insertNewline pos => exact insertNewlineSettled settled ok
  | setPath path =>
    cases Except.ok.inj ok
    exact setPathSettled settled path
  | setLanguage language =>
    obtain ⟨painted,changed,last⟩ := bindOk ok
    cases Except.ok.inj last
    exact setLanguageSettled settled changed
  | save write =>
    obtain ⟨rfl,_⟩ | ⟨rfl,_⟩ := performSave ok
    · exact settled
    · exact settled
  | saveAs write path =>
    obtain ⟨rfl,_⟩ | ⟨rfl,_⟩ := performSaveAs ok
    · exact @setPathSettled doc.saved settled path
    · exact settled

theorem loadedHolding {doc : Document} (loaded : doc.Loaded) :
    ∃ bytes tabStop, (∀ c ∈ splitLines bytes, Fits tabStop c) ∧
      (doc = holding (splitLines bytes) tabStop ∨
        ∃ path, doc = (holding (splitLines bytes) tabStop).setPath path) := by
  have read {bytes : Bytes} {tabStop : Nat} {doc : Document} (ok : ofBytes bytes tabStop = .ok doc) :
      (∀ c ∈ splitLines bytes, Fits tabStop c) ∧ doc = holding (splitLines bytes) tabStop :=
    ⟨ofContentsFits.mp ⟨doc,ok⟩,ofContentsOk ok⟩
  cases loaded with
  | bytes ok =>
    obtain ⟨fits,same⟩ := read ok
    exact ⟨_,_,fits,.inl same⟩
  | blank tabStop =>
    obtain ⟨fits,same⟩ := read (ofBytesEmpty tabStop)
    exact ⟨_,_,fits,.inl same⟩
  | @read path tabStop outcome doc ok =>
    cases outcome with
    | ok bytes =>
      obtain ⟨fresh,loaded,last⟩ := bindOk ok
      obtain ⟨fits,same⟩ := read loaded
      have named := Except.ok.inj (Except.ok.inj last)
      exact ⟨_,_,fits,.inr ⟨path,by rw [← named,same]⟩⟩
    | error fault =>
      obtain ⟨fits,same⟩ := read (ofBytesEmpty tabStop)
      by_cases missing : fault = .notFound
      · subst missing
        have named := Except.ok.inj (Except.ok.inj ok)
        exact ⟨_,_,fits,.inr ⟨path,by rw [← named,same]⟩⟩
      · have refused : ofRead path tabStop (.error fault) = .ok (.error fault) := by
          cases fault <;> first | exact absurd rfl missing | rfl
        cases refused.symm.trans ok

theorem loadedSettled {doc : Document} (loaded : doc.Loaded) : doc.Settled := by
  obtain ⟨bytes,tabStop,_,rfl | ⟨path,rfl⟩⟩ := loadedHolding loaded
  · exact holdingSettled _ _
  · exact setPathSettled (holdingSettled _ _) path

theorem loadedMarked {doc : Document} (loaded : doc.Loaded) : Language.Marked doc.language := by
  obtain ⟨bytes,tabStop,_,rfl | ⟨path,rfl⟩⟩ := loadedHolding loaded
  · exact Language.unmarkedNone
  · rw [languageOfSetPath]
    exact Language.ofPathMarked path

theorem splitLinesNonempty (bytes : Bytes) : splitLines bytes ≠ [] := by
  simp only [splitLines]
  split
  · rename_i ends
    intro empty
    cases all : pieces Byte.newline bytes with
    | nil => exact piecesNonempty Byte.newline bytes all
    | cons p rest =>
      cases rest with
      | cons q more => simp [all] at empty
      | nil =>
        -- One piece alone is the whole text, which ends in the separator.
        have joined := piecesJoined Byte.newline bytes
        have whole : p = bytes := by simpa [all] using joined
        have free := pieceFree (all ▸ List.mem_cons_self : p ∈ pieces Byte.newline bytes)
        rw [whole] at free
        exact free (List.mem_of_getLast? ends)
  · exact piecesNonempty Byte.newline bytes

theorem loadedNonempty {doc : Document} (loaded : doc.Loaded) : 0 < doc.count := by
  obtain ⟨bytes,tabStop,_,held⟩ := loadedHolding loaded
  have contents : doc.contents = splitLines bytes := by
    rcases held with rfl | ⟨path,rfl⟩
    · rw [contentsOfHolding]
    · rw [contentsOfSetPath,contentsOfHolding]
  rw [countContents,contents]
  exact List.length_pos_iff.mpr (splitLinesNonempty bytes)

theorem reachedSettled {doc : Document} (reached : doc.Reached) : doc.Settled := by
  obtain ⟨origin,edits,loaded,ran⟩ := reached
  refine foldKeeps ?_ (loadedSettled loaded) ran
  intro before edit after _ settled ok
  obtain ⟨done,performed⟩ := followOk ok
  exact performSettled settled performed

theorem settledUnique {doc other : Document} (settled : doc.Settled) (again : other.Settled)
    (contents : other.contents = doc.contents) (language : other.language = doc.language)
    (tabStop : other.tabStop = doc.tabStop) : other.lines = doc.lines := by
  unfold Settled at again
  rw [language,tabStop] at again
  exact fullUnique settled again contents

theorem paintedAtOnce {doc : Document} (reached : doc.Reached) :
    (∀ i line, doc.lines[i]? = some line →
      line.index = i ∧ line.shown = expandTabs doc.tabStop line.content ∧
      Painting.of doc.language (opensBefore false doc.lines i) line.shown =
        some ⟨line.styles, line.opens⟩ ∧
      line.styles.length = line.shown.length) ∧
    ∀ other : Document, other.Reached → other.contents = doc.contents →
      other.language = doc.language → other.tabStop = doc.tabStop → other.lines = doc.lines := by
  have settled := reachedSettled reached
  constructor
  · intro i line found
    have full := settledLine settled found
    exact ⟨full.index,full.shown,full.painted,(Painting.whole full.painted).1⟩
  · intro other known
    exact settledUnique settled (reachedSettled known)

theorem paintedAtOnceInComment :
    let edits := [Edit.setLanguage (some { name := "sample", blockComment := some ([40], [41]) }),
      .insertByte ⟨0, 0⟩ 97, .insertNewline ⟨0, 1⟩, .insertByte ⟨1, 0⟩ 41, .insertByte ⟨0, 0⟩ 40]
    ∃ doc line, edits.foldlM follow (blank 4) = .ok doc ∧ doc.lines[1]? = some line ∧
      line.styles = [.blockComment] ∧ line.opens = false ∧
      Painting.of doc.language true line.shown = some ⟨line.styles, line.opens⟩ := by
  intro edits
  obtain ⟨doc,line,ran,found,carried,styles,opens⟩ : ∃ doc line, edits.foldlM follow (blank 4) = .ok doc ∧
      doc.lines[1]? = some line ∧ opensBefore false doc.lines 1 = true ∧
      line.styles = [.blockComment] ∧ line.opens = false := ⟨_,_,rfl,rfl,rfl,rfl,rfl⟩
  obtain ⟨_,_,painted,_⟩ := (paintedAtOnce ⟨_,_,.blank 4,ran⟩).1 1 line found
  rw [carried] at painted
  exact ⟨doc,line,ran,found,styles,opens,painted⟩

end Document
end Vellum
