import Vellum.Proofs.RoundTrip

/-! What the count of edits is good for. Along any edits a ledger keeps the lines as
they were at the last load or save, and the bytes which that save wrote. While the
count is zero, the lines are those; once an edit has been done, the count is not zero
before the next save. -/
namespace Vellum

def Edit.changesText : Edit → Bool
  | .insertLine .. | .deleteLine .. | .insertByte .. | .deleteByte .. | .insertNewline .. => true
  | .setPath .. | .setLanguage .. | .save .. | .saveAs .. => false

def Edit.saves : Edit → Bool
  | .save .. | .saveAs .. => true
  | _ => false

structure Ledger where
  document : Document
  kept : List Bytes
  written : Option Bytes
  touched : Bool

namespace Ledger

def opened (document : Document) : Ledger := ⟨document, document.contents, none, false⟩

def recording (write : String → Bytes → Except Fault Unit) (path : String) (bytes : Bytes) :
    Except Fault Bytes :=
  (write path bytes).map fun _ => bytes

def stored (ledger : Ledger) : Except Fault (Document × Bytes × Nat) → Ledger
  | .ok (document, bytes, _) => ⟨document, document.contents, some bytes, false⟩
  | .error _ => ledger

def noted (ledger : Ledger) (edit : Edit) (out : Document × Bool) : Ledger :=
  { ledger with document := out.1, touched := ledger.touched || edit.changesText && out.2 }

def follow (ledger : Ledger) : Edit → Except Impasse Ledger
  | .save write => .ok (ledger.stored (ledger.document.saveBy (recording write)))
  | .saveAs write path => .ok (ledger.stored (ledger.document.saveAsBy (recording write) path))
  | edit => (ledger.document.perform edit).map (ledger.noted edit)

end Ledger

namespace Document

inductive Counted (doc : Document) : Document → Bool → Prop where
  | refused : Counted doc doc false
  | counted {after done} (more : doc.edits < after.edits) : Counted doc after done

theorem refreshEdits {doc after : Document} {i : Nat} (ok : doc.refresh i = .ok after) :
    after.edits = doc.edits := by
  rw [refreshRest ok]

theorem insertLineEdits {doc after : Document} {i : Nat} {content : Bytes} {done : Bool}
    (within : i ≤ doc.count) (ok : doc.insertLine i content = .ok (after, done)) :
    after.edits = doc.edits + 1 := by
  rw [(insertLineYields within content).rest ok]
  rfl

theorem insertLineCounted {doc after : Document} {i : Nat} {content : Bytes} {done : Bool}
    (ok : doc.insertLine i content = .ok (after, done)) : Counted doc after done := by
  by_cases outside : doc.count < i
  · rw [insertLine,if_pos outside] at ok
    cases Except.ok.inj ok
    exact .refused
  · have more := insertLineEdits (Nat.le_of_not_lt outside) ok
    exact .counted (by omega)

theorem deleteLineCounted {doc after : Document} {i : Nat} {done : Bool}
    (ok : doc.deleteLine i = .ok (after, done)) : Counted doc after done := by
  unfold deleteLine at ok
  split at ok
  · cases Except.ok.inj ok
    exact .refused
  · obtain ⟨painted,again,last⟩ := bindOk ok
    cases Except.ok.inj last
    obtain ⟨lines,_,rfl⟩ := repaintFromOk again
    exact .counted (Nat.lt_succ_self _)

theorem changedCounted {doc changed after : Document} {i : Nat} {done : Bool}
    (ok : changed.edited.refresh i = .ok after) (edits : changed.edits = doc.edits) :
    Counted doc after done := by
  have more : after.edits = changed.edits + 1 := refreshEdits ok
  exact .counted (by omega)

theorem insertWithinCounted {doc after : Document} {pos : Position} {b : UInt8} {done : Bool}
    (ok : doc.insertWithin pos b = .ok (after, done)) : Counted doc after done := by
  unfold insertWithin at ok
  split at ok
  · cases Except.ok.inj ok
    exact .refused
  · split at ok
    · cases Except.ok.inj ok
      exact .refused
    · obtain ⟨shown,fresh,last⟩ := bindOk ok
      cases Except.ok.inj last
      exact changedCounted fresh rfl

theorem insertByteCounted {doc after : Document} {pos : Position} {b : UInt8} {done : Bool}
    (ok : doc.insertByte pos b = .ok (after, done)) : Counted doc after done := by
  unfold insertByte at ok
  split at ok
  · rename_i last
    obtain ⟨⟨grown,_⟩,growing,ok⟩ := bindOk ok
    have more := insertLineEdits (Nat.le_of_eq last) growing
    -- The line that was added counts even where the byte is refused.
    cases insertWithinCounted ok with
    | refused => exact .counted (by omega)
    | counted later => exact .counted (by omega)
  · exact insertWithinCounted ok

theorem deleteByteCounted {doc after : Document} {pos : Position} {gap : Option Position}
    (ok : doc.deleteByte pos = .ok (after, gap)) : Counted doc after gap.isSome := by
  unfold deleteByte at ok
  split at ok
  · cases Except.ok.inj ok
    exact .refused
  · split at ok
    · cases Except.ok.inj ok
      exact .refused
    · split at ok
      · cases Except.ok.inj ok
        exact .refused
      · obtain ⟨shown,fresh,last⟩ := bindOk ok
        cases Except.ok.inj last
        exact changedCounted fresh rfl
      · obtain ⟨shown,fresh,last⟩ := bindOk ok
        cases Except.ok.inj last
        exact changedCounted fresh rfl

theorem insertNewlineCounted {doc after : Document} {pos : Position} {done : Bool}
    (ok : doc.insertNewline pos = .ok (after, done)) : Counted doc after done := by
  unfold insertNewline at ok
  split at ok
  · exact insertLineCounted ok
  · split at ok
    · cases Except.ok.inj ok
      exact .refused
    · rename_i line found
      obtain ⟨head,fresh,ok⟩ := bindOk ok
      -- The shortened head has been shown without being counted, so the tail must not be refused.
      have count : head.count = doc.count := by
        rw [countContents,contentsOfRefresh fresh,contentsOfSetContent,List.length_set,← countContents]
      have within : pos.line + 1 ≤ head.count := by
        rw [count]
        exact insideFound found
      have same := refreshEdits fresh
      simp only [setContent] at same
      have more := insertLineEdits within ok
      exact .counted (by omega)

theorem performCounted {doc after : Document} {edit : Edit} {done : Bool}
    (text : edit.changesText = true) (ok : doc.perform edit = .ok (after, done)) :
    Counted doc after done := by
  cases edit with
  | insertLine i content => exact insertLineCounted ok
  | deleteLine i => exact deleteLineCounted ok
  | insertByte pos b => exact insertByteCounted ok
  | deleteByte pos =>
    obtain ⟨⟨cut,gap⟩,deleted,last⟩ := bindOk ok
    cases Except.ok.inj last
    exact deleteByteCounted deleted
  | insertNewline pos => exact insertNewlineCounted ok
  | setPath path => cases text
  | setLanguage language => cases text
  | save write => cases text
  | saveAs write path => cases text

theorem loadedClean {doc : Document} (loaded : doc.Loaded) : doc.isDirty = false := by
  obtain ⟨bytes,tabStop,_,rfl | ⟨path,rfl⟩⟩ := loadedHolding loaded
  · rfl
  · rfl

theorem savedClean {doc after : Document} {edit : Edit} (saves : edit.saves = true)
    (ok : doc.perform edit = .ok (after, true)) : after.isDirty = false := by
  unfold Edit.saves at saves
  split at saves
  · obtain ⟨rfl,_⟩ | ⟨_,refused⟩ := performSave ok
    · rfl
    · cases refused
  · obtain ⟨rfl,_⟩ | ⟨_,refused⟩ := performSaveAs ok
    · rfl
    · cases refused
  · cases saves

end Document

namespace Ledger

structure Sound (ledger : Ledger) : Prop where
  clean : ledger.document.edits = 0 → ledger.document.contents = ledger.kept
  written : ∀ bytes, ledger.written = some bytes → ledger.kept.flatMap (· ++ [Byte.newline]) = bytes
  touched : ledger.touched = true → 0 < ledger.document.edits

theorem openedSound (doc : Document) : (opened doc).Sound where
  clean := fun _ => rfl
  written := nofun
  touched := nofun

theorem renamedSound {ledger : Ledger} {document : Document} (sound : ledger.Sound)
    (contents : document.contents = ledger.document.contents)
    (edits : document.edits = ledger.document.edits) : { ledger with document }.Sound := by
  refine ⟨?_,sound.written,?_⟩
  · intro clean
    rw [contents]
    exact sound.clean (edits ▸ clean)
  · intro touched
    rw [edits]
    exact sound.touched touched

theorem countedSound {ledger : Ledger} {document : Document} {done : Bool} (sound : ledger.Sound)
    (counted : ledger.document.Counted document done) :
    { ledger with document, touched := ledger.touched || done }.Sound := by
  cases counted with
  | refused =>
    rw [Bool.or_false]
    exact sound
  | counted more =>
    have dirty : 0 < document.edits := Nat.lt_of_le_of_lt (Nat.zero_le _) more
    exact ⟨fun clean => absurd clean (Nat.ne_of_gt dirty),sound.written,fun _ => dirty⟩

theorem recordingOk {write : String → Bytes → Except Fault Unit} {path : String} {bytes written : Bytes}
    (ok : recording write path bytes = .ok written) : written = bytes := by
  obtain ⟨_,_,same⟩ := mapOk ok
  exact same.symm

theorem storedSound {ledger : Ledger} {outcome : Except Fault (Document × Bytes × Nat)}
    (sound : ledger.Sound)
    (bytesWritten : ∀ document bytes n, outcome = .ok (document, bytes, n) → document.toBytes = bytes) :
    (ledger.stored outcome).Sound := by
  cases outcome with
  | error fault => exact sound
  | ok out =>
    obtain ⟨document,bytes,n⟩ := out
    refine ⟨fun _ => rfl,?_,nofun⟩
    intro written same
    cases Option.some.inj same
    exact bytesWritten document bytes n rfl

theorem followSound {ledger after : Ledger} {edit : Edit} (sound : ledger.Sound)
    (ok : ledger.follow edit = .ok after) : after.Sound := by
  have text (edit : Edit) (changes : edit.changesText = true)
      (ok : (ledger.document.perform edit).map (ledger.noted edit) = .ok after) : after.Sound := by
    obtain ⟨⟨document,done⟩,performed,rfl⟩ := mapOk ok
    rw [noted,changes,Bool.true_and]
    exact countedSound sound (Document.performCounted changes performed)
  cases edit with
  | insertLine i content => exact text (.insertLine i content) rfl ok
  | deleteLine i => exact text (.deleteLine i) rfl ok
  | insertByte pos b => exact text (.insertByte pos b) rfl ok
  | deleteByte pos => exact text (.deleteByte pos) rfl ok
  | insertNewline pos => exact text (.insertNewline pos) rfl ok
  | setPath path =>
    rw [← Except.ok.inj ok,noted,Edit.changesText,Bool.false_and,Bool.or_false]
    exact renamedSound sound (Document.contentsOfSetPath _ path) rfl
  | setLanguage language =>
    obtain ⟨out,performed,rfl⟩ := mapOk ok
    obtain ⟨painted,again,last⟩ := bindOk performed
    cases Except.ok.inj last
    obtain ⟨lines,_,rfl⟩ := Document.setLanguageOk again
    rw [noted,Edit.changesText,Bool.false_and,Bool.or_false]
    exact renamedSound sound (Document.contentsOfSetLanguage again) rfl
  | save write =>
    cases Except.ok.inj ok
    apply storedSound sound
    intro document bytes n stored
    obtain ⟨rfl,_,path,_,done⟩ := Document.saveByOk stored
    exact (recordingOk done).symm
  | saveAs write path =>
    cases Except.ok.inj ok
    apply storedSound sound
    intro document bytes n stored
    obtain ⟨rfl,_,done⟩ := Document.saveAsByOk stored
    rw [recordingOk done,Document.toBytes,Document.contentsOfSavedAs]
    rfl

theorem saveByRecording (doc : Document) (write : String → Bytes → Except Fault Unit) :
    doc.saveBy (recording write) = (doc.saveBy write).map fun out => (out.1, doc.toBytes, out.2.2) := by
  unfold Document.saveBy
  cases doc.path with
  | none => rfl
  | some path =>
    simp only [recording]
    cases write path doc.toBytes <;> rfl

theorem saveAsByRecording (doc : Document) (write : String → Bytes → Except Fault Unit) (path : String) :
    doc.saveAsBy (recording write) path =
      (doc.saveAsBy write path).map fun out => (out.1, doc.toBytes, out.2.2) := by
  simp only [Document.saveAsBy,recording]
  cases write path doc.toBytes <;> rfl

theorem followDocument (ledger : Ledger) (edit : Edit) :
    (ledger.follow edit).map document = ledger.document.follow edit := by
  have plain (edit : Edit) : ((ledger.document.perform edit).map (ledger.noted edit)).map document =
      ledger.document.follow edit := by
    unfold Document.follow
    cases ledger.document.perform edit <;> rfl
  cases edit with
  | insertLine i content => exact plain (.insertLine i content)
  | deleteLine i => exact plain (.deleteLine i)
  | insertByte pos b => exact plain (.insertByte pos b)
  | deleteByte pos => exact plain (.deleteByte pos)
  | insertNewline pos => exact plain (.insertNewline pos)
  | setPath path => exact plain (.setPath path)
  | setLanguage language => exact plain (.setLanguage language)
  | save write =>
    simp only [follow,saveByRecording,Document.follow,Document.perform]
    cases ledger.document.saveBy write <;> rfl
  | saveAs write path =>
    simp only [follow,saveAsByRecording,Document.follow,Document.perform]
    cases ledger.document.saveAsBy write path <;> rfl

theorem ledgerRuns {ledger : Ledger} {edits : List Edit} {doc : Document}
    (ran : edits.foldlM Document.follow ledger.document = .ok doc) :
    ∃ after, edits.foldlM follow ledger = .ok after ∧ after.document = doc := by
  induction edits generalizing ledger with
  | nil => exact ⟨ledger,rfl,Except.ok.inj ran⟩
  | cons edit edits ih =>
    obtain ⟨next,first,later⟩ := bindOk ran
    rw [← followDocument] at first
    obtain ⟨noted,followed,rfl⟩ := mapOk first
    obtain ⟨after,rest,same⟩ := ih later
    refine ⟨after,?_,same⟩
    simp only [List.foldlM_cons,followed,bind,Except.bind]
    exact rest

theorem cleanHoldsNothingUnsaved {origin doc : Document} {edits : List Edit}
    (ran : edits.foldlM Document.follow origin = .ok doc) :
    ∃ ledger, edits.foldlM follow (opened origin) = .ok ledger ∧ ledger.document = doc ∧
      (doc.isDirty = false → doc.contents = ledger.kept ∧
        ∀ bytes, ledger.written = some bytes → doc.toBytes = bytes) ∧
      (ledger.touched = true → doc.isDirty = true) ∧
      (origin.Loaded → origin.isDirty = false) ∧
      ∀ edit after, edit.saves = true → doc.perform edit = .ok (after, true) →
        after.isDirty = false := by
  obtain ⟨ledger,followed,rfl⟩ := @ledgerRuns (opened origin) edits doc ran
  have sound : ledger.Sound := by
    refine foldKeeps ?_ (openedSound origin) followed
    intro before edit after _ sound ok
    exact followSound sound ok
  refine ⟨ledger,followed,rfl,?_,?_,Document.loadedClean,fun _ _ => Document.savedClean⟩
  · intro clean
    have same := sound.clean (by simpa [Document.isDirty] using clean)
    refine ⟨same,?_⟩
    intro bytes written
    rw [Document.toBytes,same]
    exact sound.written bytes written
  · intro touched
    exact decide_eq_true (sound.touched touched)

theorem cleanHoldsNothingUnsavedAfterFailure :
    let edits := [Edit.insertByte ⟨0, 0⟩ 97, .saveAs (fun _ _ => .ok ()) "a.txt", .deleteByte ⟨0, 0⟩,
      .setLanguage none, .save (fun _ _ => .error .isFolder)]
    ∃ doc, edits.foldlM Document.follow (.blank 4) = .ok doc ∧ doc.isDirty = false ∧
      doc.contents = [[97]] ∧ doc.toBytes = [97, 10] := by
  intro edits
  obtain ⟨doc,ran,clean⟩ : ∃ doc, edits.foldlM Document.follow (.blank 4) = .ok doc ∧
      doc.isDirty = false := ⟨_,rfl,rfl⟩
  obtain ⟨ledger,followed,_,kept,_⟩ := cleanHoldsNothingUnsaved ran
  obtain ⟨contents,bytes⟩ := kept clean
  have known : ledger.kept = [[97]] ∧ ledger.written = some [97, 10] := by
    cases Except.ok.inj followed
    exact ⟨rfl,rfl⟩
  exact ⟨doc,ran,clean,contents.trans known.1,bytes _ known.2⟩

end Ledger
end Vellum
