import Vellum.Proofs.Contents

/-! A place in a text, seen from within: the lines above it, its own line cut in
two, and the lines below. Crossing one byte, or the break between two lines,
relates a spot to the next one; every edit at a spot goes along one crossing. -/
namespace Vellum

structure Spot where
  above : List Bytes
  left : Bytes
  right : Bytes
  below : List Bytes
  deriving DecidableEq, Repr

namespace Spot

def contents (s : Spot) : List Bytes := s.above ++ (s.left ++ s.right) :: s.below

def position (s : Spot) : Position := ⟨s.above.length, s.left.length⟩

def before (s : Spot) : Bytes := s.above.flatMap (· ++ [Byte.newline]) ++ s.left

def after (s : Spot) : Bytes := s.right ++ s.below.flatMap (Byte.newline :: ·)

/- `Crossing s b t gap`: from `s` over `b` one comes to `t`, and without `b` both
would be the spot `gap`. -/
inductive Crossing : Spot → UInt8 → Spot → Spot → Prop where
  | byte (above left b right below) :
      Crossing ⟨above,left,b :: right,below⟩ b ⟨above,left ++ [b],right,below⟩
        ⟨above,left,right,below⟩
  | line (above left right below) :
      Crossing ⟨above,left,[],right :: below⟩ Byte.newline ⟨above ++ [left],[],right,below⟩
        ⟨above,left,right,below⟩

theorem crossingTexts {s t gap : Spot} {b : UInt8} (crossing : Crossing s b t gap) :
    s.after = b :: t.after ∧ t.before = s.before ++ [b] ∧
      gap.before = s.before ∧ gap.after = t.after := by
  cases crossing with
  | byte above left b right below => simp [before,after]
  | line above left right below => simp [before,after]

theorem crossingContents {s t gap : Spot} {b : UInt8} (crossing : Crossing s b t gap) :
    s.contents = t.contents := by
  cases crossing with
  | byte above left b right below => simp [contents]
  | line above left right below => simp [contents]

theorem crossedInto (t : Spot) : t.before = [] ∨ ∃ s b gap, Crossing s b t gap := by
  obtain ⟨above,left,right,below⟩ := t
  rcases left.eq_nil_or_concat with rfl | ⟨front,b,same⟩
  · rcases above.eq_nil_or_concat with rfl | ⟨front,last,same⟩
    · exact .inl rfl
    · rw [List.concat_eq_append] at same
      subst same
      exact .inr ⟨_,_,_,.line front last right below⟩
  · rw [List.concat_eq_append] at same
    subst same
    exact .inr ⟨_,_,_,.byte above front b right below⟩

theorem crossedFrom (s : Spot) : s.after = [] ∨ ∃ b t gap, Crossing s b t gap := by
  obtain ⟨above,left,right,below⟩ := s
  cases right with
  | cons b right => exact .inr ⟨_,_,_,.byte above left b right below⟩
  | nil =>
    cases below with
    | nil => exact .inl rfl
    | cons next below => exact .inr ⟨_,_,_,.line above left next below⟩

theorem atStart {t : Spot} (start : t.before = []) : t.above = [] ∧ t.left = [] := by
  obtain ⟨upper,left⟩ := List.append_eq_nil_iff.mp start
  refine ⟨?_,left⟩
  cases above : t.above with
  | nil => rfl
  | cons top rest => simp [above] at upper

theorem atEnd {s : Spot} (finish : s.after = []) : s.right = [] ∧ s.below = [] := by
  obtain ⟨right,lower⟩ := List.append_eq_nil_iff.mp finish
  refine ⟨right,?_⟩
  cases below : s.below with
  | nil => rfl
  | cons next rest => simp [below] at lower

theorem joinedBelow (sep : UInt8) (first : Bytes) (below : List Bytes) :
    [sep].intercalate (first :: below) = first ++ below.flatMap (sep :: ·) := by
  induction below generalizing first with
  | nil => simp
  | cons next below ih => simp [List.intercalate_cons_cons,ih]

theorem joinedAbove (sep : UInt8) (above : List Bytes) (first : Bytes) (below : List Bytes) :
    [sep].intercalate (above ++ first :: below) =
      above.flatMap (· ++ [sep]) ++ [sep].intercalate (first :: below) := by
  induction above with
  | nil => rfl
  | cons top above ih =>
    cases above with
    | nil => simp [List.intercalate_cons_cons]
    | cons next above =>
      simp only [List.cons_append,List.intercalate_cons_cons,List.flatMap_cons,List.append_assoc] at ih ⊢
      rw [ih]

theorem terminated (sep : UInt8) {contents : List Bytes} (nonempty : contents ≠ []) :
    contents.flatMap (· ++ [sep]) = [sep].intercalate contents ++ [sep] := by
  rcases contents.eq_nil_or_concat with empty | ⟨above,last,same⟩
  · exact absurd empty nonempty
  · rw [same,List.concat_eq_append,joinedAbove,joinedBelow]
    simp

theorem flattened (s : Spot) :
    [Byte.newline].intercalate s.contents = s.before ++ s.after := by
  rw [contents,joinedAbove,joinedBelow]
  simp [before,after]

end Spot

theorem insertIdxMiddle {α : Type} (left : List α) (a : α) (right : List α) :
    (left ++ right).insertIdx left.length a = left ++ a :: right := by
  induction left with
  | nil => rfl
  | cons x left ih => simp [ih]

theorem eraseIdxMiddle {α : Type} (left : List α) (a : α) (right : List α) :
    (left ++ a :: right).eraseIdx left.length = left ++ right := by
  rw [List.eraseIdx_append_of_length_le (Nat.le_refl _)]
  simp

theorem setMiddle {α : Type} (left : List α) (a b : α) (right : List α) :
    (left ++ a :: right).set left.length b = left ++ b :: right := by
  rw [List.set_append_right _ _ (Nat.le_refl _)]
  simp

namespace Document

theorem contentAt (doc : Document) (i : Nat) : doc.content i = doc.contents[i]?.getD [] := by
  simp [content,contents]

theorem lineSizeAt (doc : Document) (i : Nat) :
    doc.lineSize i = (doc.contents[i]?.map List.length).getD 0 := by
  simp only [lineSize,contents,List.getElem?_map,Option.map_map]
  rfl

theorem countContents (doc : Document) : doc.count = doc.contents.length := by
  simp [count,contents]

structure Inside (doc : Document) (pos : Position) : Prop where
  line : pos.line < doc.count
  column : pos.column ≤ doc.lineSize pos.line

section
variable {doc : Document} {s : Spot} (held : doc.contents = s.contents)
include held

theorem spotLine : ∃ line, doc.lines[s.above.length]? = some line ∧ line.content = s.left ++ s.right := by
  have found : doc.contents[s.above.length]? = some (s.left ++ s.right) := by
    rw [held,Spot.contents]
    simp
  simpa [contents] using found

theorem spotCount : doc.count = s.above.length + 1 + s.below.length := by
  rw [countContents,held,Spot.contents]
  simp
  omega

theorem spotSize : doc.lineSize s.above.length = s.left.length + s.right.length := by
  obtain ⟨line,found,content⟩ := spotLine held
  simp [lineSize,found,Line.size,content]

theorem spotContent : doc.content s.above.length = s.left ++ s.right := by
  obtain ⟨line,found,text⟩ := spotLine held
  rw [content,found]
  exact text

theorem spotInside : doc.Inside s.position := by
  have count := spotCount held
  have size := spotSize held
  constructor
  · change s.above.length < doc.count
    omega
  · change s.left.length ≤ doc.lineSize s.above.length
    omega

end

theorem insideSpot {doc : Document} {pos : Position} (inside : doc.Inside pos) :
    ∃ s : Spot, doc.contents = s.contents ∧ pos = s.position := by
  have line : pos.line < doc.contents.length := by
    rw [← countContents]
    exact inside.line
  have column := inside.column
  rw [lineSizeAt,List.getElem?_eq_getElem line] at column
  have column : pos.column ≤ doc.contents[pos.line].length := column
  refine ⟨⟨doc.contents.take pos.line,doc.contents[pos.line].take pos.column,
    doc.contents[pos.line].drop pos.column,doc.contents.drop (pos.line + 1)⟩,?_,?_⟩
  · rw [Spot.contents,List.take_append_drop,List.getElem_cons_drop,List.take_append_drop]
  · obtain ⟨i,k⟩ := pos
    simp only [Spot.position,List.length_take] at line column ⊢
    rw [Nat.min_eq_left (by omega),Nat.min_eq_left column]

theorem insideSame {doc other : Document} {pos : Position} (same : other.contents = doc.contents)
    (inside : doc.Inside pos) : other.Inside pos := by
  obtain ⟨line,column⟩ := inside
  constructor
  · rwa [countContents,same,← countContents]
  · rwa [lineSizeAt,same,← lineSizeAt]

theorem insideNonempty {doc : Document} {pos : Position} (inside : doc.Inside pos) : 0 < doc.count :=
  Nat.lt_of_le_of_lt (Nat.zero_le _) inside.line

/- What an edit comes to: its answer and the lines it leaves, and that it counts as one edit and
changes nothing else. There is an answer if there is room for the lines that are shown anew. -/
structure Yields {α : Type} (doc : Document) (edit : Except Impasse (Document × α))
    (shown contents : List Bytes) (answer : α) : Prop where
  sound : ∀ {after given}, edit = .ok (after, given) → given = answer ∧ after.contents = contents
  rest : ∀ {after given}, edit = .ok (after, given) → after = { doc with lines := after.lines }.edited
  answers : Language.Marked doc.language → Answers edit (∀ c ∈ shown, Fits doc.tabStop c)

theorem refreshYields {α : Type} {doc changed : Document} (i : Nat) (answer : α)
    (rest : changed = { doc with lines := changed.lines }.edited) :
    Yields doc ((changed.refresh i).bind fun after => .ok (after, answer)) [changed.content i]
      changed.contents answer := by
  have tabStop : changed.tabStop = doc.tabStop := by
    rw [rest]
    rfl
  have language : changed.language = doc.language := by
    rw [rest]
    rfl
  constructor
  · intro after given ok
    obtain ⟨shown,fresh,last⟩ := bindOk ok
    obtain ⟨rfl,answered⟩ := Prod.mk.inj (Except.ok.inj last)
    exact ⟨answered.symm,contentsOfRefresh fresh⟩
  · intro after given ok
    obtain ⟨shown,fresh,last⟩ := bindOk ok
    obtain ⟨rfl,_⟩ := Prod.mk.inj (Except.ok.inj last)
    rw [refreshRest fresh,rest]
    rfl
  · intro marked
    rw [List.forall_mem_singleton,← tabStop]
    exact answersThen (refreshAnswers (language ▸ marked) i) fun after _ => ⟨(after, answer),rfl⟩

theorem insertByteYields {doc : Document} {s : Spot} (held : doc.contents = s.contents) (b : UInt8) :
    let put : Spot := { s with left := s.left ++ [b] }
    Yields doc (doc.insertByte s.position b) [put.left ++ put.right] put.contents true := by
  intro put
  obtain ⟨line,found,content⟩ := spotLine held
  have count := spotCount held
  have other : s.position.line ≠ doc.count := by simp only [Spot.position]; omega
  have within : ¬ line.size < s.left.length := by simp [Line.size,content]
  let changed := (doc.setContent s.above.length (s.left ++ b :: s.right)).edited
  have contents : changed.contents = put.contents := by
    rw [contentsOfEdited,contentsOfSetContent,held,Spot.contents,setMiddle]
    simp [put,Spot.contents]
  have same : doc.insertByte s.position b =
      (changed.refresh s.above.length).bind fun after => .ok (after, true) := by
    rw [insertByte,if_neg other]
    simp only [insertWithin,Spot.position,found,content]
    rw [if_neg within,insertIdxMiddle]
    rfl
  rw [same,← contents,← spotContent contents]
  exact refreshYields s.above.length true rfl

theorem deleteByteYields {doc : Document} {s t gap : Spot} {b : UInt8}
    (crossing : Spot.Crossing s b t gap) (held : doc.contents = t.contents) :
    Yields doc (doc.deleteByte t.position) [gap.left ++ gap.right] gap.contents (some gap.position) := by
  obtain ⟨line,found,content⟩ := spotLine held
  have within : ¬ line.size < t.left.length := by simp [Line.size,content]
  cases crossing with
  | byte above left b right below =>
    let cut := (doc.setContent above.length (left ++ right)).edited
    have contents : cut.contents = (Spot.mk above left right below).contents := by
      rw [contentsOfEdited,contentsOfSetContent,held,Spot.contents,setMiddle]
      rfl
    have same : doc.deleteByte ⟨above.length, (left ++ [b]).length⟩ =
        (cut.refresh above.length).bind fun after => .ok (after, some ⟨above.length, left.length⟩) := by
      have shape : line.content.eraseIdx left.length = left ++ right := by
        rw [content,List.append_assoc]
        exact eraseIdxMiddle left b right
      simp only [deleteByte,found]
      rw [if_neg within,List.length_append,List.length_singleton]
      simp only [shape]
      rfl
    rw [← contents,← spotContent contents]
    simp only [Spot.position]
    rw [same]
    exact refreshYields above.length _ rfl
  | line above left right below =>
    have upper : doc.content above.length = left := by
      rw [contentAt,held,Spot.contents]
      simp
    let joined := doc.setContent above.length (left ++ right)
    let cut := { joined with
      lines := renumberFrom (above.length + 1) (joined.lines.eraseIdx (above.length + 1)) }.edited
    have contents : cut.contents = (Spot.mk above left right below).contents := by
      have erased : cut.contents = joined.contents.eraseIdx (above.length + 1) := by
        simp only [cut,contentsOfEdited]
        simp only [Document.contents,contentsRenumber,List.eraseIdx_map]
      have set : joined.contents = (above ++ [left ++ right]) ++ right :: below := by
        simp only [joined,contentsOfSetContent,held,Spot.contents,List.append_assoc,List.singleton_append,
          setMiddle,List.nil_append]
      have length : above.length + 1 = (above ++ [left ++ right]).length := by simp
      rw [erased,set,length,eraseIdxMiddle]
      simp [Spot.contents]
    have same : doc.deleteByte ⟨above.length + 1, 0⟩ =
        (cut.refresh above.length).bind fun after => .ok (after, some ⟨above.length, left.length⟩) := by
      simp only [List.length_append,List.length_singleton] at found
      simp only [deleteByte,found]
      rw [if_neg (Nat.not_lt_zero _),upper,content]
      rfl
    rw [← contents,← spotContent contents]
    simp only [Spot.position,List.length_append,List.length_singleton,List.length_nil]
    rw [same]
    exact refreshYields above.length _ rfl

theorem insertLineYields {doc : Document} {i : Nat} (within : i ≤ doc.count) (content : Bytes) :
    Yields doc (doc.insertLine i content) [content] (doc.contents.insertIdx i content) true := by
  let put := { doc with lines := renumberFrom i (doc.lines.insertIdx i (.ofContent i content)) }.edited
  have contents : put.contents = doc.contents.insertIdx i content := by
    simp only [put,contentsOfEdited]
    simp only [Document.contents,contentsRenumber,List.map_insertIdx]
    rfl
  have shown : put.content i = content := by
    rw [countContents] at within
    rw [contentAt,contents,List.getElem?_insertIdx_self,if_pos within]
    rfl
  have same : doc.insertLine i content = (put.refresh i).bind fun after => .ok (after, true) := by
    have order : ¬ doc.count < i := by omega
    simp only [insertLine]
    rw [if_neg order]
    rfl
  rw [same,← contents,← shown]
  exact refreshYields i true rfl

theorem insertNewlineYields {doc : Document} {s : Spot} (held : doc.contents = s.contents) :
    Yields doc (doc.insertNewline s.position) [s.left, s.right]
      (Spot.mk (s.above ++ [s.left]) [] s.right s.below).contents true := by
  obtain ⟨line,found,content⟩ := spotLine held
  have count := spotCount held
  have other : s.position.line ≠ doc.count := by simp only [Spot.position]; omega
  have column : min s.position.column line.size = s.left.length := by
    simp [Line.size,content,Spot.position]
  let head := doc.setContent s.above.length s.left
  have headContents : head.contents = s.above ++ s.left :: s.below := by
    rw [contentsOfSetContent,held,Spot.contents,setMiddle]
  have headContent : head.content s.above.length = s.left := by
    rw [contentAt,headContents]
    simp
  have same : doc.insertNewline s.position = (head.refresh s.above.length).bind fun shown =>
      shown.insertLine (s.above.length + 1) s.right := by
    have here : doc.lines[s.position.line]? = some line := found
    rw [insertNewline,if_neg other,here]
    simp only [column,content,List.take_left,List.drop_left]
    rfl
  have after {shown : Document} (fresh : head.refresh s.above.length = .ok shown) :
      Yields doc (shown.insertLine (s.above.length + 1) s.right) [s.right]
        (Spot.mk (s.above ++ [s.left]) [] s.right s.below).contents true := by
    have contents := (contentsOfRefresh fresh).trans headContents
    have within : s.above.length + 1 ≤ shown.count := by
      rw [countContents,contents]
      simp
    have yields := insertLineYields within s.right
    have inserted : (s.above ++ s.left :: s.below).insertIdx (s.above.length + 1) s.right =
        (Spot.mk (s.above ++ [s.left]) [] s.right s.below).contents := by
      have middle := insertIdxMiddle (s.above ++ [s.left]) s.right s.below
      rwa [List.length_append,List.append_assoc] at middle
    rw [contents,inserted] at yields
    have rest := refreshRest fresh
    refine ⟨yields.sound,?_,?_⟩
    · intro last given ok
      rw [yields.rest ok,rest]
      rfl
    · intro marked
      have language : shown.language = doc.language := by
        rw [rest]
        rfl
      have tabStop : shown.tabStop = doc.tabStop := by
        rw [rest]
        rfl
      rw [← tabStop]
      exact yields.answers (language ▸ marked)
  rw [same]
  constructor
  · intro last given ok
    obtain ⟨shown,fresh,ok⟩ := bindOk ok
    exact (after fresh).sound ok
  · intro last given ok
    obtain ⟨shown,fresh,ok⟩ := bindOk ok
    exact (after fresh).rest ok
  · intro marked
    have both := answersBind (@refreshAnswers head marked s.above.length) fun _ fresh =>
      (after fresh).answers marked
    rw [headContent] at both
    exact answersIff List.forall_mem_cons.symm both

end Document
end Vellum
