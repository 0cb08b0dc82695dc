/-! Bytes of text, and the classes of bytes that the rest of the editor tells
apart. Text is kept as bytes: nothing here assumes an encoding. -/
namespace Vellum

abbrev Bytes := List UInt8

namespace Byte

def tab : UInt8 := 9
def newline : UInt8 := 10
def escape : UInt8 := 27
def space : UInt8 := 32

def ascii (s : String) : Bytes := s.toList.map fun c => c.val.toUInt8

def isDigit (b : UInt8) : Bool := 48 ≤ b && b ≤ 57

/-- Space, tab, line feed, form feed and carriage return; the vertical tab is not blank. -/
def isBlank (b : UInt8) : Bool := b == 32 || b == 9 || b == 10 || b == 12 || b == 13

def punctuation : Bytes :=
  [33, 37, 38, 40, 41, 42, 43, 44, 45, 46, 47, 58, 59, 60, 61, 62, 91, 93, 94, 123, 124, 125, 126]

def isSeparator (b : UInt8) : Bool := b == 0 || isBlank b || punctuation.contains b

def isControl (b : UInt8) : Bool := b < 32 || b == 127

theorem printableIff {b : UInt8} : isControl b = false ↔ 32 ≤ b ∧ b ≠ 127 := by
  simp [isControl]

theorem printableNat {b : UInt8} : isControl b = false ↔ 32 ≤ b.toNat ∧ b.toNat ≠ 127 := by
  rw [printableIff,UInt8.le_iff_toNat_le,ne_eq,← UInt8.toNat_inj]
  rfl

end Byte

def pieces {α : Type} [BEq α] (sep : α) (xs : List α) : List (List α) :=
  xs.foldr (fun x acc => if x == sep then [] :: acc else
    match acc with
    | [] => [[x]]
    | p :: ps => (x :: p) :: ps) [[]]

def occursIn {α : Type} [BEq α] (part : List α) : List α → Bool
  | [] => part.isEmpty
  | x :: rest => part.isPrefixOf (x :: rest) || occursIn part rest

theorem piecesNonempty {α : Type} [BEq α] (sep : α) (xs : List α) : pieces sep xs ≠ [] := by
  cases xs with
  | nil => simp [pieces]
  | cons x rest =>
    simp only [pieces,List.foldr_cons]
    split
    · simp
    · split <;> simp

theorem piecesAtSeparator {α : Type} [BEq α] [LawfulBEq α] (sep : α) (xs : List α) :
    pieces sep (sep :: xs) = [] :: pieces sep xs := by
  simp [pieces]

theorem piecesAtOther {α : Type} [BEq α] [LawfulBEq α] {sep x : α} (other : x ≠ sep)
    (xs : List α) :
    ∃ p ps, pieces sep xs = p :: ps ∧ pieces sep (x :: xs) = (x :: p) :: ps := by
  cases h : pieces sep xs with
  | nil => exact absurd h (piecesNonempty sep xs)
  | cons p ps =>
    refine ⟨p,ps,rfl,?_⟩
    unfold pieces at h ⊢
    simp [h,other]

theorem pieceFree {α : Type} [BEq α] [LawfulBEq α] {sep : α} {xs p : List α}
    (member : p ∈ pieces sep xs) : sep ∉ p := by
  induction xs generalizing p with
  | nil =>
    have empty : p = [] := by simpa [pieces] using member
    simp [empty]
  | cons x rest ih =>
    by_cases same : x = sep
    · subst x
      rw [piecesAtSeparator] at member
      rcases List.mem_cons.mp member with empty | inside
      · simp [empty]
      · exact ih inside
    · obtain ⟨q,qs,before,after⟩ := piecesAtOther same rest
      rw [after] at member
      rcases List.mem_cons.mp member with first | inside
      · subst p
        have clean := ih (by rw [before]; exact List.mem_cons_self)
        simp [clean,Ne.symm same]
      · exact ih (by rw [before]; exact List.mem_cons_of_mem q inside)

theorem piecesJoined {α : Type} [BEq α] [LawfulBEq α] (sep : α) (xs : List α) :
    (pieces sep xs).flatMap (· ++ [sep]) = xs ++ [sep] := by
  induction xs with
  | nil => simp [pieces]
  | cons x rest ih =>
    by_cases same : x = sep
    · subst x
      rw [piecesAtSeparator]
      simp [ih]
    · obtain ⟨q,qs,before,after⟩ := piecesAtOther same rest
      rw [before] at ih
      rw [after]
      simpa using ih

theorem piecesAppend {α : Type} [BEq α] [LawfulBEq α] {sep : α} {p : List α} (free : sep ∉ p)
    (rest : List α) : pieces sep (p ++ sep :: rest) = p :: pieces sep rest := by
  induction p with
  | nil => exact piecesAtSeparator sep rest
  | cons x front ih =>
    obtain ⟨other,clean⟩ := not_or.mp (mt List.mem_cons.mpr free)
    obtain ⟨q,qs,before,after⟩ := piecesAtOther (Ne.symm other) (front ++ sep :: rest)
    rw [ih clean] at before
    cases before
    exact after

end Vellum
