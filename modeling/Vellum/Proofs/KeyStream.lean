import Vellum.Keyboard

/-! Keys, and the input that spells them. A key has several spellings, and pauses may
stand in front of each; some spellings begin alike, and one of them ends in a pause.
Reading what was spelled gives the keys back, one after the other, and then the end of
the input. Whatever the input, bytes taken literally are bytes of it, in its order. -/
namespace Vellum

def Action.controls : Action → Bytes
  | .interrupt => [3]
  | .find => [6]
  | .backspace => [8, 127]
  | .refresh => [12]
  | .enter => [13]
  | .quit => [17]
  | .save => [19]
  | _ => []

/- What may follow ESC. The digits that name no key spell Cancel. -/
def Action.sequences : Action → List Bytes
  | .arrowUp => [[91, 65]]
  | .arrowDown => [[91, 66]]
  | .arrowRight => [[91, 67]]
  | .arrowLeft => [[91, 68]]
  | .home => [[91, 72], [79, 72], [91, 49, 126], [91, 55, 126]]
  | .finish => [[91, 70], [79, 70], [91, 52, 126], [91, 56, 126]]
  | .delete => [[91, 51, 126]]
  | .pageUp => [[91, 53, 126]]
  | .pageDown => [[91, 54, 126]]
  | .cancel => [[91, 48, 126], [91, 50, 126], [91, 57, 126]]
  | _ => []

inductive Key.Spelled : Key → Script → Prop where
  | literal {b} (other : b ≠ Byte.escape) (unbound : ∀ a : Action, b ∉ a.controls) :
      Spelled (.literal b) [some b]
  | control {a b} (bound : b ∈ a.controls) : Spelled (.action a) [some b]
  | sequence {a bytes} (listed : bytes ∈ a.sequences) :
      Spelled (.action a) (.ofBytes (Byte.escape :: bytes))
  | alone : Spelled (.action .cancel) [some Byte.escape, none]

inductive Spelling : List Key → Script → Prop where
  | done (pauses : Nat) : Spelling [] (List.replicate pauses none)
  | key {key code keys script} (pauses : Nat) (first : Key.Spelled key code)
      (next : Spelling keys script) :
      Spelling (key :: keys) (List.replicate pauses none ++ (code ++ script))

inductive Delivers : Script → List Key → Fault → Prop where
  | stops {script fault} (ended : readKey script = .error fault) : Delivers script [] fault
  | key {script key rest keys fault} (read : readKey script = .ok (key, rest))
      (next : Delivers rest keys fault) : Delivers script (key :: keys) fault

theorem deliversAll {script : Script} {keys : List Key} {fault : Fault}
    (delivers : Delivers script keys fault) : (readKeys script).map Prod.fst = keys := by
  induction delivers with
  | stops ended => rw [readKeys,(Decoding.readAllEnd ended).2,List.map_nil]
  | key read next ih =>
    rw [readKeys,Decoding.readAllStep read,List.map_cons]
    exact congrArg _ ih

theorem controlBound {a : Action} {b : UInt8} :
    Action.ofByte? b = some a ↔ b ∈ a.controls := by
  constructor
  · intro bound
    unfold Action.ofByte? at bound
    grind [Action.controls]
  · intro listed
    cases a with
    | interrupt | find | refresh | enter | quit | save =>
      cases List.mem_singleton.mp listed
      rfl
    | backspace =>
      simp only [Action.controls,List.mem_cons,List.not_mem_nil,or_false] at listed
      rcases listed with rfl | rfl <;> rfl
    | _ => cases listed

theorem readPauses (pauses : Nat) (script : Script) :
    readKey (List.replicate pauses none ++ script) = readKey script := by
  induction pauses with
  | zero => rfl
  | succ pauses ih =>
    rw [List.replicate_succ,List.cons_append]
    exact ih

theorem readOther {b : UInt8} (other : b ≠ Byte.escape) (rest : Script) :
    readKey (some b :: rest) = .ok (.ofByte b, rest) := by
  simp only [readKey,Decoding.read,Decoding.step,if_neg other]

theorem readSequence {a : Action} {bytes : Bytes} (listed : bytes ∈ a.sequences) (rest : Script) :
    readKey (.ofBytes (Byte.escape :: bytes) ++ rest) = .ok (.action a, rest) := by
  cases a with
  | arrowUp | arrowDown | arrowLeft | arrowRight | delete | pageUp | pageDown =>
    cases List.mem_singleton.mp listed
    rfl
  | home | finish =>
    simp only [Action.sequences,List.mem_cons,List.not_mem_nil,or_false] at listed
    rcases listed with rfl | rfl | rfl | rfl <;> rfl
  | cancel =>
    simp only [Action.sequences,List.mem_cons,List.not_mem_nil,or_false] at listed
    rcases listed with rfl | rfl | rfl <;> rfl
  | _ => cases listed

theorem readSpelled {key : Key} {code : Script} (spelled : key.Spelled code) (rest : Script) :
    readKey (code ++ rest) = .ok (key, rest) := by
  cases spelled with
  | @literal b other unbound =>
    have free : Action.ofByte? b = none := by
      rw [Option.eq_none_iff_forall_ne_some]
      intro a bound
      exact unbound a (controlBound.mp bound)
    have read := readOther other rest
    rwa [Key.ofByte,free] at read
  | @control a b bound =>
    have given := controlBound.mpr bound
    have other : b ≠ Byte.escape := by
      rintro rfl
      cases given
    have read := readOther other rest
    rwa [Key.ofByte,given] at read
  | sequence listed => exact readSequence listed rest
  | alone => rfl

theorem spelledKeysRead {keys : List Key} {script : Script} (spelling : Spelling keys script) :
    Delivers script keys .endOfInput ∧ (readKeys script).map Prod.fst = keys := by
  have delivers : Delivers script keys .endOfInput := by
    induction spelling with
    | done pauses =>
      have ended := readPauses pauses []
      rw [List.append_nil] at ended
      exact .stops ended
    | key pauses first next ih =>
      refine .key ?_ ih
      rw [readPauses]
      exact readSpelled first _
  exact ⟨delivers,deliversAll delivers⟩

theorem spelledKeysReadAfterPause :
    let keys := [Key.action .home, .action .cancel, .literal 91, .literal 72, .action .delete, .literal 10]
    let script := [none, some 27, some 79, some 72, some 27, none, some 91, none, some 72, some 27,
      some 91, some 51, some 126, some 10, none]
    Spelling keys script ∧ Delivers script keys .endOfInput := by
  intro keys script
  have unbound {b : UInt8} (free : Action.ofByte? b = none) (a : Action) : b ∉ a.controls := by
    rw [← controlBound,free]
    exact nofun
  have spelling : Spelling keys script :=
    .key 1 (@Key.Spelled.sequence _ [79, 72] (by decide)) (.key 0 .alone
      (.key 0 (.literal (by decide) (unbound rfl)) (.key 1 (.literal (by decide) (unbound rfl))
        (.key 0 (@Key.Spelled.sequence _ [91, 51, 126] (by decide))
          (.key 0 (.literal (by decide) (unbound rfl)) (.done 1))))))
  exact ⟨spelling,(spelledKeysRead spelling).1⟩

def Key.literal? : Key → Option UInt8
  | .literal b => some b
  | .action _ => none

theorem stepLiteral {d : Decoding} {entry : Option UInt8} {key : Key} {b : UInt8}
    (done : d.step entry = .inl key) (literal : key.literal? = some b) : entry = some b := by
  unfold Decoding.step at done
  split at done
  · cases done
  · split at done
    · cases done
    · cases Sum.inl.inj done
      rename_i c _
      unfold Key.ofByte at literal
      split at literal
      · cases literal
      · exact literal
  · cases Sum.inl.inj done
    cases literal
  · cases done
  · cases Sum.inl.inj done
    cases literal
  · split at done
    · cases done
    · cases Sum.inl.inj done
      cases literal
  · cases Sum.inl.inj done
    split at literal
    · cases literal
    · cases literal

theorem literalsRead (d : Decoding) (script : Script) :
    ((d.readAll script).filterMap fun read => read.1.literal?).Sublist (script.filterMap id) := by
  induction script generalizing d with
  | nil =>
    simp only [Decoding.readAll]
    split
    · exact .slnil
    · exact .slnil
  | cons entry rest ih =>
    simp only [Decoding.readAll]
    split
    · rename_i key done
      have later := ih .idle
      cases literal : key.literal? with
      | none =>
        simp only [List.filterMap_cons,literal]
        exact later.trans (.filterMap id (List.sublist_cons_self entry rest))
      | some b =>
        simp only [List.filterMap_cons,literal,stepLiteral done literal]
        exact later.cons_cons b
    · exact (ih _).trans (.filterMap id (List.sublist_cons_self entry rest))

end Vellum
