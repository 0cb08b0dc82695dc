import Vellum.Proofs.KeyStream
import Vellum.Proofs.Modes

/-! Control sequences of any length, and what becomes of them. A terminal sends ESC, a
bracket, parameters, intermediates and one final byte. A key is told from the bracket
and the byte after it, and from one byte more if that is a digit; whatever follows is
read again from the start, and so it is typed. -/
namespace Vellum

structure ControlSequence where
  parameters : Bytes
  intermediates : Bytes
  final : UInt8
  parameter : ∀ b ∈ parameters, 0x30 ≤ b ∧ b ≤ 0x3F
  intermediate : ∀ b ∈ intermediates, 0x20 ≤ b ∧ b ≤ 0x2F
  finishing : 0x40 ≤ final ∧ final ≤ 0x7E

theorem digitRange {b : UInt8} (digit : Byte.isDigit b = true) : 48 ≤ b ∧ b ≤ 57 := by
  simpa only [Byte.isDigit,Bool.and_eq_true,decide_eq_true_eq] using digit

theorem readPlain {bytes : Bytes} (plain : ∀ b ∈ bytes, 32 ≤ b ∧ b ≤ 126) (rest : Script) :
    (readKeys (.ofBytes bytes ++ rest)).map Prod.fst =
      bytes.map Key.literal ++ (readKeys rest).map Prod.fst := by
  induction bytes with
  | nil => rfl
  | cons b bytes ih =>
    have later := ih fun c member => plain c (.tail _ member)
    have range := plain b (.head _)
    have other : b ≠ Byte.escape := by
      rintro rfl
      exact absurd range.1 (by decide)
    have free : Action.ofByte? b = none := by
      unfold Action.ofByte?
      grind
    have read := readOther other (.ofBytes bytes ++ rest)
    rw [Key.ofByte,free] at read
    have step := Decoding.readAllStep read
    exact (congrArg (List.map Prod.fst) step).trans (congrArg (Key.literal b :: ·) later)

namespace ControlSequence

def body (c : ControlSequence) : Bytes := c.parameters ++ c.intermediates ++ [c.final]

def script (c : ControlSequence) : Script := .ofBytes (Byte.escape :: 91 :: c.body)

def heard (c : ControlSequence) : Nat := if c.body.head?.any Byte.isDigit then 2 else 1

def spilled (c : ControlSequence) : Bytes := c.body.drop c.heard

theorem innerLow {c : ControlSequence} {b : UInt8} (inner : b ∈ c.parameters ++ c.intermediates) :
    32 ≤ b ∧ b ≤ 0x3F := by
  rcases List.mem_append.mp inner with parameter | intermediate
  · have range := c.parameter b parameter
    exact ⟨UInt8.le_trans (by decide) range.1,range.2⟩
  · have range := c.intermediate b intermediate
    exact ⟨range.1,UInt8.le_trans range.2 (by decide)⟩

theorem bodyPlain {c : ControlSequence} {b : UInt8} (member : b ∈ c.body) : 32 ≤ b ∧ b ≤ 126 := by
  rcases List.mem_append.mp member with inner | last
  · have range := innerLow inner
    exact ⟨range.1,UInt8.le_trans range.2 (by decide)⟩
  · cases List.mem_singleton.mp last
    exact ⟨UInt8.le_trans (by decide) c.finishing.1,c.finishing.2⟩

theorem bodyEnds {c : ControlSequence} {front rest : Bytes} {b : UInt8}
    (shape : c.body = front ++ b :: rest) : rest = [] ↔ 0x40 ≤ b := by
  rcases List.eq_nil_or_concat rest with rfl | ⟨init,last,rfl⟩
  · have same := (List.append_inj' shape rfl).2
    cases List.singleton_inj.mp same
    exact ⟨fun _ => c.finishing.1,fun _ => rfl⟩
  · have split : front ++ b :: init.concat last = (front ++ b :: init) ++ [last] := by simp
    have inner := (List.append_inj' (shape.trans split) rfl).1
    have low : b ≤ 0x3F := (innerLow (inner ▸ List.mem_append_right front (.head init))).2
    constructor
    · intro empty
      exact absurd empty (by simp)
    · intro high
      exact absurd (UInt8.le_trans high low) (by decide)

/- What the key is told from: a digit and the byte after it, or one byte that is no digit. -/
inductive Heard (c : ControlSequence) : Prop where
  | digit {d b rest} (digit : Byte.isDigit d = true) (shape : c.body = d :: b :: rest)
      (spilled : c.spilled = rest)
  | other {b rest} (other : Byte.isDigit b = false) (shape : c.body = b :: rest)
      (spilled : c.spilled = rest)

theorem bodyHeard (c : ControlSequence) : c.Heard := by
  cases shape : c.body with
  | nil => exact absurd shape (List.append_ne_nil_of_right_ne_nil _ nofun)
  | cons b rest =>
    cases kind : Byte.isDigit b with
    | false =>
      refine .other kind shape ?_
      simp [spilled,heard,shape,kind]
    | true =>
      cases rest with
      | nil =>
        have high : 0x40 ≤ b := (@bodyEnds c [] [] b shape).mp rfl
        exact absurd (UInt8.le_trans high (digitRange kind).2) (by decide)
      | cons next rest =>
        refine .digit kind shape ?_
        simp [spilled,heard,shape,kind]

theorem pairListed {b : UInt8} (known : Decoding.pairAction 91 b ≠ .cancel) :
    0x40 ≤ b ∧ [91, b] ∈ (Decoding.pairAction 91 b).sequences := by
  unfold Decoding.pairAction at known ⊢
  grind [Action.sequences]

theorem digitListed {d : UInt8} (known : Decoding.digitAction d ≠ .cancel) :
    [91, d, 126] ∈ (Decoding.digitAction d).sequences := by
  unfold Decoding.digitAction at known ⊢
  grind [Action.sequences]

structure Means (c : ControlSequence) (a : Action) : Prop where
  listed : ∀ other : Action, 91 :: c.body ∈ other.sequences → a = other
  unlisted : (∀ other : Action, 91 :: c.body ∉ other.sequences) → a = .cancel

theorem scriptHeard (c : ControlSequence) (rest : Script) :
    ∃ a, readKey (c.script ++ rest) = .ok (.action a, .ofBytes c.spilled ++ rest) ∧
      (a ≠ .cancel → 91 :: c.body ∈ a.sequences) := by
  cases c.bodyHeard with
  | @digit d b more digit shape spilled =>
    refine ⟨if b = 126 then Decoding.digitAction d else .cancel,?_,?_⟩
    · rw [script,shape,spilled]
      by_cases tilde : b = 126
      · simp [Script.ofBytes,readKey,Decoding.read,Decoding.step,digit,tilde]
      · simp [Script.ofBytes,readKey,Decoding.read,Decoding.step,digit,tilde,Decoding.cancel]
    · intro known
      split at known
      · rename_i tilde
        subst tilde
        have ends := (@bodyEnds c [d] more 126 shape).mpr (by decide)
        rw [if_pos rfl,shape,ends]
        exact digitListed known
      · exact absurd rfl known
  | @other b more other shape spilled =>
    refine ⟨Decoding.pairAction 91 b,?_,?_⟩
    · rw [script,shape,spilled]
      simp [Script.ofBytes,readKey,Decoding.read,Decoding.step,other]
    · intro known
      obtain ⟨high,listed⟩ := pairListed known
      have ends := (@bodyEnds c [] more b shape).mpr high
      rw [shape,ends]
      exact listed

theorem heardListed {c : ControlSequence} {a other : Action} {rest : Script}
    (read : readKey (c.script ++ rest) = .ok (.action a, .ofBytes c.spilled ++ rest))
    (listed : 91 :: c.body ∈ other.sequences) : a = other ∧ c.spilled = [] := by
  have both := Except.ok.inj (read.symm.trans (readSequence listed rest))
  have length := congrArg (List.length ∘ Prod.snd) both
  simp only [Function.comp,Script.ofBytes,List.length_append,List.length_map] at length
  exact ⟨Key.action.inj (congrArg Prod.fst both),List.length_eq_zero_iff.mp (by omega)⟩

theorem scriptRead (c : ControlSequence) (rest : Script) :
    ∃ a, readKey (c.script ++ rest) = .ok (.action a, .ofBytes c.spilled ++ rest) ∧ c.Means a := by
  obtain ⟨a,read,known⟩ := c.scriptHeard rest
  refine ⟨a,read,fun other listed => (heardListed read listed).1,?_⟩
  intro unlisted
  by_cases cancel : a = .cancel
  · exact cancel
  · exact absurd (known cancel) (unlisted a)

theorem spilledNothing (c : ControlSequence) :
    c.spilled = [] ↔ c.intermediates = [] ∧
      (c.parameters = [] ∨ ∃ d, Byte.isDigit d = true ∧ c.parameters = [d]) := by
  have length : c.body.length = c.parameters.length + c.intermediates.length + 1 := by
    rw [body,List.length_append,List.length_append,List.length_singleton]
  rw [spilled,List.drop_eq_nil_iff,length,← List.length_eq_zero_iff]
  cases parameters : c.parameters with
  | nil =>
    have other : c.heard = 1 := by
      rw [heard,if_neg]
      rw [body,parameters]
      cases intermediates : c.intermediates with
      | nil =>
        intro digit
        exact absurd (UInt8.le_trans c.finishing.1 (digitRange digit).2) (by decide)
      | cons b more =>
        intro digit
        have range := c.intermediate b (intermediates ▸ .head more)
        exact absurd (UInt8.le_trans (digitRange digit).1 range.2) (by decide)
    simp [other]
  | cons d more =>
    have single : (∃ b, Byte.isDigit b = true ∧ d :: more = [b]) ↔ Byte.isDigit d = true ∧ more.length = 0 := by
      constructor
      · rintro ⟨b,digit,same⟩
        cases same
        exact ⟨digit,rfl⟩
      · rintro ⟨digit,empty⟩
        exact ⟨d,digit,by rw [List.length_eq_zero_iff.mp empty]⟩
    have first : c.heard = if Byte.isDigit d then 2 else 1 := by
      rw [heard,body,parameters]
      rfl
    rw [single,first,List.length_cons]
    simp only [reduceCtorEq,false_or]
    by_cases digit : Byte.isDigit d = true
    · rw [if_pos digit]
      simp only [digit,true_and]
      omega
    · rw [if_neg digit]
      constructor
      · intro short
        omega
      · rintro ⟨_,kind,_⟩
        exact absurd kind digit

end ControlSequence

def FlatText.inserting (text : FlatText) (bytes : Bytes) : FlatText :=
  ⟨text.bytes.take text.offset ++ bytes ++ text.bytes.drop text.offset, text.offset + bytes.length⟩

namespace Editor

theorem literalKeysAt {e after : Editor} {s : Spot} {bytes : Bytes} {outcome : Except Fault Unit}
    (here : e.At s) (editing : e.mode = .editing)
    (ran : (bytes.map fun b => Event.key (.literal b) outcome).foldlM handle e = .ok after) :
    after.At { s with left := s.left ++ bytes } := by
  induction bytes generalizing e s with
  | nil =>
    cases Except.ok.inj ran
    rwa [List.append_nil]
  | cons b bytes ih =>
    obtain ⟨next,first,later⟩ := bindOk ran
    have obeyed : e.obey (.insert b, outcome) = .ok next := by
      rw [handleTyping (.inl editing),unconfirmEditing editing] at first
      exact first
    have still : next.mode = .editing := by
      cases obeyEdited (by simp) (by simp) (by simp) obeyed with
      | changed _ => exact editing
    obtain ⟨last,typed,rfl⟩ := finishedBy obeyed
    have there := ih (restAt ((typeReaches here b).sound typed)) still later
    rwa [List.append_assoc] at there

theorem literalKeysTyped {e after : Editor} {bytes : Bytes} {outcome : Except Fault Unit}
    (inside : e.Inside) (editing : e.mode = .editing)
    (ran : (bytes.map fun b => Event.key (.literal b) outcome).foldlM handle e = .ok after) :
    after.flat = e.flat.inserting bytes := by
  obtain ⟨s,here⟩ := insideAt inside
  have before : { s with left := s.left ++ bytes }.before = s.before ++ bytes := by
    simp only [Spot.before,List.append_assoc]
  rw [flatOfAt (literalKeysAt here editing ran),flatOfAt here]
  simp only [FlatText.inserting,Spot.text,before,List.take_left,List.drop_left,List.length_append]
  rfl

end Editor

theorem controlSequenceRead (c : ControlSequence) (rest : Script) :
    ∃ a, readKey (c.script ++ rest) = .ok (.action a, .ofBytes c.spilled ++ rest) ∧ c.Means a ∧
      (readKeys (c.script ++ rest)).map Prod.fst =
        .action a :: (c.spilled.map Key.literal ++ (readKeys rest).map Prod.fst) ∧
      (c.spilled = [] ↔ c.intermediates = [] ∧
        (c.parameters = [] ∨ ∃ d, Byte.isDigit d = true ∧ c.parameters = [d])) ∧
      ∀ (e after : Editor) (outcome : Except Fault Unit), e.Inside → e.mode = .editing →
        c.spilled ≠ [] →
        ((.action a :: c.spilled.map Key.literal).map fun key => Event.key key outcome).foldlM
          Editor.handle e = .ok after →
        after.flat = e.flat.inserting c.spilled := by
  obtain ⟨a,read,means⟩ := c.scriptRead rest
  refine ⟨a,read,means,?_,c.spilledNothing,?_⟩
  · have plain (b : UInt8) (member : b ∈ c.spilled) := c.bodyPlain (List.mem_of_mem_drop member)
    rw [readKeys,Decoding.readAllStep read,List.map_cons]
    exact congrArg _ (readPlain plain rest)
  · intro e after outcome inside editing spills ran
    have cancel : a = .cancel := means.unlisted fun other listed =>
      spills (ControlSequence.heardListed read listed).2
    subst cancel
    obtain ⟨next,first,later⟩ := bindOk ran
    rw [Editor.handleTyping (.inl editing),Editor.unconfirmEditing editing] at first
    cases Except.ok.inj first
    rw [List.map_map] at later
    exact Editor.literalKeysTyped inside editing later

theorem longSequenceTyped :
    (¬ ∀ (c : ControlSequence) (rest : Script),
      ∃ a, readKey (c.script ++ rest) = .ok (.action a, rest) ∧ c.Means a) ∧
    ∃ (c : ControlSequence) (e : Editor), c.script = .ofBytes [27, 91, 49, 59, 53, 67] ∧
      (((readKeys c.script).map Prod.fst).map fun key => Event.key key (.ok ())).foldlM Editor.handle
        (.start (.blank 8) {} ⟨12, 40⟩) = .ok e ∧ e.document.contents = [[53, 67]] := by
  let c : ControlSequence := ⟨[49, 59, 53],[],67,by simp,nofun,by decide⟩
  have read : readKey (c.script ++ []) = .ok (.action .cancel, [some 53, some 67]) := rfl
  constructor
  · intro swallowed
    obtain ⟨a,whole,_⟩ := swallowed c []
    cases (Except.ok.inj (read.symm.trans whole))
  · have keys : (readKeys c.script).map Prod.fst = [.action .cancel, .literal 53, .literal 67] := rfl
    have typed : ∃ e, ([Key.action .cancel, .literal 53, .literal 67].map fun key =>
        Event.key key (.ok ())).foldlM Editor.handle (.start (.blank 8) {} ⟨12, 40⟩) = .ok e ∧
        e.document.contents = [[53, 67]] := ⟨_,rfl,rfl⟩
    obtain ⟨e,ran,contents⟩ := typed
    exact ⟨c,e,rfl,keys ▸ ran,contents⟩

end Vellum
