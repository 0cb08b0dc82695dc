import Vellum.Proofs.KeyStream

/-! The portions of the input that keys are made of. Reading key after key goes once over the
whole input: every byte goes into one key, in its order, and a key is made of one byte or
of ESC and no more than three bytes after it. No pause stands between the bytes of a key. -/
namespace Vellum

def Script.bytes (script : Script) : Bytes := script.filterMap id

/- What one key takes: the pauses before it, its bytes, and a pause that cut it short. -/
structure Portion where
  key : Key
  skipped : Nat
  bytes : Bytes
  cut : Bool

def Portion.entries (p : Portion) : Script :=
  List.replicate p.skipped none ++ (Script.ofBytes p.bytes ++ if p.cut then [none] else [])

inductive Portion.Formed : Portion → Prop where
  | control {a b skipped} (other : b ≠ Byte.escape) (bound : Action.ofByte? b = some a) :
      Formed ⟨.action a, skipped, [b], false⟩
  | literal {b skipped} (other : b ≠ Byte.escape) (unbound : Action.ofByte? b = none) :
      Formed ⟨.literal b, skipped, [b], false⟩
  | sequence {a tail skipped cut} (short : tail.length ≤ 3) (cancelled : cut = true → a = .cancel) :
      Formed ⟨.action a, skipped, Byte.escape :: tail, cut⟩

namespace Decoding

def left : Decoding → Script → Script
  | _, [] => []
  | d, e :: rest =>
    match d.step e with
    | .inl _ => rest
    | .inr next => next.left rest

theorem leftRead {d : Decoding} {script rest : Script} {key : Key}
    (ok : d.read script = .ok (key, rest)) : d.left script = rest := by
  induction script generalizing d with
  | nil =>
    simp only [read] at ok
    split at ok
    · cases ok
    · cases ok
      rfl
  | cons e tail ih =>
    simp only [read] at ok
    split at ok
    · rename_i done
      cases ok
      simp only [left,done]
    · rename_i goes
      simp only [left,goes,ih ok]

def heard : Decoding → Nat
  | .idle | .escaped => 0
  | .introduced _ => 1
  | .numbered _ => 2

theorem heardFew (d : Decoding) : d.heard ≤ 2 := by
  cases d <;> simp [heard]

theorem stepPause {d : Decoding} (begun : d ≠ .idle) : d.step none = .inl cancel := by
  cases d with
  | idle => exact absurd rfl begun
  | escaped | introduced _ | numbered _ => rfl

theorem stepByte {d : Decoding} (begun : d ≠ .idle) (b : UInt8) :
    (∃ a, d.step (some b) = .inl (.action a)) ∨
      ∃ next, d.step (some b) = .inr next ∧ next ≠ .idle ∧ next.heard = d.heard + 1 := by
  cases d with
  | idle => exact absurd rfl begun
  | escaped => exact .inr ⟨_,rfl,by simp,rfl⟩
  | introduced first =>
    simp only [step]
    split
    · exact .inr ⟨_,rfl,by simp,rfl⟩
    · exact .inl ⟨_,rfl⟩
  | numbered digit =>
    simp only [step]
    split
    · exact .inl ⟨_,rfl⟩
    · exact .inl ⟨_,rfl⟩

theorem sequenceTaken {d : Decoding} (begun : d ≠ .idle) (script : Script) :
    ∃ a tail cut rest, script = Script.ofBytes tail ++ (if cut then [none] else []) ++ rest ∧
      d.heard + tail.length ≤ 3 ∧ (cut = true → a = .cancel) ∧ d.read script = .ok (.action a, rest) := by
  have few := heardFew d
  induction script generalizing d with
  | nil =>
    refine ⟨.cancel,[],false,[],rfl,Nat.le_succ_of_le few,nofun,?_⟩
    rw [read,if_neg begun]
    rfl
  | cons e rest ih =>
    cases e with
    | none =>
      refine ⟨.cancel,[],true,rest,rfl,Nat.le_succ_of_le few,fun _ => rfl,?_⟩
      simp only [read,stepPause begun]
      rfl
    | some b =>
      rcases stepByte begun b with ⟨a,done⟩ | ⟨next,goes,still,more⟩
      · refine ⟨a,[b],false,rest,rfl,Nat.succ_le_succ few,nofun,?_⟩
        simp only [read,done]
      · obtain ⟨a,tail,cut,left,shape,short,cancelled,taken⟩ := ih still (heardFew next)
        refine ⟨a,b :: tail,cut,left,?_,?_,cancelled,?_⟩
        · rw [shape]
          rfl
        · rw [List.length_cons]
          omega
        · simp only [read,goes,taken]

end Decoding

/- The calls that a source is given until one fails, which finds nothing but pauses and leaves nothing. -/
inductive Calls : Script → List Portion → Prop where
  | ends {script pauses} (quiet : script = List.replicate pauses none)
      (failed : readKey script = .error .endOfInput) (emptied : Decoding.idle.left script = []) :
      Calls script []
  | key {p : Portion} {portions script rest} (taken : script = p.entries ++ rest) (formed : p.Formed)
      (read : readKey script = .ok (p.key, rest)) (remains : Decoding.idle.left script = rest)
      (later : Calls rest portions) : Calls script (p :: portions)

theorem quietFails (pauses : Nat) :
    let script : Script := List.replicate pauses none
    readKey script = .error .endOfInput ∧ Decoding.idle.left script = [] := by
  induction pauses with
  | zero => exact ⟨rfl,rfl⟩
  | succ pauses ih => exact ih

theorem callTaken (script : Script) :
    (∃ pauses, script = List.replicate pauses none) ∨
      ∃ (p : Portion) (rest : Script), script = p.entries ++ rest ∧ p.Formed ∧ readKey script = .ok (p.key, rest) := by
  induction script with
  | nil => exact .inl ⟨0,rfl⟩
  | cons e rest ih =>
    cases e with
    | none =>
      rcases ih with ⟨pauses,rfl⟩ | ⟨p,left,shape,formed,read⟩
      · exact .inl ⟨pauses + 1,rfl⟩
      · refine .inr ⟨{ p with skipped := p.skipped + 1 },left,?_,?_,read⟩
        · rw [shape]
          rfl
        · cases formed with
          | control other bound => exact .control other bound
          | literal other unbound => exact .literal other unbound
          | sequence short cancelled => exact .sequence short cancelled
    | some b =>
      refine .inr ?_
      by_cases escape : b = Byte.escape
      · subst escape
        obtain ⟨a,tail,cut,left,shape,short,cancelled,read⟩ :=
          @Decoding.sequenceTaken .escaped nofun rest
        refine ⟨⟨.action a, 0, Byte.escape :: tail, cut⟩,left,?_,.sequence ?_ cancelled,read⟩
        · rw [shape]
          rfl
        · rwa [Decoding.heard,Nat.zero_add] at short
      · have read := readOther escape rest
        rw [Key.ofByte] at read
        cases bound : Action.ofByte? b with
        | some a =>
          rw [bound] at read
          exact ⟨⟨.action a, 0, [b], false⟩,rest,rfl,.control escape bound,read⟩
        | none =>
          rw [bound] at read
          exact ⟨⟨.literal b, 0, [b], false⟩,rest,rfl,.literal escape bound,read⟩

namespace Portion

theorem formedBegins {p : Portion} (formed : p.Formed) : ∃ b more, p.bytes = b :: more := by
  cases formed with
  | control _ _ | literal _ _ | sequence _ _ => exact ⟨_,_,rfl⟩

theorem entriesBytes (p : Portion) : Script.bytes p.entries = p.bytes := by
  have pauses (n : Nat) : Script.bytes (List.replicate n none) = [] := by
    rw [Script.bytes,List.filterMap_replicate_of_none rfl]
  have cut : Script.bytes (if p.cut then [none] else []) = [] := by
    cases p.cut <;> rfl
  have own : Script.bytes (.ofBytes p.bytes) = p.bytes := by
    rw [Script.bytes,Script.ofBytes,List.filterMap_map]
    exact List.filterMap_some
  simp only [Script.bytes] at pauses cut own
  rw [entries,Script.bytes,List.filterMap_append,List.filterMap_append,pauses,cut,own,List.nil_append,
    List.append_nil]

theorem entriesFresh {p : Portion} (formed : p.Formed) {front more : Script} {b : UInt8}
    (split : p.entries = front ++ some b :: more) (fresh : ∀ c, front.getLast? ≠ some (some c)) :
    Script.bytes front = [] ∧ p.bytes.head? = some b := by
  obtain ⟨first,inner,begins⟩ := formedBegins formed
  rw [entries,begins] at split
  rw [begins]
  generalize p.skipped = skipped at split
  induction skipped generalizing front with
  | zero =>
    cases front with
    | nil =>
      cases List.cons.inj split |>.1
      exact ⟨rfl,rfl⟩
    | cons entry front =>
      obtain ⟨rfl,inside⟩ := List.cons.inj split
      -- The bytes of a portion have no pause between them, and what comes after them is no byte.
      rcases List.append_eq_append_iff.mp inside with ⟨middle,_,ended⟩ | ⟨middle,within,_⟩
      · have member : some b ∈ middle ++ some b :: more := List.mem_append_right middle List.mem_cons_self
        rw [← ended] at member
        cases cut : p.cut <;> simp [cut] at member
      · rcases List.eq_nil_or_concat front with rfl | ⟨before,last,rfl⟩
        · exact absurd rfl (fresh first)
        · have member : last ∈ inner.map some := by
            rw [within]
            simp
          obtain ⟨c,_,rfl⟩ := List.mem_map.mp member
          exact absurd (by simp [List.getLast?_cons]) (fresh c)
  | succ skipped ih =>
    cases front with
    | nil => cases List.cons.inj split |>.1
    | cons entry front =>
      obtain ⟨rfl,inside⟩ := List.cons.inj split
      refine @ih front ?_ inside
      intro c last
      apply fresh c
      rw [List.getLast?_cons,last]
      rfl

end Portion

theorem callsExist (script : Script) : ∃ portions, Calls script portions := by
  induction size : script.length using Nat.strongRecOn generalizing script with
  | ind length ih =>
    rcases callTaken script with ⟨pauses,quiet⟩ | ⟨p,rest,taken,formed,read⟩
    · obtain ⟨failed,emptied⟩ := quietFails pauses
      rw [← quiet] at failed emptied
      exact ⟨[],.ends quiet failed emptied⟩
    · obtain ⟨b,more,begins⟩ := Portion.formedBegins formed
      have shorter : rest.length < length := by
        rw [← size,taken,Portion.entries,begins]
        simp only [Script.ofBytes,List.length_append,List.length_map,List.length_cons]
        omega
      obtain ⟨portions,later⟩ := ih _ shorter rest rfl
      exact ⟨p :: portions,.key taken formed read (Decoding.leftRead read) later⟩

section
variable {script : Script} {portions : List Portion} (calls : Calls script portions)
include calls

theorem callsDeliver : Delivers script (portions.map Portion.key) .endOfInput := by
  induction calls with
  | ends _ failed _ => exact .stops failed
  | key _ _ read _ _ ih => exact .key read ih

theorem callsJoined :
    ∃ pauses, script = portions.flatMap Portion.entries ++ List.replicate pauses none := by
  induction calls with
  | ends quiet _ _ => exact ⟨_,quiet⟩
  | key taken _ _ _ _ ih =>
    obtain ⟨pauses,joined⟩ := ih
    refine ⟨pauses,?_⟩
    rw [taken,joined,List.flatMap_cons,List.append_assoc]

theorem callsFormed : ∀ p ∈ portions, p.Formed := by
  induction calls with
  | ends _ _ _ => exact nofun
  | key _ formed _ _ _ ih => exact List.forall_mem_cons.mpr ⟨formed,ih⟩

theorem callsBytes : script.bytes = portions.flatMap Portion.bytes := by
  induction calls with
  | ends quiet _ _ => rw [quiet,Script.bytes,List.filterMap_replicate_of_none rfl,List.flatMap_nil]
  | key taken _ _ _ _ ih =>
    have own := Portion.entriesBytes
    simp only [Script.bytes] at own ih ⊢
    rw [taken,List.filterMap_append,own,ih,List.flatMap_cons]

theorem callsFew : portions.length ≤ script.bytes.length := by
  rw [callsBytes calls]
  induction calls with
  | ends _ _ _ => exact Nat.le_refl 0
  | key _ formed _ _ _ ih =>
    obtain ⟨b,more,begins⟩ := Portion.formedBegins formed
    rw [List.flatMap_cons,List.length_append,begins,List.length_cons,List.length_cons]
    omega

theorem callsFresh {front back : Script} {b : UInt8} (split : script = front ++ some b :: back)
    (fresh : ∀ c, front.getLast? ≠ some (some c)) :
    ∃ earlier p later, portions = earlier ++ p :: later ∧
      earlier.flatMap Portion.bytes = front.bytes ∧ p.bytes.head? = some b := by
  induction calls generalizing front with
  | ends quiet _ _ =>
    rw [quiet] at split
    have member : some b ∈ List.replicate _ none := split ▸ List.mem_append_right front List.mem_cons_self
    cases List.eq_of_mem_replicate member
  | @key p portions script rest taken formed _ _ _ ih =>
    -- The byte stands in what this key takes, or behind it.
    have behind {middle : Script} (whole : front = p.entries ++ middle)
        (left : rest = middle ++ some b :: back) : ∃ earlier q later, p :: portions = earlier ++ q :: later ∧
          earlier.flatMap Portion.bytes = front.bytes ∧ q.bytes.head? = some b := by
      have apart : ∀ c, middle.getLast? ≠ some (some c) := by
        intro c last
        apply fresh c
        rw [whole,List.getLast?_append,last]
        rfl
      obtain ⟨earlier,q,later,shape,bytes,first⟩ := ih left apart
      have own := Portion.entriesBytes p
      refine ⟨p :: earlier,q,later,by rw [shape]; rfl,?_,first⟩
      simp only [Script.bytes] at own bytes ⊢
      rw [whole,List.filterMap_append,own,← bytes,List.flatMap_cons]
    rcases List.append_eq_append_iff.mp (taken.symm.trans split) with ⟨middle,whole,left⟩ | ⟨middle,inside,left⟩
    · exact behind whole left
    · cases middle with
      | nil =>
        rw [List.append_nil] at inside
        exact @behind [] (by rw [inside,List.append_nil]) left.symm
      | cons entry middle =>
        obtain ⟨rfl,_⟩ := List.cons.inj left
        obtain ⟨none,first⟩ := Portion.entriesFresh formed inside fresh
        exact ⟨[],p,portions,rfl,none.symm,first⟩

end

theorem keysPartitionInput (script : Script) :
    ∃ portions, Calls script portions ∧ (readKeys script).map Prod.fst = portions.map Portion.key ∧
      (∃ pauses, script = portions.flatMap Portion.entries ++ List.replicate pauses none) ∧
      (∀ p ∈ portions, p.Formed) ∧ script.bytes = portions.flatMap Portion.bytes ∧
      portions.length ≤ script.bytes.length ∧
      ∀ (front : Script) (b : UInt8) (back : Script), script = front ++ none :: some b :: back →
        ∃ earlier p later, portions = earlier ++ p :: later ∧
          earlier.flatMap Portion.bytes = front.bytes ∧ p.bytes.head? = some b := by
  obtain ⟨portions,calls⟩ := callsExist script
  refine ⟨portions,calls,deliversAll (callsDeliver calls),callsJoined calls,callsFormed calls,callsBytes calls,
    callsFew calls,?_⟩
  intro front b back split
  have fresh : ∀ c, (front ++ [none]).getLast? ≠ some (some c) := by
    intro c last
    rw [List.getLast?_concat] at last
    cases last
  obtain ⟨earlier,p,later,shape,bytes,first⟩ :=
    callsFresh calls (by rw [split,List.append_assoc]; rfl) fresh
  refine ⟨earlier,p,later,shape,bytes.trans ?_,first⟩
  rw [Script.bytes,List.filterMap_append]
  exact List.append_nil _

end Vellum
