/-! Lines, columns and window sizes are counted in 64 bits. A sum, a difference, a
product or a negation that leaves that range is refused and never wraps; so is a text
that is longer than half of the range, for which memory has no addresses. An overflow
is one way in which there may be no answer; the other is work that never ends. -/
namespace Vellum

inductive Overflow where
  | sum
  | difference
  | product
  | negation
  | room
  deriving DecidableEq, Repr

def Overflow.message : Overflow → String
  | .sum => "attempt to add with overflow"
  | .difference => "attempt to subtract with overflow"
  | .product => "attempt to multiply with overflow"
  | .negation => "attempt to negate with overflow"
  | .room => "capacity overflow"

inductive Impasse where
  | overflow (overflow : Overflow)
  | endless
  deriving DecidableEq, Repr

theorem bindOk {ε α β : Type} {first : Except ε α} {next : α → Except ε β} {out : β}
    (ok : first.bind next = .ok out) : ∃ a, first = .ok a ∧ next a = .ok out := by
  cases first with
  | error fault => simp [Except.bind] at ok
  | ok a => exact ⟨a,rfl,ok⟩

theorem mapOk {ε α β : Type} {first : Except ε α} {f : α → β} {out : β} (ok : first.map f = .ok out) :
    ∃ a, first = .ok a ∧ f a = out := by
  cases first with
  | error fault => simp [Except.map] at ok
  | ok a => exact ⟨a,rfl,Except.ok.inj ok⟩

theorem foldKeeps {ε σ α : Type} {step : σ → α → Except ε σ} {Kept : σ → Prop} {xs : List α}
    (kept : ∀ before x after, x ∈ xs → Kept before → step before x = .ok after → Kept after)
    {first last : σ} (begins : Kept first) (ok : xs.foldlM step first = .ok last) : Kept last := by
  induction xs generalizing first with
  | nil =>
    cases Except.ok.inj ok
    exact begins
  | cons x rest ih =>
    obtain ⟨next,stepped,ok⟩ := bindOk ok
    refine ih ?_ (kept first x next List.mem_cons_self begins stepped) ok
    intro before y after member
    exact kept before y after (List.mem_cons_of_mem x member)

/- There is an answer exactly if `able`; otherwise there is an overflow. -/
structure Answers {α : Type} (run : Except Impasse α) (able : Prop) : Prop where
  returns : able → ∃ out, run = .ok out
  overflows : ¬ able → ∃ overflow, run = .error (.overflow overflow)

section
variable {α β : Type} {run : Except Impasse α} {able other : Prop}

theorem answersOkIff (answers : Answers run able) : (∃ out, run = .ok out) ↔ able := by
  refine ⟨?_,answers.returns⟩
  rintro ⟨out,ok⟩
  refine Classical.byContradiction fun unable => ?_
  obtain ⟨overflow,refused⟩ := answers.overflows unable
  cases ok.symm.trans refused

theorem answersIff (same : able ↔ other) (answers : Answers run able) : Answers run other :=
  ⟨fun so => answers.returns (same.mpr so),fun unable => answers.overflows (mt same.mp unable)⟩

theorem answersOk (out : α) : Answers (.ok out) True := ⟨fun _ => ⟨out,rfl⟩,fun unable => absurd trivial unable⟩

theorem answersIf [Decidable able] (out : α) (overflow : Overflow) :
    Answers (if able then .ok out else .error (.overflow overflow)) able :=
  ⟨fun so => ⟨out,if_pos so⟩,fun unable => ⟨overflow,if_neg unable⟩⟩

theorem answersMap (f : α → β) (answers : Answers run able) : Answers (run.map f) able := by
  constructor
  · intro so
    obtain ⟨out,ok⟩ := answers.returns so
    exact ⟨f out,by rw [ok]; rfl⟩
  · intro unable
    obtain ⟨overflow,refused⟩ := answers.overflows unable
    exact ⟨overflow,by rw [refused]; rfl⟩

theorem answersBind {next : α → Except Impasse β} (answers : Answers run able)
    (later : ∀ out, run = .ok out → Answers (next out) other) : Answers (run.bind next) (able ∧ other) := by
  by_cases so : able
  · obtain ⟨out,ok⟩ := answers.returns so
    rw [ok]
    exact answersIff (and_iff_right so).symm (later out ok)
  · obtain ⟨overflow,refused⟩ := answers.overflows so
    rw [refused]
    exact ⟨fun both => absurd both.1 so,fun _ => ⟨overflow,rfl⟩⟩

theorem answersThen {next : α → Except Impasse β} (answers : Answers run able)
    (later : ∀ out, run = .ok out → ∃ last, next out = .ok last) : Answers (run.bind next) able := by
  refine answersIff (and_iff_left trivial) (answersBind answers ?_)
  intro out ok
  obtain ⟨last,done⟩ := later out ok
  rw [done]
  exact answersOk last

end

namespace Size

def limit : Nat := 18446744073709551616

def textLimit : Nat := limit / 2

def add (a b : Nat) : Except Impasse Nat :=
  if a + b < limit then .ok (a + b) else .error (.overflow .sum)

def sub (a b : Nat) : Except Impasse Nat :=
  if b ≤ a then .ok (a - b) else .error (.overflow .difference)

def mul (a b : Nat) : Except Impasse Nat :=
  if a * b < limit then .ok (a * b) else .error (.overflow .product)

def fit (n : Nat) : Except Impasse Nat := if n < textLimit then .ok n else .error (.overflow .room)

/-- Reads a size as a signed step of 64 bits: its upper half counts backwards. -/
def toStep (n : Nat) : Int := if 2 * n < limit then n else (n : Int) - limit

def negate (step : Int) : Except Impasse Int :=
  if 2 * step = -limit then .error (.overflow .negation) else .ok (-step)

def move (n : Nat) (step : Int) : Nat := min ((n : Int) + step).toNat (limit - 1)

theorem addOk {a b c : Nat} : add a b = .ok c ↔ c = a + b ∧ a + b < limit := by
  unfold add
  split <;> simp_all [eq_comm]

theorem subOk {a b c : Nat} : sub a b = .ok c ↔ c = a - b ∧ b ≤ a := by
  unfold sub
  split <;> simp_all [eq_comm]

theorem mulOk {a b c : Nat} : mul a b = .ok c ↔ c = a * b ∧ a * b < limit := by
  unfold mul
  split <;> simp_all [eq_comm]

theorem fitOk {n m : Nat} : fit n = .ok m ↔ m = n ∧ n < textLimit := by
  unfold fit
  split <;> rename_i within <;> simp [within,eq_comm]

end Size
end Vellum
