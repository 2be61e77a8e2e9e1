/-
  Lox.Proofs.Loop.Rounds
  ──────────────────────
  **WHAT IS READ AS A LOOP RUNS AS A LOOP.**

  A statement in a frame ends by itself first, so blocks and plain loops are
  taken apart into the runs of what is in them.  Put together again, these runs
  are the rounds of a loop: after each of them the loop is as it was before,
  with fewer steps to go (`rounds_of_endsIn`).  So the blocks around a plain
  loop that a loop with three clauses is read as do what `Loops` says
  (`executes_forLoop`).
-/
import Lox.Proofs.Loop.Quiet

namespace Lox.Direct

open Config

variable {g : Setting} {o : Control} {s t : State} {e : Expr} {st body : Stmt}
  {condition increment : Option Expr}

/-! ## §1. Expressions and blocks. -/

theorem evaluates_literal (l : Literal) :
    Evaluates g (.literal l) s o t ↔ o = .value (.ofLiteral l) ∧ t = s :=
  (ends_step rfl).trans (ends_of_halted rfl)

/-- The value of a statement is not used. -/
theorem executes_expression :
    Executes g (.expression e) s o t
      ↔ (∃ v, o = .completed ∧ Evaluates g e s (.value v) t)
        ∨ ∃ d, o = .raising d ∧ Evaluates g e s (.raising d) t := by
  have hinside : Executes g (.expression e) s o t
      ↔ ∃ o₁ t₁, Evaluates g e s o₁ t₁ ∧ Ends g ⟨o₁, [.discard], t₁⟩ o t :=
    ends_within rfl rfl fun _ => rfl
  have hvalue : ∀ v t₁, Ends g ⟨.value v, [.discard], t₁⟩ o t ↔ o = .completed ∧ t = t₁ :=
    fun v t₁ => (ends_step rfl).trans (ends_of_halted rfl)
  have hraising : ∀ d t₁, Ends g ⟨.raising d, [.discard], t₁⟩ o t ↔ o = .raising d ∧ t = t₁ :=
    fun d t₁ => (ends_step rfl).trans (ends_of_halted rfl)
  rw [hinside]
  constructor
  · rintro ⟨o₁, t₁, he, hend⟩
    rcases he.outcome with ⟨v, rfl⟩ | ⟨d, rfl⟩
    · obtain ⟨rfl, rfl⟩ := (hvalue v t₁).mp hend
      exact .inl ⟨v, rfl, he⟩
    · obtain ⟨rfl, rfl⟩ := (hraising d t₁).mp hend
      exact .inr ⟨d, rfl, he⟩
  · rintro (⟨v, rfl, he⟩ | ⟨d, rfl, he⟩)
    · exact ⟨_, t, he, (hvalue v t).mpr ⟨rfl, rfl⟩⟩
    · exact ⟨_, t, he, (hraising d t).mpr ⟨rfl, rfl⟩⟩

theorem ends_execAll_nil : Ends g ⟨.execAll [], [], s⟩ o t ↔ o = .completed ∧ t = s :=
  (ends_step rfl).trans (ends_of_halted rfl)

/-- **Statements one after another**, until one of them is not completed. -/
theorem ends_execAll_cons {rest : List Stmt} :
    Ends g ⟨.execAll (st :: rest), [], s⟩ o t
      ↔ (o ≠ .completed ∧ Executes g st s o t)
        ∨ ∃ s₁, Executes g st s .completed s₁ ∧ Ends g ⟨.execAll rest, [], s₁⟩ o t := by
  have hinside : Ends g ⟨.execAll (st :: rest), [], s⟩ o t
      ↔ ∃ o₁ s₁, Executes g st s o₁ s₁ ∧ Ends g ⟨o₁, [.sequence rest], s₁⟩ o t :=
    ends_within rfl rfl fun _ => rfl
  have hcompleted : ∀ s₁, Ends g ⟨.completed, [.sequence rest], s₁⟩ o t
      ↔ Ends g ⟨.execAll rest, [], s₁⟩ o t := fun s₁ => ends_step rfl
  have hreturning : ∀ v s₁, Ends g ⟨.returning v, [.sequence rest], s₁⟩ o t
      ↔ o = .returning v ∧ t = s₁ := fun v s₁ => (ends_step rfl).trans (ends_of_halted rfl)
  have hraising : ∀ d s₁, Ends g ⟨.raising d, [.sequence rest], s₁⟩ o t
      ↔ o = .raising d ∧ t = s₁ := fun d s₁ => (ends_step rfl).trans (ends_of_halted rfl)
  rw [hinside]
  constructor
  · rintro ⟨o₁, s₁, hst, hend⟩
    rcases hst.outcome with rfl | ⟨v, rfl⟩ | ⟨d, rfl⟩
    · exact .inr ⟨s₁, hst, (hcompleted s₁).mp hend⟩
    · obtain ⟨rfl, rfl⟩ := (hreturning v s₁).mp hend
      exact .inl ⟨nofun, hst⟩
    · obtain ⟨rfl, rfl⟩ := (hraising d s₁).mp hend
      exact .inl ⟨nofun, hst⟩
  · rintro (⟨ho, hst⟩ | ⟨s₁, hst, hrest⟩)
    · rcases hst.outcome with rfl | ⟨v, rfl⟩ | ⟨d, rfl⟩
      · exact absurd rfl ho
      · exact ⟨_, t, hst, (hreturning v t).mpr ⟨rfl, rfl⟩⟩
      · exact ⟨_, t, hst, (hraising d t).mpr ⟨rfl, rfl⟩⟩
    · exact ⟨_, s₁, hst, (hcompleted s₁).mpr hrest⟩

/-- A block goes back to the environment that it was entered in. -/
theorem executes_block {body : List Stmt} :
    Executes g (.block body) s o t
      ↔ ∃ t₁, t = t₁.inScope s.scope ∧ Ends g ⟨.execAll body, [], inward s⟩ o t₁ := by
  have hinside : Executes g (.block body) s o t
      ↔ ∃ o₁ t₁, Ends g ⟨.execAll body, [], inward s⟩ o₁ t₁
        ∧ Ends g ⟨o₁, [.leave s.scope], t₁⟩ o t := ends_within rfl rfl fun _ => rfl
  have hleave : ∀ {o₁ t₁}, Ends g ⟨.execAll body, [], inward s⟩ o₁ t₁ →
      (Ends g ⟨o₁, [.leave s.scope], t₁⟩ o t ↔ o = o₁ ∧ t = t₁.inScope s.scope) := by
    intro o₁ t₁ hbody
    rcases outcome_of_ends (.execAll body) rfl hbody with rfl | ⟨v, rfl⟩ | ⟨d, rfl⟩ <;>
      exact (ends_step rfl).trans (ends_of_halted rfl)
  rw [hinside]
  constructor
  · rintro ⟨o₁, t₁, hbody, hend⟩
    obtain ⟨rfl, rfl⟩ := (hleave hbody).mp hend
    exact ⟨t₁, rfl, hbody⟩
  · rintro ⟨t₁, rfl, hbody⟩
    exact ⟨o, t₁, hbody, (hleave hbody).mpr ⟨rfl, rfl⟩⟩

/-- A block of two statements. -/
theorem executes_pair {first second : Stmt} :
    Executes g (.block [first, second]) s o t
      ↔ ∃ t₁, t = t₁.inScope s.scope
        ∧ ((o ≠ .completed ∧ Executes g first (inward s) o t₁)
          ∨ ∃ s₁, Executes g first (inward s) .completed s₁ ∧ Executes g second s₁ o t₁) := by
  have hlast : ∀ s₁ t₁, Ends g ⟨.execAll [second], [], s₁⟩ o t₁ ↔ Executes g second s₁ o t₁ := by
    intro s₁ t₁
    rw [ends_execAll_cons]
    constructor
    · rintro (⟨-, hsecond⟩ | ⟨s₂, hsecond, hend⟩)
      · exact hsecond
      · obtain ⟨rfl, rfl⟩ := ends_execAll_nil.mp hend
        exact hsecond
    · intro hsecond
      by_cases ho : o = .completed
      · subst ho
        exact .inr ⟨t₁, hsecond, ends_execAll_nil.mpr ⟨rfl, rfl⟩⟩
      · exact .inl ⟨ho, hsecond⟩
  have hall : ∀ t₁, Ends g ⟨.execAll [first, second], [], inward s⟩ o t₁
      ↔ (o ≠ .completed ∧ Executes g first (inward s) o t₁)
        ∨ ∃ s₁, Executes g first (inward s) .completed s₁ ∧ Executes g second s₁ o t₁ := by
    intro t₁
    rw [ends_execAll_cons]
    simp only [hlast]
  simp only [executes_block, hall]

/-! ## §2. One round. -/

/-- What the condition of a loop is read as. -/
def testOf (condition : Option Expr) : Expr :=
  condition.getD (.literal (.bool true))

theorem tests_iff {b : Bool} :
    Tests g condition s b t
      ↔ ∃ v, v.truthy = b
        ∧ Evaluates g (testOf condition) s (.value v) t := by
  cases condition with
  | none =>
    constructor
    · rintro ⟨⟩
      exact ⟨.bool true, rfl, (evaluates_literal _).mpr ⟨rfl, rfl⟩⟩
    · rintro ⟨v, rfl, hvalue⟩
      obtain ⟨hv, rfl⟩ := (evaluates_literal _).mp hvalue
      cases hv
      exact .absent
  | some e =>
    constructor
    · rintro ⟨⟩
      next v hvalue => exact ⟨v, rfl, hvalue⟩
    · rintro ⟨v, rfl, hvalue⟩
      exact .present hvalue

/-- A condition that fails is there. -/
theorem condition_of_raising {d : Diagnostic}
    (h : Evaluates g (testOf condition) s (.raising d) t) :
    ∃ e, condition = some e ∧ Evaluates g e s (.raising d) t := by
  cases condition with
  | none =>
    obtain ⟨ho, -⟩ := (evaluates_literal _).mp h
    cases ho
  | some e => exact ⟨e, rfl, h⟩

/-- **A round**: the block of the body and the increment. -/
theorem executes_round (hbody : body.Proper) (hdeclared : body.declared? = none) :
    Executes g (.block [body, .expression e]) s o t ↔ Round g body (some e) s o t := by
  rw [executes_pair]
  constructor
  · rintro ⟨t₁, rfl, ⟨ho, hleft⟩ | ⟨s₁, hcompleted, hnext⟩⟩
    · exact .left hleft ho
    · have hscope := hcompleted.scope hbody hdeclared
      rcases executes_expression.mp hnext with ⟨v, rfl, hvalue⟩ | ⟨d, rfl, hraising⟩
      · exact .advanced hcompleted hscope hvalue
      · exact .failed hcompleted hscope hraising
  · rintro (_ | ⟨hleft, ho⟩ | ⟨hcompleted, -, hnext⟩ | ⟨hcompleted, -, hnext⟩)
    · exact ⟨_, rfl, .inl ⟨ho, hleft⟩⟩
    · exact ⟨_, rfl, .inr ⟨_, hcompleted, executes_expression.mpr (.inl ⟨_, rfl, hnext⟩)⟩⟩
    · exact ⟨_, rfl, .inr ⟨_, hcompleted, executes_expression.mpr (.inr ⟨_, rfl, hnext⟩)⟩⟩

/-- What the body and the increment of a loop are read as. -/
def roundOf (body : Stmt) : Option Expr → Stmt
  | none => body
  | some e => .block [body, .expression e]

theorem executes_roundOf (hbody : body.Proper) (hdeclared : body.declared? = none) :
    Executes g (roundOf body increment) s o t ↔ Round g body increment s o t := by
  cases increment with
  | none =>
    constructor
    · exact .plain
    · rintro ⟨⟩
      assumption
  | some e => exact executes_round hbody hdeclared

/-! ## §3. Round after round. -/

section While

variable (hround : ∀ {s o t}, Executes g st s o t ↔ Round g body increment s o t)

theorem step_loopTest (v : Value) (s : State) :
    step g ⟨.value v, [.loopTest e st], s⟩
      = if v.truthy then ⟨.exec st, [.loopBody e st], s⟩ else ⟨.completed, [], s⟩ := rfl

include hround

/-- **The rounds of a plain loop**, by the number of its steps. -/
theorem rounds_of_endsIn {n : Nat}
    (h : EndsIn g n ⟨.exec (.while (testOf condition) st), [], s⟩ o t) :
    Rounds g condition increment body s o t := by
  induction n using Nat.strong_induction_on generalizing s with
  | _ n ih =>
    obtain ⟨n₁, hn₁, h₁⟩ := h.step rfl
    obtain ⟨o₁, s₁, htest, n₂, hn₂, h₂⟩ := EndsIn.onto (c := ⟨.eval _, [], s⟩) h₁ fun _ => rfl
    rcases Evaluates.outcome htest with ⟨v, rfl⟩ | ⟨d, rfl⟩
    · obtain ⟨n₃, hn₃, h₃⟩ := h₂.step rfl
      rw [step_loopTest] at h₃
      by_cases htrue : v.truthy
      · rw [if_pos htrue] at h₃
        have htests : Tests g condition s true s₁ := tests_iff.mpr ⟨v, htrue, htest⟩
        obtain ⟨o₂, s₂, hst, n₄, hn₄, h₄⟩ := EndsIn.onto (c := ⟨.exec st, [], s₁⟩) h₃ fun _ => rfl
        rcases Executes.outcome hst with rfl | ⟨u, rfl⟩ | ⟨d, rfl⟩
        · -- the loop starts again, with fewer steps to go
          obtain ⟨n₅, hn₅, h₅⟩ := h₄.step rfl
          exact .next htests (hround.mp hst) (ih n₅ (by omega) h₅)
        · obtain ⟨n₅, -, h₅⟩ := h₄.step rfl
          obtain ⟨rfl, rfl⟩ := h₅.eq rfl
          exact .ended htests (hround.mp hst) nofun
        · obtain ⟨n₅, -, h₅⟩ := h₄.step rfl
          obtain ⟨rfl, rfl⟩ := h₅.eq rfl
          exact .ended htests (hround.mp hst) nofun
      · rw [if_neg htrue] at h₃
        obtain ⟨rfl, rfl⟩ := h₃.eq rfl
        exact .done (tests_iff.mpr ⟨v, Bool.eq_false_iff.mpr htrue, htest⟩)
    · obtain ⟨n₃, -, h₃⟩ := h₂.step rfl
      obtain ⟨rfl, rfl⟩ := h₃.eq rfl
      obtain ⟨e, hcondition, hfailed⟩ := condition_of_raising htest
      exact .failed hcondition hfailed

/-- **A plain loop runs round after round.** -/
theorem executes_while :
    Executes g (.while (testOf condition) st) s o t
      ↔ Rounds g condition increment body s o t := by
  constructor
  · rintro ⟨n, h⟩
    exact rounds_of_endsIn hround h
  · intro h
    -- what a frame of the loop makes of the outcome that it gets
    have hloop : ∀ s o t, Executes g (.while (testOf condition) st) s o t
        ↔ ∃ o₁ s₁, Evaluates g (testOf condition) s o₁ s₁
          ∧ Ends g ⟨o₁, [.loopTest (testOf condition) st], s₁⟩ o t :=
      fun s o t => ends_within rfl rfl fun _ => rfl
    have hholds : ∀ {v : Value} {s₁ o t}, v.truthy = true →
        (Ends g ⟨.value v, [.loopTest (testOf condition) st], s₁⟩ o t
          ↔ ∃ o₂ s₂, Executes g st s₁ o₂ s₂
            ∧ Ends g ⟨o₂, [.loopBody (testOf condition) st], s₂⟩ o t) := by
      intro v s₁ o t htrue
      rw [ends_step rfl, step_loopTest, if_pos htrue]
      exact ends_onto (c := ⟨.exec st, [], s₁⟩) fun _ => rfl
    induction h with
    | @done s t htest =>
      obtain ⟨v, hfalse, hvalue⟩ := tests_iff.mp htest
      refine (hloop _ _ _).mpr ⟨_, t, hvalue, ?_⟩
      rw [ends_step rfl, step_loopTest, if_neg (Bool.eq_false_iff.mp hfalse)]
      exact (ends_of_halted rfl).mpr ⟨rfl, rfl⟩
    | @failed e s d t hcondition hfailed =>
      refine (hloop _ _ _).mpr ⟨.raising d, t, ?_, ?_⟩
      · rw [hcondition]
        exact hfailed
      · exact (ends_step rfl).mpr ((ends_of_halted rfl).mpr ⟨rfl, rfl⟩)
    | @ended s s₁ o t htest hend hleft =>
      obtain ⟨v, htrue, hvalue⟩ := tests_iff.mp htest
      have hst := hround.mpr hend
      refine (hloop _ _ _).mpr ⟨_, s₁, hvalue, (hholds htrue).mpr ⟨o, t, hst, ?_⟩⟩
      rcases hst.outcome with rfl | ⟨u, rfl⟩ | ⟨d, rfl⟩
      · exact absurd rfl hleft
      · exact (ends_step rfl).mpr ((ends_of_halted rfl).mpr ⟨rfl, rfl⟩)
      · exact (ends_step rfl).mpr ((ends_of_halted rfl).mpr ⟨rfl, rfl⟩)
    | @next s s₁ s₂ o t htest hend hrest ih =>
      obtain ⟨v, htrue, hvalue⟩ := tests_iff.mp htest
      refine (hloop _ _ _).mpr ⟨_, s₁, hvalue, (hholds htrue).mpr ⟨_, s₂, hround.mpr hend, ?_⟩⟩
      exact (ends_step rfl).mpr ih

end While

/-! ## §4. Loops. -/

/-- **A loop with three clauses does what it says.** -/
theorem executes_forLoop (initializer : Option Stmt) (hbody : body.Proper)
    (hdeclared : body.declared? = none) :
    Executes g (.forLoop initializer condition increment body) s o t
      ↔ Loops g condition increment body initializer s o t := by
  have hrounds : ∀ {s o t},
      Executes g (.while (testOf condition) (roundOf body increment)) s o t
        ↔ Rounds g condition increment body s o t :=
    executes_while (executes_roundOf hbody hdeclared)
  cases initializer with
  | none =>
    have hloop : Stmt.forLoop none condition increment body
        = .while (testOf condition) (roundOf body increment) := by
      cases increment <;> rfl
    rw [hloop, hrounds]
    constructor
    · exact .plain
    · rintro ⟨⟩
      assumption
  | some init =>
    have hloop : Stmt.forLoop (some init) condition increment body = .block [init,
        .while (testOf condition) (roundOf body increment)] := by
      cases increment <;> rfl
    rw [hloop, executes_pair]
    constructor
    · rintro ⟨t₁, rfl, ⟨ho, hleft⟩ | ⟨s₁, hstart, hrest⟩⟩
      · exact .failed hleft ho
      · exact .started hstart (hrounds.mp hrest)
    · rintro (_ | ⟨hstart, hrest⟩ | ⟨hleft, ho⟩)
      · exact ⟨_, rfl, .inr ⟨_, hstart, hrounds.mpr hrest⟩⟩
      · exact ⟨_, rfl, .inl ⟨ho, hleft⟩⟩

end Lox.Direct
