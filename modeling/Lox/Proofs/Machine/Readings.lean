/-
  Lox.Proofs.Machine.Readings
  ───────────────────────────
  **READING THE CLOCK.**

  The clock is read where it is called with room for a call, once in such a
  step and in no other (`readsClock_iff`, `step_reading`, `readings_step`), and
  no other step looks at it (`step_unread`).  So it makes no difference whether
  a run is given a clock beforehand or asks for the time whenever a step reads
  it (`runReading_eq`), and the same holds for jobs (`performReading_eq`).
-/
import Lox.Proofs.Machine.Frames

namespace Lox

/-- A clock outside, which counts how often it was read. -/
def Clock.read (clock : Clock) : StateM Nat Float :=
  fun count => (clock.reading count, count + 1)

namespace Config

variable {g : Setting} {c : Config}

/-! ## §1. Steps that read the clock. -/

/-- **The clock is read where it is called** and the limit leaves room. -/
theorem readsClock_iff : c.readsClock g = true ↔
    (∃ paren arguments, c.Calls (.native .clock) paren arguments)
      ∧ g.exhausted c.state.depth = false := by
  obtain ⟨control, frames, s⟩ := c
  constructor
  · intro h
    unfold readsClock at h
    split at h
    · next paren rest hcontrol hframes =>
      dsimp only at hcontrol hframes
      subst hcontrol hframes
      exact ⟨⟨paren, #[], ⟨_, rfl, rfl⟩, rfl⟩, by simpa using h⟩
    · cases h
  · rintro ⟨⟨paren, arguments, ⟨callee, hpending, hcallable⟩, harity⟩, hroom⟩
    have hempty : arguments = #[] := Array.eq_empty_of_size_eq_zero harity
    have hcallee : callee = .native .clock := by
      cases callee with
      | native => cases hcallable; rfl
      | _ => cases hcallable
    subst hempty hcallee
    unfold pending? at hpending
    split at hpending
    · next heq =>
      cases hpending
      cases heq
      show (!g.exhausted s.depth) = true
      rw [show g.exhausted s.depth = false from hroom]
      rfl
    · next earlier v _ =>
      -- there is an argument
      have hsize := congrArg (fun p => p.2.2.size) (Option.some.inj hpending)
      simp at hsize
    · cases hpending

/-- Such a step yields what the clock shows. -/
theorem step_reading (h : c.readsClock g = true) :
    c.step g = ⟨.value (.number (g.clock.reading c.state.readings)), c.frames.tail,
      c.state.readClock⟩ := by
  obtain ⟨⟨paren, arguments, hcalls⟩, hroom⟩ := readsClock_iff.mp h
  rw [step_calls hcalls, hroom]
  rfl

/-! ## §2. Other steps. -/

/-- No other step looks at the clock. -/
theorem step_unread (h : c.readsClock g = false) (clock : Clock) :
    c.step { g with clock } = c.step g := by
  cases hpending : c.pending? with
  | none => exact step_not_pending hpending rfl
  | some call =>
    obtain ⟨callee, paren, arguments⟩ := call
    by_cases hcalls : ∃ callable, c.Calls callable paren arguments
    · obtain ⟨callable, hcalls⟩ := hcalls
      rw [step_calls hcalls, step_calls hcalls]
      cases hfull : g.exhausted c.state.depth with
      | true => exact (if_pos hfull).trans (if_pos rfl).symm
      | false =>
        refine (if_neg (Bool.eq_false_iff.mp hfull)).trans ?_
        rw [if_neg Bool.false_ne_true]
        cases callable with
        | native n =>
          cases n
          rw [readsClock_iff.mpr ⟨⟨paren, arguments, hcalls⟩, hfull⟩] at h
          cases h
        | function | «class» => rfl
    · obtain ⟨fault, hfault⟩ := step_refused hpending hcalls
      rw [hfault, hfault]

theorem readings_settling (c : Config) (line : Nat) (result : Except RuntimeFault Value) :
    (c.settling line result).state.readings = c.state.readings := by
  cases result <;> rfl

theorem readings_property (c : Config) (id : ObjectId) (name : Token) :
    (c.property id name).state.readings = c.state.readings := by
  unfold property
  repeat' split
  all_goals rfl

theorem readings_superMethod (g : Setting) (c : Config) (o : Occurrence) (name : Token) :
    (superMethod g c o name).state.readings = c.state.readings := by
  unfold superMethod
  repeat' split
  all_goals rfl

theorem readings_assigning (g : Setting) (c : Config) (o : Occurrence) (v : Value) :
    (assigning g c o v).state.readings = c.state.readings := by
  unfold assigning
  split <;> rfl

theorem readings_endingCall (c : Config) (scope : ScopeId) (f : Function)
    (made : Option ObjectId) (v : Value) :
    (c.endingCall scope f made v).state.readings = c.state.readings := by
  unfold endingCall
  dsimp only
  split <;> rfl

theorem readings_declaringClass (c : Config) (name : Token) (parent : Option Class)
    (methods : List (FunctionDecl Stmt)) :
    (c.declaringClass name parent methods).state.readings = c.state.readings := by
  have hopen : (openMethodScope c.state parent).readings = c.state.readings := by
    cases parent <;> rfl
  unfold declaringClass
  dsimp only
  split <;> exact hopen

theorem readings_making (c : Config) (k : Class) (arguments : Array Value) :
    (c.making k arguments).state.readings = c.state.readings := by
  unfold making
  dsimp only
  split <;> rfl

theorem readings_eval (g : Setting) (c : Config) (e : Expr) :
    (eval g c e).state.readings = c.state.readings := by
  cases e with
  | «variable» o | this o => exact readings_settling c _ _
  | super o method => exact readings_superMethod g c o method
  | _ => rfl

theorem readings_exec (c : Config) (st : Stmt) : (c.exec st).state.readings = c.state.readings := by
  cases st with
  | var name initializer => cases initializer <;> rfl
  | «return» keyword value => cases value <;> rfl
  | «class» name superclass methods =>
    cases superclass with
    | none => exact readings_declaringClass _ name none methods
    | some parent => rfl
  | _ => rfl

theorem readings_complete (c : Config) (frame : Frame) :
    (c.complete frame).state.readings = c.state.readings := by
  cases frame with
  | call scope f made => exact readings_endingCall c scope f made .nil
  | _ => rfl

theorem readings_resume (g : Setting) (c : Config) (v : Value) {frame : Frame} {state : State}
    (h : pending? ⟨.value v, frame :: c.frames, state⟩ = none) :
    (resume g c v frame).state.readings = c.state.readings := by
  cases frame with
  | unary | binaryRight => exact readings_settling c _ _
  | assign target => exact readings_assigning g c target v
  | callee paren arguments | argument callee paren earlier arguments =>
    cases arguments with
    | nil => cases h
    | cons e rest => rfl
  | get name =>
    cases v with
    | object id => exact readings_property c id name
    | _ => rfl
  | setObject name value => cases v <;> rfl
  | logical | branch | loopTest =>
    unfold resume
    dsimp only
    split <;> rfl
  | superclass name parent methods =>
    cases v with
    | «class» k => exact readings_declaringClass c name (some k) methods
    | _ => rfl
  | call scope f made => exact readings_endingCall c scope f made .nil
  | _ => rfl

theorem readings_settleFrame (g : Setting) (c : Config) (frame : Frame)
    (h : pending? ⟨c.control, frame :: c.frames, c.state⟩ = none) :
    (settleFrame g c frame).state.readings = c.state.readings := by
  obtain ⟨control, frames, s⟩ := c
  cases control with
  | value v => exact readings_resume g _ v h
  | completed => exact readings_complete _ frame
  | returning v =>
    cases frame with
    | call scope f made => exact readings_endingCall _ scope f made v
    | _ => rfl
  | raising d => cases frame <;> rfl
  | eval | exec | execAll => rfl

/-- **No other step reads the clock.** -/
theorem readings_step (h : c.readsClock g = false) :
    (c.step g).state.readings = c.state.readings := by
  cases hpending : c.pending? with
  | none =>
    obtain ⟨control, frames, s⟩ := c
    cases control with
    | eval e => exact readings_eval g _ e
    | exec st => exact readings_exec _ st
    | execAll body => cases body <;> rfl
    | _ =>
      cases frames with
      | nil => rfl
      | cons frame rest => exact readings_settleFrame g _ frame hpending
  | some call =>
    obtain ⟨callee, paren, arguments⟩ := call
    by_cases hcalls : ∃ callable, c.Calls callable paren arguments
    · obtain ⟨callable, hcalls⟩ := hcalls
      rw [step_calls hcalls]
      cases hfull : g.exhausted c.state.depth with
      | true => rfl
      | false =>
        rw [if_neg Bool.false_ne_true]
        cases callable with
        | native n =>
          cases n
          rw [readsClock_iff.mpr ⟨⟨paren, arguments, hcalls⟩, hfull⟩] at h
          cases h
        | function f => rfl
        | «class» k => exact readings_making _ k arguments
    · obtain ⟨fault, hfault⟩ := step_refused hpending hcalls
      rw [hfault]

/-! ## §3. Runs. -/

/-- **A run that asks for the time** is the run with the clock that shows what
it was told. -/
theorem runReading_eq (g : Setting) (clock : Clock) (fuel : Nat) (c : Config) :
    (c.runReading clock.read g fuel).run c.state.readings
      = (c.run { g with clock } fuel, (c.run { g with clock } fuel).state.readings) := by
  induction fuel generalizing c with
  | zero => rfl
  | succ fuel ih =>
    rw [runReading, run]
    cases c.halted with
    | true => rfl
    | false =>
      rw [if_neg Bool.false_ne_true, if_neg Bool.false_ne_true]
      have hlater := ih (c.step { g with clock })
      cases hreads : c.readsClock g with
      | true =>
        have hnext := step_reading (g := { g with clock }) hreads
        have hshown : c.step { g with clock := .still (clock.reading c.state.readings) }
            = c.step { g with clock } := hnext.symm ▸ step_reading hreads
        have hcount : (c.step { g with clock }).state.readings = c.state.readings + 1 := by
          rw [hnext]
          rfl
        rw [hcount, ← hshown] at hlater
        rw [if_pos rfl, ← hshown]
        exact hlater
      | false =>
        have hunread := step_unread hreads clock
        rw [hunread, readings_step hreads] at hlater
        rw [if_neg Bool.false_ne_true, hunread]
        exact hlater

end Config

/-- How often the clock was read before a job. -/
def Job.readings {α : Type} : Job α → Nat
  | .done _ => 0
  | .run _ start _ => start.state.readings

/-- **A job with a clock outside** has the same result as with this clock. -/
theorem Job.performReading_eq {α : Type} (job : Job α) (fuel : Nat) (clock : Clock) :
    ((job.performReading fuel clock.read).run job.readings).1 = job.perform fuel clock := by
  cases job with
  | done result => rfl
  | run distances start result =>
    have hrun := Config.runReading_eq { distances, clock := .still 0 } clock fuel start
    exact congrArg (fun p => result p.1) hrun

end Lox
