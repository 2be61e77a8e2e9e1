/-
  Lox.Proofs.Loop.Ends
  ────────────────────
  **HOW STATEMENTS END.**

  Most steps are those of a program with distances.  The others look up a name
  or assign to one, declare one, or enter a block, and `Looks` lists what they
  do.  From both follows what is asked about a program that comes to an end: it
  does so inside other frames as by itself (`ends_onto`), and what it ends with
  is what it was to yield (`Executes.outcome`, `Evaluates.outcome`).
-/
import Lox.Proofs.Lexical.Simulation
import Lox.Proofs.Loop.Direct
import Lox.Proofs.Machine.Phases

namespace Lox.Direct

open Lockstep Config

variable {g : Setting} {c c' : Config} {o o' : Control} {s t : State} {frames below : List Frame}

/-! ## §1. What a step does. -/

/-- The next step looks at a name or enters a block. -/
def Own (c : Config) : Prop :=
  Naming c ∨ ∃ body, c.control = .exec (.block body)

/-- An expression has a value or has failed. -/
def Settled (o : Control) : Prop :=
  (∃ v, o = .value v) ∨ ∃ d, o = .raising d

/-- A statement is completed or has failed. -/
def Done (o : Control) : Prop :=
  o = .completed ∨ ∃ d, o = .raising d

/-- **What a step does** that looks at a name or enters a block.  Only
declarations and blocks may go to another environment. -/
inductive Looks : Config → Config → Prop
  | finds {e frames s o s'} (ho : Settled o) (hscope : s'.scope = s.scope)
      (hdepth : s'.depth = s.depth) : Looks ⟨.eval e, frames, s⟩ ⟨o, frames, s'⟩
  | assigns {v target frames s o s'} (ho : Settled o) (hscope : s'.scope = s.scope)
      (hdepth : s'.depth = s.depth) :
      Looks ⟨.value v, .assign target :: frames, s⟩ ⟨o, frames, s'⟩
  | defines {v name frames s s'} (hdepth : s'.depth = s.depth) :
      Looks ⟨.value v, .define name :: frames, s⟩ ⟨.completed, frames, s'⟩
  | declares {st frames s o s'} (hst : NamingStmt st) (ho : Done o) (hdepth : s'.depth = s.depth) :
      Looks ⟨.exec st, frames, s⟩ ⟨o, frames, s'⟩
  | parent {name o methods frames s s'} (hdepth : s'.depth = s.depth) :
      Looks ⟨.exec (.class name (some o) methods), frames, s⟩
        ⟨.eval (.variable o), .superclass name o methods :: frames, s'⟩
  | block {body frames s s'} (hdepth : s'.depth = s.depth) :
      Looks ⟨.exec (.block body), frames, s⟩ ⟨.execAll body, .leave s.scope :: frames, s'⟩

/-- All other steps are those of a program with distances. -/
theorem step_eq (h : ¬ Own c) (g : Setting) : step g c = c.step g := by
  have hlexical : step g c = Lexical.step g c := by
    obtain ⟨control, frames, s⟩ := c
    cases control with
    | exec st =>
      cases st with
      | block body => exact absurd (.inr ⟨body, rfl⟩) h
      | _ => rfl
    | value v =>
      cases frames with
      | nil => rfl
      | cons frame rest =>
        cases frame with
        | assign o => exact absurd (.inl trivial) h
        | _ => rfl
    | _ => rfl
  rw [hlexical]
  exact lexical_step_eq (fun hn => h (.inl hn)) g

theorem own_onto (h : c.halted = false) (below : List Frame) : Own (c.onto below) ↔ Own c := by
  obtain ⟨control, frames, s⟩ := c
  cases control with
  | value v =>
    cases frames with
    | nil => cases h
    | cons => exact Iff.rfl
  | _ => exact Iff.rfl

theorem settled_settling (line : Nat) (result : Except RuntimeFault Value) (control : Control)
    (s : State) :
    ∃ o, Settled o ∧ ∀ frames, settling ⟨control, frames, s⟩ line result = ⟨o, frames, s⟩ := by
  cases result with
  | ok v => exact ⟨_, .inl ⟨v, rfl⟩, fun _ => rfl⟩
  | error fault => exact ⟨_, .inr ⟨_, rfl⟩, fun _ => rfl⟩

/-- A method of `super` is bound to `this`, or something is missing. -/
theorem settled_superMethod (keyword name : Token) (control : Control) (s : State) :
    ∃ o s', Settled o ∧ (s'.scope = s.scope ∧ s'.depth = s.depth)
      ∧ ∀ frames, Lexical.superMethod ⟨control, frames, s⟩ keyword name = ⟨o, frames, s'⟩ := by
  unfold Lexical.superMethod
  dsimp only
  have hfailing : ∀ line fault, ∃ o s', Settled o ∧ (s'.scope = s.scope ∧ s'.depth = s.depth)
      ∧ ∀ frames, failing ⟨control, frames, s⟩ line fault = ⟨o, frames, s'⟩ :=
    fun line fault => ⟨_, s, .inr ⟨_, rfl⟩, ⟨rfl, rfl⟩, fun _ => rfl⟩
  split
  · exact hfailing _ _
  · split
    · exact hfailing _ _
    · split
      · next id _ _ f _ =>
        exact ⟨.value (.function (boundMethod s f)), bind s f id, .inl ⟨_, rfl⟩, ⟨rfl, rfl⟩,
          fun _ => rfl⟩
      · exact hfailing _ _
    · exact hfailing _ _
  · exact hfailing _ _

theorem settled_assigning (name : Token) (v : Value) (control : Control) (s : State) :
    ∃ o s', Settled o ∧ (s'.scope = s.scope ∧ s'.depth = s.depth)
      ∧ ∀ frames, Lexical.assigning ⟨control, frames, s⟩ name v = ⟨o, frames, s'⟩ := by
  unfold Lexical.assigning
  dsimp only
  split
  · exact ⟨.value v, s.define _ name.lexeme v, .inl ⟨v, rfl⟩, ⟨rfl, rfl⟩, fun _ => rfl⟩
  · exact ⟨_, s, .inr ⟨_, rfl⟩, ⟨rfl, rfl⟩, fun _ => rfl⟩

theorem depth_declare (s : State) (name : String) (v : Value) :
    (Lexical.declare s name v).depth = s.depth := by
  unfold Lexical.declare
  split <;> rfl

theorem depth_inward (s : State) : (inward s).depth = s.depth := by
  unfold inward
  split <;> rfl

theorem done_declaringClass (name : Token) (parent : Option Class)
    (methods : List (FunctionDecl Stmt)) (control : Control) (s : State) :
    ∃ o s', Done o ∧ s'.depth = s.depth
      ∧ ∀ frames, declaringClass ⟨control, frames, s⟩ name parent methods = ⟨o, frames, s'⟩ := by
  have hdepth : (declaringState s parent methods).depth = s.depth := by
    cases parent <;> rfl
  cases htarget : (declaringState s parent methods).scopes.target
      (declaringState s parent methods).scope name.lexeme with
  | ok a =>
    exact ⟨_, (declaringState s parent methods).define a name.lexeme _, .inl rfl, hdepth,
      fun _ => declaringClass_eq htarget⟩
  | error fault => exact ⟨_, _, .inr ⟨_, rfl⟩, hdepth, fun _ => declaringClass_error htarget⟩

/-- No initializer is being evaluated in frames. -/
def Apart (frames : List Frame) : Prop :=
  ∀ name, initializing name frames = false

/-- Frames further out do not matter then. -/
theorem Apart.initializing_append (h : Apart below) (name : String) (frames : List Frame) :
    initializing name (frames ++ below) = initializing name frames := by
  induction frames with
  | nil => exact h name
  | cons frame rest ih =>
    rw [List.cons_append]
    cases frame with
    | define => rfl
    | _ => exact congrArg (_ && ·) ih

/-- A step that looks at a name or enters a block does the same inside other
frames. -/
theorem looks_step (h : Own c) (g : Setting) :
    ∃ c', Looks c c' ∧ ∀ below, Apart below → step g (c.onto below) = c'.onto below := by
  obtain ⟨control, frames, s⟩ := c
  cases control with
  | eval e =>
    have hfinds : ∃ o s', Settled o ∧ (s'.scope = s.scope ∧ s'.depth = s.depth)
        ∧ ∀ fs, step g ⟨.eval e, fs, s⟩ = ⟨o, fs, s'⟩ := by
      cases e with
      | «variable» o | this o =>
        obtain ⟨outcome, ho, hstep⟩ := settled_settling o.name.line (Lexical.lookUp s o.name) _ s
        exact ⟨outcome, s, ho, ⟨rfl, rfl⟩, hstep⟩
      | super o method => exact settled_superMethod o.name method _ s
      | _ => rcases h with h | ⟨_, h⟩ <;> cases h
    obtain ⟨o, s', ho, ⟨hscope, hdepth⟩, hstep⟩ := hfinds
    exact ⟨⟨o, frames, s'⟩, .finds ho hscope hdepth, fun below _ => hstep _⟩
  | exec st =>
    cases st with
    | block body =>
      exact ⟨⟨.execAll body, .leave s.scope :: frames, inward s⟩, .block (depth_inward s),
        fun _ _ => rfl⟩
    | var name initializer =>
      cases initializer with
      | none => exact ⟨_, .declares trivial (.inl rfl) (depth_declare s _ _), fun _ _ => rfl⟩
      | some e => rcases h with h | ⟨_, h⟩ <;> cases h
    | function decl =>
      let f : Function := ⟨s.nextIdentity, decl, Lexical.extended s, false⟩
      let declared := Lexical.declare (s.useIdentities 1) decl.name.lexeme (.function f)
      exact ⟨⟨.completed, frames, declared⟩, .declares trivial (.inl rfl) (depth_declare _ _ _),
        fun _ _ => rfl⟩
    | «class» name superclass methods =>
      cases superclass with
      | none =>
        obtain ⟨o, s', ho, hdepth, hstep⟩ := done_declaringClass name none methods
          (.exec (.class name none methods)) (Lexical.declare s name.lexeme .nil)
        exact ⟨⟨o, frames, s'⟩, .declares trivial ho (hdepth.trans (depth_declare s _ _)),
          fun below _ => hstep _⟩
      | some parent => exact ⟨_, .parent (depth_declare s _ _), fun _ _ => rfl⟩
    | _ => rcases h with h | ⟨_, h⟩ <;> cases h
  | value v =>
    cases frames with
    | nil => rcases h with h | ⟨_, h⟩ <;> cases h
    | cons frame rest =>
      cases frame with
      | define name =>
        exact ⟨⟨.completed, rest, Lexical.declare s name.lexeme v⟩, .defines (depth_declare s _ _),
          fun _ _ => rfl⟩
      | assign target =>
        -- the frames decide whether the name is being initialized
        have hassigns : ∃ o s', Settled o ∧ (s'.scope = s.scope ∧ s'.depth = s.depth)
            ∧ ∀ below, Apart below →
            assigning ⟨.value v, rest ++ below, s⟩ target.name v = ⟨o, rest ++ below, s'⟩ := by
          by_cases hwait : s.scope ≠ globalScope ∧ initializing target.name.lexeme rest
          · refine ⟨.raising (.runtime target.name.line (.undefinedVariable target.name.lexeme)), s,
              .inr ⟨_, rfl⟩, ⟨rfl, rfl⟩, fun below hbelow => ?_⟩
            unfold assigning
            dsimp only
            rw [hbelow.initializing_append, if_pos hwait]
            rfl
          · obtain ⟨o, s', ho, hsame, hassign⟩ := settled_assigning target.name v (.value v) s
            refine ⟨o, s', ho, hsame, fun below hbelow => ?_⟩
            unfold assigning
            dsimp only
            rw [hbelow.initializing_append, if_neg hwait]
            exact hassign _
        obtain ⟨o, s', ho, ⟨hscope, hdepth⟩, hassign⟩ := hassigns
        exact ⟨⟨o, rest, s'⟩, .assigns ho hscope hdepth, hassign⟩
      | _ => rcases h with h | ⟨_, h⟩ <;> cases h
  | _ => rcases h with h | ⟨_, h⟩ <;> cases h

/-- What a step does: it looks at a name or enters a block, or it is one of a
program with distances. -/
theorem looks_or_step (g : Setting) (c : Config) : Looks c (step g c) ∨ step g c = c.step g := by
  by_cases h : Own c
  · obtain ⟨c', hlooks, hstep⟩ := looks_step h g
    have hnil := hstep [] fun _ => rfl
    rw [onto_nil, onto_nil] at hnil
    rw [hnil]
    exact .inl hlooks
  · exact .inr (step_eq h g)

theorem step_halted (h : c.halted = true) (g : Setting) : step g c = c := by
  rw [step_eq ?_ g, Config.step_halted h]
  obtain ⟨control, frames, s⟩ := c
  obtain rfl : frames = [] := frames_of_halted h
  rintro (hn | ⟨body, rfl⟩)
  · cases control with
    | eval => cases h
    | exec => cases h
    | _ => cases hn
  · cases h

/-- **A step before the end** does not look at the frames below, unless an
initializer is waited for there. -/
theorem step_onto (h : c.halted = false) (hbelow : Apart below) (g : Setting) :
    step g (c.onto below) = (step g c).onto below := by
  by_cases hown : Own c
  · obtain ⟨c', -, hstep⟩ := looks_step hown g
    have hnil := hstep [] fun _ => rfl
    rw [onto_nil, onto_nil] at hnil
    rw [hnil, hstep below hbelow]
  · rw [step_eq hown, step_eq (fun h' => hown ((own_onto h below).mp h')), Config.step_onto h]

/-! ## §2. Runs. -/

theorem run_succ (g : Setting) (n : Nat) (c : Config) : run g (n + 1) c = run g n (step g c) :=
  Function.iterate_succ_apply (step g) n c

theorem run_add (g : Setting) (m n : Nat) (c : Config) : run g (m + n) c = run g n (run g m c) := by
  unfold run
  rw [Nat.add_comm, Function.iterate_add_apply]

theorem run_of_halted (h : c.halted = true) (g : Setting) (n : Nat) : run g n c = c :=
  Function.iterate_fixed (step_halted h g) n

/-- What every step keeps is kept by a run. -/
theorem run_keeps {P : Config → Prop} (hstep : ∀ c, P c → P (step g c)) (h : P c) (n : Nat) :
    P (run g n c) := by
  induction n generalizing c with
  | zero => exact h
  | succ n ih =>
    rw [run_succ]
    exact ih (hstep c h)

/-- A program does inside other frames what it does alone, until it ends. -/
theorem run_onto {n : Nat} (h : ∀ m < n, (run g m c).halted = false) (hbelow : Apart below) :
    run g n (c.onto below) = (run g n c).onto below := by
  induction n generalizing c with
  | zero => rfl
  | succ n ih =>
    have hfirst : c.halted = false := h 0 (Nat.succ_pos n)
    rw [run_succ, run_succ, step_onto hfirst hbelow]
    apply ih
    intro m hm
    rw [← run_succ]
    exact h (m + 1) (Nat.succ_lt_succ hm)

/-- The first moment at which a program has ended. -/
theorem exists_first_end {n : Nat} (h : (run g n c).halted = true) :
    ∃ k ≤ n, run g k c = run g n c ∧ ∀ m < k, (run g m c).halted = false := by
  have hsome : ∃ k, (run g k c).halted = true := ⟨n, h⟩
  have hle : Nat.find hsome ≤ n := Nat.find_min' hsome h
  refine ⟨Nat.find hsome, hle, ?_, fun m hm => Bool.eq_false_iff.mpr (Nat.find_min hsome hm)⟩
  obtain ⟨d, hd⟩ := Nat.exists_eq_add_of_le hle
  rw [hd, run_add, run_of_halted (Nat.find_spec hsome)]

/-! ## §3. Ends. -/

theorem EndsIn.ends {n : Nat} (h : EndsIn g n c o t) : Ends g c o t :=
  ⟨n, h⟩

/-- What has ended does not change any more. -/
theorem EndsIn.eq {n : Nat} (h : EndsIn g n ⟨o, [], s⟩ o' t)
    (ho : (Config.mk o [] s).halted = true) : o' = o ∧ t = s := by
  obtain ⟨-, hrun⟩ := h
  rw [run_of_halted ho] at hrun
  cases hrun
  exact ⟨rfl, rfl⟩

/-- What has not ended takes a step. -/
theorem EndsIn.step {n : Nat} (h : EndsIn g n c o t) (hc : c.halted = false) :
    ∃ m < n, EndsIn g m (step g c) o t := by
  obtain ⟨ho, hrun⟩ := h
  cases n with
  | zero =>
    rw [show c = ⟨o, [], t⟩ from hrun, ho] at hc
    cases hc
  | succ n => exact ⟨n, Nat.lt_succ_self n, ho, (run_succ g n c).symm.trans hrun⟩

/-- **A program inside other frames** ends by itself first, and then the frames
get its outcome. -/
theorem EndsIn.onto {n : Nat} {frame : Frame} (h : EndsIn g n (c.onto (frame :: below)) o t)
    (hbelow : Apart (frame :: below)) :
    ∃ o₁ t₁, Ends g c o₁ t₁ ∧ ∃ m ≤ n, EndsIn g m ⟨o₁, frame :: below, t₁⟩ o t := by
  obtain ⟨ho, hrun⟩ := h
  have hended : ∃ m ≤ n, (run g m c).halted = true := by
    by_contra hnone
    have hrunning : ∀ m < n, (run g m c).halted = false := by
      intro m hm
      by_contra hhalted
      exact hnone ⟨m, Nat.le_of_lt hm, Bool.not_eq_false _ ▸ hhalted⟩
    rw [run_onto hrunning hbelow] at hrun
    exact List.append_ne_nil_of_right_ne_nil _ (List.cons_ne_nil frame below)
      (congrArg Config.frames hrun)
  obtain ⟨m, hm, hhalted⟩ := hended
  obtain ⟨k, hk, heq, hrunning⟩ := exists_first_end hhalted
  rw [← heq] at hhalted
  obtain ⟨d, rfl⟩ := Nat.exists_eq_add_of_le (Nat.le_trans hk hm)
  rw [run_add, run_onto hrunning hbelow] at hrun
  have hframes := frames_of_halted hhalted
  generalize hc : run g k c = c₁ at hrun hhalted hframes
  obtain ⟨o₁, frames₁, t₁⟩ := c₁
  obtain rfl : frames₁ = [] := hframes
  exact ⟨o₁, t₁, ⟨k, hhalted, hc⟩, d, Nat.le_add_left d k, ho, hrun⟩

theorem ends_of_halted (ho : (Config.mk o [] s).halted = true) :
    Ends g ⟨o, [], s⟩ o' t ↔ o' = o ∧ t = s := by
  constructor
  · rintro ⟨n, h⟩
    exact h.eq ho
  · rintro ⟨rfl, rfl⟩
    exact ⟨0, ho, rfl⟩

theorem ends_step (hc : c.halted = false) : Ends g c o t ↔ Ends g (step g c) o t := by
  constructor
  · rintro ⟨n, h⟩
    obtain ⟨m, -, hrest⟩ := h.step hc
    exact hrest.ends
  · rintro ⟨n, ho, hrun⟩
    exact ⟨n + 1, ho, (run_succ g n c).trans hrun⟩

theorem ends_onto {frame : Frame} (hbelow : Apart (frame :: below)) :
    Ends g (c.onto (frame :: below)) o t
      ↔ ∃ o₁ t₁, Ends g c o₁ t₁ ∧ Ends g ⟨o₁, frame :: below, t₁⟩ o t := by
  constructor
  · rintro ⟨n, h⟩
    obtain ⟨o₁, t₁, hfirst, m, -, hrest⟩ := h.onto hbelow
    exact ⟨o₁, t₁, hfirst, hrest.ends⟩
  · rintro ⟨o₁, t₁, ⟨n, ho₁, hfirst⟩, m, ho, hrest⟩
    have hhalted : (run g n c).halted = true := by
      rw [hfirst]
      exact ho₁
    obtain ⟨k, -, heq, hrunning⟩ := exists_first_end hhalted
    refine ⟨k + m, ho, ?_⟩
    rw [run_add, run_onto hrunning hbelow, heq, hfirst]
    exact hrest

/-- Something else comes up inside a new frame. -/
theorem ends_within {control control' : Control} {frame : Frame} {s' : State}
    (hcontrol : (Config.mk control [] s).halted = false)
    (hstep : step g ⟨control, [], s⟩ = ⟨control', [frame], s'⟩) (hframe : Apart [frame]) :
    Ends g ⟨control, [], s⟩ o t
      ↔ ∃ o₁ t₁, Ends g ⟨control', [], s'⟩ o₁ t₁ ∧ Ends g ⟨o₁, [frame], t₁⟩ o t := by
  rw [ends_step hcontrol, hstep]
  exact ends_onto (c := ⟨control', [], s'⟩) hframe

/-- **A step yields what the frames wait for.** -/
theorem fits_step {last : Want} (h : Fits last c) (g : Setting) : Fits last (step g c) := by
  rcases looks_or_step g c with hlooks | heq
  · generalize step g c = c' at hlooks
    cases hlooks with
    | finds ho | assigns ho =>
      rcases ho with ⟨v, rfl⟩ | ⟨d, rfl⟩
      · first | exact h | exact h.2
      · trivial
    | defines => exact h.2
    | declares _ ho =>
      rcases ho with rfl | ⟨d, rfl⟩
      · exact h
      · trivial
    | parent | block => exact ⟨rfl, h⟩
  · rw [heq]
    exact h.step g

theorem fits_run {last : Want} (h : Fits last c) (g : Setting) (n : Nat) : Fits last (run g n c) :=
  run_keeps (P := Fits last) (fun _ hc => fits_step hc g) h n

/-- An expression ends with a value or a failure. -/
theorem Evaluates.outcome {e : Expr} (h : Evaluates g e s o t) : Settled o := by
  obtain ⟨n, ho, hrun⟩ := h
  have hstart : Fits .value ⟨.eval e, [], s⟩ := rfl
  have hend := fits_run hstart g n
  rw [hrun] at hend
  rcases hend.outcome ho with hraised | hvalue
  · exact .inr hraised
  · exact .inl hvalue

/-- Statements are completed or left, or they fail. -/
theorem outcome_of_ends (control : Control) (hstart : Fits .completion ⟨control, [], s⟩)
    (h : Ends g ⟨control, [], s⟩ o t) :
    o = .completed ∨ (∃ v, o = .returning v) ∨ ∃ d, o = .raising d := by
  obtain ⟨n, ho, hrun⟩ := h
  have hend := fits_run hstart g n
  rw [hrun] at hend
  rcases hend.outcome ho with hraised | hcompleted | hleft
  · exact .inr (.inr hraised)
  · exact .inl hcompleted
  · exact .inr (.inl hleft)

theorem Executes.outcome {st : Stmt} (h : Executes g st s o t) :
    o = .completed ∨ (∃ v, o = .returning v) ∨ ∃ d, o = .raising d :=
  outcome_of_ends (.exec st) rfl h

end Lox.Direct
