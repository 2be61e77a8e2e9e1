/-
  Lox.Proofs.Machine.Phases
  ─────────────────────────
  **A PROGRAM IS IN ONE STATEMENT AT A TIME.**

  Every frame waits for one of two things, a value or the end of a statement,
  and what is done inside it yields just that (`Linked`).  So an expression
  ends with a value or a failure, and a statement never ends with a value
  (`Fits.run`).

  A run of statements can therefore be cut into phases.  At each of its points
  some statements have been completed one after another (`Completes`), and the
  program is doing by itself what the next one does (`exists_phase`).

  Main results:
    * `Fits.run`: frames get what they wait for.
    * `exists_phase`: every point of a run lies in a statement, between two of
      them, or at the end.
-/
import Lox.Proofs.Machine.Carried
import Lox.Proofs.Machine.Footprint
import Lox.Proofs.Machine.Frames
import Lox.Proofs.Session.Restored

namespace Lox

open Lockstep

/-! ## §1. What frames wait for and yield. -/

/-- What a frame waits for. -/
def Frame.want : Frame → Want
  | .sequence _ | .loopBody _ _ | .leave _ | .call _ _ _ => .completion
  | _ => .value

/-- What a frame yields when it has got what it waits for. -/
def Frame.yield : Frame → Want
  | .discard | .print | .define _ | .branch _ _ | .loopTest _ _ | .returnValue
  | .superclass _ _ _ | .sequence _ | .loopBody _ _ | .leave _ => .completion
  | _ => .value

/-- Each frame waits for what comes from inside; the last one yields `last`. -/
def Linked (last : Want) : Want → List Frame → Prop
  | want, [] => want = last
  | want, frame :: rest => frame.want = want ∧ Linked last frame.yield rest

namespace Config

/-- What is done yields what the frames wait for.  A failure yields nothing. -/
def Fits (last : Want) (c : Config) : Prop :=
  match c.control with
  | .eval _ | .value _ => Linked last .value c.frames
  | .exec _ | .execAll _ | .completed | .returning _ => Linked last .completion c.frames
  | .raising _ => True

section Fits

variable {last : Want} {g : Setting} {control : Control} {rest : List Frame} {s : State}

theorem fits_settling (h : Linked last .value rest) (line : Nat)
    (result : Except RuntimeFault Value) :
    Fits last (settling ⟨control, rest, s⟩ line result) := by
  cases result with
  | ok v => exact h
  | error fault => trivial

theorem fits_property (h : Linked last .value rest) (id : ObjectId) (name : Token) :
    Fits last (property ⟨control, rest, s⟩ id name) := by
  unfold property
  dsimp only
  split
  · trivial
  · split
    · exact h
    · split
      · exact h
      · trivial

theorem fits_superMethod (h : Linked last .value rest) (o : Occurrence) (name : Token) :
    Fits last (superMethod g ⟨control, rest, s⟩ o name) := by
  unfold superMethod
  dsimp only
  split
  · trivial
  · split
    · trivial
    · split
      · trivial
      · split
        · exact h
        · trivial

theorem fits_assigning (h : Linked last .value rest) (o : Occurrence) (v : Value) :
    Fits last (assigning g ⟨control, rest, s⟩ o v) := by
  unfold assigning
  split
  · exact h
  · trivial

theorem fits_calling (h : Linked last .value rest) (callee : Value) (paren : Token)
    (arguments : Array Value) : Fits last (calling g ⟨control, rest, s⟩ callee paren arguments) := by
  unfold calling
  split
  · trivial
  · split
    · trivial
    · split
      · trivial
      · split
        · exact h
        · exact ⟨rfl, h⟩
        · -- an object without an initializer is there at once
          unfold making
          dsimp only
          split
          · exact h
          · exact ⟨rfl, h⟩

theorem fits_arguing (h : Linked last .value rest) (callee : Value) (paren : Token)
    (earlier : Array Value) (arguments : List Expr) :
    Fits last (arguing g ⟨control, rest, s⟩ callee paren earlier arguments) := by
  cases arguments with
  | nil => exact fits_calling h callee paren earlier
  | cons e arguments => exact ⟨rfl, h⟩

theorem fits_endingCall (h : Linked last .value rest) (n : ScopeId) (f : Function)
    (made : Option ObjectId) (v : Value) :
    Fits last (endingCall ⟨control, rest, s⟩ n f made v) := by
  unfold endingCall
  dsimp only
  split
  · trivial
  · exact h
  · exact h

theorem fits_declaringClass (h : Linked last .completion rest) (name : Token)
    (parent : Option Class) (methods : List (FunctionDecl Stmt)) :
    Fits last (declaringClass ⟨control, rest, s⟩ name parent methods) := by
  obtain ⟨control', s', heq, houtcome, -⟩ := declaringClass_outcome control rest s name parent
    methods
  rw [heq]
  rcases houtcome with rfl | ⟨d, rfl⟩
  · exact h
  · trivial

theorem fits_eval (h : Linked last .value rest) (e : Expr) :
    Fits last (eval g ⟨.eval e, rest, s⟩ e) := by
  cases e with
  | literal | grouping => exact h
  | «variable» o | this o => exact fits_settling h _ _
  | super o method => exact fits_superMethod h o method
  | _ => exact ⟨rfl, h⟩

theorem fits_exec (h : Linked last .completion rest) (st : Stmt) :
    Fits last (exec ⟨.exec st, rest, s⟩ st) := by
  cases st with
  | var name initializer =>
    cases initializer with
    | none => exact h
    | some e => exact ⟨rfl, h⟩
  | function decl => exact h
  | «return» keyword value =>
    cases value with
    | none => exact h
    | some e => exact ⟨rfl, h⟩
  | «class» name superclass methods =>
    cases superclass with
    | none => exact fits_declaringClass h name none methods
    | some parent => exact ⟨rfl, h⟩
  | _ => exact ⟨rfl, h⟩

theorem fits_complete {frame : Frame} (hwant : frame.want = .completion)
    (h : Linked last frame.yield rest) : Fits last (complete ⟨control, rest, s⟩ frame) := by
  cases frame with
  | sequence | loopBody | leave => exact h
  | call n f made => exact fits_endingCall h n f made .nil
  | _ => cases hwant

theorem fits_resume (v : Value) {frame : Frame} (hwant : frame.want = .value)
    (h : Linked last frame.yield rest) : Fits last (resume g ⟨.value v, rest, s⟩ v frame) := by
  cases frame with
  | unary | binaryRight => exact fits_settling h _ _
  | binaryLeft op right => exact ⟨rfl, h⟩
  | logical op right =>
    unfold resume
    dsimp only
    split <;> exact h
  | assign target => exact fits_assigning h target v
  | callee paren arguments => exact fits_arguing h v paren #[] arguments
  | argument callee paren earlier arguments =>
    exact fits_arguing h callee paren (earlier.push v) arguments
  | get name =>
    cases v with
    | object o => exact fits_property h o name
    | _ => trivial
  | setObject name e =>
    cases v with
    | object o => exact ⟨rfl, h⟩
    | _ => trivial
  | setValue | discard | define | returnValue => exact h
  | print =>
    unfold resume printing
    dsimp only
    split
    · exact h
    · trivial
  | branch th el =>
    unfold resume
    dsimp only
    split <;> exact h
  | loopTest condition body =>
    unfold resume
    dsimp only
    split
    · exact ⟨rfl, h⟩
    · exact h
  | superclass name parent methods =>
    cases v with
    | «class» k => exact fits_declaringClass h name (some k) methods
    | _ => trivial
  | _ => cases hwant

end Fits

variable {last : Want} {g : Setting} {c : Config}

/-- **A step yields what the frames wait for.** -/
theorem Fits.step (h : Fits last c) (g : Setting) : Fits last (c.step g) := by
  obtain ⟨control, frames, s⟩ := c
  cases houtcome : (Config.mk control [] s).halted with
  | false =>
    cases control with
    | eval e => exact fits_eval h e
    | exec st => exact fits_exec h st
    | execAll body =>
      cases body with
      | nil => exact h
      | cons st body => exact ⟨rfl, h⟩
    | value | completed | returning | raising => cases houtcome
  | true =>
    cases frames with
    | nil =>
      rw [step_halted houtcome]
      exact h
    | cons frame rest =>
      rw [step_outcome houtcome]
      cases control with
      | eval | exec | execAll => cases houtcome
      | value v => exact fits_resume v h.1 h.2
      | completed => exact fits_complete h.1 h.2
      | returning v =>
        obtain ⟨hwant, hrest⟩ := h
        cases frame with
        | sequence | loopBody | leave => exact hrest
        | call n f made => exact fits_endingCall hrest n f made v
        | _ => cases hwant
      | raising d => cases frame <;> trivial

/-- **A run yields what the frames wait for.** -/
theorem Fits.run (h : Fits last c) (g : Setting) (n : Nat) : Fits last (run g n c) :=
  run_keeps (fun _ hc => hc.step g) h n

/-- What has ended has yielded what it was to yield, or has failed. -/
theorem Fits.outcome (h : Fits last c) (hhalted : c.halted = true) :
    (∃ d, c.control = .raising d)
      ∨ match last with
        | .value => ∃ v, c.control = .value v
        | .completion => c.control = .completed ∨ ∃ v, c.control = .returning v := by
  obtain ⟨control, frames, s⟩ := c
  obtain rfl : frames = [] := frames_of_halted hhalted
  cases control with
  | eval | exec | execAll => cases hhalted
  | value v =>
    obtain rfl : Want.value = last := h
    exact .inr ⟨v, rfl⟩
  | completed =>
    obtain rfl : Want.completion = last := h
    exact .inr (.inl rfl)
  | returning v =>
    obtain rfl : Want.completion = last := h
    exact .inr (.inr ⟨v, rfl⟩)
  | raising d => exact .inl ⟨d, rfl⟩

/-- An expression ends with a value or a failure. -/
theorem outcome_of_eval {e : Expr} {s : State} {k : Nat}
    (h : (Config.run g k ⟨.eval e, [], s⟩).halted = true) :
    (∃ d, (Config.run g k ⟨.eval e, [], s⟩).control = .raising d)
      ∨ ∃ v, (Config.run g k ⟨.eval e, [], s⟩).control = .value v := by
  have hstart : Fits .value ⟨.eval e, [], s⟩ := rfl
  exact (hstart.run g k).outcome h

/-- A statement is completed or left, or it fails. -/
theorem outcome_of_exec {st : Stmt} {s : State} {k : Nat}
    (h : (Config.run g k ⟨.exec st, [], s⟩).halted = true) :
    (∃ d, (Config.run g k ⟨.exec st, [], s⟩).control = .raising d)
      ∨ (Config.run g k ⟨.exec st, [], s⟩).control = .completed
      ∨ ∃ v, (Config.run g k ⟨.exec st, [], s⟩).control = .returning v := by
  have hstart : Fits .completion ⟨.exec st, [], s⟩ := rfl
  exact (hstart.run g k).outcome h

/-! ## §2. Statements that have been completed. -/

/-- **Statements are completed one after another**, from one state to another. -/
inductive Completes (g : Setting) : List Stmt → State → State → Prop
  | nil {s} : Completes g [] s s
  | cons {st rest s s' s'' k} (hfirst : Config.run g k ⟨.exec st, [], s⟩ = ⟨.completed, [], s'⟩)
      (hrest : Completes g rest s' s'') : Completes g (st :: rest) s s''

variable {ss : List Stmt} {s s' : State}

theorem Completes.widens (h : Completes g ss s s') : s.Widens (fun _ => True) s' := by
  induction h with
  | nil => exact .refl _ _
  | @cons st rest s s' s'' k hfirst hrest ih =>
    have hwidens := widens_run g k ⟨.exec st, [], s⟩
    rw [hfirst] at hwidens
    exact hwidens.trans ih

/-- Between statements a program is in one and the same scope. -/
theorem Completes.scope (h : Completes g ss s s') : s'.scope = s.scope := by
  induction h with
  | nil => rfl
  | @cons st rest s s' s'' k hfirst hrest ih =>
    have hhalted : (Config.run g k ⟨.exec st, [], s⟩).halted = true := by
      rw [hfirst]
      rfl
    have hscope := (run_restores hhalted).1
    rw [hfirst] at hscope
    exact ih.trans hscope

/-- The store has a trait after statements that have it. -/
theorem Completes.carries {K : Trait} (hK : K.Closed)
    (hbind : ∀ s own f, K.method own f → K.function (boundMethod s f)) (h : Completes g ss s s')
    (hcode : ∀ st ∈ ss, K.code (.stmt st)) (hs : K.OfState s) : K.OfState s' := by
  induction h with
  | nil => exact hs
  | @cons st rest s s' s'' k hfirst hrest ih =>
    have hstart : Carries K ⟨.exec st, [], s⟩ := by
      refine ⟨hcode st List.mem_cons_self, ?_, hs⟩
      intro f hf
      cases hf
    have hafter := (hstart.run hK hbind g k).state
    rw [hfirst] at hafter
    exact ih (fun st' hst' => hcode st' (List.mem_cons_of_mem st hst')) hafter

/-! ## §3. Declarations that have been completed. -/

theorem binds_define_self {s : State} (hlt : s.scope < s.scopes.nextId) (name : String)
    (v : Value) : ((s.define s.scope name v).scopes.bindings s.scope).binds name := by
  show (((s.scopes.define s.scope name v).bindings s.scope).get? name).isSome
  rw [Forest.get?_define _ _ _ _ hlt, if_pos ⟨rfl, rfl⟩]
  rfl

/-- A declaration that asks for no value declares its name in its first step. -/
theorem binds_step_declaration {st : Stmt} {t : Token} (ht : st.declared? = some t)
    (hvalue : ∀ e, st ≠ .var t (some e)) (hlt : s.scope < s.scopes.nextId) :
    (((Config.mk (.exec st) [] s).step g).state.scopes.bindings s.scope).binds t.lexeme := by
  have hdefine := binds_define_self hlt t.lexeme
  cases st with
  | var name initializer =>
    cases ht
    cases initializer with
    | none => exact hdefine .nil
    | some e => exact absurd rfl (hvalue e)
  | function decl =>
    cases ht
    exact hdefine _
  | «class» name superclass methods =>
    cases ht
    cases superclass with
    | none =>
      -- the name is declared before the class
      have hwidens : (s.define s.scope t.lexeme .nil).Widens (fun _ => True) (declaringClass
          ⟨.exec (.class t none methods), [], s.define s.scope t.lexeme .nil⟩ t none methods).state :=
        widens_declaringClass t none methods
      exact hwidens.binds (hdefine .nil)
    | some parent => exact hdefine .nil
  | _ => cases ht

/-- **A declaration that was completed has declared its name.** -/
theorem binds_of_completed {st : Stmt} {t : Token} {k : Nat}
    (h : Config.run g k ⟨.exec st, [], s⟩ = ⟨.completed, [], s'⟩) (ht : st.declared? = some t)
    (hlt : s.scope < s.scopes.nextId) : (s'.scopes.bindings s.scope).binds t.lexeme := by
  cases k with
  | zero => cases h
  | succ k =>
    rw [run_succ] at h
    by_cases hvalue : ∃ e, st = .var t (some e)
    · -- the initializer has to end before the variable is defined
      obtain ⟨e, rfl⟩ := hvalue
      change Config.run g k (onto ⟨.eval e, [], s⟩ [.define t]) = _ at h
      obtain ⟨j, hj, hhalted, honto⟩ := ended_of_onto (congrArg Config.frames h)
      obtain ⟨d, rfl⟩ := Nat.exists_eq_add_of_le hj
      obtain ⟨hscope, -⟩ := run_restores hhalted
      have hnext := (widens_run g j ⟨.eval e, [], s⟩).nextId
      have hframes := frames_of_halted hhalted
      have houtcome := outcome_of_eval hhalted
      rw [run_add, honto] at h
      generalize Config.run g j ⟨.eval e, [], s⟩ = c at h houtcome hframes hscope hnext
      obtain ⟨control, frames, s₁⟩ := c
      dsimp only at houtcome hframes hscope hnext
      subst hframes
      change Config.run g d ⟨control, [.define t], s₁⟩ = _ at h
      rcases houtcome with ⟨failure, rfl⟩ | ⟨v, rfl⟩
      · -- a failure does not complete the declaration
        obtain ⟨scope, depth, hraising⟩ := run_raising g failure [.define t] s₁ d
        rw [hraising] at h
        cases h
      · cases d with
        | zero => cases h
        | succ d =>
          have hdone : Config.run g d ⟨.completed, [], s₁.define s₁.scope t.lexeme v⟩
              = ⟨.completed, [], s'⟩ := by
            rw [run_succ] at h
            exact h
          rw [run_of_halted rfl] at hdone
          cases hdone
          have hlt₁ : s₁.scope < s₁.scopes.nextId := hscope ▸ Nat.lt_of_lt_of_le hlt hnext
          rw [← hscope]
          exact binds_define_self hlt₁ t.lexeme v
    · have hbinds := binds_step_declaration (g := g) ht (fun e he => hvalue ⟨e, he⟩) hlt
      have hlater := (widens_run g k ((Config.mk (.exec st) [] s).step g)).binds hbinds
      rw [h] at hlater
      exact hlater

/-- The names that completed statements have declared are bound. -/
theorem Completes.binds (h : Completes g ss s s') (hlt : s.scope < s.scopes.nextId) {st : Stmt}
    (hst : st ∈ ss) {t : Token} (ht : st.declared? = some t) :
    (s'.scopes.bindings s.scope).binds t.lexeme := by
  induction h with
  | nil => cases hst
  | @cons st' rest s s' s'' k hfirst hrest ih =>
    have hone : Completes g [st'] s s' := .cons hfirst .nil
    rcases List.mem_cons.mp hst with rfl | hst
    · exact hrest.widens.binds (binds_of_completed hfirst ht hlt)
    · have hlt' : s'.scope < s'.scopes.nextId := by
        rw [hone.scope]
        exact Nat.lt_of_lt_of_le hlt hone.widens.nextId
      rw [← hone.scope]
      exact ih hlt' hst

/-! ## §4. The phases of a run. -/

/-- A point of a run of statements: it is in the next statement, or between two
of them, or at the end. -/
inductive Phase (g : Setting) (rest : List Stmt) (s : State) : Config → Prop
  | between : Phase g rest s ⟨.execAll rest, [], s⟩
  | inside {st later k} (hrest : rest = st :: later)
      (hrunning : ∀ m < k, (Config.run g m ⟨.exec st, [], s⟩).halted = false) :
      Phase g rest s ((Config.run g k ⟨.exec st, [], s⟩).onto [.sequence later])
  | ended {c : Config} (h : c.halted = true) : Phase g rest s c

/-- **Every point of a run of statements** comes after some of them have been
completed, and lies in the next one or where none is being executed. -/
theorem exists_phase (g : Setting) (ss : List Stmt) (s : State) (n : Nat) :
    ∃ before rest s', ss = before ++ rest ∧ Completes g before s s'
      ∧ Phase g rest s' (Config.run g n ⟨.execAll ss, [], s⟩) := by
  -- along the statements, each of which takes some of the steps
  induction ss generalizing s n with
  | nil =>
    refine ⟨[], [], s, rfl, .nil, ?_⟩
    cases n with
    | zero => exact .between
    | succ n =>
      rw [run_succ, run_of_halted rfl]
      exact .ended rfl
  | cons st ss ih =>
    cases n with
    | zero => exact ⟨[], st :: ss, s, rfl, .nil, .between⟩
    | succ n =>
      rw [run_succ]
      show ∃ before rest s', _ ∧ _ ∧
        Phase g rest s' (Config.run g n (onto ⟨.exec st, [], s⟩ [.sequence ss]))
      by_cases hrunning : ∀ m < n, (Config.run g m ⟨.exec st, [], s⟩).halted = false
      · refine ⟨[], st :: ss, s, rfl, .nil, ?_⟩
        rw [run_onto hrunning]
        exact .inside rfl hrunning
      · have hended : ∃ m < n, (Config.run g m ⟨.exec st, [], s⟩).halted = true := by
          simpa using hrunning
        obtain ⟨m, hm, hhalted⟩ := hended
        obtain ⟨k, hk, hlast, honto⟩ := run_onto_of_halted hhalted
        rw [← hlast] at hhalted
        obtain ⟨d, rfl⟩ := Nat.exists_eq_add_of_lt (Nat.lt_of_le_of_lt hk hm)
        have hscope := frames_of_halted hhalted
        have houtcome := outcome_of_exec hhalted
        rw [Nat.add_assoc, run_add, honto]
        generalize hc : Config.run g k ⟨.exec st, [], s⟩ = c at houtcome hscope
        obtain ⟨control, frames, s₁⟩ := c
        dsimp only at houtcome hscope
        subst hscope
        show ∃ before rest s', _ ∧ _ ∧
          Phase g rest s' (Config.run g (d + 1) ⟨control, [.sequence ss], s₁⟩)
        rw [run_succ]
        rcases houtcome with ⟨failure, rfl⟩ | rfl | ⟨v, rfl⟩
        · refine ⟨[], st :: ss, s, rfl, .nil, .ended ?_⟩
          show (Config.run g d ⟨.raising failure, [], s₁⟩).halted = true
          rw [run_of_halted rfl]
          rfl
        · -- the statement was completed, and the others go on from there
          obtain ⟨before, rest, s', rfl, hbefore, hphase⟩ := ih s₁ d
          exact ⟨st :: before, rest, s', rfl, .cons hc hbefore, hphase⟩
        · refine ⟨[], st :: ss, s, rfl, .nil, .ended ?_⟩
          show (Config.run g d ⟨.returning v, [], s₁⟩).halted = true
          rw [run_of_halted rfl]
          rfl

end Config

end Lox
