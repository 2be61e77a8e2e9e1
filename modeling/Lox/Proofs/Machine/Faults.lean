/-
  Lox.Proofs.Machine.Faults
  ─────────────────────────
  **WHAT A RUNNING PROGRAM FAILS WITH.**

  A running program raises failures in two ways only: an operation fails on a line, or a
  line that is printed does not fit.  On its way through the frames a failure stays what
  it is.  So whatever a program does, and in whatever state it starts, it never raises a
  failure that belongs to an earlier stage (`Dynamic.run`).
-/
import Lox.Proofs.Machine.Sequence

namespace Lox

theorem Diagnostic.isStatic_eq_false_iff {d : Diagnostic} :
    d.isStatic = false ↔ (∃ line fault, d = .runtime line fault) ∨ d = .outputFull := by
  cases d with
  | lexical | syntactic | scoping => simp [isStatic]
  | runtime line fault => exact iff_of_true rfl (.inl ⟨line, fault, rfl⟩)
  | outputFull => exact iff_of_true rfl (.inr rfl)

namespace Config

/-- A failure that is raised is one of the running program. -/
def Dynamic (c : Config) : Prop :=
  match c.control with
  | .raising d => d.isStatic = false
  | .eval _ | .exec _ | .execAll _ | .value _ | .completed | .returning _ => True

/-! ## §1. Operations. -/

section Operations

variable (g : Setting) (c : Config)

theorem dynamic_settling (line : Nat) (result : Except RuntimeFault Value) :
    (c.settling line result).Dynamic := by
  cases result with
  | ok v => exact trivial
  | error fault => exact rfl

theorem dynamic_property (id : ObjectId) (name : Token) : (c.property id name).Dynamic := by
  unfold property
  split
  · exact rfl
  · split
    · exact trivial
    · split
      · exact trivial
      · exact rfl

theorem dynamic_superMethod (o : Occurrence) (name : Token) : (superMethod g c o name).Dynamic := by
  unfold superMethod
  split
  · exact rfl
  · split
    · exact rfl
    · split
      · exact rfl
      · split
        · exact trivial
        · exact rfl

theorem dynamic_assigning (o : Occurrence) (v : Value) : (assigning g c o v).Dynamic := by
  unfold assigning
  split
  · exact trivial
  · exact rfl

theorem dynamic_making (k : Class) (arguments : Array Value) : (c.making k arguments).Dynamic := by
  unfold making
  dsimp only
  split <;> exact trivial

theorem dynamic_calling (callee : Value) (paren : Token) (arguments : Array Value) :
    (calling g c callee paren arguments).Dynamic := by
  unfold calling
  split
  · exact rfl
  · split
    · exact rfl
    · split
      · exact rfl
      · split
        · exact trivial
        · exact trivial
        · exact dynamic_making c _ arguments

theorem dynamic_arguing (callee : Value) (paren : Token) (earlier : Array Value)
    (arguments : List Expr) : (arguing g c callee paren earlier arguments).Dynamic := by
  cases arguments with
  | nil => exact dynamic_calling g c callee paren earlier
  | cons e rest => exact trivial

theorem dynamic_endingCall (scope : ScopeId) (f : Function) (made : Option ObjectId) (v : Value) :
    (c.endingCall scope f made v).Dynamic := by
  unfold endingCall
  dsimp only
  split
  · exact rfl
  · exact trivial
  · exact trivial

theorem dynamic_declaringClass (name : Token) (parent : Option Class)
    (methods : List (FunctionDecl Stmt)) : (c.declaringClass name parent methods).Dynamic := by
  unfold declaringClass
  dsimp only
  split
  · exact trivial
  · exact rfl

/-- A line that does not fit is a failure of the running program. -/
theorem dynamic_printing (v : Value) : (c.printing v).Dynamic := by
  unfold printing
  dsimp only
  split
  · exact trivial
  · exact rfl

end Operations

/-! ## §2. Steps. -/

section Steps

variable (g : Setting) (c : Config)

theorem dynamic_eval (e : Expr) : (eval g c e).Dynamic := by
  cases e with
  | «variable» o | this o => exact dynamic_settling c _ _
  | super o method => exact dynamic_superMethod g c o method
  | _ => exact trivial

theorem dynamic_exec (st : Stmt) : (c.exec st).Dynamic := by
  cases st with
  | var name initializer => cases initializer <;> exact trivial
  | «return» keyword value => cases value <;> exact trivial
  | «class» name superclass methods =>
    cases superclass with
    | none => exact dynamic_declaringClass _ name none methods
    | some parent => exact trivial
  | _ => exact trivial

theorem dynamic_execAll (body : List Stmt) : (c.execAll body).Dynamic := by
  cases body <;> exact trivial

theorem dynamic_complete (frame : Frame) : (c.complete frame).Dynamic := by
  cases frame with
  | call scope f made => exact dynamic_endingCall c scope f made .nil
  | _ => exact trivial

theorem dynamic_resume (v : Value) (frame : Frame) : (resume g c v frame).Dynamic := by
  cases frame with
  | unary | binaryRight => exact dynamic_settling c _ _
  | logical operator right =>
    unfold resume
    dsimp only
    split <;> exact trivial
  | assign target => exact dynamic_assigning g c target v
  | callee paren arguments => exact dynamic_arguing g c v paren #[] arguments
  | argument callee paren earlier rest => exact dynamic_arguing g c callee paren _ rest
  | get name =>
    cases v with
    | object id => exact dynamic_property c id name
    | _ => exact rfl
  | setObject name value =>
    cases v with
    | object id => exact trivial
    | _ => exact rfl
  | print => exact dynamic_printing c v
  | branch thenBranch elseBranch =>
    unfold resume
    dsimp only
    split <;> exact trivial
  | loopTest condition body =>
    unfold resume
    dsimp only
    split <;> exact trivial
  | superclass name parent methods =>
    cases v with
    | «class» k => exact dynamic_declaringClass c name (some k) methods
    | _ => exact rfl
  | call scope f made => exact dynamic_endingCall c scope f made .nil
  | _ => exact trivial

variable {c}

/-- A frame that gets a failure hands it on. -/
theorem Dynamic.settleFrame (h : c.Dynamic) (frame : Frame) : (settleFrame g c frame).Dynamic := by
  obtain ⟨control, frames, s⟩ := c
  cases control with
  | value v => exact dynamic_resume g _ v frame
  | completed => exact dynamic_complete _ frame
  | returning v =>
    cases frame with
    | call scope f made => exact dynamic_endingCall _ scope f made v
    | _ => exact h
  | raising d => cases frame <;> exact h
  | _ => exact h

/-- **A step raises only failures of the running program.** -/
theorem Dynamic.step (h : c.Dynamic) : (c.step g).Dynamic := by
  obtain ⟨control, frames, s⟩ := c
  cases control with
  | eval e => exact dynamic_eval g _ e
  | exec st => exact dynamic_exec _ st
  | execAll body => exact dynamic_execAll _ body
  | value | completed | returning | raising =>
    cases frames with
    | nil => exact h
    | cons frame rest => exact Dynamic.settleFrame g (c := ⟨_, rest, s⟩) h frame

end Steps

/-! ## §3. Runs. -/

variable {g : Setting} {c : Config}

theorem Dynamic.run (h : c.Dynamic) (n : Nat) : (run g n c).Dynamic :=
  run_keeps (fun _ hc => hc.step g) h n

/-- What has failed has failed while it ran. -/
theorem Dynamic.isStatic (h : c.Dynamic) {d : Diagnostic} (hd : c.ending = .failed d) :
    d.isStatic = false := by
  obtain ⟨control, frames, s⟩ := c
  unfold ending at hd
  dsimp only at hd
  split at hd
  · cases hd
  · cases hd
  · cases hd
    exact h
  · cases hd

/-- **A program fails only in ways in which running programs fail**, whatever state it
starts in. -/
theorem isStatic_of_execAll {body : List Stmt} {s : State} {n : Nat} {d : Diagnostic}
    (h : (run g n ⟨.execAll body, [], s⟩).ending = .failed d) : d.isStatic = false := by
  have hstart : Dynamic ⟨.execAll body, [], s⟩ := trivial
  exact (hstart.run n).isStatic h

end Config

end Lox
