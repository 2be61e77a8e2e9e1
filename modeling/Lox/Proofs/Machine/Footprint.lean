/-
  Lox.Proofs.Machine.Footprint
  ────────────────────────────
  **WHERE A PROGRAM CAN ADD NAMES.**

  A step changes the names of a scope in one way only: a declaration adds its
  name to the current scope.  Assignments go to variables that are there, and
  all other bindings come with a new scope (`widens_step`).

  Declarations are statements.  While an expression is evaluated, statements
  are executed in the bodies of the functions it calls and nowhere else, and a
  body starts in a scope of its own.  The frames say to which scope a program
  comes back, so "every statement that is still to be executed here runs in
  one of the scopes in `A`" can be read off a configuration (`Confined`), and
  every step keeps it.

  Main results:
    * `widens_run`: no run removes a name, a scope or an object.
    * `Confined.step`: what is confined stays confined.
    * `names_unchanged`: evaluating an expression leaves the names of all
      scopes as they are, and executing a statement adds names to the current
      scope at most.
-/
import Lox.Proofs.Machine.Origins
import Lox.Session

namespace Lox

open Lockstep

/-! ## §1. More names and objects. -/

/-- The names that a scope binds, the oldest first. -/
def State.names (s : State) (id : ScopeId) : List String :=
  (s.scopes.bindings id).names

namespace State

variable {A B : ScopeId → Prop} {s s' s'' : State}

/-- **A state has all that another one has**: its scopes with their names, and
its objects with their classes.  Only scopes in `A` have new names. -/
structure Widens (A : ScopeId → Prop) (s s' : State) : Prop where
  nextId : s.scopes.nextId ≤ s'.scopes.nextId
  names : ∀ id, s.names id <+: s'.names id
  same : ∀ id < s.scopes.nextId, ¬ A id → s'.names id = s.names id
  objects : ∀ (id : ObjectId) o, s.objects[id]? = some o →
    ∃ o', s'.objects[id]? = some o' ∧ o'.cls = o.cls

/-- Neither scopes nor objects have changed. -/
theorem Widens.of_eq (hscopes : s'.scopes = s.scopes) (hobjects : s'.objects = s.objects) :
    s.Widens A s' := by
  refine ⟨Nat.le_of_eq (congrArg Forest.nextId hscopes.symm), ?_, ?_, ?_⟩
  · intro id
    unfold State.names
    exact hscopes ▸ List.prefix_rfl
  · intro id _ _
    unfold State.names
    rw [hscopes]
  · intro id o ho
    exact ⟨o, hobjects ▸ ho, rfl⟩

theorem Widens.refl (A : ScopeId → Prop) (s : State) : s.Widens A s :=
  .of_eq rfl rfl

theorem Widens.trans (h : s.Widens A s') (h' : s'.Widens A s'') : s.Widens A s'' := by
  refine ⟨Nat.le_trans h.nextId h'.nextId, fun id => (h.names id).trans (h'.names id), ?_, ?_⟩
  · intro id hid hA
    exact (h'.same id (Nat.lt_of_lt_of_le hid h.nextId) hA).trans (h.same id hid hA)
  · intro id o ho
    obtain ⟨o', ho', hcls⟩ := h.objects id o ho
    obtain ⟨o'', ho'', hcls'⟩ := h'.objects id o' ho'
    exact ⟨o'', ho'', hcls'.trans hcls⟩

/-- A name that is bound stays bound. -/
theorem Widens.binds (h : s.Widens A s') {id : ScopeId} {name : String}
    (hbinds : (s.scopes.bindings id).binds name) : (s'.scopes.bindings id).binds name := by
  have hmem : name ∈ s.names id := (Bindings.mem_names _ name).mpr hbinds
  exact (Bindings.mem_names _ name).mp ((h.names id).subset hmem)

/-! ## §2. Changes of a state. -/

theorem widens_child (A : ScopeId → Prop) (s : State) (parent : ScopeId) (b : Bindings Value) :
    s.Widens A (s.child parent b) := by
  have hold : ∀ id < s.scopes.nextId, (s.child parent b).names id = s.names id := by
    intro id hid
    exact congrArg Bindings.names (Forest.bindings_child_of_lt s.scopes parent b hid)
  refine ⟨?_, ?_, fun id hid _ => hold id hid, fun id o ho => ⟨o, ho, rfl⟩⟩
  · exact Nat.le_of_lt (Forest.nextId_lt_child s.scopes parent b)
  · intro id
    by_cases hid : id < s.scopes.nextId
    · exact hold id hid ▸ List.prefix_rfl
    · -- a scope that does not exist has no names
      have hnone : s.names id = [] := congrArg Bindings.names (Forest.bindings_of_not_lt hid)
      rw [hnone]
      exact List.nil_prefix

/-- A variable gets a value: it is there already, or new names may come. -/
theorem widens_define {a : ScopeId} {name : String} (v : Value)
    (h : (s.scopes.bindings a).binds name ∨ A a) : s.Widens A (s.define a name v) := by
  -- only the scope `a` can have a new name, and only if it did not bind it
  have hnames : ∀ id, (s.define a name v).names id = s.names id
      ∨ id = a ∧ ¬ (s.scopes.bindings a).binds name
        ∧ (s.define a name v).names id = s.names id ++ [name] := by
    intro id
    show ((s.scopes.define a name v).bindings id).names = (s.scopes.bindings id).names
      ∨ _ ∧ _ ∧ ((s.scopes.define a name v).bindings id).names
        = (s.scopes.bindings id).names ++ [name]
    by_cases hid : id = a
    · subst hid
      by_cases hlt : id < s.scopes.nextId
      · rw [Forest.bindings_define_self _ _ _ _ hlt, Bindings.names_insert]
        by_cases hbinds : (s.scopes.bindings id).binds name
        · exact .inl (if_pos hbinds)
        · exact .inr ⟨rfl, hbinds, if_neg hbinds⟩
      · rw [Forest.bindings_of_not_lt hlt, Forest.bindings_of_not_lt]
        · exact .inl rfl
        · rw [Forest.nextId_define]
          exact hlt
    · rw [Forest.bindings_define_of_ne _ _ _ _ hid]
      exact .inl rfl
  refine ⟨Nat.le_of_eq (Forest.nextId_define s.scopes a name v).symm, ?_, ?_,
    fun id o ho => ⟨o, ho, rfl⟩⟩
  · intro id
    rcases hnames id with hsame | ⟨-, -, hmore⟩
    · exact hsame ▸ List.prefix_rfl
    · rw [hmore]
      exact List.prefix_append _ _
  · intro id _ hA
    rcases hnames id with hsame | ⟨rfl, hnot, -⟩
    · exact hsame
    · rcases h with hbinds | ha
      · exact absurd hbinds hnot
      · exact absurd ha hA

theorem widens_addObject (A : ScopeId → Prop) (s : State) (k : Class) :
    s.Widens A (s.addObject k) := by
  refine ⟨Nat.le_refl _, fun _ => List.prefix_rfl, fun _ _ _ => rfl, ?_⟩
  intro id o ho
  have hlt : id < s.objects.size := (Array.getElem?_eq_some_iff.mp ho).1
  refine ⟨o, ?_, rfl⟩
  show (s.objects.push ⟨k, []⟩)[id]? = some o
  rw [Array.getElem?_push, if_neg (Nat.ne_of_lt hlt)]
  exact ho

theorem widens_setField (A : ScopeId → Prop) (s : State) (id : ObjectId) (name : String)
    (v : Value) : s.Widens A (s.setField id name v) := by
  refine ⟨Nat.le_refl _, fun _ => List.prefix_rfl, fun _ _ _ => rfl, ?_⟩
  intro other o ho
  show ∃ o', (s.objects.modify id _)[other]? = some o' ∧ _
  rw [Array.getElem?_modify, ho]
  split
  · exact ⟨_, rfl, rfl⟩
  · exact ⟨o, rfl, rfl⟩

end State

/-! ## §3. What a step changes. -/

/-- The trait of what belongs to an expression: no statement waits. -/
def Trait.evaluating : Trait where
  code
    | .expr _ => True
    | .stmt _ => False
  function _ := True
  method _ _ := True

theorem Trait.evaluating_hereditary : Trait.evaluating.Hereditary := by
  intro whole part hpart hwhole
  cases hpart <;> trivial

/-- Values have the trait, since the bodies of functions do not count. -/
theorem Trait.evaluating_ofValue (v : Value) : Trait.evaluating.OfValue v := by
  cases v with
  | function f => trivial
  | «class» k => exact fun _ _ _ => trivial
  | _ => trivial

theorem Trait.evaluating_ofState (s : State) : Trait.evaluating.OfState s := by
  refine ⟨fun _ _ v _ => evaluating_ofValue v, ?_⟩
  intro _ o _
  exact ⟨fun _ _ _ => trivial, fun _ v _ => evaluating_ofValue v⟩

namespace Config

open State

variable {A : ScopeId → Prop} {g : Setting} {control : Control} {rest : List Frame} {s : State}

theorem widens_settling (line : Nat) (result : Except RuntimeFault Value) :
    s.Widens A (settling ⟨control, rest, s⟩ line result).state := by
  cases result <;> exact .refl A s

theorem widens_bind (A : ScopeId → Prop) (s : State) (f : Function) (id : ObjectId) :
    s.Widens A (bind s f id) :=
  (widens_child A s f.closure _).trans (.of_eq rfl rfl)

theorem widens_property (id : ObjectId) (name : Token) :
    s.Widens A (property ⟨control, rest, s⟩ id name).state := by
  unfold property
  dsimp only
  split
  · exact .refl A s
  · split
    · exact .refl A s
    · split
      · exact widens_bind A s _ id
      · exact .refl A s

theorem widens_superMethod (o : Occurrence) (name : Token) :
    s.Widens A (superMethod g ⟨control, rest, s⟩ o name).state := by
  unfold superMethod
  dsimp only
  split
  · exact .refl A s
  · split
    · exact .refl A s
    · split
      · exact .refl A s
      · split
        · exact widens_bind A s _ _
        · exact .refl A s

/-- Every form of assignment goes to a variable that is there. -/
theorem binds_of_assignmentTarget {o : Occurrence} {a : ScopeId}
    (h : assignmentTarget g s o = .ok a) : (s.scopes.bindings a).binds o.name.lexeme := by
  unfold assignmentTarget at h
  split at h
  · exact Forest.binds_of_targetAt h
  · exact Forest.binds_of_target h

theorem widens_assigning (o : Occurrence) (v : Value) :
    s.Widens A (assigning g ⟨control, rest, s⟩ o v).state := by
  unfold assigning
  dsimp only
  cases htarget : assignmentTarget g s o with
  | ok a => exact widens_define v (.inl (binds_of_assignmentTarget htarget))
  | error fault => exact .refl A s

theorem widens_entering (f : Function) (arguments : Array Value) (made : Option ObjectId) :
    s.Widens A (entering ⟨control, rest, s⟩ f arguments made).state :=
  (widens_child A s f.closure _).trans (.of_eq rfl rfl)

theorem widens_making (k : Class) (arguments : Array Value) :
    s.Widens A (making ⟨control, rest, s⟩ k arguments).state := by
  have hobject : s.Widens A (s.addObject k) := widens_addObject A s k
  unfold making
  dsimp only
  split
  · exact hobject
  · exact hobject.trans ((widens_bind A _ _ _).trans (widens_entering _ arguments _))

theorem widens_calling (callee : Value) (paren : Token) (arguments : Array Value) :
    s.Widens A (calling g ⟨control, rest, s⟩ callee paren arguments).state := by
  unfold calling
  split
  · exact .refl A s
  · -- a wrong number of arguments, too many calls in progress, or a call
    split
    · exact .refl A s
    · split
      · exact .refl A s
      · split
        · exact .of_eq rfl rfl
        · exact widens_entering _ arguments none
        · exact widens_making _ arguments

theorem widens_arguing (callee : Value) (paren : Token) (earlier : Array Value)
    (arguments : List Expr) :
    s.Widens A (arguing g ⟨control, rest, s⟩ callee paren earlier arguments).state := by
  cases arguments with
  | nil => exact widens_calling callee paren earlier
  | cons e arguments => exact .refl A s

theorem widens_endingCall (n : ScopeId) (f : Function) (made : Option ObjectId) (v : Value) :
    s.Widens A (endingCall ⟨control, rest, s⟩ n f made v).state := by
  unfold endingCall
  dsimp only
  split <;> exact .of_eq rfl rfl

/-- The name of a class is declared before its superclass is asked for, so the
class goes to a variable that is there. -/
theorem widens_declaringClass (name : Token) (parent : Option Class)
    (methods : List (FunctionDecl Stmt)) :
    s.Widens A (declaringClass ⟨control, rest, s⟩ name parent methods).state := by
  have hopen : s.Widens A (declaringState s parent methods) := by
    cases parent with
    | none => exact .of_eq rfl rfl
    | some k => exact (widens_child A s s.scope _).trans (.of_eq rfl rfl)
  cases htarget : (declaringState s parent methods).scopes.target
      (declaringState s parent methods).scope name.lexeme with
  | ok a =>
    rw [declaringClass_eq htarget]
    exact hopen.trans (widens_define _ (.inl (Forest.binds_of_target htarget)))
  | error fault =>
    rw [declaringClass_error htarget]
    exact hopen

theorem widens_eval (e : Expr) : s.Widens A (eval g ⟨control, rest, s⟩ e).state := by
  cases e with
  | «variable» o | this o => exact widens_settling _ _
  | super o method => exact widens_superMethod o method
  | _ => exact .refl A s

theorem widens_exec (hA : A s.scope) (st : Stmt) :
    s.Widens A (exec ⟨control, rest, s⟩ st).state := by
  have hdefine : ∀ name v, s.Widens A (s.define s.scope name v) :=
    fun name v => widens_define v (.inr hA)
  cases st with
  | var name initializer =>
    cases initializer with
    | none => exact hdefine name.lexeme .nil
    | some e => exact .refl A s
  | block body => exact (widens_child A s s.scope []).trans (.of_eq rfl rfl)
  | function decl =>
    have hidentity : s.Widens A (s.useIdentities 1) := .of_eq rfl rfl
    exact hidentity.trans (widens_define _ (.inr hA))
  | «return» keyword value => cases value <;> exact .refl A s
  | «class» name superclass methods =>
    have hname := hdefine name.lexeme .nil
    cases superclass with
    | none => exact hname.trans (widens_declaringClass name none methods)
    | some parent => exact hname
  | _ => exact .refl A s

theorem widens_complete (frame : Frame) : s.Widens A (complete ⟨control, rest, s⟩ frame).state := by
  cases frame with
  | leave n => exact .of_eq rfl rfl
  | call n f made => exact widens_endingCall n f made .nil
  | _ => exact .refl A s

theorem widens_resume (v : Value) {frame : Frame}
    (hA : Trait.evaluating.OfFrame frame ∨ A s.scope) :
    s.Widens A (resume g ⟨control, rest, s⟩ v frame).state := by
  cases frame with
  | unary | binaryRight => exact widens_settling _ _
  | logical op right =>
    unfold resume
    dsimp only
    split <;> exact .refl A s
  | assign target => exact widens_assigning target v
  | callee paren arguments => exact widens_arguing v paren #[] arguments
  | argument callee paren earlier arguments =>
    exact widens_arguing callee paren (earlier.push v) arguments
  | get name =>
    cases v with
    | object o => exact widens_property o name
    | _ => exact .refl A s
  | setObject name e => cases v <;> exact .refl A s
  | setValue object name => exact widens_setField A s object name.lexeme v
  | print =>
    unfold resume printing
    dsimp only
    split <;> exact .of_eq rfl rfl
  | define name =>
    -- the frame of a declaration is the one that needs `A`
    have hscope : A s.scope := by
      rcases hA with ⟨e, he⟩ | hscope
      · exact he.elim
      · exact hscope
    exact widens_define v (.inr hscope)
  | branch th el =>
    unfold resume
    dsimp only
    split <;> exact .refl A s
  | loopTest condition body =>
    unfold resume
    dsimp only
    split <;> exact .refl A s
  | superclass name parent methods =>
    cases v with
    | «class» k => exact widens_declaringClass name (some k) methods
    | _ => exact .refl A s
  | leave n => exact .of_eq rfl rfl
  | call n f made => exact widens_endingCall n f made .nil
  | _ => exact .refl A s

/-- What is done now and the innermost frame belong to an expression. -/
def Evaluating (c : Config) : Prop :=
  Trait.evaluating.OfControl c.control ∧ ∀ f ∈ c.frames.head?, Trait.evaluating.OfFrame f

/-- **A step changes the names of a scope by a declaration only**, and that of
the current scope. -/
theorem widens_step (g : Setting) {c : Config} (hA : c.Evaluating ∨ A c.state.scope) :
    c.state.Widens A (c.step g).state := by
  obtain ⟨control, frames, s⟩ := c
  cases houtcome : (Config.mk control [] s).halted with
  | false =>
    cases control with
    | eval e => exact widens_eval e
    | exec st => exact widens_exec (hA.resolve_left fun h => h.1) st
    | execAll body => cases body <;> exact .refl A s
    | value | completed | returning | raising => cases houtcome
  | true =>
    cases frames with
    | nil =>
      rw [step_halted houtcome]
      exact .refl A s
    | cons frame rest =>
      rw [step_outcome houtcome]
      cases control with
      | eval | exec | execAll => cases houtcome
      | value v => exact widens_resume v (hA.imp_left fun h => h.2 frame rfl)
      | completed => exact widens_complete frame
      | returning v =>
        cases frame with
        | leave n => exact .of_eq rfl rfl
        | call n f made => exact widens_endingCall n f made v
        | _ => exact .refl A s
      | raising d =>
        cases frame with
        | leave n => exact .of_eq rfl rfl
        | call n f made => exact .of_eq rfl rfl
        | _ => exact .refl A s

/-- **No run removes a name, a scope or an object.** -/
theorem widens_run (g : Setting) (n : Nat) (c : Config) :
    c.state.Widens (fun _ => True) (run g n c).state :=
  run_keeps (P := fun c' => c.state.Widens (fun _ => True) c'.state)
    (fun _ h => h.trans (widens_step g (.inr trivial))) (.refl _ _) n

end Config

/-! ## §4. Where declarations can be executed. -/

/-- Whatever frames still execute is executed in scopes in `A`, for a program
that is in scope `n`.  In its own scope a function may execute anything. -/
def Sheltered (A : ScopeId → Prop) : ScopeId → List Frame → Prop
  | _, [] => True
  | _, .leave m :: rest => Sheltered A m rest
  | _, .call m _ _ :: rest => Sheltered A m rest
  | n, frame :: rest => (Trait.evaluating.OfFrame frame ∨ A n) ∧ Sheltered A n rest

namespace Config

variable {A : ScopeId → Prop} {s₀ : State} {c c' : Config}

theorem sheltered_cons {frame : Frame} (h : ¬ Restores frame) (rest : List Frame) (n : ScopeId) :
    Sheltered A n (frame :: rest)
      ↔ (Trait.evaluating.OfFrame frame ∨ A n) ∧ Sheltered A n rest := by
  cases frame with
  | leave | call => exact absurd trivial h
  | _ => exact Iff.rfl

theorem sheltered_append {popped : List Frame} (h : ∀ f ∈ popped, ¬ Restores f)
    (rest : List Frame) (n : ScopeId) :
    Sheltered A n (popped ++ rest)
      ↔ (∀ f ∈ popped, Trait.evaluating.OfFrame f ∨ A n) ∧ Sheltered A n rest := by
  induction popped with
  | nil => simp
  | cons frame popped ih =>
    have hpopped : ∀ f ∈ popped, ¬ Restores f := fun f hf => h f (List.mem_cons_of_mem frame hf)
    rw [List.cons_append, sheltered_cons (h frame List.mem_cons_self), ih hpopped,
      List.forall_mem_cons, and_assoc]

/-- **All that is still to be executed** runs in scopes in `A`, and what has
been executed has added names to such scopes alone. -/
structure Confined (A : ScopeId → Prop) (s₀ : State) (c : Config) : Prop where
  widens : s₀.Widens A c.state
  control : Trait.evaluating.OfControl c.control ∨ A c.state.scope
  frames : Sheltered A c.state.scope c.frames

/-- **A move keeps the shelter**, if what it starts in the current scope may be
executed there.  New scopes are in `A`. -/
theorem Moves.sheltered {K : Trait} (hmove : Moves K c c')
    (hnew : ∀ n, c.state.scopes.nextId ≤ n → A n)
    (hcontrol : ∀ control, K.OfControl control →
      Trait.evaluating.OfControl control ∨ A c.state.scope)
    (hframe : ∀ f, K.OfFrame f → Trait.evaluating.OfFrame f ∨ A c.state.scope)
    (h : Sheltered A c.state.scope c.frames) :
    (Trait.evaluating.OfControl c'.control ∨ A c'.state.scope)
      ∧ Sheltered A c'.state.scope c'.frames := by
  cases hmove with
  | on hpopped hadded hscope _ _ hcontrol' hframes =>
    have hadded' : ∀ f ∈ _, ¬ Restores f := fun f hf => (hadded f hf).not_restores
    dsimp only at hcontrol hframe h ⊢
    rw [hscope]
    refine ⟨hcontrol _ hcontrol', (sheltered_append hadded' _ _).mpr ⟨?_, ?_⟩⟩
    · exact fun f hf => hframe f (hframes f hf)
    · exact ((sheltered_append hpopped _ _).mp h).2
  | function => exact ⟨.inl trivial, h⟩
  | bind hpopped => exact ⟨.inl trivial, ((sheltered_append hpopped _ _).mp h).2⟩
  | call hpopped =>
    -- the body runs in the new scope
    exact ⟨.inr (hnew _ (Nat.le_refl _)), ((sheltered_append hpopped _ _).mp h).2⟩
  | @make control popped rest s k f arguments hpopped =>
    refine ⟨.inr (hnew _ ?_), ((sheltered_append hpopped _ _).mp h).2⟩
    exact Nat.le_of_lt (Forest.nextId_lt_child s.scopes f.closure _)
  | @plain name methods rest s =>
    obtain ⟨control', s', heq, hcontrol', hscope, -⟩ := declaringClass_outcome
      (.exec (.class name none methods)) rest (s.define s.scope name.lexeme .nil) name none methods
    rw [heq]
    dsimp only
    rw [hscope]
    refine ⟨.inl ?_, h⟩
    rcases hcontrol' with rfl | ⟨d, rfl⟩ <;> trivial
  | @parent name o methods rest s hcode =>
    exact ⟨.inl trivial, hframe (.superclass name o methods) hcode, h⟩
  | @derived k name o methods rest s =>
    obtain ⟨control', s', heq, hcontrol', hscope, -⟩ := declaringClass_outcome
      (.value (.class k)) rest s name (some k) methods
    rw [heq]
    dsimp only
    rw [hscope]
    refine ⟨.inl ?_, h.2⟩
    rcases hcontrol' with rfl | ⟨d, rfl⟩ <;> trivial
  | block => exact ⟨.inr (hnew _ (Nat.le_refl _)), h⟩
  | leave hleaves =>
    refine ⟨.inl ?_, h⟩
    cases hleaves with
    | value | completed | raising => trivial
    | returning => exact Trait.evaluating_ofValue _
  | ended houtcome =>
    refine ⟨.inl ?_, h⟩
    rcases houtcome with ⟨v, rfl, -⟩ | ⟨d, rfl⟩
    · exact Trait.evaluating_ofValue v
    · trivial

/-- **A step keeps what is confined.** -/
theorem Confined.step (h : Confined A s₀ c) (hnew : ∀ n, s₀.scopes.nextId ≤ n → A n)
    (g : Setting) : Confined A s₀ (c.step g) := by
  have hlater : ∀ n, c.state.scopes.nextId ≤ n → A n :=
    fun n hn => hnew n (Nat.le_trans h.widens.nextId hn)
  by_cases hA : A c.state.scope
  · -- anything may be executed here
    obtain ⟨hcontrol, hframes⟩ := (moves_any g c).sheltered hlater (fun _ _ => .inr hA)
      (fun _ _ => .inr hA) h.frames
    exact ⟨h.widens.trans (widens_step g (.inr hA)), hcontrol, hframes⟩
  · -- an expression is evaluated, and it starts nothing else in this scope
    have hcontrol : Trait.evaluating.OfControl c.control := h.control.resolve_right hA
    have hhead : ∀ f ∈ c.frames.head?, Trait.evaluating.OfFrame f := by
      intro f hf
      obtain ⟨rest, hrest⟩ := List.head?_eq_some_iff.mp hf
      have hsheltered := h.frames
      rw [hrest] at hsheltered
      cases f with
      | leave | call => trivial
      | _ => exact hsheltered.1.resolve_right hA
    have hmove := moves_step Trait.evaluating_hereditary g hcontrol hhead
      (Trait.evaluating_ofState c.state)
    obtain ⟨hcontrol', hframes⟩ := hmove.sheltered hlater (fun _ hc => .inl hc)
      (fun _ hf => .inl hf) h.frames
    exact ⟨h.widens.trans (widens_step g (.inl ⟨hcontrol, hhead⟩)), hcontrol', hframes⟩

theorem Confined.run (h : Confined A s₀ c) (hnew : ∀ n, s₀.scopes.nextId ≤ n → A n) (g : Setting)
    (n : Nat) : Confined A s₀ (run g n c) :=
  run_keeps (fun _ hc => hc.step hnew g) h n

/-! ## §5. Expressions and statements. -/

variable {g : Setting} {s : State} {k : Nat}

/-- Inside other frames a program is in the same state as alone, until it has
ended. -/
theorem state_run_inside {control : Control}
    (h : ∀ m < k, (Config.run g m ⟨control, [], s⟩).halted = false) (below : List Frame) :
    (Config.run g k ⟨control, below, s⟩).state = (Config.run g k ⟨control, [], s⟩).state := by
  have honto := run_onto h below
  rw [show (Config.mk control [] s).onto below = ⟨control, below, s⟩ from rfl] at honto
  rw [honto]
  rfl

/-- An expression executes statements in new scopes only. -/
theorem confined_eval (g : Setting) (e : Expr) (s : State) (k : Nat) :
    Confined (s.scopes.nextId ≤ ·) s (Config.run g k ⟨.eval e, [], s⟩) := by
  have hstart : Confined (s.scopes.nextId ≤ ·) s ⟨.eval e, [], s⟩ :=
    ⟨.refl _ s, .inl trivial, trivial⟩
  exact hstart.run (fun _ hn => hn) g k

/-- A statement is executed in its own scope, and starts others in new scopes
only. -/
theorem confined_exec (g : Setting) (st : Stmt) (s : State) (k : Nat) :
    Confined (fun n => s.scopes.nextId ≤ n ∨ n = s.scope) s
      (Config.run g k ⟨.exec st, [], s⟩) := by
  have hstart : Confined (fun n => s.scopes.nextId ≤ n ∨ n = s.scope) s ⟨.exec st, [], s⟩ :=
    ⟨.refl _ s, .inr (.inr rfl), trivial⟩
  exact hstart.run (fun _ hn => .inl hn) g k

/-- **Expressions never create or remove variables.**  Take any code, any
distances, any state and any frames around.  As long as the evaluation of an
expression has not been over before, and so also at its end, with a value or a
failure, each scope that was there at its start binds the same names as then,
whatever the calls that it makes have executed.  The execution of a statement
leaves the names of all these scopes as they are, except that the scope it
starts in may have more of them. -/
theorem names_unchanged (g : Setting) (below : List Frame) (s : State) (k : Nat) :
    (∀ e : Expr, (∀ m < k, (Config.run g m ⟨.eval e, [], s⟩).halted = false) →
      ∀ id < s.scopes.nextId,
        (Config.run g k ⟨.eval e, below, s⟩).state.names id = s.names id)
    ∧ ∀ st : Stmt, (∀ m < k, (Config.run g m ⟨.exec st, [], s⟩).halted = false) →
      (∀ id < s.scopes.nextId, id ≠ s.scope →
        (Config.run g k ⟨.exec st, below, s⟩).state.names id = s.names id)
      ∧ s.names s.scope <+: (Config.run g k ⟨.exec st, below, s⟩).state.names s.scope := by
  refine ⟨?_, ?_⟩
  · intro e hrunning id hid
    rw [state_run_inside hrunning below]
    exact (confined_eval g e s k).widens.same id hid (Nat.not_le_of_lt hid)
  · intro st hrunning
    rw [state_run_inside hrunning below]
    have hwidens := (confined_exec g st s k).widens
    refine ⟨?_, hwidens.names s.scope⟩
    intro id hid hne
    apply hwidens.same id hid
    rintro (hle | heq)
    · exact Nat.not_le_of_lt hid hle
    · exact hne heq

/-- A failing call that has declared variables and assigned to them in its own
scope, and a declaration at the top level. -/
theorem names_unchanged_call :
    let source := "var a; fun f(b) \x7b var c; a = true; class K \x7b\x7d return -nil; \x7d"
    let m := ((Session.new none).run 60 (.still 0) source).1.machine
    let f : Occurrence := ⟨0, ⟨.identifier, "f", 1⟩⟩
    let call : Expr := .call (.variable f) ⟨.rightParen, ")", 1⟩ [.literal (.bool true)]
    let failing := Config.run ⟨m.distances, .still 0, none⟩ 26 ⟨.eval call, [.discard], m.state⟩
    let d : Stmt := .var ⟨.identifier, "d", 1⟩ (some (.literal .nil))
    let declaring := Config.run ⟨m.distances, .still 0, none⟩ 3 ⟨.exec d, [.discard], m.state⟩
    (∃ d, failing.control = .raising d) ∧ failing.state.names 1 = ["b", "c", "K"]
      ∧ failing.state.names globalScope = ["clock", "a", "f"]
      ∧ ["clock", "a", "f"] <+: declaring.state.names globalScope := by
  intro source m f call failing d declaring
  have hnames : m.state.names globalScope = ["clock", "a", "f"] := by decide +kernel
  have hexists : globalScope < m.state.scopes.nextId := by decide +kernel
  obtain ⟨heval, -⟩ := names_unchanged ⟨m.distances, .still 0, none⟩ [.discard] m.state 26
  obtain ⟨-, hexec⟩ := names_unchanged ⟨m.distances, .still 0, none⟩ [.discard] m.state 3
  have hsame := heval call (by decide +kernel) globalScope hexists
  obtain ⟨-, hmore⟩ := hexec d (by decide +kernel)
  refine ⟨?_, by decide +kernel, hsame.trans hnames, ?_⟩
  · have hraising : (match failing.control with | .raising _ => true | _ => false) = true := by
      decide +kernel
    generalize failing.control = control at hraising
    cases control with
    | raising d => exact ⟨d, rfl⟩
    | _ => cases hraising
  · have hglobal : m.state.scope = globalScope := by decide +kernel
    rw [← hnames, ← hglobal]
    exact hmore

end Config

end Lox
