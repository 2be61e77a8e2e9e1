/-
  Lox.Proofs.Machine.Moves
  ────────────────────────
  **WHAT A STEP CAN DO.**

  A step goes on in the same scope and the same call, or it is one of a few
  that do not: it makes a function, binds a method, begins a call, declares a
  class, enters a block, leaves one, or ends a call.  `Moves` lists them with
  all that later proofs ask about a step.

  Code and values only travel.  What comes up next is part of the code that
  was there, and its values are values that were there, unless the step is one
  of those that make new ones.  A `Trait` is a property of code, functions and
  methods that survives this; `moves_step` is the one case analysis of the
  step function that all invariants of one program are read off from.
-/
import Lox.Proofs.Machine.Steps
import Lox.Proofs.Machine.Values
import Lox.Proofs.Syntax.Parts

namespace Lox

open Lockstep

/-! ## §1. Traits. -/

/-- A property of code, of functions, and of the methods of classes under their
names. -/
structure Trait where
  code : Code → Prop
  function : Function → Prop
  method : String → Function → Prop

namespace Trait

variable (K : Trait)

/-- The parts of code that has the trait have it too. -/
def Hereditary : Prop :=
  ∀ {whole part}, Code.Part whole part → K.code whole → K.code part

/-- All methods of a class have the trait, inherited ones too. -/
def OfClass (k : Class) : Prop :=
  ∀ name f, k.method? name = some f → K.method name f

/-- A function or a class has the trait. -/
def OfValue : Value → Prop
  | .function f => K.function f
  | .class k => K.OfClass k
  | _ => True

/-- Some code with the trait declares a name or assigns to it. -/
def Names (name : String) : Prop :=
  (∃ s t, K.code (.stmt s) ∧ s.declared? = some t ∧ t.lexeme = name)
    ∨ ∃ o e, K.code (.expr (.assign o e)) ∧ o.name.lexeme = name

/-- The code that a frame comes from and the values it holds have the trait;
the frame of a call only ends it. -/
def OfFrame : Frame → Prop
  | .binaryLeft _ right => K.code (.expr right)
  | .binaryRight left _ => K.OfValue left
  | .logical _ right => K.code (.expr right)
  | .assign o => ∃ e, K.code (.expr (.assign o e))
  | .callee _ arguments => ∀ e ∈ arguments, K.code (.expr e)
  | .argument callee _ earlier rest =>
      K.OfValue callee ∧ (∀ v ∈ earlier.toList, K.OfValue v) ∧ ∀ e ∈ rest, K.code (.expr e)
  | .setObject _ e => K.code (.expr e)
  | .define name => ∃ e, K.code (.stmt (.var name e))
  | .branch th el => K.code (.stmt th) ∧ ∀ s ∈ el, K.code (.stmt s)
  | .loopTest condition body => K.code (.stmt (.while condition body))
  | .loopBody condition body => K.code (.stmt (.while condition body))
  | .superclass name parent methods => K.code (.stmt (.class name (some parent) methods))
  | .sequence rest => ∀ s ∈ rest, K.code (.stmt s)
  | _ => True

/-- What is being done has the trait. -/
def OfControl : Control → Prop
  | .eval e => K.code (.expr e)
  | .exec s => K.code (.stmt s)
  | .execAll body => ∀ s ∈ body, K.code (.stmt s)
  | .value v => K.OfValue v
  | .returning v => K.OfValue v
  | _ => True

/-- All values in store have the trait. -/
structure OfState (s : State) : Prop where
  scopes : ∀ id name v, (s.scopes.bindings id).get? name = some v → K.OfValue v
  objects : ∀ (id : ObjectId) o, s.objects[id]? = some o →
    K.OfClass o.cls ∧ ∀ name v, o.fields.get? name = some v → K.OfValue v

/-- Whatever has a trait has another one. -/
structure Implies (K K' : Trait) : Prop where
  code : ∀ c, K.code c → K'.code c
  function : ∀ f, K.function f → K'.function f
  method : ∀ name f, K.method name f → K'.method name f

variable {K} {s : State}

section Implies

variable {K' : Trait}

theorem OfClass.imp (hK : K.Implies K') {k : Class} (h : K.OfClass k) : K'.OfClass k :=
  fun name f hf => hK.method name f (h name f hf)

theorem OfValue.imp (hK : K.Implies K') {v : Value} (h : K.OfValue v) : K'.OfValue v := by
  cases v with
  | function f => exact hK.function f h
  | «class» k => exact OfClass.imp hK h
  | _ => trivial

theorem OfFrame.imp (hK : K.Implies K') {frame : Frame} (h : K.OfFrame frame) :
    K'.OfFrame frame := by
  cases frame with
  | binaryLeft | logical | setObject | loopTest | loopBody | superclass => exact hK.code _ h
  | binaryRight => exact OfValue.imp hK h
  | assign | define =>
    obtain ⟨e, he⟩ := h
    exact ⟨e, hK.code _ he⟩
  | callee => exact fun e he => hK.code _ (h e he)
  | argument =>
    obtain ⟨hcallee, hearlier, hrest⟩ := h
    exact ⟨OfValue.imp hK hcallee, fun v hv => OfValue.imp hK (hearlier v hv),
      fun e he => hK.code _ (hrest e he)⟩
  | branch => exact ⟨hK.code _ h.1, fun s hs => hK.code _ (h.2 s hs)⟩
  | sequence => exact fun s hs => hK.code _ (h s hs)
  | _ => trivial

theorem OfControl.imp (hK : K.Implies K') {control : Control} (h : K.OfControl control) :
    K'.OfControl control := by
  cases control with
  | eval | exec => exact hK.code _ h
  | execAll => exact fun s hs => hK.code _ (h s hs)
  | value | returning => exact OfValue.imp hK h
  | _ => trivial

theorem OfState.imp (hK : K.Implies K') (h : K.OfState s) : K'.OfState s := by
  refine ⟨fun id name v hv => OfValue.imp hK (h.scopes id name v hv), ?_⟩
  intro id o ho
  obtain ⟨hcls, hfields⟩ := h.objects id o ho
  exact ⟨OfClass.imp hK hcls, fun name v hv => OfValue.imp hK (hfields name v hv)⟩

end Implies

/-- Values that hold no code have every trait. -/
theorem ofValue_plain {v : Value} (h : v.Plain) : K.OfValue v := by
  cases v with
  | function | «class» => exact h.elim
  | _ => trivial

/-- A store has a trait if all values that it holds have it. -/
theorem ofState_iff : K.OfState s ↔ ∀ v, s.Holds v → K.OfValue v := by
  constructor
  · intro h v hv
    cases hv with
    | «variable» hv => exact h.scopes _ _ v hv
    | field ho hv => exact (h.objects _ _ ho).2 _ v hv
    | cls ho => exact (h.objects _ _ ho).1
  · intro h
    refine ⟨fun id name v hv => h v (.variable hv), ?_⟩
    exact fun id o ho => ⟨h _ (.cls ho), fun name v hv => h v (.field ho hv)⟩

theorem OfState.holds (h : K.OfState s) {v : Value} (hv : s.Holds v) : K.OfValue v :=
  ofState_iff.mp h v hv

/-- A variable gets a value. -/
theorem OfState.define (h : K.OfState s) (id : ScopeId) (name : String) {v : Value}
    (hv : K.OfValue v) : K.OfState (s.define id name v) := by
  refine ofState_iff.mpr fun u hu => ?_
  rcases State.holds_define hu with rfl | hold
  · exact hv
  · exact h.holds hold

/-- A new scope with some variables. -/
theorem OfState.child (h : K.OfState s) (parent : ScopeId) {b : Bindings Value}
    (hb : ∀ name v, b.get? name = some v → K.OfValue v) : K.OfState (s.child parent b) := by
  refine ofState_iff.mpr fun u hu => ?_
  rcases State.holds_child hu with ⟨name, hget⟩ | hold
  · exact hb name u hget
  · exact h.holds hold

theorem OfState.bind (h : K.OfState s) (f : Function) (id : ObjectId) :
    K.OfState (Config.bind s f id) := by
  refine ofState_iff.mpr fun u hu => ?_
  rcases State.holds_bind hu with rfl | hold
  · trivial
  · exact h.holds hold

theorem OfState.addObject (h : K.OfState s) {k : Class} (hk : K.OfClass k) :
    K.OfState (s.addObject k) := by
  refine ofState_iff.mpr fun u hu => ?_
  rcases State.holds_addObject hu with rfl | hold
  · exact hk
  · exact h.holds hold

theorem OfState.setField (h : K.OfState s) (id : ObjectId) (name : String) {v : Value}
    (hv : K.OfValue v) : K.OfState (s.setField id name v) := by
  refine ofState_iff.mpr fun u hu => ?_
  rcases State.holds_setField hu with rfl | hold
  · exact hv
  · exact h.holds hold

/-- A function is entered with its arguments. -/
theorem OfState.entering (h : K.OfState s) (control : Control) (rest : List Frame) (f : Function)
    {arguments : Array Value} (harguments : ∀ v ∈ arguments.toList, K.OfValue v)
    (made : Option ObjectId) :
    K.OfState (Config.entering ⟨control, rest, s⟩ f arguments made).state := by
  have hvalues : ∀ name v,
      (Config.parameters f.decl.params arguments.toList).get? name = some v → K.OfValue v :=
    fun _ v hv => harguments v (Config.mem_of_get?_parameters _ _ hv)
  exact ⟨(h.child f.closure hvalues).scopes, h.objects⟩

end Trait

/-! ## §2. Moves. -/

/-- A frame that waits in the same scope and the same call as what is done
inside it, and not for the superclass of a class. -/
def Frame.Local : Frame → Prop
  | .leave _ | .call _ _ _ | .superclass _ _ _ => False
  | _ => True

theorem Frame.Local.not_restores {f : Frame} (h : f.Local) : ¬ Restores f := by
  cases f with
  | leave | call | superclass => exact h.elim
  | _ => exact id

/-- What an outcome becomes when it leaves a block: the value of a statement is
not used. -/
inductive Control.Leaves : Control → Control → Prop
  | value {v} : Leaves (.value v) .completed
  | completed : Leaves .completed .completed
  | returning {v} : Leaves (.returning v) (.returning v)
  | raising {d} : Leaves (.raising d) (.raising d)

namespace Config

/-- **The kinds of steps** of a program whose code and values have a trait. -/
inductive Moves (K : Trait) : Config → Config → Prop
  /-- Go on in the same scope and the same call; at most one variable changes. -/
  | on {control control' popped added rest s s'} (hpopped : ∀ f ∈ popped, ¬ Restores f)
      (hadded : ∀ f ∈ added, f.Local) (hscope : s'.scope = s.scope) (hdepth : s'.depth = s.depth)
      (hscopes : s'.scopes = s.scopes
        ∨ ∃ a name v, s'.scopes = s.scopes.define a name v ∧ K.Names name)
      (hcontrol : K.OfControl control') (hframes : ∀ f ∈ added, K.OfFrame f)
      (hstate : K.OfState s') :
      Moves K ⟨control, popped ++ rest, s⟩ ⟨control', added ++ rest, s'⟩
  /-- A function is declared. -/
  | function {decl rest s} (hcode : K.code (.stmt (.function decl))) :
      Moves K ⟨.exec (.function decl), rest, s⟩
        ⟨.completed, rest, (s.useIdentities 1).define s.scope decl.name.lexeme
          (.function ⟨s.nextIdentity, decl, s.scope, false⟩)⟩
  /-- A method is bound to an object. -/
  | bind {control popped rest s name f id} (hpopped : ∀ f ∈ popped, ¬ Restores f)
      (hf : K.method name f) :
      Moves K ⟨control, popped ++ rest, s⟩ (yieldingMethod ⟨control, rest, s⟩ f id)
  /-- A function is called. -/
  | call {control popped rest s f arguments} (hpopped : ∀ f ∈ popped, ¬ Restores f)
      (hf : K.function f) (harguments : ∀ v ∈ arguments.toList, K.OfValue v) :
      Moves K ⟨control, popped ++ rest, s⟩ (entering ⟨control, rest, s⟩ f arguments none)
  /-- A class is called, and its initializer with it. -/
  | make {control popped rest s k f arguments} (hpopped : ∀ f ∈ popped, ¬ Restores f)
      (hk : K.OfClass k) (hf : K.method initializerName f)
      (harguments : ∀ v ∈ arguments.toList, K.OfValue v) :
      Moves K ⟨control, popped ++ rest, s⟩
        (entering ⟨control, rest, bind (s.addObject k) f s.objects.size⟩
          (boundMethod (s.addObject k) f) arguments (some s.objects.size))
  /-- A class without a superclass is declared. -/
  | plain {name methods rest s} (hcode : K.code (.stmt (.class name none methods))) :
      Moves K ⟨.exec (.class name none methods), rest, s⟩
        (declaringClass ⟨.exec (.class name none methods), rest,
          s.define s.scope name.lexeme .nil⟩ name none methods)
  /-- The superclass of a class is asked for. -/
  | parent {name o methods rest s} (hcode : K.code (.stmt (.class name (some o) methods))) :
      Moves K ⟨.exec (.class name (some o) methods), rest, s⟩
        ⟨.eval (.variable o), .superclass name o methods :: rest,
          s.define s.scope name.lexeme .nil⟩
  /-- A class with a superclass is declared. -/
  | derived {k name o methods rest s} (hk : K.OfClass k)
      (hcode : K.code (.stmt (.class name (some o) methods))) :
      Moves K ⟨.value (.class k), .superclass name o methods :: rest, s⟩
        (declaringClass ⟨.value (.class k), rest, s⟩ name (some k) methods)
  /-- A block begins. -/
  | block {body rest s} (hcode : K.code (.stmt (.block body))) :
      Moves K ⟨.exec (.block body), rest, s⟩
        ⟨.execAll body, .leave s.scope :: rest, (s.child s.scope []).inScope s.scopes.nextId⟩
  /-- A block ends. -/
  | leave {control control' n rest s} (hcontrol : control.Leaves control') :
      Moves K ⟨control, .leave n :: rest, s⟩ ⟨control', rest, s.inScope n⟩
  /-- A call ends with a value or a failure. -/
  | ended {control control' n f made rest s}
      (hcontrol : (∃ v, control' = .value v ∧ K.OfValue v) ∨ ∃ d, control' = .raising d) :
      Moves K ⟨control, .call n f made :: rest, s⟩ ⟨control', rest, s.endCall n⟩

section Moves

variable {K : Trait} {g : Setting} {control : Control} {popped rest : List Frame} {s : State}

theorem not_restores_nil : ∀ f ∈ ([] : List Frame), ¬ Restores f := by
  intro f hf
  cases hf

theorem not_restores_singleton {frame : Frame} (h : ¬ Restores frame) :
    ∀ f ∈ [frame], ¬ Restores f := by
  intro f hf
  rw [List.mem_singleton.mp hf]
  exact h

/-- Something else comes up. -/
theorem moves_stay (control' : Control) (hpopped : ∀ f ∈ popped, ¬ Restores f) (hs : K.OfState s)
    (hcontrol : K.OfControl control') :
    Moves K ⟨control, popped ++ rest, s⟩ ⟨control', rest, s⟩ := by
  show Moves K _ ⟨control', [] ++ rest, s⟩
  refine .on hpopped ?_ rfl rfl (.inl rfl) hcontrol ?_ hs
  · intro f hf
    cases hf
  · intro f hf
    cases hf

/-- Something else comes up, and a variable, an object or the clock has changed. -/
theorem moves_changed (control' : Control) (s' : State) (hpopped : ∀ f ∈ popped, ¬ Restores f)
    (hs' : K.OfState s') (hscope : s'.scope = s.scope) (hdepth : s'.depth = s.depth)
    (hscopes : s'.scopes = s.scopes
      ∨ ∃ a name v, s'.scopes = s.scopes.define a name v ∧ K.Names name)
    (hcontrol : K.OfControl control') :
    Moves K ⟨control, popped ++ rest, s⟩ ⟨control', rest, s'⟩ := by
  show Moves K _ ⟨control', [] ++ rest, s'⟩
  refine .on hpopped ?_ hscope hdepth hscopes hcontrol ?_ hs'
  · intro f hf
    cases hf
  · intro f hf
    cases hf

/-- Something else comes up inside a new frame. -/
theorem moves_within (control' : Control) (frame : Frame) (hpopped : ∀ f ∈ popped, ¬ Restores f)
    (hs : K.OfState s) (hcontrol : K.OfControl control') (hlocal : frame.Local)
    (hframe : K.OfFrame frame) :
    Moves K ⟨control, popped ++ rest, s⟩ ⟨control', frame :: rest, s⟩ := by
  show Moves K _ ⟨control', [frame] ++ rest, s⟩
  refine .on hpopped ?_ rfl rfl (.inl rfl) hcontrol ?_ hs
  · intro f hf
    rw [List.mem_singleton.mp hf]
    exact hlocal
  · intro f hf
    rw [List.mem_singleton.mp hf]
    exact hframe

/-- Something else comes up inside a new frame, and all others stay. -/
theorem moves_into (control' : Control) (frame : Frame) (hs : K.OfState s)
    (hcontrol : K.OfControl control') (hlocal : frame.Local) (hframe : K.OfFrame frame) :
    Moves K ⟨control, rest, s⟩ ⟨control', frame :: rest, s⟩ := by
  show Moves K ⟨control, [] ++ rest, s⟩ _
  exact moves_within control' frame not_restores_nil hs hcontrol hlocal hframe

theorem moves_settling (hpopped : ∀ f ∈ popped, ¬ Restores f) (hs : K.OfState s) (line : Nat)
    {result : Except RuntimeFault Value} (hresult : ∀ v, result = .ok v → K.OfValue v) :
    Moves K ⟨control, popped ++ rest, s⟩ (settling ⟨control, rest, s⟩ line result) := by
  cases result with
  | ok v => exact moves_stay (.value v) hpopped hs (hresult v rfl)
  | error fault => exact moves_stay _ hpopped hs trivial

theorem moves_property (hpopped : ∀ f ∈ popped, ¬ Restores f) (hs : K.OfState s) (id : ObjectId)
    (name : Token) :
    Moves K ⟨control, popped ++ rest, s⟩ (property ⟨control, rest, s⟩ id name) := by
  unfold property
  dsimp only
  cases hobject : s.objects[id]? with
  | none => exact moves_stay _ hpopped hs trivial
  | some o =>
    obtain ⟨hcls, hfields⟩ := hs.objects id o hobject
    dsimp only
    cases hfield : o.fields.get? name.lexeme with
    | some v => exact moves_stay (.value v) hpopped hs (hfields _ v hfield)
    | none =>
      dsimp only
      cases hmethod : o.cls.method? name.lexeme with
      | some f => exact .bind hpopped (hcls _ f hmethod)
      | none => exact moves_stay _ hpopped hs trivial

theorem moves_superMethod (hpopped : ∀ f ∈ popped, ¬ Restores f) (hs : K.OfState s)
    (o : Occurrence) (name : Token) :
    Moves K ⟨control, popped ++ rest, s⟩ (superMethod g ⟨control, rest, s⟩ o name) := by
  unfold superMethod
  dsimp only
  cases g.distances[o.id]? with
  | none => exact moves_stay _ hpopped hs trivial
  | some distance =>
    dsimp only
    cases hparent : superclassAt s distance o.name with
    | error fault => exact moves_stay _ hpopped hs trivial
    | ok parent =>
      have hclass : K.OfClass parent := hs.holds (.superclassAt hparent)
      dsimp only
      cases receiverAt s distance with
      | error fault => exact moves_stay _ hpopped hs trivial
      | ok id =>
        dsimp only
        cases hmethod : parent.method? name.lexeme with
        | some f => exact .bind hpopped (hclass _ f hmethod)
        | none => exact moves_stay _ hpopped hs trivial

theorem moves_assigning (hpopped : ∀ f ∈ popped, ¬ Restores f) (hs : K.OfState s)
    {o : Occurrence} {e : Expr} (ho : K.code (.expr (.assign o e))) {v : Value} (hv : K.OfValue v) :
    Moves K ⟨control, popped ++ rest, s⟩ (assigning g ⟨control, rest, s⟩ o v) := by
  unfold assigning
  dsimp only
  cases assignmentTarget g s o with
  | ok scope =>
    exact moves_changed (.value v) (s.define scope o.name.lexeme v) hpopped
      (hs.define scope o.name.lexeme hv) rfl rfl
      (.inr ⟨scope, o.name.lexeme, v, rfl, .inr ⟨o, e, ho, rfl⟩⟩) hv
  | error fault => exact moves_stay _ hpopped hs trivial

theorem moves_making (hpopped : ∀ f ∈ popped, ¬ Restores f) (hs : K.OfState s) {k : Class}
    (hk : K.OfClass k) {arguments : Array Value} (ha : ∀ v ∈ arguments.toList, K.OfValue v) :
    Moves K ⟨control, popped ++ rest, s⟩ (making ⟨control, rest, s⟩ k arguments) := by
  unfold making
  dsimp only
  cases hinit : k.initializer? with
  | none =>
    exact moves_changed (.value (.object s.objects.size)) (s.addObject k) hpopped
      (hs.addObject hk) rfl rfl (.inl rfl) trivial
  | some f => exact .make hpopped hk (hk _ f hinit) ha

theorem moves_calling (hpopped : ∀ f ∈ popped, ¬ Restores f) (hs : K.OfState s) {callee : Value}
    (hc : K.OfValue callee) {arguments : Array Value} (ha : ∀ v ∈ arguments.toList, K.OfValue v)
    (paren : Token) :
    Moves K ⟨control, popped ++ rest, s⟩ (calling g ⟨control, rest, s⟩ callee paren arguments) := by
  unfold calling
  cases hcallable : Callable.ofValue? callee with
  | none => exact moves_stay _ hpopped hs trivial
  | some callable =>
    dsimp only
    -- a wrong number of arguments, too many calls in progress, or a call
    split
    · exact moves_stay _ hpopped hs trivial
    · split
      · exact moves_stay _ hpopped hs trivial
      · cases callee with
        | native n =>
          cases hcallable
          cases n
          exact moves_changed (.value (.number (g.clock.reading s.readings))) s.readClock hpopped
            ⟨hs.scopes, hs.objects⟩ rfl rfl (.inl rfl) trivial
        | function f =>
          cases hcallable
          exact .call hpopped hc ha
        | «class» k =>
          cases hcallable
          exact moves_making hpopped hs hc ha
        | _ => cases hcallable

theorem moves_arguing (hpopped : ∀ f ∈ popped, ¬ Restores f) (hs : K.OfState s) {callee : Value}
    (hc : K.OfValue callee) {earlier : Array Value} (he : ∀ v ∈ earlier.toList, K.OfValue v)
    {arguments : List Expr} (ha : ∀ e ∈ arguments, K.code (.expr e)) (paren : Token) :
    Moves K ⟨control, popped ++ rest, s⟩
      (arguing g ⟨control, rest, s⟩ callee paren earlier arguments) := by
  cases arguments with
  | nil => exact moves_calling hpopped hs hc he paren
  | cons e rest =>
    exact moves_within (.eval e) (.argument callee paren earlier rest) hpopped hs
      (ha e List.mem_cons_self) trivial
      ⟨hc, he, fun e' he' => ha e' (List.mem_cons_of_mem e he')⟩

theorem moves_printing (hpopped : ∀ f ∈ popped, ¬ Restores f) (hs : K.OfState s) (v : Value) :
    Moves K ⟨control, popped ++ rest, s⟩ (printing ⟨control, rest, s⟩ v) := by
  have hwritten : K.OfState (s.write (s.textOf v ++ "\n").toUTF8) := ⟨hs.scopes, hs.objects⟩
  unfold printing
  dsimp only
  split
  · exact moves_changed _ _ hpopped hwritten rfl rfl (.inl rfl) trivial
  · exact moves_changed _ _ hpopped hwritten rfl rfl (.inl rfl) trivial

/-- A call ends: initializers yield the object they are bound to. -/
theorem moves_endingCall (hs : K.OfState s) {n : ScopeId} {f : Function} {made : Option ObjectId}
    {v : Value} (hv : K.OfValue v) :
    Moves K ⟨control, .call n f made :: rest, s⟩ (endingCall ⟨control, rest, s⟩ n f made v) := by
  unfold endingCall mapState
  dsimp only
  cases hresult : callResult (s.endCall n) f v with
  | error fault => exact .ended (.inr ⟨_, rfl⟩)
  | ok r =>
    cases made with
    | some id => exact .ended (.inl ⟨_, rfl, trivial⟩)
    | none =>
      refine .ended (.inl ⟨_, rfl, ?_⟩)
      -- an initializer reads its object from its closure
      unfold callResult at hresult
      split at hresult
      · exact hs.holds (.getAt hresult)
      · cases hresult
        exact hv

/-- The declaration of a class is complete or fails, in its scope and call. -/
theorem declaringClass_outcome (control : Control) (rest : List Frame) (s : State) (name : Token)
    (parent : Option Class) (methods : List (FunctionDecl Stmt)) :
    ∃ control' s', declaringClass ⟨control, rest, s⟩ name parent methods = ⟨control', rest, s'⟩
      ∧ (control' = .completed ∨ ∃ d, control' = .raising d) ∧ s'.scope = s.scope
      ∧ s'.depth = s.depth := by
  have hscope := declaringState_scope s parent methods
  have hdepth : (declaringState s parent methods).depth = s.depth := by
    cases parent <;> rfl
  cases htarget : (declaringState s parent methods).scopes.target
      (declaringState s parent methods).scope name.lexeme with
  | ok a => exact ⟨_, _, declaringClass_eq htarget, .inl rfl, hscope, hdepth⟩
  | error fault => exact ⟨_, _, declaringClass_error htarget, .inr ⟨_, rfl⟩, hscope, hdepth⟩

/-! ## §3. Every step is a move. -/

theorem moves_eval (hK : K.Hereditary) (hs : K.OfState s) {e : Expr} (he : K.code (.expr e)) :
    Moves K ⟨.eval e, rest, s⟩ (eval g ⟨.eval e, rest, s⟩ e) := by
  have hpopped := not_restores_nil
  cases e with
  | literal value =>
    exact moves_stay (.value (.ofLiteral value)) hpopped hs (Trait.ofValue_plain (Value.plain_ofLiteral value))
  | grouping inner => exact moves_stay (.eval inner) hpopped hs (hK .grouping he)
  | unary op right => exact moves_into (.eval right) (.unary op) hs (hK .unary he) trivial trivial
  | binary left op right =>
    exact moves_into (.eval left) (.binaryLeft op right) hs (hK .binaryLeft he) trivial
      (hK .binaryRight he)
  | logical left op right =>
    exact moves_into (.eval left) (.logical op right) hs (hK .logicalLeft he) trivial
      (hK .logicalRight he)
  | «variable» o | this o => exact moves_settling hpopped hs o.name.line fun v hv => hs.holds (.lookUp hv)
  | assign target value =>
    exact moves_into (.eval value) (.assign target) hs (hK .assigned he) trivial ⟨value, he⟩
  | call callee paren arguments =>
    exact moves_into (.eval callee) (.callee paren arguments) hs (hK .callee he) trivial
      fun e' he' => hK (.argument he') he
  | get object name =>
    exact moves_into (.eval object) (.get name) hs (hK .getObject he) trivial trivial
  | set object name value =>
    exact moves_into (.eval object) (.setObject name value) hs (hK .setObject he) trivial
      (hK .setValue he)
  | super o method => exact moves_superMethod hpopped hs o method

theorem moves_exec (hK : K.Hereditary) (hs : K.OfState s) {st : Stmt} (hst : K.code (.stmt st)) :
    Moves K ⟨.exec st, rest, s⟩ (exec ⟨.exec st, rest, s⟩ st) := by
  have hpopped := not_restores_nil
  cases st with
  | expression e => exact moves_into (.eval e) .discard hs (hK .expression hst) trivial trivial
  | print e => exact moves_into (.eval e) .print hs (hK .print hst) trivial trivial
  | var name initializer =>
    cases initializer with
    | none =>
      exact moves_changed .completed (s.define s.scope name.lexeme .nil) hpopped
        (hs.define s.scope name.lexeme trivial) rfl rfl
        (.inr ⟨s.scope, name.lexeme, .nil, rfl, .inl ⟨_, name, hst, rfl, rfl⟩⟩) trivial
    | some e =>
      exact moves_into (.eval e) (.define name) hs (hK .initializer hst) trivial ⟨some e, hst⟩
  | block body => exact .block hst
  | ifElse condition thenBranch elseBranch =>
    refine moves_into (.eval condition) (.branch thenBranch elseBranch) hs
      (hK .ifCondition hst) trivial ⟨hK .thenBranch hst, ?_⟩
    rintro _ ⟨⟩
    exact hK .elseBranch hst
  | «while» condition body =>
    exact moves_into (.eval condition) (.loopTest condition body) hs
      (hK .whileCondition hst) trivial hst
  | function decl => exact .function hst
  | «return» keyword value =>
    cases value with
    | none => exact moves_stay (.returning .nil) hpopped hs trivial
    | some e => exact moves_into (.eval e) .returnValue hs (hK .returned hst) trivial trivial
  | «class» name superclass methods =>
    cases superclass with
    | none => exact .plain hst
    | some parent => exact .parent hst

theorem moves_execAll (hs : K.OfState s) {body : List Stmt}
    (hbody : ∀ st ∈ body, K.code (.stmt st)) :
    Moves K ⟨.execAll body, rest, s⟩ (execAll ⟨.execAll body, rest, s⟩ body) := by
  have hpopped := not_restores_nil
  cases body with
  | nil => exact moves_stay .completed hpopped hs trivial
  | cons st body =>
    exact moves_into (.exec st) (.sequence body) hs (hbody st List.mem_cons_self) trivial
      fun st' hst' => hbody st' (List.mem_cons_of_mem st hst')

theorem moves_complete (hs : K.OfState s) {frame : Frame} (hframe : K.OfFrame frame)
    (hcontrol : control.Leaves .completed) :
    Moves K ⟨control, frame :: rest, s⟩ (complete ⟨control, rest, s⟩ frame) := by
  cases frame with
  | leave n => exact .leave hcontrol
  | call n f made => exact moves_endingCall hs trivial
  | sequence body => exact moves_stay (.execAll body) (not_restores_singleton id) hs hframe
  | loopBody condition body =>
    exact moves_stay (.exec (.while condition body)) (not_restores_singleton id) hs hframe
  | _ => exact moves_stay _ (not_restores_singleton id) hs trivial

theorem moves_resume (hK : K.Hereditary) (hs : K.OfState s) {v : Value} (hv : K.OfValue v)
    {frame : Frame} (hframe : K.OfFrame frame) :
    Moves K ⟨.value v, frame :: rest, s⟩ (resume g ⟨.value v, rest, s⟩ v frame) := by
  cases frame with
  | unary op =>
    exact moves_settling (not_restores_singleton id) hs _ fun r hr =>
      Trait.ofValue_plain (Value.plain_unary hr)
  | binaryLeft op right =>
    exact moves_within (.eval right) (.binaryRight v op) (not_restores_singleton id) hs hframe
      trivial hv
  | binaryRight left op =>
    exact moves_settling (not_restores_singleton id) hs _ fun r hr =>
      Trait.ofValue_plain (Value.plain_binary hr)
  | logical op right =>
    unfold resume
    dsimp only
    split
    · exact moves_stay (.value v) (not_restores_singleton id) hs hv
    · exact moves_stay (.eval right) (not_restores_singleton id) hs hframe
  | assign target =>
    obtain ⟨e, he⟩ := hframe
    exact moves_assigning (not_restores_singleton id) hs he hv
  | callee paren arguments =>
    refine moves_arguing (not_restores_singleton id) hs hv ?_ hframe paren
    intro v' hv'
    cases hv'
  | argument callee paren earlier arguments =>
    obtain ⟨hcallee, hearlier, hrest⟩ := hframe
    refine moves_arguing (not_restores_singleton id) hs hcallee ?_ hrest paren
    intro v' hv'
    rw [Array.toList_push, List.mem_append, List.mem_singleton] at hv'
    rcases hv' with hv' | rfl
    · exact hearlier v' hv'
    · exact hv
  | get name =>
    cases v with
    | object o => exact moves_property (not_restores_singleton id) hs o name
    | _ => exact moves_stay _ (not_restores_singleton id) hs trivial
  | setObject name e =>
    cases v with
    | object o =>
      exact moves_within (.eval e) (.setValue o name) (not_restores_singleton id) hs hframe
        trivial trivial
    | _ => exact moves_stay _ (not_restores_singleton id) hs trivial
  | setValue object name =>
    exact moves_changed (.value v) (s.setField object name.lexeme v) (not_restores_singleton id)
      (hs.setField object name.lexeme hv) rfl rfl (.inl rfl) hv
  | discard => exact moves_stay .completed (not_restores_singleton id) hs trivial
  | print => exact moves_printing (not_restores_singleton id) hs v
  | define name =>
    obtain ⟨e, he⟩ := hframe
    exact moves_changed .completed (s.define s.scope name.lexeme v) (not_restores_singleton id)
      (hs.define s.scope name.lexeme hv) rfl rfl
      (.inr ⟨s.scope, name.lexeme, v, rfl, .inl ⟨_, name, he, rfl, rfl⟩⟩) trivial
  | branch th el =>
    unfold resume
    dsimp only
    cases v.truthy with
    | true => exact moves_stay (.exec th) (not_restores_singleton id) hs hframe.1
    | false =>
      cases el with
      | none => exact moves_stay .completed (not_restores_singleton id) hs trivial
      | some st => exact moves_stay (.exec st) (not_restores_singleton id) hs (hframe.2 st rfl)
  | loopTest condition body =>
    unfold resume
    dsimp only
    split
    · exact moves_within (.exec body) (.loopBody condition body) (not_restores_singleton id) hs
        (hK .whileBody hframe) trivial hframe
    · exact moves_stay .completed (not_restores_singleton id) hs trivial
  | returnValue => exact moves_stay (.returning v) (not_restores_singleton id) hs hv
  | superclass name parent methods =>
    cases v with
    | «class» k => exact .derived hv hframe
    | _ => exact moves_stay _ (not_restores_singleton id) hs trivial
  -- these frames wait for a statement to end, whatever its value
  | loopBody condition body => exact moves_complete hs hframe .value
  | sequence body => exact moves_complete hs hframe .value
  | leave n => exact moves_complete hs hframe .value
  | call n f made => exact moves_complete hs hframe .value

/-- **Every step is a move.**  It is enough that what is done, the innermost
frame and the store have the trait. -/
theorem moves_step (hK : K.Hereditary) (g : Setting) {c : Config} (hcontrol : K.OfControl c.control)
    (hframe : ∀ f ∈ c.frames.head?, K.OfFrame f) (hstate : K.OfState c.state) :
    Moves K c (c.step g) := by
  obtain ⟨control, frames, s⟩ := c
  dsimp only at hcontrol hframe hstate
  -- either there is something to do, or the innermost frame takes an outcome
  cases houtcome : (Config.mk control [] s).halted with
  | false =>
    cases control with
    | eval e => exact moves_eval hK hstate hcontrol
    | exec st => exact moves_exec hK hstate hcontrol
    | execAll body => exact moves_execAll hstate hcontrol
    | value | completed | returning | raising => cases houtcome
  | true =>
    cases frames with
    | nil =>
      rw [step_halted houtcome]
      show Moves K ⟨control, [] ++ [], s⟩ _
      exact moves_stay control not_restores_nil hstate hcontrol
    | cons frame rest =>
      have hframe := hframe frame rfl
      rw [step_outcome houtcome]
      cases control with
      | eval | exec | execAll => cases houtcome
      | value v => exact moves_resume hK hstate hcontrol hframe
      | completed => exact moves_complete hstate hframe .completed
      | returning v =>
        cases frame with
        | leave n => exact .leave .returning
        | call n f made => exact moves_endingCall hstate hcontrol
        | _ => exact moves_stay (.returning v) (not_restores_singleton id) hstate hcontrol
      | raising d =>
        cases frame with
        | leave n => exact .leave .raising
        | call n f made => exact .ended (.inr ⟨d, rfl⟩)
        | _ => exact moves_stay (.raising d) (not_restores_singleton id) hstate trivial

end Moves

end Config

/-! ## §4. Steps of any program. -/

/-- The trait that everything has. -/
def Trait.any : Trait :=
  ⟨fun _ => True, fun _ => True, fun _ _ => True⟩

theorem Trait.any_ofValue (v : Value) : Trait.any.OfValue v := by
  cases v with
  | function f => trivial
  | «class» k => exact fun _ _ _ => trivial
  | _ => trivial

theorem Trait.any_ofFrame (frame : Frame) : Trait.any.OfFrame frame := by
  cases frame with
  | binaryRight left op => exact any_ofValue left
  | assign o => exact ⟨.this o, trivial⟩
  | callee => exact fun _ _ => trivial
  | argument callee paren earlier rest =>
    exact ⟨any_ofValue callee, fun v _ => any_ofValue v, fun _ _ => trivial⟩
  | define name => exact ⟨none, trivial⟩
  | branch th el => exact ⟨trivial, fun _ _ => trivial⟩
  | sequence => exact fun _ _ => trivial
  | _ => trivial

theorem Trait.any_ofControl (control : Control) : Trait.any.OfControl control := by
  cases control with
  | execAll => exact fun _ _ => trivial
  | value v | returning v => exact any_ofValue v
  | _ => trivial

namespace Config

/-- Every step of every program is a move. -/
theorem moves_any (g : Setting) (c : Config) : Moves .any c (c.step g) := by
  refine moves_step (fun _ _ => trivial) g (Trait.any_ofControl _)
    (fun f _ => Trait.any_ofFrame f) ?_
  refine ⟨fun _ _ v _ => Trait.any_ofValue v, ?_⟩
  intro _ o _
  exact ⟨fun _ _ _ => trivial, fun _ v _ => Trait.any_ofValue v⟩

end Config

end Lox
