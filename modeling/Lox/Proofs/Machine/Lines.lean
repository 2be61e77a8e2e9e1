/-
  Lox.Proofs.Machine.Lines
  ────────────────────────
  **RUNNING ON OTHER LINES.**

  A running program tells the lines of its tokens only where it fails.  So a
  program with all its tokens on other lines takes the same steps
  (`Config.step_reline`): it prints the same, and if it fails, then with the
  same message on another line.
-/
import Lox.Machine.Run
import Lox.Proofs.Forest
import Lox.Proofs.Syntax.Lines

namespace Lox

variable (f : Nat → Nat)

/-! ## §1. Values. -/

/-- A function on other lines. -/
def Function.reline (k : Function) : Function :=
  { k with decl := Stmt.relineFunction f k.decl }

/-- A class on other lines. -/
def Class.reline : Class → Class
  | ⟨identity, name, none, methods⟩ =>
      ⟨identity, name, none, Bindings.mapValues (Function.reline f) methods⟩
  | ⟨identity, name, some parent, methods⟩ =>
      ⟨identity, name, some parent.reline, Bindings.mapValues (Function.reline f) methods⟩

/-- A value on other lines. -/
def Value.reline : Value → Value
  | .function k => .function (k.reline f)
  | .class k => .class (k.reline f)
  | v => v

/-- An object on other lines. -/
def Object.reline (o : Object) : Object :=
  ⟨o.cls.reline f, Bindings.mapValues (Value.reline f) o.fields⟩

theorem Function.reline_name (k : Function) : (k.reline f).name = k.name := by
  obtain ⟨identity, ⟨name, params, body⟩, closure, isInitializer⟩ := k
  simp [Function.reline, Function.name, Stmt.relineFunction]

theorem Function.reline_arity (k : Function) : (k.reline f).arity = k.arity := by
  obtain ⟨identity, ⟨name, params, body⟩, closure, isInitializer⟩ := k
  simp [Function.reline, Function.arity, Stmt.relineFunction]

theorem Class.reline_name (k : Class) : (k.reline f).name = k.name := by
  obtain ⟨identity, name, superclass, methods⟩ := k
  cases superclass <;> rfl

theorem Class.reline_identity (k : Class) : (k.reline f).identity = k.identity := by
  obtain ⟨identity, name, superclass, methods⟩ := k
  cases superclass <;> rfl

theorem Class.reline_mk (identity : Identity) (name : String) (superclass : Option Class)
    (methods : Bindings Function) : Class.reline f ⟨identity, name, superclass, methods⟩
      = ⟨identity, name, superclass.map (Class.reline f),
        Bindings.mapValues (Function.reline f) methods⟩ := by
  cases superclass <;> rfl

theorem Class.reline_method? : ∀ (k : Class) (name : String),
    (k.reline f).method? name = (k.method? name).map (Function.reline f)
  | ⟨_, _, none, methods⟩, name => by
    rw [Class.reline, Class.method?, Class.method?, Bindings.get?_mapValues]
  | ⟨_, _, some parent, methods⟩, name => by
    rw [Class.reline, Class.method?, Class.method?, Bindings.get?_mapValues,
      Class.reline_method? parent]
    cases methods.get? name <;> rfl

theorem Class.reline_arity (k : Class) : (k.reline f).arity = k.arity := by
  unfold Class.arity Class.initializer?
  rw [Class.reline_method?]
  cases k.method? initializerName with
  | none => rfl
  | some m => exact Function.reline_arity f m

theorem Value.reline_truthy (v : Value) : (v.reline f).truthy = v.truthy := by
  cases v <;> rfl

theorem Value.reline_same (v v' : Value) : (v.reline f).same (v'.reline f) = v.same v' := by
  cases v <;> cases v' <;> first
    | rfl
    | simp [Value.reline, Value.same, Class.reline_identity]

/-- No printed text tells a line. -/
theorem Value.reline_text (objects : Array Object) (v : Value) :
    (v.reline f).text (objects.map (Object.reline f)) = v.text objects := by
  cases v with
  | bool b => cases b <;> rfl
  | function k => simp [Value.reline, Value.text, Function.reline_name]
  | «class» k => simp [Value.reline, Value.text, Class.reline_name]
  | object id =>
    simp only [Value.reline, Value.text, Array.getElem?_map]
    cases objects[id]? with
    | none => rfl
    | some o => simp [Object.reline, Class.reline_name]
  | _ => rfl

theorem Value.reline_unary (operator : TokenKind) (v : Value) :
    (v.reline f).unary operator = (v.unary operator).map (Value.reline f) := by
  unfold Value.unary
  cases operator <;> cases v <;> rfl

theorem Value.reline_onNumbers {h : Float → Float → Value} (hh : ∀ x y, (h x y).reline f = h x y)
    (v v' : Value) :
    (v.reline f).onNumbers h (v'.reline f) = (v.onNumbers h v').map (Value.reline f) := by
  cases v with
  | number x =>
    cases v' with
    | number y => exact congrArg Except.ok (hh x y).symm
    | _ => rfl
  | _ => rfl

theorem Value.reline_binary (operator : TokenKind) (v v' : Value) :
    (v.reline f).binary operator (v'.reline f) = (v.binary operator v').map (Value.reline f) := by
  unfold Value.binary
  split <;> first
    | exact Value.reline_onNumbers f (fun _ _ => rfl) v v'
    | rfl
    | skip
  · cases v <;> cases v' <;> rfl
  · rw [Value.reline_same]
    rfl
  · rw [Value.reline_same]
    rfl

/-! ## §2. Configurations. -/

/-- A state on other lines. -/
def State.reline (s : State) : State :=
  { s with
    scopes := s.scopes.mapValues (Value.reline f)
    objects := s.objects.map (Object.reline f) }

/-- What is being done, on other lines. -/
def Control.reline : Control → Control
  | .eval e => .eval (e.reline f)
  | .exec s => .exec (s.reline f)
  | .execAll body => .execAll (body.map (Stmt.reline f))
  | .value v => .value (v.reline f)
  | .completed => .completed
  | .returning v => .returning (v.reline f)
  | .raising d => .raising (d.reline f)

/-- A frame on other lines. -/
def Frame.reline : Frame → Frame
  | .unary operator => .unary (operator.reline f)
  | .binaryLeft operator right => .binaryLeft (operator.reline f) (right.reline f)
  | .binaryRight left operator => .binaryRight (left.reline f) (operator.reline f)
  | .logical operator right => .logical (operator.reline f) (right.reline f)
  | .assign target => .assign (target.reline f)
  | .callee paren arguments => .callee (paren.reline f) (arguments.map (Expr.reline f))
  | .argument called paren earlier rest =>
      .argument (called.reline f) (paren.reline f) (earlier.map (Value.reline f))
        (rest.map (Expr.reline f))
  | .get name => .get (name.reline f)
  | .setObject name value => .setObject (name.reline f) (value.reline f)
  | .setValue object name => .setValue object (name.reline f)
  | .discard => .discard
  | .print => .print
  | .define name => .define (name.reline f)
  | .branch thenBranch elseBranch =>
      .branch (thenBranch.reline f) (elseBranch.map (Stmt.reline f))
  | .loopTest condition body => .loopTest (condition.reline f) (body.reline f)
  | .loopBody condition body => .loopBody (condition.reline f) (body.reline f)
  | .returnValue => .returnValue
  | .superclass name parent methods =>
      .superclass (name.reline f) (parent.reline f) (methods.map (Stmt.relineFunction f))
  | .sequence rest => .sequence (rest.map (Stmt.reline f))
  | .leave scope => .leave scope
  | .call scope k made => .call scope (k.reline f) made

/-- A running program on other lines. -/
def Config.reline (c : Config) : Config :=
  ⟨c.control.reline f, c.frames.map (Frame.reline f), c.state.reline f⟩

theorem State.reline_define (s : State) (scope : ScopeId) (name : String) (v : Value) :
    (s.reline f).define scope name (v.reline f) = (s.define scope name v).reline f := by
  show State.mk _ _ ((s.scopes.mapValues (Value.reline f)).define scope name (v.reline f)) _ _ _ _
    = _
  rw [Forest.define_mapValues]
  rfl

theorem State.reline_child (s : State) (parent : ScopeId) (b : Bindings Value) :
    (s.reline f).child parent (b.mapValues (Value.reline f)) = (s.child parent b).reline f := by
  show State.mk _ _ ((s.scopes.mapValues (Value.reline f)).child parent _) _ _ _ _ = _
  rw [Forest.child_mapValues]
  rfl

theorem State.reline_addObject (s : State) (k : Class) :
    (s.reline f).addObject (k.reline f) = (s.addObject k).reline f := by
  show State.mk _ _ _ ((s.objects.map (Object.reline f)).push ⟨k.reline f, []⟩) _ _ _
    = State.mk _ _ _ ((s.objects.push ⟨k, []⟩).map (Object.reline f)) _ _ _
  rw [Array.map_push]
  rfl

theorem State.reline_setField (s : State) (id : ObjectId) (name : String) (v : Value) :
    (s.reline f).setField id name (v.reline f) = (s.setField id name v).reline f := by
  have hobjects : (s.objects.map (Object.reline f)).modify id
        (fun o => { o with fields := o.fields.insert name (v.reline f) })
      = (s.objects.modify id fun o => { o with fields := o.fields.insert name v }).map
        (Object.reline f) := by
    apply Array.ext_getElem?
    intro i
    simp only [Array.getElem?_map, Array.getElem?_modify]
    split
    · cases s.objects[i]? with
      | none => rfl
      | some o => simp [Object.reline, Bindings.insert_mapValues]
    · rfl
  show State.mk _ _ _ ((s.objects.map (Object.reline f)).modify id _) _ _ _ = _
  rw [hobjects]
  rfl

theorem State.reline_nextId (s : State) : (s.reline f).scopes.nextId = s.scopes.nextId :=
  Forest.nextId_mapValues (Value.reline f) s.scopes

theorem State.reline_getAt (s : State) (scope : ScopeId) (distance : Nat) (name : String) :
    (s.reline f).scopes.getAt scope distance name
      = (s.scopes.getAt scope distance name).map (Value.reline f) :=
  Forest.getAt_mapValues (Value.reline f) s.scopes scope distance name

theorem State.reline_target (s : State) (scope : ScopeId) (name : String) :
    (s.reline f).scopes.target scope name = s.scopes.target scope name :=
  Forest.target_mapValues (Value.reline f) s.scopes scope name

/-! ## §3. Names and methods. -/

namespace Config

variable (g : Setting) {f}

theorem reline_settling (c : Config) (line : Nat) (result : Except RuntimeFault Value) :
    (c.reline f).settling (f line) (result.map (Value.reline f))
      = (c.settling line result).reline f := by
  cases result <;> rfl

theorem reline_lookUp (s : State) (o : Occurrence) :
    lookUp g (s.reline f) (o.reline f) = (lookUp g s o).map (Value.reline f) := by
  have hid : (o.reline f).id = o.id := rfl
  unfold lookUp
  rw [hid]
  cases g.distances[o.id]? with
  | some distance => exact State.reline_getAt f s s.scope distance o.name.lexeme
  | none => exact Forest.get_mapValues _ s.scopes globalScope o.name.lexeme

theorem reline_assignmentTarget (s : State) (o : Occurrence) :
    assignmentTarget g (s.reline f) (o.reline f) = assignmentTarget g s o := by
  have hid : (o.reline f).id = o.id := rfl
  unfold assignmentTarget
  rw [hid]
  cases g.distances[o.id]? with
  | some distance => exact Forest.targetAt_mapValues _ s.scopes s.scope distance _
  | none => exact State.reline_target f s globalScope _

theorem reline_assigning (c : Config) (o : Occurrence) (v : Value) :
    assigning g (c.reline f) (o.reline f) (v.reline f) = (assigning g c o v).reline f := by
  have hstate : (c.reline f).state = c.state.reline f := rfl
  unfold assigning
  rw [hstate, reline_assignmentTarget]
  cases assignmentTarget g c.state o with
  | error fault => rfl
  | ok scope =>
    show Config.mk _ _ ((c.state.reline f).define scope o.name.lexeme (v.reline f)) = _
    rw [State.reline_define]
    rfl

theorem reline_bind (s : State) (k : Function) (id : ObjectId) :
    bind (s.reline f) (k.reline f) id = (bind s k id).reline f := by
  show ((s.reline f).child k.closure (Bindings.mapValues (Value.reline f)
    [("this", .object id)])).useIdentities 1 = _
  rw [State.reline_child]
  rfl

theorem reline_boundMethod (s : State) (k : Function) :
    boundMethod (s.reline f) (k.reline f) = (boundMethod s k).reline f := by
  unfold boundMethod
  rw [State.reline_nextId]
  rfl

theorem reline_yieldingMethod (c : Config) (k : Function) (id : ObjectId) :
    (c.reline f).yieldingMethod (k.reline f) id = (c.yieldingMethod k id).reline f := by
  show Config.mk (.value (.function (boundMethod (c.state.reline f) (k.reline f)))) _
    (bind (c.state.reline f) (k.reline f) id) = _
  rw [reline_boundMethod, reline_bind]
  rfl

theorem reline_property (c : Config) (id : ObjectId) (name : Token) :
    (c.reline f).property id (name.reline f) = (c.property id name).reline f := by
  have hobjects : (c.reline f).state.objects = c.state.objects.map (Object.reline f) := rfl
  unfold property
  rw [hobjects, Array.getElem?_map]
  cases c.state.objects[id]? with
  | none => rfl
  | some o =>
    dsimp only [Option.map, Object.reline]
    rw [Token.reline_lexeme, Bindings.get?_mapValues]
    cases o.fields.get? name.lexeme with
    | some v => rfl
    | none =>
      dsimp only [Option.map]
      rw [Class.reline_method?]
      cases o.cls.method? name.lexeme with
      | none => rfl
      | some k => exact reline_yieldingMethod c k id

theorem reline_superclassAt (s : State) (distance : Nat) (keyword : Token) :
    superclassAt (s.reline f) distance (keyword.reline f)
      = (superclassAt s distance keyword).map (Class.reline f) := by
  unfold superclassAt
  rw [State.reline_getAt, Token.reline_lexeme]
  have hscope : (s.reline f).scope = s.scope := rfl
  rw [hscope]
  cases s.scopes.getAt s.scope distance keyword.lexeme with
  | error fault => rfl
  | ok v => cases v <;> rfl

theorem reline_receiverAt (s : State) (distance : Nat) :
    receiverAt (s.reline f) distance = receiverAt s distance := by
  cases distance with
  | zero => rfl
  | succ distance =>
    rw [receiverAt, receiverAt, State.reline_getAt]
    have hscope : (s.reline f).scope = s.scope := rfl
    rw [hscope]
    cases s.scopes.getAt s.scope distance "this" with
    | error fault => rfl
    | ok v => cases v <;> rfl

theorem reline_superMethod (c : Config) (o : Occurrence) (name : Token) :
    superMethod g (c.reline f) (o.reline f) (name.reline f) = (superMethod g c o name).reline f := by
  have hid : (o.reline f).id = o.id := rfl
  have hstate : (c.reline f).state = c.state.reline f := rfl
  have hname : (o.reline f).name = o.name.reline f := rfl
  unfold superMethod
  rw [hid]
  cases g.distances[o.id]? with
  | none => rfl
  | some distance =>
    dsimp only
    rw [hstate, hname, reline_superclassAt, reline_receiverAt]
    cases superclassAt c.state distance o.name with
    | error fault => rfl
    | ok parent =>
      dsimp only [Except.map]
      cases receiverAt c.state distance with
      | error fault => rfl
      | ok id =>
        dsimp only
        rw [Token.reline_lexeme, Class.reline_method?]
        cases parent.method? name.lexeme with
        | none => rfl
        | some k => exact reline_yieldingMethod c k id

/-! ## §4. Calls and classes. -/

theorem reline_parameters (params : List Token) (vs : List Value) :
    parameters (params.map (Token.reline f)) (vs.map (Value.reline f))
      = (parameters params vs).mapValues (Value.reline f) := by
  unfold parameters
  rw [List.zip_map, List.foldl_map]
  show List.foldl _ (Bindings.mapValues (Value.reline f) []) _ = _
  refine List.foldl_hom (Bindings.mapValues (Value.reline f)) ?_
  rintro b ⟨t, v⟩
  exact Bindings.insert_mapValues (Value.reline f) b t.lexeme v

theorem reline_entering (c : Config) (k : Function) (arguments : Array Value)
    (made : Option ObjectId) :
    (c.reline f).entering (k.reline f) (arguments.map (Value.reline f)) made
      = (c.entering k arguments made).reline f := by
  obtain ⟨identity, ⟨name, params, body⟩, closure, isInitializer⟩ := k
  have hstate : (c.reline f).state = c.state.reline f := rfl
  have hbindings : parameters (params.map (Token.reline f)) (arguments.map (Value.reline f)).toList
      = (parameters params arguments.toList).mapValues (Value.reline f) := by
    rw [Array.toList_map, reline_parameters]
  have hchild := State.reline_child f c.state closure (parameters params arguments.toList)
  unfold entering
  dsimp only [Function.reline]
  rw [Stmt.relineFunction_eq]
  dsimp only
  rw [hbindings, hstate, State.reline_nextId]
  show Config.mk _ _ (((c.state.reline f).child closure
    ((parameters params arguments.toList).mapValues (Value.reline f))).beginCall _) = _
  rw [hchild]
  simp [reline, Config.within, Config.mapState, Control.reline, Frame.reline, Function.reline,
    Stmt.relineFunction_eq]
  exact ⟨rfl, rfl⟩

theorem reline_making (c : Config) (k : Class) (arguments : Array Value) :
    (c.reline f).making (k.reline f) (arguments.map (Value.reline f))
      = (c.making k arguments).reline f := by
  have hadd : (c.reline f).mapState (·.addObject (k.reline f))
      = (c.mapState (·.addObject k)).reline f := by
    show Config.mk _ _ ((c.state.reline f).addObject (k.reline f)) = _
    rw [State.reline_addObject]
    rfl
  have hsize : (c.reline f).state.objects.size = c.state.objects.size := by
    show (c.state.objects.map _).size = _
    rw [Array.size_map]
  unfold making Class.initializer?
  dsimp only
  rw [hadd, hsize, Class.reline_method?]
  cases k.method? initializerName with
  | none => rfl
  | some m =>
    dsimp only [Option.map]
    generalize c.mapState (·.addObject k) = c'
    show Config.entering ⟨_, _, bind (c'.state.reline f) (m.reline f) _⟩
      (boundMethod (c'.state.reline f) (m.reline f)) _ _ = _
    rw [reline_bind, reline_boundMethod]
    exact reline_entering (c'.mapState (bind · m c.state.objects.size)) _ arguments _

/-- The checks before a call do not look at lines. -/
theorem reline_checking (c : Config) (size line : Nat) {arity arity' : Nat}
    (harity : arity' = arity) (full : Bool) {c' c'' : Config} (h : c'' = c'.reline f) :
    (if size ≠ arity' then (c.reline f).failing (f line) (.wrongArity arity' size)
      else if full then (c.reline f).failing (f line) .stackOverflow else c'')
    = (if size ≠ arity then c.failing line (.wrongArity arity size)
      else if full then c.failing line .stackOverflow else c').reline f := by
  subst harity
  by_cases hsize : size ≠ arity'
  · rw [if_pos hsize, if_pos hsize]
    rfl
  · rw [if_neg hsize, if_neg hsize]
    cases full with
    | true => rfl
    | false => exact h

theorem reline_calling (c : Config) (callee : Value) (paren : Token) (arguments : Array Value) :
    calling g (c.reline f) (callee.reline f) (paren.reline f) (arguments.map (Value.reline f))
      = (calling g c callee paren arguments).reline f := by
  unfold calling
  rw [Array.size_map]
  cases callee with
  | native n =>
    refine reline_checking c arguments.size paren.line rfl (g.exhausted c.state.depth) ?_
    cases n
    rfl
  | function k =>
    exact reline_checking c arguments.size paren.line (k.reline_arity f)
      (g.exhausted c.state.depth) (reline_entering c k arguments none)
  | «class» k =>
    exact reline_checking c arguments.size paren.line (k.reline_arity f)
      (g.exhausted c.state.depth) (reline_making c k arguments)
  | _ => rfl

theorem reline_endingCall (c : Config) (scope : ScopeId) (k : Function) (made : Option ObjectId)
    (v : Value) :
    (c.reline f).endingCall scope (k.reline f) made (v.reline f)
      = (c.endingCall scope k made v).reline f := by
  have hresult : ∀ s : State, callResult (s.reline f) (k.reline f) (v.reline f)
      = (callResult s k v).map (Value.reline f) := by
    intro s
    unfold callResult
    show (if k.isInitializer then (s.reline f).scopes.getAt k.closure 0 "this" else _) = _
    rw [State.reline_getAt]
    split <;> rfl
  have hline : (k.reline f).decl.name.line = f k.decl.name.line := by
    obtain ⟨identity, ⟨name, params, body⟩, closure, isInitializer⟩ := k
    dsimp only [Function.reline]
    rw [Stmt.relineFunction_eq]
    rfl
  have hstate : ((c.reline f).mapState (·.endCall scope)).state
      = (c.state.endCall scope).reline f := rfl
  unfold endingCall
  dsimp only
  rw [hstate, hresult, hline]
  have hended : (c.mapState (·.endCall scope)).state = c.state.endCall scope := rfl
  rw [hended]
  cases callResult (c.state.endCall scope) k v with
  | error fault => rfl
  | ok v => cases made <;> rfl

theorem reline_methodTable (closure : ScopeId) (first : Identity)
    (methods : List (FunctionDecl Stmt)) :
    methodTable closure first (methods.map (Stmt.relineFunction f))
      = (methodTable closure first methods).mapValues (Function.reline f) := by
  unfold methodTable
  rw [List.zipIdx_map, List.foldl_map]
  show List.foldl _ (Bindings.mapValues (Function.reline f) []) _ = _
  refine List.foldl_hom (Bindings.mapValues (Function.reline f)) ?_
  rintro table ⟨⟨name, params, body⟩, i⟩
  rw [← Bindings.insert_mapValues]
  dsimp only [Function.reline, Prod.map]
  rw [Stmt.relineFunction_eq]
  rfl

theorem reline_declaringClass (c : Config) (name : Token) (parent : Option Class)
    (methods : List (FunctionDecl Stmt)) :
    (c.reline f).declaringClass (name.reline f) (parent.map (Class.reline f))
        (methods.map (Stmt.relineFunction f))
      = (c.declaringClass name parent methods).reline f := by
  have hopen : openMethodScope (c.state.reline f) (parent.map (Class.reline f))
      = (openMethodScope c.state parent).reline f := by
    cases parent with
    | none => rfl
    | some k => exact State.reline_child f c.state c.state.scope [("super", .class k)]
  have hscope : methodScope (c.state.reline f) (parent.map (Class.reline f))
      = methodScope c.state parent := by
    cases parent with
    | none => rfl
    | some k => exact State.reline_nextId f c.state
  have hclass : declaredClass (c.state.reline f) (name.reline f) (parent.map (Class.reline f))
        (methods.map (Stmt.relineFunction f))
      = (declaredClass c.state name parent methods).reline f := by
    unfold declaredClass
    rw [Class.reline_mk, hscope, reline_methodTable]
    rfl
  have hstate : (c.reline f).state = c.state.reline f := rfl
  have hmap : (c.reline f).mapState (fun s => (openMethodScope s (parent.map (Class.reline f))
        ).useIdentities (1 + (methods.map (Stmt.relineFunction f)).length))
      = (c.mapState fun s => (openMethodScope s parent).useIdentities (1 + methods.length)).reline
        f := by
    rw [List.length_map]
    show Config.mk _ _ ((openMethodScope (c.state.reline f) _).useIdentities _) = _
    rw [hopen]
    rfl
  unfold declaringClass
  dsimp only
  -- the scope of the methods is open and the class is made; what is left is to name it
  rw [hstate, hclass, hmap]
  generalize c.mapState (fun s => (openMethodScope s parent).useIdentities (1 + methods.length))
    = c'
  have htarget : (c'.reline f).state.scopes.target (c'.reline f).state.scope (name.reline f).lexeme
      = c'.state.scopes.target c'.state.scope name.lexeme :=
    State.reline_target f c'.state c'.state.scope name.lexeme
  rw [htarget]
  cases c'.state.scopes.target c'.state.scope name.lexeme with
  | error fault => rfl
  | ok scope =>
    have hdefine := State.reline_define f c'.state scope name.lexeme
      (.class (declaredClass c.state name parent methods))
    show Config.mk _ _ ((c'.state.reline f).define scope name.lexeme
      ((Value.class (declaredClass c.state name parent methods)).reline f)) = _
    rw [hdefine]
    rfl

/-! ## §5. Steps. -/

theorem reline_defining (c : Config) (name : String) (v : Value) :
    (c.reline f).defining name (v.reline f) = (c.defining name v).reline f := by
  show Config.mk _ _ ((c.state.reline f).define c.state.scope name (v.reline f)) = _
  rw [State.reline_define]
  rfl

theorem reline_eval (c : Config) (e : Expr) :
    eval g (c.reline f) (e.reline f) = (eval g c e).reline f := by
  cases e with
  | literal value => cases value <;> rfl
  | «variable» o | this o =>
    have h := reline_settling (f := f) c o.name.line (lookUp g c.state o)
    rw [← reline_lookUp] at h
    rw [Expr.reline]
    exact h
  | super o method =>
    rw [Expr.reline]
    exact reline_superMethod g c o method
  | call callee paren arguments =>
    rw [Expr.reline, Expr.relineAll_eq_map]
    rfl
  | _ =>
    rw [Expr.reline]
    rfl

theorem reline_exec (c : Config) (s : Stmt) :
    (c.reline f).exec (s.reline f) = (c.exec s).reline f := by
  cases s with
  | expression e | print e | «while» condition body =>
    rw [Stmt.reline]
    rfl
  | var name initializer =>
    rw [Stmt.reline]
    cases initializer with
    | none => exact congrArg (·.withControl .completed) (reline_defining c name.lexeme .nil)
    | some e => rfl
  | block body =>
    rw [Stmt.reline, Stmt.relineAll_eq_map]
    have hchild := State.reline_child f c.state c.state.scope []
    show Config.mk _ _ (((c.state.reline f).child c.state.scope
      (Bindings.mapValues (Value.reline f) [])).inScope (c.state.reline f).scopes.nextId) = _
    rw [hchild, State.reline_nextId]
    rfl
  | ifElse condition thenBranch elseBranch =>
    rw [Stmt.reline_ifElse]
    rfl
  | function decl =>
    rw [Stmt.reline]
    have hname : (Stmt.relineFunction f decl).name = decl.name.reline f := by
      obtain ⟨name, params, body⟩ := decl
      rw [Stmt.relineFunction_eq]
    have h := reline_defining (f := f) (c.mapState (·.useIdentities 1)) decl.name.lexeme
      (.function ⟨c.state.nextIdentity, decl, c.state.scope, false⟩)
    unfold exec
    dsimp only
    rw [hname]
    exact congrArg (·.withControl .completed) h
  | «return» keyword value =>
    rw [Stmt.reline]
    cases value <;> rfl
  | «class» name superclass methods =>
    rw [Stmt.reline, Stmt.relineMethods_eq_map]
    have h := reline_defining (f := f) c name.lexeme .nil
    unfold exec
    dsimp only
    rw [Token.reline_lexeme, show (c.reline f).defining name.lexeme .nil = _ from h]
    cases superclass with
    | none => exact reline_declaringClass (c.defining name.lexeme .nil) name none methods
    | some parent =>
      simp only [Option.map, within, reline, Control.reline, Frame.reline, List.map_cons,
        Expr.reline]

theorem reline_execAll (c : Config) (ss : List Stmt) :
    (c.reline f).execAll (ss.map (Stmt.reline f)) = (c.execAll ss).reline f := by
  cases ss <;> rfl

theorem reline_printing (c : Config) (v : Value) :
    (c.reline f).printing (v.reline f) = (c.printing v).reline f := by
  have htext : (c.reline f).state.textOf (v.reline f) = c.state.textOf v :=
    Value.reline_text f c.state.objects v
  have hsink : (c.reline f).state.sink = c.state.sink := rfl
  unfold printing
  dsimp only
  rw [htext, hsink]
  split <;> rfl

theorem reline_arguing (c : Config) (callee : Value) (paren : Token) (earlier : Array Value)
    (rest : List Expr) :
    arguing g (c.reline f) (callee.reline f) (paren.reline f) (earlier.map (Value.reline f))
        (rest.map (Expr.reline f))
      = (arguing g c callee paren earlier rest).reline f := by
  cases rest with
  | nil => exact reline_calling g c callee paren earlier
  | cons e rest => rfl

theorem reline_complete (c : Config) (frame : Frame) :
    (c.reline f).complete (frame.reline f) = (c.complete frame).reline f := by
  cases frame with
  | loopBody condition body =>
    simp only [Frame.reline, complete, withControl, reline, Control.reline, Stmt.reline]
  | call scope k made => exact reline_endingCall c scope k made .nil
  | _ => rfl

/-- A frame that gets a value does not look at lines. -/
theorem reline_resume (c : Config) (v : Value) (frame : Frame) :
    resume g (c.reline f) (v.reline f) (frame.reline f) = (resume g c v frame).reline f := by
  cases frame with
  | unary operator =>
    have h := reline_settling (f := f) c operator.line (v.unary operator.kind)
    rw [← Value.reline_unary] at h
    exact h
  | binaryRight left operator =>
    have h := reline_settling (f := f) c operator.line (left.binary operator.kind v)
    rw [← Value.reline_binary] at h
    exact h
  | logical operator right =>
    have hshort : (v.reline f).shortCircuits operator.kind = v.shortCircuits operator.kind := by
      unfold Value.shortCircuits
      rw [Value.reline_truthy]
    simp only [Frame.reline, resume, Token.reline_kind, hshort]
    split <;> rfl
  | assign target => exact reline_assigning g c target v
  | callee paren arguments =>
    have h := reline_arguing (f := f) g c v paren #[] arguments
    rw [Array.map_empty] at h
    exact h
  | argument callee paren earlier rest =>
    have h := reline_arguing (f := f) g c callee paren (earlier.push v) rest
    rw [Array.map_push] at h
    exact h
  | get name =>
    cases v with
    | object id => exact reline_property c id name
    | _ => rfl
  | setObject name value => cases v <;> rfl
  | setValue object name =>
    show Config.mk _ _ ((c.state.reline f).setField object name.lexeme (v.reline f)) = _
    rw [State.reline_setField]
    rfl
  | print => exact reline_printing c v
  | define name => exact congrArg (·.withControl .completed) (reline_defining c name.lexeme v)
  | branch thenBranch elseBranch =>
    simp only [Frame.reline, resume, Value.reline_truthy]
    cases v.truthy with
    | true => rfl
    | false => cases elseBranch <;> rfl
  | loopTest condition body =>
    simp only [Frame.reline, resume, Value.reline_truthy]
    split <;> rfl
  | superclass name parent methods =>
    cases v with
    | «class» k => exact reline_declaringClass c name (some k) methods
    | _ => rfl
  | loopBody condition body => exact reline_complete c (.loopBody condition body)
  | call scope k made => exact reline_complete c (.call scope k made)
  | _ => rfl

theorem reline_settleFrame (c : Config) (frame : Frame) :
    settleFrame g (c.reline f) (frame.reline f) = (settleFrame g c frame).reline f := by
  obtain ⟨control, frames, state⟩ := c
  cases control with
  | value v => exact reline_resume g ⟨.value v, frames, state⟩ v frame
  | completed => exact reline_complete ⟨.completed, frames, state⟩ frame
  | returning v =>
    cases frame with
    | call scope k made => exact reline_endingCall ⟨.returning v, frames, state⟩ scope k made v
    | _ => rfl
  | raising d => cases frame <;> rfl
  | _ => rfl

theorem reline_pop (c : Config) : pop g (c.reline f) = (pop g c).reline f := by
  obtain ⟨control, frames, state⟩ := c
  cases frames with
  | nil => rfl
  | cons frame rest => exact reline_settleFrame g ⟨control, rest, state⟩ frame

/-- **A step does not look at lines.** -/
theorem step_reline (c : Config) : (c.reline f).step g = (c.step g).reline f := by
  obtain ⟨control, frames, state⟩ := c
  cases control with
  | eval e => exact reline_eval g ⟨.eval e, frames, state⟩ e
  | exec s => exact reline_exec ⟨.exec s, frames, state⟩ s
  | execAll ss => exact reline_execAll ⟨.execAll ss, frames, state⟩ ss
  | value v => exact reline_pop g ⟨.value v, frames, state⟩
  | completed => exact reline_pop g ⟨.completed, frames, state⟩
  | returning v => exact reline_pop g ⟨.returning v, frames, state⟩
  | raising d => exact reline_pop g ⟨.raising d, frames, state⟩

theorem halted_reline (c : Config) : (c.reline f).halted = c.halted := by
  obtain ⟨control, frames, state⟩ := c
  cases control <;> cases frames <;> rfl

/-- **A run does not look at lines.** -/
theorem run_reline (fuel : Nat) (c : Config) :
    Config.run g fuel (c.reline f) = (Config.run g fuel c).reline f := by
  induction fuel generalizing c with
  | zero => rfl
  | succ fuel ih =>
    unfold Config.run
    rw [halted_reline, step_reline, ih]
    split <;> rfl

end Config

end Lox
