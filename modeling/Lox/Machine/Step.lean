/-
  Lox.Machine.Step
  ────────────────
  **ONE STEP OF A RUNNING PROGRAM.**

  `Config.step` is a total function without recursion: it looks at what is
  being done and at the innermost frame.  A program has ended where there is
  an outcome and no frame waits for it; a step changes nothing there.
-/
import Lox.Machine.Basic
import Lox.Value.Operator

namespace Lox

namespace Config

/-! ## §1. Variables. -/

/-- The value of a variable: in the scope at the recorded distance, or among
the globals if no distance is recorded. -/
def lookUp (g : Setting) (s : State) (o : Occurrence) : Except RuntimeFault Value :=
  match g.distances[o.id]? with
  | some distance => s.scopes.getAt s.scope distance o.name.lexeme
  | none => s.scopes.get globalScope o.name.lexeme

/-- The scope that an assignment to a variable changes. -/
def assignmentTarget (g : Setting) (s : State) (o : Occurrence) : Except RuntimeFault ScopeId :=
  match g.distances[o.id]? with
  | some distance => s.scopes.targetAt s.scope distance o.name.lexeme
  | none => s.scopes.target globalScope o.name.lexeme

/-- Assign to a variable; the assigned value is the value of the assignment. -/
def assigning (g : Setting) (c : Config) (o : Occurrence) (v : Value) : Config :=
  match assignmentTarget g c.state o with
  | .ok scope => (c.mapState (·.define scope o.name.lexeme v)).yielding v
  | .error fault => c.failing o.name.line fault

/-! ## §2. Methods and properties. -/

/-- The function that binding a method in a state gives: it closes over the
next new scope. -/
def boundMethod (s : State) (f : Function) : Function :=
  { f with identity := s.nextIdentity, closure := s.scopes.nextId }

/-- The state after binding a method to an object: there is a new scope in
which `this` is the object. -/
def bind (s : State) (f : Function) (object : ObjectId) : State :=
  (s.child f.closure [("this", .object object)]).useIdentities 1

/-- Yield a method bound to an object. -/
def yieldingMethod (c : Config) (f : Function) (object : ObjectId) : Config :=
  let bound := boundMethod c.state f
  (c.mapState (bind · f object)).yielding (.function bound)

/-- A property of an object: a field if there is one, else a method. -/
def property (c : Config) (id : ObjectId) (name : Token) : Config :=
  match c.state.objects[id]? with
  | none => c.failing name.line .noProperties
  | some object =>
      match object.fields.get? name.lexeme with
      | some v => c.yielding v
      | none =>
          match object.cls.method? name.lexeme with
          | some f => c.yieldingMethod f id
          | none => c.failing name.line (.undefinedProperty name.lexeme)

/-- Set a field of an object; the value is the value of the assignment. -/
def settingField (c : Config) (id : ObjectId) (name : Token) (v : Value) : Config :=
  (c.mapState (·.setField id name.lexeme v)).yielding v

/-- The class that `super` stands for at a distance. -/
def superclassAt (s : State) (distance : Nat) (keyword : Token) : Except RuntimeFault Class :=
  match s.scopes.getAt s.scope distance keyword.lexeme with
  | .error fault => .error fault
  | .ok (.class parent) => .ok parent
  | .ok _ => .error .superNotClass

/-- The object that `this` stands for in the scope just inside the one of
`super`. -/
def receiverAt (s : State) : Nat → Except RuntimeFault ObjectId
  | 0 => .error .thisUnresolved
  | distance + 1 =>
      match s.scopes.getAt s.scope distance "this" with
      | .error fault => .error fault
      | .ok (.object id) => .ok id
      | .ok _ => .error .thisNotObject

/-- A method of the superclass that was in force where the class was
declared, bound to the current object. -/
def superMethod (g : Setting) (c : Config) (o : Occurrence) (name : Token) : Config :=
  match g.distances[o.id]? with
  | none => c.failing o.name.line .superUnresolved
  | some distance =>
      match superclassAt c.state distance o.name with
      | .error fault => c.failing o.name.line fault
      | .ok parent =>
          match receiverAt c.state distance with
          | .error fault => c.failing o.name.line fault
          | .ok id =>
              match parent.method? name.lexeme with
              | some f => c.yieldingMethod f id
              | none => c.failing name.line (.undefinedProperty name.lexeme)

/-! ## §3. Calls. -/

/-- Parameters with the arguments at their places. -/
def parameters (params : List Token) (arguments : List Value) : Bindings Value :=
  (params.zip arguments).foldl (fun b (param, v) => b.insert param.lexeme v) []

/-- Start the body of a function in a new scope that holds its parameters. -/
def entering (c : Config) (f : Function) (arguments : Array Value) (made : Option ObjectId) :
    Config :=
  let caller := c.state.scope
  let scope := c.state.scopes.nextId
  let bindings := parameters f.decl.params arguments.toList
  (c.mapState fun s => (s.child f.closure bindings).beginCall scope).within
    (.call caller f made) (.execAll f.decl.body)

/-- Make an object of a class and set it up. -/
def making (c : Config) (k : Class) (arguments : Array Value) : Config :=
  let id := c.state.objects.size
  let c := c.mapState (·.addObject k)
  match k.initializer? with
  | none => c.yielding (.object id)
  | some f =>
      let bound := boundMethod c.state f
      (c.mapState (bind · f id)).entering bound arguments (some id)

/-- What can be called. -/
inductive Callable where
  | native (n : Native)
  | function (f : Function)
  | class (k : Class)

/-- A value as something to call. -/
def Callable.ofValue? : Value → Option Callable
  | .native n => some (.native n)
  | .function f => some (.function f)
  | .class k => some (.class k)
  | _ => none

/-- The number of arguments of a call. -/
def Callable.arity : Callable → Nat
  | .native n => n.arity
  | .function f => f.arity
  | .class k => k.arity

/-- Yield what a clock shows. -/
def readingClock (c : Config) (clock : Clock) : Config :=
  (c.mapState (·.readClock)).yielding (.number (clock.reading c.state.readings))

/-- Call a value whose arguments have been evaluated. -/
def calling (g : Setting) (c : Config) (callee : Value) (paren : Token)
    (arguments : Array Value) : Config :=
  match Callable.ofValue? callee with
  | none => c.failing paren.line .notCallable
  | some callable =>
      if arguments.size ≠ callable.arity then
        c.failing paren.line (.wrongArity callable.arity arguments.size)
      else if g.exhausted c.state.depth then c.failing paren.line .stackOverflow
      else
        match callable with
        | .native .clock => c.readingClock g.clock
        | .function f => c.entering f arguments none
        | .class k => c.making k arguments

/-- What the call of a function yields: initializers yield the object they
are bound to, whatever their body did. -/
def callResult (s : State) (f : Function) (returned : Value) : Except RuntimeFault Value :=
  if f.isInitializer then s.scopes.getAt f.closure 0 "this" else .ok returned

/-- End the call of a function whose body is done. -/
def endingCall (c : Config) (scope : ScopeId) (f : Function) (made : Option ObjectId)
    (returned : Value) : Config :=
  let c := c.mapState (·.endCall scope)
  match callResult c.state f returned, made with
  | .error fault, _ => c.failing f.decl.name.line fault
  | .ok _, some id => c.yielding (.object id)
  | .ok v, none => c.yielding v

/-! ## §4. Classes. -/

/-- The methods of a class as functions; of two with one name the last one
counts. -/
def methodTable (closure : ScopeId) (first : Identity) (methods : List (FunctionDecl Stmt)) :
    Bindings Function :=
  methods.zipIdx.foldl
    (fun table (decl, i) =>
      table.insert decl.name.lexeme ⟨first + i, decl, closure, decl.isInitializer⟩) []

/-- The scope that methods close over: a new one that holds `super` if there
is a superclass, else the current one. -/
def methodScope (s : State) : Option Class → ScopeId
  | some _ => s.scopes.nextId
  | none => s.scope

/-- The state with the scope that methods close over. -/
def openMethodScope (s : State) : Option Class → State
  | some parent => s.child s.scope [("super", .class parent)]
  | none => s

/-- The class of a declaration; its methods have the identities after its
own. -/
def declaredClass (s : State) (name : Token) (parent : Option Class)
    (methods : List (FunctionDecl Stmt)) : Class where
  identity := s.nextIdentity
  name := name.lexeme
  superclass := parent
  methods := methodTable (methodScope s parent) (s.nextIdentity + 1) methods

/-- Give the name of a class declaration its class. -/
def declaringClass (c : Config) (name : Token) (parent : Option Class)
    (methods : List (FunctionDecl Stmt)) : Config :=
  let cls := declaredClass c.state name parent methods
  let c := c.mapState fun s => (openMethodScope s parent).useIdentities (1 + methods.length)
  match c.state.scopes.target c.state.scope name.lexeme with
  | .ok scope => (c.mapState (·.define scope name.lexeme (.class cls))).withControl .completed
  | .error fault => c.failing name.line fault

/-! ## §5. Starting. -/

/-- Start to evaluate an expression. -/
def eval (g : Setting) (c : Config) : Expr → Config
  | .literal value => c.yielding (.ofLiteral value)
  | .grouping inner => c.withControl (.eval inner)
  | .unary operator right => c.within (.unary operator) (.eval right)
  | .binary left operator right => c.within (.binaryLeft operator right) (.eval left)
  | .logical left operator right => c.within (.logical operator right) (.eval left)
  | .variable o => c.settling o.name.line (lookUp g c.state o)
  | .assign target value => c.within (.assign target) (.eval value)
  | .call callee paren arguments => c.within (.callee paren arguments) (.eval callee)
  | .get object name => c.within (.get name) (.eval object)
  | .set object name value => c.within (.setObject name value) (.eval object)
  | .this o => c.settling o.name.line (lookUp g c.state o)
  | .super o method => superMethod g c o method

/-- Start to execute a statement. -/
def exec (c : Config) : Stmt → Config
  | .expression e => c.within .discard (.eval e)
  | .print e => c.within .print (.eval e)
  | .var name none => (c.defining name.lexeme .nil).withControl .completed
  | .var name (some e) => c.within (.define name) (.eval e)
  | .block body =>
      let outer := c.state.scope
      let inner := c.state.scopes.nextId
      (c.mapState fun s => (s.child outer []).inScope inner).within (.leave outer) (.execAll body)
  | .ifElse condition thenBranch elseBranch =>
      c.within (.branch thenBranch elseBranch) (.eval condition)
  | .while condition body => c.within (.loopTest condition body) (.eval condition)
  | .function decl =>
      let f : Function := ⟨c.state.nextIdentity, decl, c.state.scope, false⟩
      ((c.mapState (·.useIdentities 1)).defining decl.name.lexeme (.function f)).withControl
        .completed
  | .return _ none => c.withControl (.returning .nil)
  | .return _ (some e) => c.within .returnValue (.eval e)
  | .class name superclass methods =>
      let c := c.defining name.lexeme .nil
      match superclass with
      | none => c.declaringClass name none methods
      | some parent => c.within (.superclass name parent methods) (.eval (.variable parent))

/-- Execute statements in order. -/
def execAll (c : Config) : List Stmt → Config
  | [] => c.withControl .completed
  | s :: rest => c.within (.sequence rest) (.exec s)

/-! ## §6. Going on. -/

/-- Print a value on a line of its own. -/
def printing (c : Config) (v : Value) : Config :=
  let bytes := (c.state.textOf v ++ "\n").toUTF8
  let control := if c.state.sink.fits bytes then .completed else .raising .outputFull
  (c.mapState (·.write bytes)).withControl control

/-- Evaluate the arguments of a call that are left, then call. -/
def arguing (g : Setting) (c : Config) (callee : Value) (paren : Token) (earlier : Array Value) :
    List Expr → Config
  | [] => calling g c callee paren earlier
  | e :: rest => c.within (.argument callee paren earlier rest) (.eval e)

/-- Tell a frame that the statement inside it is complete.  A frame that waits
for a value is left without one. -/
def complete (c : Config) : Frame → Config
  | .sequence rest => c.withControl (.execAll rest)
  | .loopBody condition body => c.withControl (.exec (.while condition body))
  | .leave scope => (c.mapState (·.inScope scope)).withControl .completed
  | .call scope f made => c.endingCall scope f made .nil
  | _ => c.withControl .completed

/-- Give a value to the frame that waits for it.  For a frame that waits for
the end of a statement, the value ends it. -/
def resume (g : Setting) (c : Config) (v : Value) : Frame → Config
  | .unary operator => c.settling operator.line (v.unary operator.kind)
  | .binaryLeft operator right => c.within (.binaryRight v operator) (.eval right)
  | .binaryRight left operator => c.settling operator.line (left.binary operator.kind v)
  | .logical operator right =>
      if v.shortCircuits operator.kind then c.yielding v else c.withControl (.eval right)
  | .assign target => assigning g c target v
  | .callee paren arguments => arguing g c v paren #[] arguments
  | .argument callee paren earlier rest => arguing g c callee paren (earlier.push v) rest
  | .get name =>
      match v with
      | .object id => c.property id name
      | _ => c.failing name.line .noProperties
  | .setObject name value =>
      match v with
      | .object id => c.within (.setValue id name) (.eval value)
      | _ => c.failing name.line .noFields
  | .setValue object name => c.settingField object name v
  | .discard => c.withControl .completed
  | .print => c.printing v
  | .define name => (c.defining name.lexeme v).withControl .completed
  | .branch thenBranch elseBranch =>
      match v.truthy, elseBranch with
      | true, _ => c.withControl (.exec thenBranch)
      | false, some s => c.withControl (.exec s)
      | false, none => c.withControl .completed
  | .loopTest condition body =>
      if v.truthy then c.within (.loopBody condition body) (.exec body)
      else c.withControl .completed
  | .returnValue => c.withControl (.returning v)
  | .superclass name parent methods =>
      match v with
      | .class k => c.declaringClass name (some k) methods
      | _ => c.failing parent.name.line .superclassNotClass
  | .loopBody condition body => c.complete (.loopBody condition body)
  | .sequence rest => c.complete (.sequence rest)
  | .leave scope => c.complete (.leave scope)
  | .call scope f made => c.complete (.call scope f made)

/-- Leave a frame because of a `return`.  The call around it ends. -/
def unwindReturn (c : Config) (v : Value) : Frame → Config
  | .leave scope => c.mapState (·.inScope scope)
  | .call scope f made => c.endingCall scope f made v
  | _ => c

/-- Leave a frame because of a failure. -/
def unwindRaise (c : Config) : Frame → Config
  | .leave scope => c.mapState (·.inScope scope)
  | .call scope _ _ => c.mapState (·.endCall scope)
  | _ => c

/-- Hand an outcome to a frame that was just removed; what is no outcome is
left alone. -/
def settleFrame (g : Setting) (c : Config) (frame : Frame) : Config :=
  match c.control with
  | .value v => resume g c v frame
  | .completed => c.complete frame
  | .returning v => c.unwindReturn v frame
  | .raising _ => c.unwindRaise frame
  | _ => c

/-- Remove the innermost frame and hand it the outcome. -/
def pop (g : Setting) (c : Config) : Config :=
  match c with
  | ⟨control, frame :: frames, state⟩ => settleFrame g ⟨control, frames, state⟩ frame
  | ⟨control, [], state⟩ => ⟨control, [], state⟩

/-- **One step.** -/
def step (g : Setting) (c : Config) : Config :=
  match c.control with
  | .eval e => eval g c e
  | .exec s => c.exec s
  | .execAll body => c.execAll body
  | _ => pop g c

/-- Whether a program has ended. -/
def halted (c : Config) : Bool :=
  match c.control with
  | .eval _ | .exec _ | .execAll _ => false
  | _ => c.frames.isEmpty

end Config

end Lox
