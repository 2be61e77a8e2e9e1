/-
  Lox.Value.Basic
  ───────────────
  **VALUES.**

  What expressions evaluate to.  Functions and classes are values with an
  identity of their own, and objects are references into the store of
  objects: two of them are equal only if they are the same one.
-/
import Lox.Bindings
import Lox.Forest
import Lox.Syntax.Basic

namespace Lox

/-! ## §1. Functions, classes, objects. -/

/-- Tells functions and classes apart. -/
abbrev Identity := Nat

/-- Names an object. -/
abbrev ObjectId := Nat

/-- The functions that are there from the start. -/
inductive Native where
  /-- The seconds since a fixed moment. -/
  | clock
  deriving Repr, DecidableEq

namespace Native

/-- The name of a native function. -/
def name : Native → String
  | clock => "clock"

/-- The number of its arguments. -/
def arity : Native → Nat
  | clock => 0

end Native

/-- A function with the scope it was declared in. -/
structure Function where
  identity : Identity
  decl : FunctionDecl Stmt
  closure : ScopeId
  /-- Whether a call yields the object that the function is bound to. -/
  isInitializer : Bool

namespace Function

/-- The name of a function. -/
def name (f : Function) : String := f.decl.name.lexeme

/-- The number of its parameters. -/
def arity (f : Function) : Nat := f.decl.params.length

end Function

/-- A class with its own methods and, maybe, the class it inherits from. -/
structure Class where
  identity : Identity
  name : String
  superclass : Option Class
  methods : Bindings Function

namespace Class

/-- A method of a class: its own one first, else an inherited one. -/
def method? (c : Class) (name : String) : Option Function :=
  match c with
  | ⟨_, _, none, methods⟩ => methods.get? name
  | ⟨_, _, some parent, methods⟩ => (methods.get? name).or (parent.method? name)

/-- The method that sets up a new object. -/
def initializer? (c : Class) : Option Function :=
  c.method? initializerName

/-- The number of arguments it takes to make an object. -/
def arity (c : Class) : Nat :=
  (c.initializer?.map Function.arity).getD 0

end Class

/-! ## §2. Values. -/

/-- Values. -/
inductive Value where
  | nil
  | bool (b : Bool)
  | number (x : Float)
  | string (s : String)
  | native (n : Native)
  | function (f : Function)
  | class (c : Class)
  | object (id : ObjectId)

/-- An object: its class and its own fields. -/
structure Object where
  cls : Class
  fields : Bindings Value

namespace Value

/-- The value of a literal. -/
def ofLiteral : Literal → Value
  | .number x => number x
  | .string s => string s
  | .bool b => bool b
  | .nil => nil

/-- Everything counts as true but `nil` and `false`. -/
def truthy : Value → Bool
  | nil => false
  | bool b => b
  | _ => true

/-- Equality as the program sees it: values of different kinds differ, and
what has an identity equals only itself. -/
def same : Value → Value → Bool
  | nil, nil => true
  | bool a, bool b => a == b
  | number a, number b => a == b
  | string a, string b => a == b
  | native a, native b => a == b
  | function a, function b => a.identity == b.identity
  | «class» a, «class» b => a.identity == b.identity
  | object a, object b => a == b
  | _, _ => false

/-- The name of a value's kind. -/
def kindName : Value → String
  | nil => "nil"
  | bool _ => "bool"
  | number _ => "number"
  | string _ => "string"
  | native _ => "native"
  | function _ => "function"
  | «class» _ => "class"
  | object _ => "instance"

/-! ## §3. The text of a value. -/

/-- Printed numbers: whole numbers show all their digits and no point, and
there is never an exponent. -/
def numberLayout : Decimal.Layout where
  infinity := "Infinity"
  negativeInfinity := "-Infinity"
  pointZero := false

/-- The text that a program prints for a value. -/
def text (objects : Array Object) : Value → String
  | nil => "nil"
  | bool true => "true"
  | bool false => "false"
  | number x => numberLayout.render x
  | string s => s
  | native _ => "<native fn>"
  | function f => "<fn " ++ f.name ++ ">"
  | «class» c => c.name
  | object id => ((objects[id]?.map (·.cls.name)).getD "") ++ " instance"

end Value

end Lox
