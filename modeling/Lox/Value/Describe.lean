/-
  Lox.Value.Describe
  ──────────────────
  **VALUES IN DETAIL.**

  A description that tells values apart which print alike: kinds are named,
  strings are quoted, and functions, classes and objects show what they are
  made of.  Classes show their superclasses; objects show the names of their
  fields only, because fields may lead back to the object.
-/
import Lox.Text.Quoted
import Lox.Value.Basic

namespace Lox

/-- Numbers in a description: fewest digits, always a point or an exponent;
very large and very small numbers have an exponent without a plus sign. -/
def describedNumbers : Decimal.Layout where
  exactWhole := false
  scientific := some ⟨-4, 16, false⟩

/-- A flag in a description. -/
def describeBool (b : Bool) : String :=
  if b then "true" else "false"

/-- Parts in braces after a head. -/
def describeParts (head : String) (parts : List (String × String)) : String :=
  head ++ " \x7b " ++ ", ".intercalate (parts.map fun (name, part) => name ++ ": " ++ part)
    ++ " \x7d"

/-- A function in detail. -/
def Function.describe (f : Function) : String :=
  describeParts "LoxFunction"
    [("name", Text.quoted f.name), ("arity", Nat.repr f.arity),
     ("is_initializer", describeBool f.isInitializer)]

/-- Methods in detail. -/
def describeMethods (methods : Bindings Function) : String :=
  "\x7b" ++ ", ".intercalate (methods.map fun (name, f) =>
    Text.quoted name ++ ": " ++ f.describe) ++ "\x7d"

/-- A class in detail. -/
def Class.describe (c : Class) : String :=
  match c with
  | ⟨_, name, none, methods⟩ =>
      describeParts "LoxClass"
        [("name", Text.quoted name), ("superclass", "None"), ("methods", describeMethods methods)]
  | ⟨_, name, some parent, methods⟩ =>
      describeParts "LoxClass"
        [("name", Text.quoted name), ("superclass", "Some(" ++ parent.describe ++ ")"),
         ("methods", describeMethods methods)]

/-- An object in detail. -/
def Object.describe (o : Object) : String :=
  describeParts "LoxInstance"
    [("class", Text.quoted o.cls.name),
     ("fields", "[" ++ ", ".intercalate (o.fields.names.map Text.quoted) ++ "]")]

/-- A value in detail. -/
def Value.describe (objects : Array Object) : Value → String
  | .nil => "Nil"
  | .bool b => "Bool(" ++ describeBool b ++ ")"
  | .number x => "Number(" ++ describedNumbers.render x ++ ")"
  | .string s => "String(" ++ Text.quoted s ++ ")"
  | .native n =>
      "Callable(Native(NativeFunction(" ++ n.name ++ "/" ++ Nat.repr n.arity ++ ")))"
  | .function f => "Callable(Function(" ++ f.describe ++ "))"
  | .class c => "Callable(Class(" ++ c.describe ++ "))"
  | .object id =>
      "Instance(" ++ describeParts "RefCell"
        [("value", ((objects[id]?).map Object.describe).getD "")] ++ ")"

end Lox
