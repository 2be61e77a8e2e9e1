/-
  Lox.Forest
  ──────────
  **SCOPES AND THEIR CHAINS.**

  All scopes of a running program, each with its variables and a link to the
  scope around it.  A link always leads to an older scope, so every chain of
  links ends.  A variable can be found in two ways: by searching the chain
  for its name, or in the scope a known number of links away.
-/
import Lox.Bindings
import Lox.Diagnostic

namespace Lox

/-! ## §1. Scopes. -/

/-- Names a scope. -/
abbrev ScopeId := Nat

/-- A scope: its variables, and the scope around it. -/
structure Scope (α : Type) where
  bindings : Bindings α
  enclosing : Option ScopeId

/-- Scopes by number; links lead from a scope to an older one. -/
structure Forest (α : Type) where
  scopes : Array (Scope α)
  links : ∀ (i p : ScopeId) (s : Scope α),
    scopes[i]? = some s → s.enclosing = some p → p < i

namespace Forest

variable {α : Type}

/-- One scope without variables and without a scope around it. -/
def root : Forest α where
  scopes := #[⟨[], none⟩]
  links := by
    intro i p s hs hp
    cases i with
    | zero =>
      cases hs
      cases hp
    | succ i => simp at hs

/-- The scope around a scope. -/
def enclosing? (f : Forest α) (id : ScopeId) : Option ScopeId :=
  f.scopes[id]?.bind Scope.enclosing

/-- The variables of a scope. -/
def bindings (f : Forest α) (id : ScopeId) : Bindings α :=
  (f.scopes[id]?.map Scope.bindings).getD []

/-- The number of the next new scope. -/
def nextId (f : Forest α) : ScopeId :=
  f.scopes.size

/-- A new scope with some variables inside `parent`, which should exist. -/
def child (f : Forest α) (parent : ScopeId) (bindings : Bindings α) : Forest α where
  scopes := f.scopes.push ⟨bindings, if parent < f.scopes.size then some parent else none⟩
  links := by
    intro i p s hs hp
    rw [Array.getElem?_push] at hs
    split at hs
    · next hi =>
      cases hs
      dsimp only at hp
      split at hp
      · next hlt =>
        cases hp
        exact hi ▸ hlt
      · cases hp
    · exact f.links i p s hs hp

/-- Change the variables of a scope. -/
def update (f : Forest α) (id : ScopeId) (change : Bindings α → Bindings α) : Forest α where
  scopes := f.scopes.modify id fun s => { s with bindings := change s.bindings }
  links := by
    intro i p s hs hp
    rw [Array.getElem?_modify] at hs
    split at hs
    · next h =>
      subst h
      obtain ⟨s', hs', rfl⟩ := Option.map_eq_some_iff.mp hs
      exact f.links id p s' hs' hp
    · exact f.links i p s hs hp

/-- Give a name a value in a scope. -/
def define (f : Forest α) (id : ScopeId) (name : String) (value : α) : Forest α :=
  f.update id (·.insert name value)

/-! ## §2. Searching the chain. -/

/-- The nearest scope on the chain from `id` that binds a name. -/
def holder? (f : Forest α) (name : String) (id : ScopeId) : Option ScopeId :=
  match _hs : f.scopes[id]? with
  | none => none
  | some s =>
      if s.bindings.binds name then some id
      else
        match _hp : s.enclosing with
        | none => none
        | some p => f.holder? name p
termination_by id
decreasing_by exact f.links id p s _hs _hp

/-- The value of the nearest variable with a name. -/
def get (f : Forest α) (id : ScopeId) (name : String) : Except RuntimeFault α :=
  match (f.holder? name id).bind fun h => (f.bindings h).get? name with
  | some value => .ok value
  | none => .error (.undefinedVariable name)

/-- The scope that an assignment to a name changes. -/
def target (f : Forest α) (id : ScopeId) (name : String) : Except RuntimeFault ScopeId :=
  match f.holder? name id with
  | some h => .ok h
  | none => .error (.undefinedVariable name)

/-- Give the nearest variable with a name a new value. -/
def assign (f : Forest α) (id : ScopeId) (name : String) (value : α) :
    Except RuntimeFault (Forest α) :=
  (f.target id name).map fun h => f.define h name value

/-! ## §3. A known number of links away. -/

/-- The scope that a number of links leads to. -/
def ancestor? (f : Forest α) (id : ScopeId) : Nat → Option ScopeId
  | 0 => some id
  | distance + 1 => (f.enclosing? id).bind fun p => f.ancestor? p distance

/-- The value of a variable in the scope at a distance. -/
def getAt (f : Forest α) (id : ScopeId) (distance : Nat) (name : String) :
    Except RuntimeFault α :=
  match f.ancestor? id distance with
  | none => .error (.chainTooShort name)
  | some a =>
      match (f.bindings a).get? name with
      | some value => .ok value
      | none => .error (.undefinedVariable name)

/-- The scope that an assignment to a name at a distance changes. -/
def targetAt (f : Forest α) (id : ScopeId) (distance : Nat) (name : String) :
    Except RuntimeFault ScopeId :=
  match f.ancestor? id distance with
  | none => .error (.chainTooShort name)
  | some a =>
      if (f.bindings a).binds name then .ok a else .error (.undefinedVariable name)

/-- Give a variable in the scope at a distance a new value. -/
def assignAt (f : Forest α) (id : ScopeId) (distance : Nat) (name : String) (value : α) :
    Except RuntimeFault (Forest α) :=
  (f.targetAt id distance name).map fun a => f.define a name value

end Forest

end Lox
