/-
  Lox.Proofs.Syntax.Occurrences
  ─────────────────────────────
  **ALL OCCURRENCES OF A TREE.**

  Every use of a variable, of `this` and of `super` in a tree, in the order in
  which the scope analysis meets them, and how often each number comes.
-/
import Lox.Syntax.Basic

namespace Lox

/-! ## §1. Expressions. -/

mutual

/-- The occurrences of an expression. -/
def Expr.occurrences : Expr → List Occurrence
  | .literal _ => []
  | .unary _ right => right.occurrences
  | .binary left _ right => left.occurrences ++ right.occurrences
  | .logical left _ right => left.occurrences ++ right.occurrences
  | .grouping inner => inner.occurrences
  | .variable occurrence => [occurrence]
  | .assign target value => value.occurrences ++ [target]
  | .call callee _ arguments => callee.occurrences ++ occurrencesAll arguments
  | .get object _ => object.occurrences
  | .set object _ value => value.occurrences ++ object.occurrences
  | .super occurrence _ => [occurrence]
  | .this occurrence => [occurrence]

/-- The occurrences of expressions. -/
def Expr.occurrencesAll : List Expr → List Occurrence
  | [] => []
  | e :: rest => e.occurrences ++ occurrencesAll rest

end

/-- The occurrences of an expression that may be missing. -/
def Expr.occurrences? : Option Expr → List Occurrence
  | none => []
  | some e => e.occurrences

theorem Expr.occurrencesAll_append (es es' : List Expr) :
    occurrencesAll (es ++ es') = occurrencesAll es ++ occurrencesAll es' := by
  induction es with
  | nil => rfl
  | cons e es ih => rw [List.cons_append, occurrencesAll, occurrencesAll, ih, List.append_assoc]

/-! ## §2. Statements. -/

mutual

/-- The occurrences of a statement. -/
def Stmt.occurrences : Stmt → List Occurrence
  | .expression e => e.occurrences
  | .print e => e.occurrences
  | .var _ initializer => Expr.occurrences? initializer
  | .block body => occurrencesAll body
  | .ifElse condition thenBranch none => condition.occurrences ++ thenBranch.occurrences
  | .ifElse condition thenBranch (some elseBranch) =>
      condition.occurrences ++ (thenBranch.occurrences ++ elseBranch.occurrences)
  | .while condition body => condition.occurrences ++ body.occurrences
  | .function decl => occurrencesFunction decl
  | .return _ value => Expr.occurrences? value
  | .class _ superclass methods => superclass.toList ++ occurrencesMethods methods

/-- The occurrences of statements. -/
def Stmt.occurrencesAll : List Stmt → List Occurrence
  | [] => []
  | s :: rest => s.occurrences ++ occurrencesAll rest

/-- The occurrences of a function. -/
def Stmt.occurrencesFunction : FunctionDecl Stmt → List Occurrence
  | ⟨_, _, body⟩ => occurrencesAll body

/-- The occurrences of methods. -/
def Stmt.occurrencesMethods : List (FunctionDecl Stmt) → List Occurrence
  | [] => []
  | m :: rest => occurrencesFunction m ++ occurrencesMethods rest

end

theorem Stmt.occurrencesAll_append (ss ss' : List Stmt) :
    occurrencesAll (ss ++ ss') = occurrencesAll ss ++ occurrencesAll ss' := by
  induction ss with
  | nil => rfl
  | cons s ss ih => rw [List.cons_append, occurrencesAll, occurrencesAll, ih, List.append_assoc]

theorem Stmt.occurrencesMethods_append (ms ms' : List (FunctionDecl Stmt)) :
    occurrencesMethods (ms ++ ms') = occurrencesMethods ms ++ occurrencesMethods ms' := by
  induction ms with
  | nil => rfl
  | cons m ms ih => rw [List.cons_append, occurrencesMethods, occurrencesMethods, ih,
      List.append_assoc]

/-! ## §3. How often a number comes. -/

/-- How many occurrences have a number. -/
def tally (i : Nat) (os : List Occurrence) : Nat :=
  (os.map Occurrence.id).count i

@[simp]
theorem tally_nil (i : Nat) : tally i [] = 0 := rfl

@[simp]
theorem tally_append (i : Nat) (os os' : List Occurrence) :
    tally i (os ++ os') = tally i os + tally i os' := by
  unfold tally
  rw [List.map_append, List.count_append]

/-- A loop with three clauses uses what its clauses and its body use. -/
theorem tally_forLoop (i : Nat) (initializer : Option Stmt) (condition increment : Option Expr)
    (body : Stmt) :
    tally i (Stmt.forLoop initializer condition increment body).occurrences
      = tally i (Stmt.occurrencesAll initializer.toList) + tally i (Expr.occurrences? condition)
        + tally i (Expr.occurrences? increment) + tally i body.occurrences := by
  cases initializer <;> cases condition <;> cases increment <;>
    simp [Stmt.forLoop, Stmt.occurrences, Stmt.occurrencesAll, Expr.occurrences?,
      Expr.occurrences] <;> omega

end Lox
