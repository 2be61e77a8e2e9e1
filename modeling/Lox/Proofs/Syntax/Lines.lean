/-
  Lox.Proofs.Syntax.Lines
  ───────────────────────
  **PROGRAMS ON OTHER LINES.**

  A text that is moved down is the same program on other lines.  To put
  tokens, trees and diagnostics on other lines is a map over all of them that
  keeps every kind, spelling and number; it is applied with a shift of lines
  and with the map that forgets them all.
-/
import Lox.Diagnostic
import Lox.Syntax.Basic

namespace Lox

/-! ## §1. Tokens and diagnostics. -/

/-- A token on another line. -/
def Token.reline (f : Nat → Nat) (t : Token) : Token :=
  { t with line := f t.line }

@[simp]
theorem Token.reline_kind (f : Nat → Nat) (t : Token) : (t.reline f).kind = t.kind := rfl

@[simp]
theorem Token.reline_lexeme (f : Nat → Nat) (t : Token) : (t.reline f).lexeme = t.lexeme := rfl

/-- A diagnostic on another line. -/
def Diagnostic.reline (f : Nat → Nat) : Diagnostic → Diagnostic
  | .lexical line fault => .lexical (f line) fault
  | .syntactic offender fault => .syntactic (offender.reline f) fault
  | .scoping offender fault => .scoping (offender.reline f) fault
  | .runtime line fault => .runtime (f line) fault
  | .outputFull => .outputFull

/-- No message tells a line. -/
theorem Diagnostic.message_reline (f : Nat → Nat) (d : Diagnostic) :
    (d.reline f).message = d.message := by
  cases d with
  | lexical line fault => cases fault <;> rfl
  | _ => rfl

/-! ## §2. Trees. -/

/-- An occurrence on another line. -/
def Occurrence.reline (f : Nat → Nat) (o : Occurrence) : Occurrence :=
  { o with name := o.name.reline f }

mutual

/-- An expression on other lines. -/
def Expr.reline (f : Nat → Nat) : Expr → Expr
  | .literal value => .literal value
  | .unary operator right => .unary (operator.reline f) (right.reline f)
  | .binary left operator right => .binary (left.reline f) (operator.reline f) (right.reline f)
  | .logical left operator right => .logical (left.reline f) (operator.reline f) (right.reline f)
  | .grouping inner => .grouping (inner.reline f)
  | .variable occurrence => .variable (occurrence.reline f)
  | .assign target value => .assign (target.reline f) (value.reline f)
  | .call callee paren arguments =>
      .call (callee.reline f) (paren.reline f) (Expr.relineAll f arguments)
  | .get object name => .get (object.reline f) (name.reline f)
  | .set object name value => .set (object.reline f) (name.reline f) (value.reline f)
  | .super occurrence method => .super (occurrence.reline f) (method.reline f)
  | .this occurrence => .this (occurrence.reline f)

/-- Expressions on other lines. -/
def Expr.relineAll (f : Nat → Nat) : List Expr → List Expr
  | [] => []
  | e :: rest => e.reline f :: Expr.relineAll f rest

end

mutual

/-- A statement on other lines. -/
def Stmt.reline (f : Nat → Nat) : Stmt → Stmt
  | .expression e => .expression (e.reline f)
  | .print e => .print (e.reline f)
  | .var name initializer => .var (name.reline f) (initializer.map (Expr.reline f))
  | .block body => .block (Stmt.relineAll f body)
  | .ifElse condition thenBranch none =>
      .ifElse (condition.reline f) (thenBranch.reline f) none
  | .ifElse condition thenBranch (some elseBranch) =>
      .ifElse (condition.reline f) (thenBranch.reline f) (some (elseBranch.reline f))
  | .while condition body => .while (condition.reline f) (body.reline f)
  | .function decl => .function (Stmt.relineFunction f decl)
  | .return keyword value => .return (keyword.reline f) (value.map (Expr.reline f))
  | .class name superclass methods =>
      .class (name.reline f) (superclass.map (Occurrence.reline f)) (Stmt.relineMethods f methods)

/-- Statements on other lines. -/
def Stmt.relineAll (f : Nat → Nat) : List Stmt → List Stmt
  | [] => []
  | s :: rest => s.reline f :: Stmt.relineAll f rest

/-- A function on other lines. -/
def Stmt.relineFunction (f : Nat → Nat) : FunctionDecl Stmt → FunctionDecl Stmt
  | ⟨name, params, body⟩ => ⟨name.reline f, params.map (Token.reline f), Stmt.relineAll f body⟩

/-- Methods on other lines. -/
def Stmt.relineMethods (f : Nat → Nat) : List (FunctionDecl Stmt) → List (FunctionDecl Stmt)
  | [] => []
  | m :: rest => Stmt.relineFunction f m :: Stmt.relineMethods f rest

end

@[simp]
theorem Expr.relineAll_eq_map (f : Nat → Nat) (es : List Expr) :
    Expr.relineAll f es = es.map (Expr.reline f) := by
  induction es with
  | nil => rfl
  | cons e rest ih => rw [Expr.relineAll, ih, List.map_cons]

@[simp]
theorem Stmt.relineAll_eq_map (f : Nat → Nat) (ss : List Stmt) :
    Stmt.relineAll f ss = ss.map (Stmt.reline f) := by
  induction ss with
  | nil => rfl
  | cons s rest ih => rw [Stmt.relineAll, ih, List.map_cons]

@[simp]
theorem Stmt.relineMethods_eq_map (f : Nat → Nat) (ms : List (FunctionDecl Stmt)) :
    Stmt.relineMethods f ms = ms.map (Stmt.relineFunction f) := by
  induction ms with
  | nil => rfl
  | cons m rest ih => rw [Stmt.relineMethods, ih, List.map_cons]

theorem Stmt.relineFunction_eq (f : Nat → Nat) (name : Token) (params : List Token)
    (body : List Stmt) : Stmt.relineFunction f ⟨name, params, body⟩
      = ⟨name.reline f, params.map (Token.reline f), body.map (Stmt.reline f)⟩ := by
  rw [Stmt.relineFunction, Stmt.relineAll_eq_map]

theorem Stmt.reline_ifElse (f : Nat → Nat) (condition : Expr) (thenBranch : Stmt)
    (elseBranch : Option Stmt) : (Stmt.ifElse condition thenBranch elseBranch).reline f
      = .ifElse (condition.reline f) (thenBranch.reline f) (elseBranch.map (Stmt.reline f)) := by
  cases elseBranch with
  | none => rw [Stmt.reline, Option.map_none]
  | some s => rw [Stmt.reline, Option.map_some]

/-! ## §3. From line to line. -/

variable (f g : Nat → Nat)

theorem Token.reline_reline (t : Token) : (t.reline f).reline g = t.reline (g ∘ f) := rfl

theorem Occurrence.reline_reline (o : Occurrence) : (o.reline f).reline g = o.reline (g ∘ f) := rfl

mutual

theorem Expr.reline_reline : ∀ e : Expr, (e.reline f).reline g = e.reline (g ∘ f)
  | .literal _ => by simp only [Expr.reline]
  | .unary _ right => by simp only [Expr.reline, Token.reline_reline, reline_reline right]
  | .binary left _ right | .logical left _ right => by
    simp only [Expr.reline, Token.reline_reline, reline_reline left, reline_reline right]
  | .grouping inner => by simp only [Expr.reline, reline_reline inner]
  | .variable _ | .super _ _ | .this _ => by
    simp only [Expr.reline, Occurrence.reline_reline, Token.reline_reline]
  | .assign _ value => by simp only [Expr.reline, Occurrence.reline_reline, reline_reline value]
  | .call callee _ arguments => by
    simp only [Expr.reline, Token.reline_reline, reline_reline callee, relineAll_relineAll arguments]
  | .get object _ => by simp only [Expr.reline, Token.reline_reline, reline_reline object]
  | .set object _ value => by
    simp only [Expr.reline, Token.reline_reline, reline_reline object, reline_reline value]

theorem Expr.relineAll_relineAll : ∀ es : List Expr,
    Expr.relineAll g (Expr.relineAll f es) = Expr.relineAll (g ∘ f) es
  | [] => by simp only [Expr.relineAll]
  | e :: rest => by simp only [Expr.relineAll, reline_reline e, relineAll_relineAll rest]

end

theorem Expr.map_reline_reline (e : Option Expr) :
    (e.map (Expr.reline f)).map (Expr.reline g) = e.map (Expr.reline (g ∘ f)) := by
  cases e with
  | none => rfl
  | some e => exact congrArg some (Expr.reline_reline f g e)

mutual

/-- **Moving a statement twice** is moving it once. -/
theorem Stmt.reline_reline : ∀ s : Stmt, (s.reline f).reline g = s.reline (g ∘ f)
  | .expression e | .print e => by simp only [Stmt.reline, Expr.reline_reline]
  | .var _ initializer => by
    simp only [Stmt.reline, Token.reline_reline, Expr.map_reline_reline]
  | .block body => by simp only [Stmt.reline, relineAll_relineAll body]
  | .ifElse _ thenBranch none => by
    simp only [Stmt.reline, Expr.reline_reline, reline_reline thenBranch]
  | .ifElse _ thenBranch (some elseBranch) => by
    simp only [Stmt.reline, Expr.reline_reline, reline_reline thenBranch, reline_reline elseBranch]
  | .while _ body => by simp only [Stmt.reline, Expr.reline_reline, reline_reline body]
  | .function decl => by simp only [Stmt.reline, relineFunction_relineFunction decl]
  | .return _ value => by simp only [Stmt.reline, Token.reline_reline, Expr.map_reline_reline]
  | .class _ superclass methods => by
    have hparent : (superclass.map (Occurrence.reline f)).map (Occurrence.reline g)
        = superclass.map (Occurrence.reline (g ∘ f)) := by cases superclass <;> rfl
    simp only [Stmt.reline, Token.reline_reline, hparent, relineMethods_relineMethods methods]

theorem Stmt.relineAll_relineAll : ∀ ss : List Stmt,
    Stmt.relineAll g (Stmt.relineAll f ss) = Stmt.relineAll (g ∘ f) ss
  | [] => by simp only [Stmt.relineAll]
  | s :: rest => by simp only [Stmt.relineAll, reline_reline s, relineAll_relineAll rest]

theorem Stmt.relineFunction_relineFunction : ∀ decl : FunctionDecl Stmt,
    Stmt.relineFunction g (Stmt.relineFunction f decl) = Stmt.relineFunction (g ∘ f) decl
  | ⟨_, params, body⟩ => by
    have hparams : (params.map (Token.reline f)).map (Token.reline g)
        = params.map (Token.reline (g ∘ f)) := by
      rw [List.map_map]
      rfl
    simp only [Stmt.relineFunction, Token.reline_reline, hparams, relineAll_relineAll body]

theorem Stmt.relineMethods_relineMethods : ∀ ms : List (FunctionDecl Stmt),
    Stmt.relineMethods g (Stmt.relineMethods f ms) = Stmt.relineMethods (g ∘ f) ms
  | [] => by simp only [Stmt.relineMethods]
  | m :: rest => by
    simp only [Stmt.relineMethods, relineFunction_relineFunction m, relineMethods_relineMethods rest]

end

end Lox
