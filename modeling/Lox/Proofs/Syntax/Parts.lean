/-
  Lox.Proofs.Syntax.Parts
  ───────────────────────
  **PIECES OF CODE.**

  A running program takes its code apart piece by piece.  `Part` says which
  pieces are evaluated or executed where the whole is, in the same scope;
  bodies of blocks, functions and methods are not among them, since they run
  in scopes of their own.  `Super` finds the uses of `super` in a piece of
  code across these scopes, and counts them.
-/
import Lox.Proofs.Parse.Shape

namespace Lox

/-! ## §1. Parts. -/

/-- A piece of code. -/
inductive Code where
  | expr (e : Expr)
  | stmt (s : Stmt)

/-- What is evaluated or executed directly inside a piece of code, in the same
scope. -/
inductive Code.Part : Code → Code → Prop
  | unary {op right} : Part (.expr (.unary op right)) (.expr right)
  | binaryLeft {left op right} : Part (.expr (.binary left op right)) (.expr left)
  | binaryRight {left op right} : Part (.expr (.binary left op right)) (.expr right)
  | logicalLeft {left op right} : Part (.expr (.logical left op right)) (.expr left)
  | logicalRight {left op right} : Part (.expr (.logical left op right)) (.expr right)
  | grouping {inner} : Part (.expr (.grouping inner)) (.expr inner)
  | assigned {target e} : Part (.expr (.assign target e)) (.expr e)
  | callee {callee paren arguments} : Part (.expr (.call callee paren arguments)) (.expr callee)
  | argument {callee paren arguments e} (h : e ∈ arguments) :
      Part (.expr (.call callee paren arguments)) (.expr e)
  | getObject {object name} : Part (.expr (.get object name)) (.expr object)
  | setObject {object name e} : Part (.expr (.set object name e)) (.expr object)
  | setValue {object name e} : Part (.expr (.set object name e)) (.expr e)
  | expression {e} : Part (.stmt (.expression e)) (.expr e)
  | print {e} : Part (.stmt (.print e)) (.expr e)
  | initializer {name e} : Part (.stmt (.var name (some e))) (.expr e)
  | ifCondition {condition th el} : Part (.stmt (.ifElse condition th el)) (.expr condition)
  | thenBranch {condition th el} : Part (.stmt (.ifElse condition th el)) (.stmt th)
  | elseBranch {condition th el} : Part (.stmt (.ifElse condition th (some el))) (.stmt el)
  | whileCondition {condition body} : Part (.stmt (.while condition body)) (.expr condition)
  | whileBody {condition body} : Part (.stmt (.while condition body)) (.stmt body)
  | returned {keyword e} : Part (.stmt (.return keyword (some e))) (.expr e)
  | parent {name parent methods} :
      Part (.stmt (.class name (some parent) methods)) (.expr (.variable parent))

/-! ## §2. The shape of parts. -/

/-- The shape of a piece of code. -/
def Code.Proper : Code → Prop
  | .expr e => e.Proper
  | .stmt s => s.Proper

theorem Expr.ProperAll.mem {es : List Expr} (h : Expr.ProperAll es) {e : Expr} (he : e ∈ es) :
    e.Proper := by
  induction es with
  | nil => cases he
  | cons e' es ih =>
    rcases List.mem_cons.mp he with rfl | he
    · exact h.1
    · exact ih h.2 he

theorem Stmt.ProperAll.mem {ss : List Stmt} (h : Stmt.ProperAll ss) {s : Stmt} (hs : s ∈ ss) :
    s.Proper := by
  induction ss with
  | nil => cases hs
  | cons s' ss ih =>
    rcases List.mem_cons.mp hs with rfl | hs
    · exact h.1
    · exact ih h.2 hs

theorem Stmt.ProperMethods.mem {ms : List (FunctionDecl Stmt)} (h : Stmt.ProperMethods ms)
    {m : FunctionDecl Stmt} (hm : m ∈ ms) : Stmt.ProperFunction m := by
  induction ms with
  | nil => cases hm
  | cons m' ms ih =>
    rcases List.mem_cons.mp hm with rfl | hm
    · exact h.1
    · exact ih h.2 hm

/-- **The parts of proper code are proper.** -/
theorem Code.Part.proper {whole part : Code} (h : Code.Part whole part) (hw : whole.Proper) :
    part.Proper := by
  cases h with
  | binaryLeft | logicalLeft | callee | setObject => exact hw.1
  | binaryRight | logicalRight | assigned | setValue | initializer => exact hw.2
  | argument he => exact Expr.ProperAll.mem hw.2 he
  | @ifCondition _ _ el => cases el <;> exact hw.1
  | @thenBranch _ _ el =>
    cases el with
    | none => exact hw.2.1
    | some el => exact hw.2.1.1
  | elseBranch => exact hw.2.2.1
  | whileCondition => exact hw.1
  | whileBody => exact hw.2.1
  | parent => exact hw.2.1 _ rfl
  | _ => exact hw

/-! ## §3. Uses of `super`. -/

/-- A use of `super` in a piece of code, so many scopes further in.  What stands
in a class with a superclass does not count: there `super` is another one. -/
inductive Code.Super : Code → Nat → Occurrence → Prop
  | here {o method} : Super (.expr (.super o method)) 0 o
  | part {whole part k o} (hpart : Code.Part whole part) (h : Super part k o) : Super whole k o
  | block {body s k o} (hs : s ∈ body) (h : Super (.stmt s) k o) :
      Super (.stmt (.block body)) (k + 1) o
  | function {decl s k o} (hs : s ∈ FunctionDecl.body decl) (h : Super (.stmt s) k o) :
      Super (.stmt (.function decl)) (k + 1) o
  | method {name methods m s k o} (hm : m ∈ methods) (hs : s ∈ FunctionDecl.body m)
      (h : Super (.stmt s) k o) : Super (.stmt (.class name none methods)) (k + 2) o

/-- A use of `super` in the body of a function, so many scopes further in. -/
def FunctionDecl.Super (decl : FunctionDecl Stmt) (k : Nat) (o : Occurrence) : Prop :=
  ∃ s ∈ decl.body, Code.Super (.stmt s) k o

end Lox
