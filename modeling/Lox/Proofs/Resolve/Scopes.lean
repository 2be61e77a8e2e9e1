/-
  Lox.Proofs.Resolve.Scopes
  ─────────────────────────
  **WHAT THE WALK DOES TO SCOPES.**

  Walking over an expression leaves the scopes alone, and walking over a
  statement adds at most the name it declares to the innermost one.  No
  violation that was noted is taken back.
-/
import Lox.Proofs.Parse.Shape
import Lox.Resolve

namespace Lox

/-! ## §1. Bindings. -/

theorem Bindings.binds_iff {α : Type} (b : Bindings α) (name : String) :
    b.binds name ↔ ∃ v, b.get? name = some v := by
  unfold Bindings.binds
  rw [Option.isSome_iff_exists]

theorem Bindings.binds_insert {α : Type} (b : Bindings α) (name other : String) (v : α) :
    (b.insert name v).binds other = (decide (name = other) || b.binds other) := by
  unfold Bindings.binds
  rw [Bindings.get?_insert]
  by_cases h : name = other <;> simp [h]

/-- Only the last value of a name counts. -/
theorem Bindings.insert_insert {α : Type} (b : Bindings α) (name : String) (v v' : α) :
    (b.insert name v).insert name v' = b.insert name v' := by
  induction b with
  | nil => simp [Bindings.insert]
  | cons pair rest ih =>
    obtain ⟨key, old⟩ := pair
    by_cases h : key = name
    · simp [Bindings.insert, h]
    · simp [Bindings.insert, h, ih]

namespace Resolve

/-! ## §2. Finding a name. -/

namespace Scopes

/-- The innermost scope that declares a name: how far away it is, and whether
the name is defined there. -/
def find? : Scopes → String → Option (Nat × Bool)
  | [], _ => none
  | scope :: rest, name =>
      match scope.get? name with
      | some defined => some (0, defined)
      | none => (find? rest name).map fun p => (p.1 + 1, p.2)

theorem distance?_eq_find? (scopes : Scopes) (name : String) :
    scopes.distance? name = (scopes.find? name).map Prod.fst := by
  induction scopes with
  | nil => rfl
  | cons scope rest ih =>
    unfold distance? find? Bindings.binds
    cases scope.get? name with
    | none =>
      rw [ih]
      cases find? rest name <;> rfl
    | some defined => rfl

/-- Every declaration of a name that can be seen is a definition. -/
def Defined (scopes : Scopes) (name : String) : Prop :=
  ∀ distance, scopes.find? name ≠ some (distance, false)

/-- A name is declared in the innermost scope. -/
def declare : Scopes → String → Scopes
  | [], _ => []
  | scope :: rest, name =>
      if scope.binds name then scope :: rest else scope.insert name false :: rest

/-- A name is defined in the innermost scope. -/
def add : Scopes → String → Scopes
  | [], _ => []
  | scope :: rest, name => scope.insert name true :: rest

/-- The scopes after a statement. -/
def after (scopes : Scopes) (s : Stmt) : Scopes :=
  match s.declared? with
  | some name => scopes.add name.lexeme
  | none => scopes

/-- The scopes after some statements. -/
def afterAll (scopes : Scopes) (ss : List Stmt) : Scopes :=
  ss.foldl after scopes

theorem after_of_declared {scopes : Scopes} {s : Stmt} (h : s.declared? = none) :
    scopes.after s = scopes := by
  rw [after, h]

theorem add_declare (scopes : Scopes) (name : String) :
    (scopes.declare name).add name = scopes.add name := by
  cases scopes with
  | nil => rfl
  | cons scope rest =>
    rw [declare]
    split
    · rfl
    · show (scope.insert name false).insert name true :: rest = _
      rw [Bindings.insert_insert]
      rfl

@[simp]
theorem tail_add (scopes : Scopes) (name : String) : (scopes.add name).tail = scopes.tail := by
  cases scopes <;> rfl

@[simp]
theorem tail_after (scopes : Scopes) (s : Stmt) : (scopes.after s).tail = scopes.tail := by
  unfold after
  split
  · exact tail_add scopes _
  · rfl

theorem tail_afterAll (scopes : Scopes) (ss : List Stmt) :
    (scopes.afterAll ss).tail = scopes.tail := by
  induction ss generalizing scopes with
  | nil => rfl
  | cons s ss ih => exact (ih (scopes.after s)).trans (tail_after scopes s)

/-- A new definition is found first, and no other name is found elsewhere. -/
theorem find?_add (scope : Bindings Bool) (rest : Scopes) (name other : String) :
    find? (add (scope :: rest) name) other
      = if name = other then some (0, true) else find? (scope :: rest) other := by
  rw [add, find?, find?, Bindings.get?_insert]
  by_cases h : name = other
  · rw [if_pos h, if_pos h]
  · rw [if_neg h, if_neg h]

theorem find?_insert_false (scope : Bindings Bool) (rest : Scopes) (name other : String) :
    find? (scope.insert name false :: rest) other
      = if name = other then some (0, false) else find? (scope :: rest) other := by
  rw [find?, find?, Bindings.get?_insert]
  by_cases h : name = other
  · rw [if_pos h, if_pos h]
  · rw [if_neg h, if_neg h]

/-- Names other than the declared one are found where they were. -/
theorem find?_declare_of_ne (scopes : Scopes) {name other : String} (h : name ≠ other) :
    find? (scopes.declare name) other = find? scopes other := by
  cases scopes with
  | nil => rfl
  | cons scope rest =>
    rw [declare]
    split
    · rfl
    · rw [find?_insert_false, if_neg h]

theorem find?_add_of_ne (scopes : Scopes) {name other : String} (h : name ≠ other) :
    find? (scopes.add name) other = find? scopes other := by
  cases scopes with
  | nil => rfl
  | cons scope rest => rw [find?_add, if_neg h]

end Scopes

/-! ## §3. The walk and the scopes. -/

namespace Walk

section Scopes

variable (w : Walk) (role : ClassRole)

@[simp]
theorem report_scopes (t : Token) (fault : ScopeFault) : (w.report t fault).scopes = w.scopes := rfl

@[simp]
theorem reportIf_scopes (b : Bool) (t : Token) (fault : ScopeFault) :
    (w.reportIf b t fault).scopes = w.scopes := by
  unfold reportIf
  split <;> rfl

@[simp]
theorem declare_scopes (t : Token) : (w.declare t).scopes = w.scopes.declare t.lexeme := by
  obtain ⟨scopes, globals, distances, failures⟩ := w
  cases scopes with
  | nil =>
    rw [declare]
    dsimp only
    split <;> rfl
  | cons scope rest =>
    rw [declare, Scopes.declare]
    dsimp only
    split <;> rfl

@[simp]
theorem define_scopes (t : Token) : (w.define t).scopes = w.scopes.add t.lexeme := by
  obtain ⟨scopes, globals, distances, failures⟩ := w
  cases scopes <;> rfl

@[simp]
theorem locate_scopes (o : Occurrence) : (w.locate o).scopes = w.scopes := by
  unfold locate
  split <;> rfl

@[simp]
theorem use_scopes (o : Occurrence) : (w.use o).scopes = w.scopes := by
  unfold use checkInitialized
  rw [locate_scopes]
  split <;> exact reportIf_scopes w _ _ _

theorem introduce_scopes (names : List Token) :
    (w.introduce names).scopes = names.foldl (fun scopes t => scopes.add t.lexeme) w.scopes := by
  unfold introduce
  induction names generalizing w with
  | nil => rfl
  | cons t names ih =>
    rw [List.foldl_cons, List.foldl_cons, ih, define_scopes, declare_scopes, Scopes.add_declare]

end Scopes

mutual

@[simp]
theorem expr_scopes (role : ClassRole) : ∀ (w : Walk) (e : Expr), (w.expr role e).scopes = w.scopes
  | w, .literal _ => by rw [expr]
  | w, .grouping inner => by rw [expr, expr_scopes role w inner]
  | w, .unary _ right => by rw [expr, expr_scopes role w right]
  | w, .binary left _ right => by rw [expr, expr_scopes role _ right, expr_scopes role w left]
  | w, .logical left _ right => by rw [expr, expr_scopes role _ right, expr_scopes role w left]
  | w, .variable o => by rw [expr, use_scopes]
  | w, .assign target value => by rw [expr, locate_scopes, expr_scopes role w value]
  | w, .call callee _ arguments => by
    rw [expr, exprs_scopes role _ arguments, expr_scopes role w callee]
  | w, .get object _ => by rw [expr, expr_scopes role w object]
  | w, .set object _ value => by rw [expr, expr_scopes role _ object, expr_scopes role w value]
  | w, .this o => by
    rw [expr.eq_def]
    cases role with
    | none => rfl
    | plain | derived => exact locate_scopes w o
  | w, .super o _ => by
    rw [expr.eq_def]
    cases role with
    | none | plain => rfl
    | derived => exact locate_scopes w o

@[simp]
theorem exprs_scopes (role : ClassRole) : ∀ (w : Walk) (es : List Expr),
    (w.exprs role es).scopes = w.scopes
  | w, [] => by rw [exprs]
  | w, e :: rest => by rw [exprs, exprs_scopes role _ rest, expr_scopes role w e]

end

@[simp]
theorem expr?_scopes (role : ClassRole) (w : Walk) (e : Option Expr) :
    (w.expr? role e).scopes = w.scopes := by
  cases e with
  | none => rfl
  | some e => exact expr_scopes role w e

@[simp]
theorem checkReturn_scopes (w : Walk) (role : FunctionRole) (keyword : Token) (hasValue : Bool) :
    (w.checkReturn role keyword hasValue).scopes = w.scopes := by
  unfold checkReturn
  rw [reportIf_scopes, reportIf_scopes]

/-- The scopes inside the body of a class. -/
def classScopes (scopes : Scopes) (derived : Bool) : Scopes :=
  [("this", true)] :: if derived then [("super", true)] :: scopes else scopes

theorem enterClass_scopes (w : Walk) (name : Token) (superclass : Option Occurrence) :
    (w.enterClass name superclass).scopes = classScopes w.scopes superclass.isSome := by
  cases superclass with
  | none => rfl
  | some parent =>
    unfold enterClass enter
    dsimp only
    rw [use_scopes, reportIf_scopes]
    rfl

theorem leaveClass_scopes (w : Walk) (superclass : Option Occurrence) (scopes : Scopes)
    (h : w.scopes = classScopes scopes superclass.isSome) :
    (w.leaveClass superclass).scopes = scopes := by
  cases superclass with
  | none =>
    show w.scopes.tail = scopes
    rw [h]
    rfl
  | some parent =>
    show w.scopes.tail.tail = scopes
    rw [h]
    rfl

/-- The scope of the parameters of a function. -/
def parameterScope (params : List Token) : Bindings Bool :=
  params.foldl (fun scope t => scope.insert t.lexeme true) []

theorem introduce_enter_scopes (w : Walk) (params : List Token) :
    ((w.enter []).introduce params).scopes = parameterScope params :: w.scopes := by
  rw [introduce_scopes]
  unfold parameterScope
  show params.foldl (fun (scopes : Scopes) t => scopes.add t.lexeme) ([] :: w.scopes) = _
  generalize ([] : Bindings Bool) = scope
  induction params generalizing scope with
  | nil => rfl
  | cons t params ih => exact ih _

mutual

/-- **A statement adds at most the name it declares.** -/
theorem stmt_scopes : ∀ (around : Surroundings) (w : Walk) (s : Stmt), s.Proper →
    (w.stmt around s).scopes = w.scopes.after s
  | around, w, .expression e, _ => by
    rw [stmt]
    exact expr_scopes _ w e
  | around, w, .print e, _ => by
    rw [stmt]
    exact expr_scopes _ w e
  | around, w, .var name initializer, _ => by
    rw [stmt, define_scopes, expr?_scopes, declare_scopes, Scopes.add_declare]
    rfl
  | around, w, .block body, h => by
    rw [stmt]
    show ((w.enter []).stmts around body).scopes.tail = w.scopes
    rw [stmts_scopes around _ body h, Scopes.tail_afterAll]
    rfl
  | around, w, .ifElse condition thenBranch none, h => by
    rw [stmt, stmt_scopes around _ thenBranch h.2.1, expr_scopes]
    exact Scopes.after_of_declared h.2.2
  | around, w, .ifElse condition thenBranch (some elseBranch), h => by
    rw [stmt, stmt_scopes around _ elseBranch h.2.2.1, stmt_scopes around _ thenBranch h.2.1.1,
      expr_scopes, Scopes.after_of_declared h.2.1.2]
    exact Scopes.after_of_declared h.2.2.2
  | around, w, .while condition body, h => by
    rw [stmt, stmt_scopes around _ body h.2.1, expr_scopes]
    exact Scopes.after_of_declared h.2.2
  | around, w, .function decl, h => by
    rw [stmt, function_scopes _ _ decl h.2, introduce_scopes]
    rfl
  | around, w, .return keyword value, _ => by
    rw [stmt, expr?_scopes, checkReturn_scopes]
    rfl
  | around, w, .class name superclass methods, h => by
    rw [stmt]
    refine leaveClass_scopes _ superclass _ ?_
    rw [methods_scopes _ _ methods h.2.2, enterClass_scopes, introduce_scopes]
    rfl

theorem stmts_scopes : ∀ (around : Surroundings) (w : Walk) (ss : List Stmt), Stmt.ProperAll ss →
    (w.stmts around ss).scopes = w.scopes.afterAll ss
  | around, w, [], _ => by
    rw [stmts]
    rfl
  | around, w, s :: rest, h => by
    rw [stmts, stmts_scopes around _ rest h.2, stmt_scopes around w s h.1]
    rfl

theorem function_scopes : ∀ (around : Surroundings) (w : Walk) (decl : FunctionDecl Stmt),
    Stmt.ProperFunction decl → (w.function around decl).scopes = w.scopes
  | around, w, ⟨_, params, body⟩, h => by
    rw [function]
    show (((w.enter []).introduce params).stmts around body).scopes.tail = w.scopes
    rw [stmts_scopes around _ body h.2, Scopes.tail_afterAll, introduce_enter_scopes]
    rfl

theorem methods_scopes : ∀ (around : Surroundings) (w : Walk) (ms : List (FunctionDecl Stmt)),
    Stmt.ProperMethods ms → (w.methods around ms).scopes = w.scopes
  | around, w, [], _ => by rw [methods]
  | around, w, m :: rest, h => by
    rw [methods, methods_scopes around _ rest h.2, function_scopes _ w m h.1]

end

end Walk

end Resolve

end Lox
