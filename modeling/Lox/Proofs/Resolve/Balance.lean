/-
  Lox.Proofs.Resolve.Balance
  ──────────────────────────
  **THE WALK IS BALANCED.**

  The walk of the analysis is told at each step which function and which class it is
  in.  It can also keep them itself: it sets a role on the way into a body and sets the
  old one again on the way out (`Tracking`), just as it enters and leaves scopes.
  Nothing forces the two to match, but they do, also where failures are noted.

  Main results:
    * `Tracking.stmt_eq`: both walks go the same way, and the second one has its old
      roles again behind every statement.
    * `Walk.balanced_stmt`: a statement changes no scope but the innermost one, and loses
      no name there.
    * `tracking_balanced`: both together, with what happens to the table of distances.
-/
import Lox.Proofs.Forest
import Lox.Proofs.Resolve.Nesting
import Lox.Proofs.Resolve.Violations

namespace Lox.Resolve

/-! ## §1. A walk that keeps its roles itself. -/

/-- A walk with the function and the class that it takes itself to be in. -/
structure Tracking where
  walk : Walk
  around : Surroundings

namespace Tracking

/-- A step that leaves the roles alone. -/
def act (t : Tracking) (step : Walk → Walk) : Tracking :=
  { t with walk := step t.walk }

/-- Take another role for the current function. -/
def setFunction (t : Tracking) (role : FunctionRole) : Tracking :=
  { t with around := { t.around with functionRole := role } }

/-- Take another role for the current class. -/
def setClass (t : Tracking) (role : ClassRole) : Tracking :=
  { t with around := { t.around with classRole := role } }

mutual

/-- Walk over an expression. -/
def expr (t : Tracking) : Expr → Tracking
  | .literal _ => t
  | .grouping inner => t.expr inner
  | .unary _ right => t.expr right
  | .binary left _ right => (t.expr left).expr right
  | .logical left _ right => (t.expr left).expr right
  | .variable occurrence => t.act (·.use occurrence)
  | .assign target value => (t.expr value).act (·.locate target)
  | .call callee _ arguments => (t.expr callee).exprs arguments
  | .get object _ => t.expr object
  | .set object _ value => (t.expr value).expr object
  | .this occurrence =>
      match t.around.classRole with
      | .none => t.act (·.report occurrence.name .thisOutsideClass)
      | _ => t.act (·.locate occurrence)
  | .super occurrence _ =>
      match t.around.classRole with
      | .none => t.act (·.report occurrence.name .superOutsideClass)
      | .plain => t.act (·.report occurrence.name .superWithoutSuperclass)
      | .derived => t.act (·.locate occurrence)

/-- Walk over expressions in order. -/
def exprs (t : Tracking) : List Expr → Tracking
  | [] => t
  | e :: rest => (t.expr e).exprs rest

end

/-- Walk over an expression that may be missing. -/
def expr? (t : Tracking) : Option Expr → Tracking
  | none => t
  | some e => t.expr e

/-- Enter the body of a class.  The class counts as derived as soon as the walk comes to
the name of the superclass. -/
def enterClass (t : Tracking) (name : Token) : Option Occurrence → Tracking
  | none => t.act (·.enter ["this"])
  | some parent =>
      let t := t.act (·.reportIf (parent.name.lexeme == name.lexeme) parent.name .inheritsFromItself)
      let t := (t.setClass .derived).expr (.variable parent)
      (t.act (·.enter ["super"])).act (·.enter ["this"])

mutual

/-- Walk over a statement. -/
def stmt (t : Tracking) : Stmt → Tracking
  | .expression e => t.expr e
  | .print e => t.expr e
  | .var name initializer => ((t.act (·.declare name)).expr? initializer).act (·.define name)
  | .block body => ((t.act (·.enter [])).stmts body).act Walk.leave
  | .ifElse condition thenBranch none => (t.expr condition).stmt thenBranch
  | .ifElse condition thenBranch (some elseBranch) =>
      ((t.expr condition).stmt thenBranch).stmt elseBranch
  | .while condition body => (t.expr condition).stmt body
  | .function decl => (t.act (·.introduce [decl.name])).function .function decl
  | .return keyword value =>
      (t.act (·.checkReturn t.around.functionRole keyword value.isSome)).expr? value
  | .class name superclass methods =>
      let inside := ((t.setClass .plain).act (·.introduce [name])).enterClass name superclass
      ((inside.methods methods).act (·.leaveClass superclass)).setClass t.around.classRole

/-- Walk over statements in order. -/
def stmts (t : Tracking) : List Stmt → Tracking
  | [] => t
  | s :: rest => (t.stmt s).stmts rest

/-- Walk over a function in its role. -/
def function (t : Tracking) (role : FunctionRole) : FunctionDecl Stmt → Tracking
  | ⟨_, params, body⟩ =>
      let inside := ((t.setFunction role).act (·.enter [])).act (·.introduce params)
      ((inside.stmts body).act Walk.leave).setFunction t.around.functionRole

/-- Walk over the methods of a class. -/
def methods (t : Tracking) : List (FunctionDecl Stmt) → Tracking
  | [] => t
  | m :: rest => (t.function (if m.isInitializer then .initializer else .method) m).methods rest

end

/-! ## §2. It goes the same way. -/

mutual

/-- **An expression is walked over as in its class**, and the roles stay. -/
theorem expr_eq (around : Surroundings) : ∀ (w : Walk) (e : Expr),
    expr ⟨w, around⟩ e = ⟨w.expr around.classRole e, around⟩
  | w, .literal _ => by rw [expr, Walk.expr]
  | w, .grouping inner => by rw [expr, Walk.expr, expr_eq around w inner]
  | w, .unary _ right => by rw [expr, Walk.expr, expr_eq around w right]
  | w, .binary left _ right => by
    rw [expr, Walk.expr, expr_eq around w left, expr_eq around _ right]
  | w, .logical left _ right => by
    rw [expr, Walk.expr, expr_eq around w left, expr_eq around _ right]
  | w, .variable o => by
    rw [expr, Walk.expr]
    rfl
  | w, .assign target value => by
    rw [expr, Walk.expr, expr_eq around w value]
    rfl
  | w, .call callee _ arguments => by
    rw [expr, Walk.expr, expr_eq around w callee, exprs_eq around _ arguments]
  | w, .get object _ => by rw [expr, Walk.expr, expr_eq around w object]
  | w, .set object _ value => by
    rw [expr, Walk.expr, expr_eq around w value, expr_eq around _ object]
  | w, .this o => by
    rw [expr, Walk.expr.eq_def]
    dsimp only
    cases around.classRole <;> rfl
  | w, .super o _ => by
    rw [expr, Walk.expr.eq_def]
    dsimp only
    cases around.classRole <;> rfl

theorem exprs_eq (around : Surroundings) : ∀ (w : Walk) (es : List Expr),
    exprs ⟨w, around⟩ es = ⟨w.exprs around.classRole es, around⟩
  | w, [] => by rw [exprs, Walk.exprs]
  | w, e :: rest => by rw [exprs, Walk.exprs, expr_eq around w e, exprs_eq around _ rest]

end

theorem expr?_eq (around : Surroundings) (w : Walk) (e : Option Expr) :
    expr? ⟨w, around⟩ e = ⟨w.expr? around.classRole e, around⟩ := by
  cases e with
  | none => rfl
  | some e => exact expr_eq around w e

/-- The role of a class body is set on the way in. -/
theorem enterClass_eq (role : FunctionRole) (w : Walk) (name : Token)
    (superclass : Option Occurrence) :
    enterClass ⟨w, ⟨role, .plain⟩⟩ name superclass
      = ⟨w.enterClass name superclass,
          ⟨role, if superclass.isSome then .derived else .plain⟩⟩ := by
  cases superclass with
  | none => rfl
  | some parent =>
    unfold enterClass
    dsimp only [act, setClass]
    rw [expr_eq, Walk.expr]
    rfl

mutual

/-- **A statement is walked over as in its surroundings**, and the old roles are there
again behind it. -/
theorem stmt_eq : ∀ (around : Surroundings) (w : Walk) (s : Stmt),
    stmt ⟨w, around⟩ s = ⟨w.stmt around s, around⟩
  | around, w, .expression e => by rw [stmt, Walk.stmt, expr_eq]
  | around, w, .print e => by rw [stmt, Walk.stmt, expr_eq]
  | around, w, .var name initializer => by
    rw [stmt, Walk.stmt]
    dsimp only [act]
    rw [expr?_eq]
  | around, w, .block body => by
    rw [stmt, Walk.stmt]
    dsimp only [act]
    rw [stmts_eq around _ body]
  | around, w, .ifElse condition thenBranch none => by
    rw [stmt, Walk.stmt, expr_eq, stmt_eq around _ thenBranch]
  | around, w, .ifElse condition thenBranch (some elseBranch) => by
    rw [stmt, Walk.stmt, expr_eq, stmt_eq around _ thenBranch, stmt_eq around _ elseBranch]
  | around, w, .while condition body => by
    rw [stmt, Walk.stmt, expr_eq, stmt_eq around _ body]
  | around, w, .function decl => by
    rw [stmt, Walk.stmt]
    dsimp only [act]
    rw [function_eq around _ .function decl]
  | around, w, .return keyword value => by
    rw [stmt, Walk.stmt]
    dsimp only [act]
    rw [expr?_eq]
  | around, w, .class name superclass ms => by
    -- the roles of the body are those that `enterClass` leaves
    rw [stmt, Walk.stmt]
    dsimp only [act, setClass]
    rw [enterClass_eq, methods_eq _ _ ms]

theorem stmts_eq : ∀ (around : Surroundings) (w : Walk) (ss : List Stmt),
    stmts ⟨w, around⟩ ss = ⟨w.stmts around ss, around⟩
  | around, w, [] => by rw [stmts, Walk.stmts]
  | around, w, s :: rest => by
    rw [stmts, Walk.stmts, stmt_eq around w s, stmts_eq around _ rest]

theorem function_eq : ∀ (around : Surroundings) (w : Walk) (role : FunctionRole)
    (decl : FunctionDecl Stmt),
    function ⟨w, around⟩ role decl
      = ⟨w.function { around with functionRole := role } decl, around⟩
  | around, w, role, ⟨_, params, body⟩ => by
    rw [function, Walk.function]
    dsimp only [act, setFunction]
    rw [stmts_eq { around with functionRole := role } _ body]

theorem methods_eq : ∀ (around : Surroundings) (w : Walk) (ms : List (FunctionDecl Stmt)),
    methods ⟨w, around⟩ ms = ⟨w.methods around ms, around⟩
  | around, w, [] => by rw [methods, Walk.methods]
  | around, w, m :: rest => by
    rw [methods, Walk.methods, function_eq around w _ m, methods_eq around _ rest]

end

end Tracking

/-! ## §3. What a walk may change. -/

/-- Nothing that is declared has changed. -/
structure Untouched (w w' : Walk) : Prop where
  scopes : w'.scopes = w.scopes
  globals : w'.globals = w.globals

/-- **At most the current scope has changed**: the innermost one, or the globals if no
scope is local.  It has all its names still. -/
structure Balanced (w w' : Walk) : Prop where
  depth : w'.scopes.length = w.scopes.length
  outer : w'.scopes.tail = w.scopes.tail
  globals : w.scopes ≠ [] → w'.globals = w.globals
  kept : ∀ name, (w.status name).isSome → (w'.status name).isSome

theorem Untouched.trans {w w' w'' : Walk} (h : Untouched w w') (h' : Untouched w' w'') :
    Untouched w w'' :=
  ⟨h'.scopes.trans h.scopes, h'.globals.trans h.globals⟩

theorem Untouched.balanced {w w' : Walk} (h : Untouched w w') : Balanced w w' := by
  refine ⟨congrArg List.length h.scopes, congrArg List.tail h.scopes, fun _ => h.globals, ?_⟩
  intro name
  unfold Walk.status
  rw [h.scopes, h.globals]
  exact id

theorem Balanced.trans {w w' w'' : Walk} (h : Balanced w w') (h' : Balanced w' w'') :
    Balanced w w'' := by
  refine ⟨h'.depth.trans h.depth, h'.outer.trans h.outer, ?_, ?_⟩
  · intro hlocal
    -- a local scope stays one
    have hlocal' : w'.scopes ≠ [] := by
      rw [← List.length_pos_iff, h.depth, List.length_pos_iff]
      exact hlocal
    rw [h'.globals hlocal', h.globals hlocal]
  · intro name hname
    exact h'.kept name (h.kept name hname)

namespace Walk

theorem balanced_declare (w : Walk) (t : Token) : Balanced w (w.declare t) := by
  refine ⟨?_, declare_tail w t, fun hlocal => declare_globals_of_local hlocal t, ?_⟩
  · rw [declare_scopes]
    cases w.scopes with
    | nil => rfl
    | cons scope rest =>
      rw [Scopes.declare]
      split <;> rfl
  · intro name hname
    rw [status_declare]
    split
    · rfl
    · exact hname

theorem balanced_define (w : Walk) (t : Token) : Balanced w (w.define t) := by
  refine ⟨?_, ?_, fun hlocal => define_globals_of_local hlocal t, ?_⟩
  · rw [define_scopes]
    cases w.scopes <;> rfl
  · rw [define_scopes, Scopes.tail_add]
  · intro name hname
    rw [status_define]
    split
    · rfl
    · exact hname

theorem balanced_introduce (w : Walk) (names : List Token) : Balanced w (w.introduce names) := by
  unfold introduce
  induction names generalizing w with
  | nil => exact Untouched.balanced ⟨rfl, rfl⟩
  | cons t names ih => exact ((balanced_declare w t).trans (balanced_define _ t)).trans (ih _)

theorem untouched_expr (role : ClassRole) (w : Walk) (e : Expr) : Untouched w (w.expr role e) :=
  ⟨expr_scopes role w e, expr_globals role w e⟩

theorem untouched_expr? (role : ClassRole) (w : Walk) (e : Option Expr) :
    Untouched w (w.expr? role e) :=
  ⟨expr?_scopes role w e, expr?_globals role w e⟩

theorem untouched_checkReturn (w : Walk) (role : FunctionRole) (keyword : Token)
    (hasValue : Bool) : Untouched w (w.checkReturn role keyword hasValue) := by
  refine ⟨checkReturn_scopes w role keyword hasValue, ?_⟩
  unfold checkReturn
  rw [reportIf_globals, reportIf_globals]

/-- **What happens in a scope of its own is gone** once the scope is left. -/
theorem untouched_leave {w w' : Walk} {names : List String} (h : Balanced (w.enter names) w') :
    Untouched w w'.leave :=
  ⟨h.outer, h.globals (List.cons_ne_nil _ _)⟩

/-- The one or two scopes of a class body are left again. -/
theorem untouched_class {w w' : Walk} (name : Token) (superclass : Option Occurrence)
    (h : Untouched (w.enterClass name superclass) w') :
    Untouched w (w'.leaveClass superclass) := by
  refine ⟨?_, ?_⟩
  · exact leaveClass_scopes w' superclass w.scopes
      (h.scopes.trans (enterClass_scopes w name superclass))
  · rw [leaveClass_globals, h.globals, enterClass_globals]

mutual

/-- **A statement is balanced.** -/
theorem balanced_stmt : ∀ (around : Surroundings) (w : Walk) (s : Stmt),
    Balanced w (w.stmt around s)
  | around, w, .expression e => by
    rw [stmt]
    exact (untouched_expr _ w e).balanced
  | around, w, .print e => by
    rw [stmt]
    exact (untouched_expr _ w e).balanced
  | around, w, .var name initializer => by
    rw [stmt]
    have hinitializer := untouched_expr? around.classRole (w.declare name) initializer
    exact ((balanced_declare w name).trans hinitializer.balanced).trans (balanced_define _ name)
  | around, w, .block body => by
    rw [stmt]
    exact (untouched_leave (balanced_stmts around (w.enter []) body)).balanced
  | around, w, .ifElse condition thenBranch none => by
    rw [stmt]
    have hcondition := untouched_expr around.classRole w condition
    exact hcondition.balanced.trans (balanced_stmt around _ thenBranch)
  | around, w, .ifElse condition thenBranch (some elseBranch) => by
    rw [stmt]
    have hcondition := untouched_expr around.classRole w condition
    have hthen := hcondition.balanced.trans (balanced_stmt around _ thenBranch)
    exact hthen.trans (balanced_stmt around _ elseBranch)
  | around, w, .while condition body => by
    rw [stmt]
    have hcondition := untouched_expr around.classRole w condition
    exact hcondition.balanced.trans (balanced_stmt around _ body)
  | around, w, .function decl => by
    rw [stmt]
    exact (balanced_introduce w [decl.name]).trans (untouched_function _ _ decl).balanced
  | around, w, .return keyword value => by
    rw [stmt]
    have hchecked := untouched_checkReturn w around.functionRole keyword value.isSome
    exact (hchecked.trans (untouched_expr? _ _ value)).balanced
  | around, w, .class name superclass ms => by
    rw [stmt]
    have hbody := untouched_class name superclass (untouched_methods
      { around with classRole := if superclass.isSome then .derived else .plain }
      ((w.introduce [name]).enterClass name superclass) ms)
    exact (balanced_introduce w [name]).trans hbody.balanced

theorem balanced_stmts : ∀ (around : Surroundings) (w : Walk) (ss : List Stmt),
    Balanced w (w.stmts around ss)
  | around, w, [] => by
    rw [stmts]
    exact Untouched.balanced ⟨rfl, rfl⟩
  | around, w, s :: rest => by
    rw [stmts]
    exact (balanced_stmt around w s).trans (balanced_stmts around _ rest)

theorem untouched_function : ∀ (around : Surroundings) (w : Walk) (decl : FunctionDecl Stmt),
    Untouched w (w.function around decl)
  | around, w, ⟨_, params, body⟩ => by
    rw [function]
    have hparams := balanced_introduce (w.enter []) params
    exact untouched_leave (hparams.trans (balanced_stmts around _ body))

theorem untouched_methods : ∀ (around : Surroundings) (w : Walk) (ms : List (FunctionDecl Stmt)),
    Untouched w (w.methods around ms)
  | around, w, [] => by
    rw [methods]
    exact ⟨rfl, rfl⟩
  | around, w, m :: rest => by
    rw [methods]
    exact (untouched_function _ w m).trans (untouched_methods around _ rest)

end

end Walk

/-! ## §4. The table. -/

/-- The distance that the table has for a number: what was noted last. -/
def Walk.noted? (w : Walk) (id : Nat) : Option Nat :=
  w.distances.toList.reverse.lookup id

/-- Any scopes mirror their own names. -/
theorem mirrors_names (scopes : Scopes) : Mirrors (scopes.map Bindings.names) scopes := by
  induction scopes with
  | nil => exact .nil
  | cons scope rest ih => exact .cons (fun name => (Bindings.mem_names scope name).symm) ih

namespace Records

variable {k : Enclosure} {w w' : Walk} {found : List (Enclosure × Use)}

/-- **Entries of other numbers stay** when the distances of some uses are noted. -/
theorem noted? (h : Records k w w' found) {id : Nat}
    (hid : id ∉ (Use.occurrences found).map Occurrence.id) : w'.noted? id = w.noted? id := by
  have hnew : (found.filterMap recorded?).reverse.lookup id = none := by
    refine lookup_eq_none_of_notMem fun hmem => hid ?_
    rw [List.map_reverse, List.mem_reverse] at hmem
    exact (entries_sublist found).subset hmem
  unfold Walk.noted?
  rw [h.distances, List.reverse_append, List.lookup_append, hnew, Option.none_or]

end Records

theorem Walk.noted?_expr (role : ClassRole) (w : Walk) (e : Expr) {id : Nat}
    (hid : id ∉ e.occurrences.map Occurrence.id) : (w.expr role e).noted? id = w.noted? id := by
  refine (records_expr (k := ⟨_, role⟩) e (mirrors_names w.scopes)).noted? ?_
  rw [Use.occurrences_map, e.map_uses]
  exact hid

theorem Walk.noted?_stmt (around : Surroundings) (w : Walk) (s : Stmt) {id : Nat}
    (hid : id ∉ s.occurrences.map Occurrence.id) : (w.stmt around s).noted? id = w.noted? id := by
  refine (records_stmt around (k := ⟨_, around.classRole⟩) s rfl (mirrors_names w.scopes)).noted? ?_
  rw [Stmt.occurrences_uses]
  exact hid

/-! ## §5. Balance. -/

/-- **The walk is balanced.**  Take a walk that keeps its roles itself, in any state, and
let it walk over any expression or any statement, also with violations.  It goes where the
walk goes that is told its surroundings, and has its own roles again behind it.  An
expression changes no scope and no global.  A statement leaves the number of scopes, every
scope but the innermost one and, unless no scope is local, the globals as they are, and
what was declared in the current scope is declared still.  In the table only entries of
occurrences that were walked over can change. -/
theorem tracking_balanced (t : Tracking) :
    (∀ e : Expr,
      (t.expr e).walk = t.walk.expr t.around.classRole e
      ∧ (t.expr e).around = t.around
      ∧ (t.expr e).walk.scopes = t.walk.scopes
      ∧ (t.expr e).walk.globals = t.walk.globals
      ∧ ∀ id ∉ e.occurrences.map Occurrence.id, (t.expr e).walk.noted? id = t.walk.noted? id)
    ∧ ∀ s : Stmt,
      (t.stmt s).walk = t.walk.stmt t.around s
      ∧ (t.stmt s).around = t.around
      ∧ (t.stmt s).walk.scopes.length = t.walk.scopes.length
      ∧ (t.stmt s).walk.scopes.tail = t.walk.scopes.tail
      ∧ (t.walk.scopes ≠ [] → (t.stmt s).walk.globals = t.walk.globals)
      ∧ (∀ name, (t.walk.status name).isSome → ((t.stmt s).walk.status name).isSome)
      ∧ ∀ id ∉ s.occurrences.map Occurrence.id, (t.stmt s).walk.noted? id = t.walk.noted? id := by
  obtain ⟨w, around⟩ := t
  constructor
  · intro e
    rw [Tracking.expr_eq]
    have hexpr := Walk.untouched_expr around.classRole w e
    exact ⟨rfl, rfl, hexpr.scopes, hexpr.globals, fun id hid => Walk.noted?_expr _ w e hid⟩
  · intro s
    rw [Tracking.stmt_eq]
    have hstmt := Walk.balanced_stmt around w s
    exact ⟨rfl, rfl, hstmt.depth, hstmt.outer, hstmt.globals, hstmt.kept,
      fun id hid => Walk.noted?_stmt around w s hid⟩

/-- In a function `f` that has a variable `a`: `class a < a { init() { return super.m; } }`
breaks three rules.  Behind it the walk is in `f` again, in the scope where `a` is
declared, and what the table knew before is still there. -/
theorem tracking_balanced_violations :
    let t : Tracking := ⟨⟨[[("a", true)], [("b", true)]], [], #[(7, 1)], #[]⟩, ⟨.function, .none⟩⟩
    let a := Token.named "a" 1
    let result := Expr.super ⟨9, .named "super" 1⟩ (.named "m" 1)
    let initializer : FunctionDecl Stmt :=
      ⟨.named "init" 1, [], [.return (.named "return" 1) (some result)]⟩
    let s : Stmt := .class a (some ⟨8, a⟩) [initializer]
    (t.stmt s).walk.failures.map Diagnostic.message
        = #["Already a variable with this name in this scope.",
            "A class can't inherit from itself.", "Can't return a value from an initializer."]
      ∧ (t.stmt s).around = ⟨.function, .none⟩
      ∧ (t.stmt s).walk.scopes.length = 2
      ∧ ((t.stmt s).walk.status "a").isSome
      ∧ (t.stmt s).walk.noted? 7 = some 1
      ∧ (t.stmt s).walk.noted? 9 = some 2 := by
  intro t a result initializer s
  obtain ⟨-, haround, hdepth, -, -, hkept, hnoted⟩ := (tracking_balanced t).2 s
  refine ⟨by decide +kernel, haround, hdepth, hkept "a" rfl, ?_, by decide +kernel⟩
  exact (hnoted 7 (by decide)).trans rfl

end Lox.Resolve
