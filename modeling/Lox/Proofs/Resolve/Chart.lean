/-
  Lox.Proofs.Resolve.Chart
  ────────────────────────
  **WHAT CHARTS SAY OF BOUND CODE.**

  Code that is bound in a local scope stays bound in every chart that keeps
  the distances known so far.  Every use of `this` and of `super` in bound
  code has a distance, and bound code has the shape of a tree that was read.
-/
import Lox.Proofs.Resolve.Bound

namespace Lox.Resolve

/-! ## §1. Charts that know more. -/

/-- A chart that keeps the distances of another one. -/
structure Chart.Keeps (T T' : Chart) : Prop where
  limit : T.limit ≤ T'.limit
  distance : ∀ i, i < T.limit → T'.distance i = T.distance i
  strict : T'.strict → T.strict

/-- A chart that keeps the distances of another one, and lets statements stand
where the other one does. -/
structure Chart.Extends (T T' : Chart) : Prop extends T.Keeps T' where
  home : ∀ scopes s, T.home scopes s → T'.home scopes s

section Keeps

variable {T T' : Chart}

theorem Located.extend (hT : T.Keeps T') {scopes : Scopes} {o : Occurrence}
    (h : Located T scopes o) : Located T' scopes o :=
  ⟨Nat.lt_of_lt_of_le h.1 hT.limit, (hT.distance o.id h.1).trans h.2⟩

mutual

theorem BoundExpr.extend (hT : T.Keeps T') {scopes : Scopes} : ∀ (e : Expr), BoundExpr T scopes e →
    BoundExpr T' scopes e
  | .literal _, _ => trivial
  | .unary _ right, h => BoundExpr.extend hT right h
  | .binary left _ right, h => ⟨BoundExpr.extend hT left h.1, BoundExpr.extend hT right h.2⟩
  | .logical left _ right, h => ⟨BoundExpr.extend hT left h.1, BoundExpr.extend hT right h.2⟩
  | .grouping inner, h => BoundExpr.extend hT inner h
  | .variable _, h => ⟨Located.extend hT h.1, h.2⟩
  | .assign _ value, h =>
      ⟨BoundExpr.extend hT value h.1, Located.extend hT h.2.1, h.2.2.1, fun hs => h.2.2.2 (hT.strict hs)⟩
  | .call callee _ arguments, h => ⟨BoundExpr.extend hT callee h.1, BoundExprs.extend hT arguments h.2⟩
  | .get object _, h => BoundExpr.extend hT object h
  | .set object _ value, h => ⟨BoundExpr.extend hT value h.1, BoundExpr.extend hT object h.2⟩
  | .super _ _, h => ⟨Located.extend hT h.1, h.2⟩
  | .this _, h => ⟨Located.extend hT h.1, h.2⟩

theorem BoundExprs.extend (hT : T.Keeps T') {scopes : Scopes} : ∀ (es : List Expr),
    BoundExprs T scopes es → BoundExprs T' scopes es
  | [], _ => trivial
  | e :: rest, h => ⟨BoundExpr.extend hT e h.1, BoundExprs.extend hT rest h.2⟩

end

theorem BoundExpr?.extend (hT : T.Keeps T') {scopes : Scopes} {e : Option Expr}
    (h : BoundExpr? T scopes e) : BoundExpr? T' scopes e := by
  cases e with
  | none => trivial
  | some e => exact BoundExpr.extend hT e h

/-- Which names are global does not matter in a local scope. -/
theorem Declarable.extend {scopes : Scopes} {name : Token} (hs : scopes.isEmpty = false)
    (h : Declarable T scopes name) : Declarable T' scopes name := by
  cases scopes with
  | nil => cases hs
  | cons scope rest => exact h

mutual

/-- **Local code stays bound** when the chart learns more. -/
theorem BoundStmt.extend (hT : T.Extends T') {inside : Bool} {scopes : Scopes}
    (hs : scopes.isEmpty = false) :
    ∀ (s : Stmt), BoundStmt T inside scopes s → BoundStmt T' inside scopes s
  | .expression e, ⟨hhome, h⟩ => ⟨hT.home _ _ hhome, BoundExpr.extend hT.toKeeps e h⟩
  | .print e, ⟨hhome, h⟩ => ⟨hT.home _ _ hhome, BoundExpr.extend hT.toKeeps e h⟩
  | .var _ _, ⟨hhome, h⟩ =>
      ⟨hT.home _ _ hhome, h.1.extend hs, BoundExpr?.extend hT.toKeeps h.2⟩
  | .block body, ⟨hhome, h⟩ => ⟨hT.home _ _ hhome, BoundStmts.extend hT rfl body h⟩
  | .ifElse condition thenBranch none, ⟨hhome, h⟩ =>
      ⟨hT.home _ _ hhome, BoundExpr.extend hT.toKeeps condition h.1,
        BoundStmt.extend hT hs thenBranch h.2.1, h.2.2⟩
  | .ifElse condition thenBranch (some elseBranch), ⟨hhome, h⟩ =>
      ⟨hT.home _ _ hhome, BoundExpr.extend hT.toKeeps condition h.1,
        ⟨BoundStmt.extend hT hs thenBranch h.2.1.1, h.2.1.2⟩,
        BoundStmt.extend hT hs elseBranch h.2.2.1, h.2.2.2⟩
  | .while condition body, ⟨hhome, h⟩ =>
      ⟨hT.home _ _ hhome, BoundExpr.extend hT.toKeeps condition h.1,
        BoundStmt.extend hT hs body h.2.1, h.2.2⟩
  | .function decl, ⟨hhome, h⟩ =>
      ⟨hT.home _ _ hhome, h.1.extend hs, BoundFunction.extend hT decl h.2⟩
  | .return _ _, ⟨hhome, h⟩ => ⟨hT.home _ _ hhome, h.1, BoundExpr?.extend hT.toKeeps h.2⟩
  | .class _ _ methods, ⟨hhome, h⟩ =>
      ⟨hT.home _ _ hhome, h.1.extend hs,
        fun o ho => BoundExpr.extend hT.toKeeps _ (h.2.1 o ho),
        BoundMethods.extend hT methods h.2.2⟩

theorem BoundStmts.extend (hT : T.Extends T') {inside : Bool} {scopes : Scopes}
    (hs : scopes.isEmpty = false) :
    ∀ (ss : List Stmt), BoundStmts T inside scopes ss → BoundStmts T' inside scopes ss
  | [], h => h
  | s :: rest, h =>
      ⟨BoundStmt.extend hT hs s h.1,
        BoundStmts.extend hT ((isEmpty_after scopes s).trans hs) rest h.2⟩

theorem BoundFunction.extend (hT : T.Extends T') {scopes : Scopes} : ∀ (decl : FunctionDecl Stmt),
    BoundFunction T scopes decl → BoundFunction T' scopes decl
  | ⟨_, _, body⟩, h => ⟨h.1, h.2.1, BoundStmts.extend hT rfl body h.2.2⟩

theorem BoundMethods.extend (hT : T.Extends T') {scopes : Scopes} : ∀ (ms : List (FunctionDecl Stmt)),
    BoundMethods T scopes ms → BoundMethods T' scopes ms
  | [], _ => trivial
  | m :: rest, h => ⟨BoundFunction.extend hT m h.1, BoundMethods.extend hT rest h.2⟩

end

end Keeps

/-! ## §2. `this` and `super` are always local. -/

/-- The occurrences of `this` and `super` among these have a distance. -/
def Recorded (T : Chart) (os : List Occurrence) : Prop :=
  ∀ o ∈ os, ¬ Ordinary o.name.lexeme → (T.distance o.id).isSome

theorem Recorded.append {T : Chart} {os os' : List Occurrence} (h : Recorded T os)
    (h' : Recorded T os') : Recorded T (os ++ os') := by
  intro o ho
  rcases List.mem_append.mp ho with ho | ho
  · exact h o ho
  · exact h' o ho

theorem recorded_ordinary {T : Chart} {o : Occurrence} (h : Ordinary o.name.lexeme) :
    Recorded T [o] := by
  intro o' ho' hnot
  rw [List.mem_singleton.mp ho'] at hnot
  exact absurd h hnot

theorem recorded_found {T : Chart} {scopes : Scopes} {o : Occurrence} (hl : Located T scopes o)
    {p : Nat × Bool} (h : scopes.find? o.name.lexeme = some p) : Recorded T [o] := by
  intro o' ho' _
  rw [List.mem_singleton.mp ho', hl.2, Scopes.distance?_eq_find?, h]
  rfl

mutual

theorem recorded_expr {T : Chart} {scopes : Scopes} : ∀ (e : Expr), BoundExpr T scopes e →
    Recorded T e.occurrences
  | .literal _, _ => fun _ h => nomatch h
  | .unary _ right, h => recorded_expr right h
  | .binary left _ right, h => (recorded_expr left h.1).append (recorded_expr right h.2)
  | .logical left _ right, h => (recorded_expr left h.1).append (recorded_expr right h.2)
  | .grouping inner, h => recorded_expr inner h
  | .variable _, h => recorded_ordinary h.2.1
  | .assign _ value, h => (recorded_expr value h.1).append (recorded_ordinary h.2.2.1)
  | .call callee _ arguments, h => (recorded_expr callee h.1).append (recorded_exprs arguments h.2)
  | .get object _, h => recorded_expr object h
  | .set object _ value, h => (recorded_expr value h.1).append (recorded_expr object h.2)
  | .super o _, h => by
    obtain ⟨hl, hname, d, -, hsuper⟩ := h
    exact recorded_found hl (hname ▸ hsuper)
  | .this o, h => by
    obtain ⟨hl, hname, d, hthis⟩ := h
    exact recorded_found hl (hname ▸ hthis)

theorem recorded_exprs {T : Chart} {scopes : Scopes} : ∀ (es : List Expr),
    BoundExprs T scopes es → Recorded T (Expr.occurrencesAll es)
  | [], _ => fun _ h => nomatch h
  | e :: rest, h => (recorded_expr e h.1).append (recorded_exprs rest h.2)

end

theorem recorded_expr? {T : Chart} {scopes : Scopes} {e : Option Expr} (h : BoundExpr? T scopes e) :
    Recorded T (Expr.occurrences? e) := by
  cases e with
  | none => exact fun _ h => nomatch h
  | some e => exact recorded_expr e h

mutual

/-- **Every `this` and every `super` of a bound statement has a distance.** -/
theorem recorded_stmt {T : Chart} : ∀ {inside : Bool} {scopes : Scopes} (s : Stmt),
    BoundStmt T inside scopes s → Recorded T s.occurrences
  | _, _, .expression e, ⟨_, h⟩ => recorded_expr e h
  | _, _, .print e, ⟨_, h⟩ => recorded_expr e h
  | _, _, .var _ _, ⟨_, h⟩ => recorded_expr? h.2
  | _, _, .block body, ⟨_, h⟩ => recorded_stmts body h
  | _, _, .ifElse condition thenBranch none, ⟨_, h⟩ =>
      (recorded_expr condition h.1).append (recorded_stmt thenBranch h.2.1)
  | _, _, .ifElse condition thenBranch (some elseBranch), ⟨_, h⟩ =>
      (recorded_expr condition h.1).append
        ((recorded_stmt thenBranch h.2.1.1).append (recorded_stmt elseBranch h.2.2.1))
  | _, _, .while condition body, ⟨_, h⟩ =>
      (recorded_expr condition h.1).append (recorded_stmt body h.2.1)
  | _, _, .function decl, ⟨_, h⟩ => recorded_function decl h.2
  | _, _, .return _ _, ⟨_, h⟩ => recorded_expr? h.2
  | _, _, .class _ superclass methods, ⟨_, h⟩ => by
    refine Recorded.append ?_ (recorded_methods methods h.2.2)
    intro o ho
    have hparent := h.2.1 o (Option.mem_toList.mp ho)
    exact recorded_ordinary hparent.2.1 o List.mem_cons_self

theorem recorded_stmts {T : Chart} : ∀ {inside : Bool} {scopes : Scopes} (ss : List Stmt),
    BoundStmts T inside scopes ss → Recorded T (Stmt.occurrencesAll ss)
  | _, _, [], _ => fun _ h => nomatch h
  | _, _, s :: rest, h => (recorded_stmt s h.1).append (recorded_stmts rest h.2)

theorem recorded_function {T : Chart} : ∀ {scopes : Scopes} (decl : FunctionDecl Stmt),
    BoundFunction T scopes decl → Recorded T (Stmt.occurrencesFunction decl)
  | _, ⟨_, _, body⟩, h => recorded_stmts body h.2.2

theorem recorded_methods {T : Chart} : ∀ {scopes : Scopes} (ms : List (FunctionDecl Stmt)),
    BoundMethods T scopes ms → Recorded T (Stmt.occurrencesMethods ms)
  | _, [], _ => fun _ h => nomatch h
  | _, m :: rest, h => (recorded_function m h.1).append (recorded_methods rest h.2)

end

/-! ## §3. Bound code has the shape of trees that are read. -/

mutual

theorem BoundExpr.proper {T : Chart} {scopes : Scopes} : ∀ (e : Expr), BoundExpr T scopes e →
    e.Proper
  | .literal _, _ => trivial
  | .unary _ right, h => BoundExpr.proper right h
  | .binary left _ right, h => ⟨BoundExpr.proper left h.1, BoundExpr.proper right h.2⟩
  | .logical left _ right, h => ⟨BoundExpr.proper left h.1, BoundExpr.proper right h.2⟩
  | .grouping inner, h => BoundExpr.proper inner h
  | .variable _, h => h.2.1
  | .assign _ value, h => ⟨h.2.2.1, BoundExpr.proper value h.1⟩
  | .call callee _ arguments, h => ⟨BoundExpr.proper callee h.1, BoundExprs.proper arguments h.2⟩
  | .get object _, h => BoundExpr.proper object h
  | .set object _ value, h => ⟨BoundExpr.proper object h.2, BoundExpr.proper value h.1⟩
  | .super _ _, h => h.2.1
  | .this _, h => h.2.1

theorem BoundExprs.proper {T : Chart} {scopes : Scopes} : ∀ (es : List Expr),
    BoundExprs T scopes es → Expr.ProperAll es
  | [], _ => trivial
  | e :: rest, h => ⟨BoundExpr.proper e h.1, BoundExprs.proper rest h.2⟩

end

theorem BoundExpr?.proper {T : Chart} {scopes : Scopes} {e : Option Expr}
    (h : BoundExpr? T scopes e) : Expr.ProperOption e := by
  cases e with
  | none => trivial
  | some e => exact BoundExpr.proper e h

mutual

/-- **A bound statement has the shape of one that was read.** -/
theorem BoundStmt.proper {T : Chart} : ∀ {inside : Bool} {scopes : Scopes} (s : Stmt),
    BoundStmt T inside scopes s → s.Proper
  | _, _, .expression e, ⟨_, h⟩ => BoundExpr.proper e h
  | _, _, .print e, ⟨_, h⟩ => BoundExpr.proper e h
  | _, _, .var _ _, ⟨_, h⟩ => ⟨h.1.1, h.2.proper⟩
  | _, _, .block body, ⟨_, h⟩ => BoundStmts.proper body h
  | _, _, .ifElse condition thenBranch none, ⟨_, h⟩ =>
      ⟨BoundExpr.proper condition h.1, BoundStmt.proper thenBranch h.2.1, h.2.2⟩
  | _, _, .ifElse condition thenBranch (some elseBranch), ⟨_, h⟩ =>
      ⟨BoundExpr.proper condition h.1, ⟨BoundStmt.proper thenBranch h.2.1.1, h.2.1.2⟩,
        BoundStmt.proper elseBranch h.2.2.1, h.2.2.2⟩
  | _, _, .while condition body, ⟨_, h⟩ =>
      ⟨BoundExpr.proper condition h.1, BoundStmt.proper body h.2.1, h.2.2⟩
  | _, _, .function decl, ⟨_, h⟩ => ⟨h.1.1, BoundFunction.proper decl h.2⟩
  | _, _, .return _ _, ⟨_, h⟩ => h.2.proper
  | _, _, .class _ _ methods, ⟨_, h⟩ =>
      ⟨h.1.1, fun o ho => (h.2.1 o ho).2.1, BoundMethods.proper methods h.2.2⟩

theorem BoundStmts.proper {T : Chart} : ∀ {inside : Bool} {scopes : Scopes} (ss : List Stmt),
    BoundStmts T inside scopes ss → Stmt.ProperAll ss
  | _, _, [], _ => trivial
  | _, _, s :: rest, h => ⟨BoundStmt.proper s h.1, BoundStmts.proper rest h.2⟩

theorem BoundFunction.proper {T : Chart} : ∀ {scopes : Scopes} (decl : FunctionDecl Stmt),
    BoundFunction T scopes decl → Stmt.ProperFunction decl
  | _, ⟨_, _, body⟩, h => ⟨h.1, BoundStmts.proper body h.2.2⟩

theorem BoundMethods.proper {T : Chart} : ∀ {scopes : Scopes} (ms : List (FunctionDecl Stmt)),
    BoundMethods T scopes ms → Stmt.ProperMethods ms
  | _, [], _ => trivial
  | _, m :: rest, h => ⟨BoundFunction.proper m h.1, BoundMethods.proper rest h.2⟩

end

end Lox.Resolve
