/-
  Lox.Proofs.Resolve.Bound
  ────────────────────────
  **TREES WHOSE NAMES ARE BOUND.**

  A chart says which distance each occurrence number has.  A tree is bound in
  some scopes when the chart has, for each occurrence in it, the distance to
  the scope that declares its name, when every name that is read is defined
  by then, and when declarations, `return`, `this` and `super` stand only
  where the static rules want them.  A chart may also say in which scopes
  statements stand; an open chart lets them stand everywhere.

  A walk that notes no violation leaves bound trees behind, for every open chart
  that agrees with the distances it noted (`bound_of_walk`).
-/
import Lox.Proofs.Parse.Numbering
import Lox.Proofs.Resolve.Scopes

namespace Lox.Resolve

/-! ## §1. Charts and bound trees. -/

/-- What is known of occurrence numbers and global names. -/
structure Chart where
  /-- The distance of an occurrence whose name is local. -/
  distance : Nat → Option Nat
  /-- All numbers in use are below this one. -/
  limit : Nat
  /-- The names that may be defined at the top level. -/
  globals : String → Prop
  /-- Whether only defined variables may be assigned to. -/
  strict : Prop
  /-- The scopes that a statement may stand in. -/
  home : Scopes → Stmt → Prop := fun _ _ => True

/-- Statements may stand everywhere. -/
def Chart.Open (T : Chart) : Prop :=
  ∀ scopes s, T.home scopes s

/-- No name is declared and still without a value. -/
def AllDefined (scopes : Scopes) : Prop :=
  ∀ scope ∈ scopes, ∀ name, scope.get? name ≠ some false

/-- An occurrence has the distance to the declaration of its name. -/
def Located (T : Chart) (scopes : Scopes) (o : Occurrence) : Prop :=
  o.id < T.limit ∧ T.distance o.id = scopes.distance? o.name.lexeme

mutual

/-- The occurrences in an expression have the distances of their names. -/
def BoundExpr (T : Chart) (scopes : Scopes) : Expr → Prop
  | .literal _ => True
  | .unary _ right => BoundExpr T scopes right
  | .binary left _ right => BoundExpr T scopes left ∧ BoundExpr T scopes right
  | .logical left _ right => BoundExpr T scopes left ∧ BoundExpr T scopes right
  | .grouping inner => BoundExpr T scopes inner
  | .variable o => Located T scopes o ∧ Ordinary o.name.lexeme ∧ scopes.Defined o.name.lexeme
  | .assign o value => BoundExpr T scopes value ∧ Located T scopes o ∧ Ordinary o.name.lexeme
      ∧ (T.strict → scopes.Defined o.name.lexeme)
  | .call callee _ arguments => BoundExpr T scopes callee ∧ BoundExprs T scopes arguments
  | .get object _ => BoundExpr T scopes object
  | .set object _ value => BoundExpr T scopes value ∧ BoundExpr T scopes object
  | .super o _ => Located T scopes o ∧ o.name.lexeme = "super"
      ∧ ∃ d, scopes.find? "this" = some (d, true) ∧ scopes.find? "super" = some (d + 1, true)
  | .this o => Located T scopes o ∧ o.name.lexeme = "this"
      ∧ ∃ d, scopes.find? "this" = some (d, true)

/-- Expressions that are all bound. -/
def BoundExprs (T : Chart) (scopes : Scopes) : List Expr → Prop
  | [] => True
  | e :: rest => BoundExpr T scopes e ∧ BoundExprs T scopes rest

end

/-- An expression that is bound or missing. -/
def BoundExpr? (T : Chart) (scopes : Scopes) : Option Expr → Prop
  | none => True
  | some e => BoundExpr T scopes e

/-- A name can be declared: it is known as a global one, or it is new in the
innermost scope. -/
def Declarable (T : Chart) (scopes : Scopes) (name : Token) : Prop :=
  Ordinary name.lexeme ∧
    match scopes with
    | [] => T.globals name.lexeme
    | scope :: _ => scope.get? name.lexeme = none

mutual

/-- A statement that stands where it may and whose names are bound; `inside`
tells whether a function body is around it. -/
def BoundStmt (T : Chart) (inside : Bool) (scopes : Scopes) : Stmt → Prop
  | .expression e => T.home scopes (.expression e) ∧ BoundExpr T scopes e
  | .print e => T.home scopes (.print e) ∧ BoundExpr T scopes e
  | .var name initializer =>
      T.home scopes (.var name initializer) ∧ Declarable T scopes name
        ∧ BoundExpr? T (scopes.declare name.lexeme) initializer
  | .block body => T.home scopes (.block body) ∧ BoundStmts T inside ([] :: scopes) body
  | .ifElse condition thenBranch none =>
      T.home scopes (.ifElse condition thenBranch none) ∧ BoundExpr T scopes condition
        ∧ BoundStmt T inside scopes thenBranch ∧ thenBranch.declared? = none
  | .ifElse condition thenBranch (some elseBranch) =>
      T.home scopes (.ifElse condition thenBranch (some elseBranch))
        ∧ BoundExpr T scopes condition
        ∧ (BoundStmt T inside scopes thenBranch ∧ thenBranch.declared? = none)
        ∧ BoundStmt T inside scopes elseBranch ∧ elseBranch.declared? = none
  | .while condition body =>
      T.home scopes (.while condition body) ∧ BoundExpr T scopes condition
        ∧ BoundStmt T inside scopes body ∧ body.declared? = none
  | .function decl =>
      T.home scopes (.function decl) ∧ Declarable T scopes decl.name
        ∧ BoundFunction T (scopes.add decl.name.lexeme) decl
  | .return keyword value =>
      T.home scopes (.return keyword value) ∧ inside = true ∧ BoundExpr? T scopes value
  | .class name superclass methods =>
      T.home scopes (.class name superclass methods) ∧ Declarable T scopes name
        ∧ (∀ o ∈ superclass, BoundExpr T (scopes.add name.lexeme) (.variable o))
        ∧ BoundMethods T (Walk.classScopes (scopes.add name.lexeme) superclass.isSome) methods

/-- Statements that are bound one after another.  Where they end, no
initializer is waited for. -/
def BoundStmts (T : Chart) (inside : Bool) (scopes : Scopes) : List Stmt → Prop
  | [] => AllDefined scopes
  | s :: rest => BoundStmt T inside scopes s ∧ BoundStmts T inside (scopes.after s) rest

/-- A function whose body is bound in the scope of its parameters. -/
def BoundFunction (T : Chart) (scopes : Scopes) : FunctionDecl Stmt → Prop
  | ⟨_, params, body⟩ =>
      (∀ t ∈ params, Ordinary t.lexeme) ∧ (params.map Token.lexeme).Nodup
        ∧ BoundStmts T true (Walk.parameterScope params :: scopes) body

/-- Methods that are all bound. -/
def BoundMethods (T : Chart) (scopes : Scopes) : List (FunctionDecl Stmt) → Prop
  | [] => True
  | m :: rest => BoundFunction T scopes m ∧ BoundMethods T scopes rest

end

theorem BoundMethods.mem {T : Chart} {scopes : Scopes} {ms : List (FunctionDecl Stmt)}
    (h : BoundMethods T scopes ms) {m : FunctionDecl Stmt} (hm : m ∈ ms) : BoundFunction T scopes m := by
  induction ms with
  | nil => cases hm
  | cons m' ms ih =>
    rcases List.mem_cons.mp hm with rfl | hm
    · exact h.1
    · exact ih h.2 hm

/-! ## §2. Violations are not taken back. -/

namespace Walk

/-- No violation has been noted. -/
def Clean (w : Walk) : Prop :=
  w.failures = #[]

theorem not_clean_report (w : Walk) (t : Token) (fault : ScopeFault) :
    ¬ (w.report t fault).Clean := by
  simp [Clean, report]

theorem clean_of_reportIf {w : Walk} {b : Bool} {t : Token} {fault : ScopeFault}
    (h : (w.reportIf b t fault).Clean) : b = false ∧ w.Clean := by
  cases b with
  | false => exact ⟨rfl, h⟩
  | true => exact absurd h (not_clean_report w t fault)

theorem clean_of_declare {w : Walk} {t : Token} (h : (w.declare t).Clean) : w.Clean := by
  unfold declare at h
  split at h
  · split at h <;> exact h
  · split at h
    · exact absurd h (not_clean_report w _ _)
    · exact h

theorem clean_of_define {w : Walk} {t : Token} (h : (w.define t).Clean) : w.Clean := by
  unfold define at h
  split at h <;> exact h

theorem clean_of_locate {w : Walk} {o : Occurrence} (h : (w.locate o).Clean) : w.Clean := by
  unfold locate at h
  split at h <;> exact h

theorem clean_of_use {w : Walk} {o : Occurrence} (h : (w.use o).Clean) :
    (w.checkInitialized o.name).Clean ∧ w.Clean := by
  have hcheck := clean_of_locate h
  refine ⟨hcheck, ?_⟩
  unfold checkInitialized at hcheck
  split at hcheck <;> exact (clean_of_reportIf hcheck).2

theorem clean_of_introduce {w : Walk} {names : List Token} (h : (w.introduce names).Clean) :
    w.Clean := by
  induction names generalizing w with
  | nil => exact h
  | cons t names ih => exact clean_of_declare (clean_of_define (ih h))

mutual

theorem clean_of_expr {role : ClassRole} : ∀ {w : Walk} (e : Expr), (w.expr role e).Clean → w.Clean
  | w, .literal _, h => by rwa [expr] at h
  | w, .grouping inner, h => by
    rw [expr] at h
    exact clean_of_expr inner h
  | w, .unary _ right, h => by
    rw [expr] at h
    exact clean_of_expr right h
  | w, .binary left _ right, h => by
    rw [expr] at h
    exact clean_of_expr left (clean_of_expr right h)
  | w, .logical left _ right, h => by
    rw [expr] at h
    exact clean_of_expr left (clean_of_expr right h)
  | w, .variable o, h => by
    rw [expr] at h
    exact (clean_of_use h).2
  | w, .assign target value, h => by
    rw [expr] at h
    exact clean_of_expr value (clean_of_locate h)
  | w, .call callee _ arguments, h => by
    rw [expr] at h
    exact clean_of_expr callee (clean_of_exprs arguments h)
  | w, .get object _, h => by
    rw [expr] at h
    exact clean_of_expr object h
  | w, .set object _ value, h => by
    rw [expr] at h
    exact clean_of_expr value (clean_of_expr object h)
  | w, .this o, h => by
    rw [expr.eq_def] at h
    cases role with
    | none => exact absurd h (not_clean_report w _ _)
    | plain | derived => exact clean_of_locate h
  | w, .super o _, h => by
    rw [expr.eq_def] at h
    cases role with
    | none | plain => exact absurd h (not_clean_report w _ _)
    | derived => exact clean_of_locate h

theorem clean_of_exprs {role : ClassRole} : ∀ {w : Walk} (es : List Expr),
    (w.exprs role es).Clean → w.Clean
  | w, [], h => by rwa [exprs] at h
  | w, e :: rest, h => by
    rw [exprs] at h
    exact clean_of_expr e (clean_of_exprs rest h)

end

theorem clean_of_expr? {role : ClassRole} {w : Walk} {e : Option Expr}
    (h : (w.expr? role e).Clean) : w.Clean := by
  cases e with
  | none => exact h
  | some e => exact clean_of_expr e h

theorem clean_of_checkReturn {w : Walk} {role : FunctionRole} {keyword : Token} {hasValue : Bool}
    (h : (w.checkReturn role keyword hasValue).Clean) : role ≠ .none ∧ w.Clean := by
  obtain ⟨hrole, hclean⟩ := clean_of_reportIf (clean_of_reportIf h).2
  exact ⟨by simpa using hrole, hclean⟩

theorem clean_of_enterClass {w : Walk} {name : Token} {superclass : Option Occurrence}
    (h : (w.enterClass name superclass).Clean) : w.Clean := by
  cases superclass with
  | none => exact h
  | some parent => exact (clean_of_reportIf (clean_of_use h).2).2

theorem clean_of_leaveClass {w : Walk} {superclass : Option Occurrence}
    (h : (w.leaveClass superclass).Clean) : w.Clean := by
  cases superclass <;> exact h

mutual

theorem clean_of_stmt : ∀ {around : Surroundings} {w : Walk} (s : Stmt),
    (w.stmt around s).Clean → w.Clean
  | around, w, .expression e, h => by
    rw [stmt] at h
    exact clean_of_expr e h
  | around, w, .print e, h => by
    rw [stmt] at h
    exact clean_of_expr e h
  | around, w, .var name initializer, h => by
    rw [stmt] at h
    exact clean_of_declare (clean_of_expr? (clean_of_define h))
  | around, w, .block body, h => by
    rw [stmt] at h
    have hinner : (w.enter []).Clean := clean_of_stmts body h
    exact hinner
  | around, w, .ifElse condition thenBranch none, h => by
    rw [stmt] at h
    exact clean_of_expr condition (clean_of_stmt thenBranch h)
  | around, w, .ifElse condition thenBranch (some elseBranch), h => by
    rw [stmt] at h
    exact clean_of_expr condition (clean_of_stmt thenBranch (clean_of_stmt elseBranch h))
  | around, w, .while condition body, h => by
    rw [stmt] at h
    exact clean_of_expr condition (clean_of_stmt body h)
  | around, w, .function decl, h => by
    rw [stmt] at h
    exact clean_of_introduce (clean_of_function decl h)
  | around, w, .return keyword value, h => by
    rw [stmt] at h
    exact (clean_of_checkReturn (clean_of_expr? h)).2
  | around, w, .class name superclass methods, h => by
    rw [stmt] at h
    exact clean_of_introduce (clean_of_enterClass (clean_of_methods methods (clean_of_leaveClass h)))

theorem clean_of_stmts : ∀ {around : Surroundings} {w : Walk} (ss : List Stmt),
    (w.stmts around ss).Clean → w.Clean
  | around, w, [], h => by rwa [stmts] at h
  | around, w, s :: rest, h => by
    rw [stmts] at h
    exact clean_of_stmt s (clean_of_stmts rest h)

theorem clean_of_function : ∀ {around : Surroundings} {w : Walk} (decl : FunctionDecl Stmt),
    (w.function around decl).Clean → w.Clean
  | around, w, ⟨_, params, body⟩, h => by
    rw [function] at h
    exact clean_of_introduce (w := w.enter []) (clean_of_stmts body h)

theorem clean_of_methods : ∀ {around : Surroundings} {w : Walk} (ms : List (FunctionDecl Stmt)),
    (w.methods around ms).Clean → w.Clean
  | around, w, [], h => by rwa [methods] at h
  | around, w, m :: rest, h => by
    rw [methods] at h
    exact clean_of_function m (clean_of_methods rest h)

end

/-! ## §3. What the walk notes. -/

section Distances

variable (w : Walk)

@[simp]
theorem reportIf_distances (b : Bool) (t : Token) (fault : ScopeFault) :
    (w.reportIf b t fault).distances = w.distances := by
  unfold reportIf
  split <;> rfl

@[simp]
theorem declare_distances (t : Token) : (w.declare t).distances = w.distances := by
  unfold declare
  split <;> split <;> rfl

@[simp]
theorem define_distances (t : Token) : (w.define t).distances = w.distances := by
  unfold define
  split <;> rfl

@[simp]
theorem introduce_distances (names : List Token) :
    (w.introduce names).distances = w.distances := by
  unfold introduce
  induction names generalizing w with
  | nil => rfl
  | cons t names ih => rw [List.foldl_cons, ih, define_distances, declare_distances]

@[simp]
theorem checkInitialized_distances (t : Token) : (w.checkInitialized t).distances = w.distances := by
  unfold checkInitialized
  split <;> exact reportIf_distances w _ _ _

@[simp]
theorem checkInitialized_scopes (t : Token) : (w.checkInitialized t).scopes = w.scopes := by
  unfold checkInitialized
  split <;> exact reportIf_scopes w _ _ _

@[simp]
theorem checkReturn_distances (role : FunctionRole) (keyword : Token) (hasValue : Bool) :
    (w.checkReturn role keyword hasValue).distances = w.distances := by
  unfold checkReturn
  rw [reportIf_distances, reportIf_distances]

end Distances

end Walk

/-- A chart agrees with noted distances on some occurrences. -/
def Agrees (T : Chart) (os : List Occurrence) (entries : List (Nat × Nat)) : Prop :=
  ∀ o ∈ os, o.id < T.limit ∧ T.distance o.id = entries.lookup o.id

/-- From one state of the walk to another only distances of these occurrences
are noted, and every open chart that agrees with them has a property. -/
def Yields (w w' : Walk) (os : List Occurrence) (P : Chart → Prop) : Prop :=
  ∃ entries, w'.distances.toList = w.distances.toList ++ entries
    ∧ (entries.map Prod.fst).Sublist (os.map Occurrence.id)
    ∧ ∀ T, T.Open → Agrees T os entries → P T

theorem Yields.none {w w' : Walk} {P : Chart → Prop} (hw : w'.distances = w.distances)
    (hP : ∀ T, P T) : Yields w w' [] P :=
  ⟨[], by rw [hw, List.append_nil], List.nil_sublist _, fun T _ _ => hP T⟩

theorem Yields.imp {w w' : Walk} {os : List Occurrence} {P Q : Chart → Prop} (h : Yields w w' os P)
    (hPQ : ∀ T, P T → Q T) : Yields w w' os Q := by
  obtain ⟨entries, hdistances, hids, hP⟩ := h
  exact ⟨entries, hdistances, hids, fun T hopen hT => hPQ T (hP T hopen hT)⟩

theorem Yields.and_open {w w' : Walk} {os : List Occurrence} {P : Chart → Prop}
    (h : Yields w w' os P) : Yields w w' os fun T => P T ∧ T.Open := by
  obtain ⟨entries, hdistances, hids, hP⟩ := h
  exact ⟨entries, hdistances, hids, fun T hopen hT => ⟨hP T hopen hT, hopen⟩⟩

/-- What is noted does not depend on the rest of the state. -/
theorem Yields.congr {w₀ w w' w'' : Walk} {os : List Occurrence} {P : Chart → Prop}
    (h : Yields w w' os P) (hw : w.distances = w₀.distances) (hw' : w''.distances = w'.distances) :
    Yields w₀ w'' os P := by
  obtain ⟨entries, hdistances, hids, hP⟩ := h
  exact ⟨entries, by rw [hw', hdistances, hw], hids, hP⟩

theorem lookup_eq_none_of_notMem {entries : List (Nat × Nat)} {id : Nat}
    (h : id ∉ entries.map Prod.fst) : entries.lookup id = none := by
  rw [List.lookup_eq_none_iff]
  intro p hp
  have hne : id ≠ p.1 := fun heq => h (heq ▸ List.mem_map_of_mem hp)
  simpa using hne

theorem lookup_eq_none_of_ids {entries : List (Nat × Nat)} {os : List Occurrence} {i : Nat}
    (hids : (entries.map Prod.fst).Sublist (os.map Occurrence.id))
    (hi : i ∉ os.map Occurrence.id) : entries.lookup i = none :=
  lookup_eq_none_of_notMem fun hmem => hi (hids.subset hmem)

/-- **Two parts of the walk one after the other**: no number comes in both, so
a chart that agrees with all that was noted agrees with each part. -/
theorem Yields.seq {w w' w'' : Walk} {os os' : List Occurrence} {P Q : Chart → Prop}
    (h : Yields w w' os P) (h' : Yields w' w'' os' Q)
    (hnodup : ((os ++ os').map Occurrence.id).Nodup) :
    Yields w w'' (os ++ os') fun T => P T ∧ Q T := by
  obtain ⟨entries, hdistances, hids, hP⟩ := h
  obtain ⟨entries', hdistances', hids', hQ⟩ := h'
  rw [List.map_append, List.nodup_append] at hnodup
  obtain ⟨-, -, hdisjoint⟩ := hnodup
  refine ⟨entries ++ entries', ?_, ?_, ?_⟩
  · rw [hdistances', hdistances, List.append_assoc]
  · rw [List.map_append, List.map_append]
    exact hids.append hids'
  · intro T hopen hT
    refine ⟨hP T hopen ?_, hQ T hopen ?_⟩
    · intro o ho
      obtain ⟨hlimit, hdistance⟩ := hT o (List.mem_append_left _ ho)
      have hmem : o.id ∈ os.map Occurrence.id := List.mem_map_of_mem ho
      have hnone := lookup_eq_none_of_ids hids' fun h => hdisjoint _ hmem _ h rfl
      rw [List.lookup_append, hnone, Option.or_none] at hdistance
      exact ⟨hlimit, hdistance⟩
    · intro o ho
      obtain ⟨hlimit, hdistance⟩ := hT o (List.mem_append_right _ ho)
      have hmem : o.id ∈ os'.map Occurrence.id := List.mem_map_of_mem ho
      have hnone := lookup_eq_none_of_ids hids fun h => hdisjoint _ h _ hmem rfl
      rw [List.lookup_append, hnone, Option.none_or] at hdistance
      exact ⟨hlimit, hdistance⟩

theorem yields_locate (w : Walk) (o : Occurrence) :
    Yields w (w.locate o) [o] fun T => Located T w.scopes o := by
  unfold Walk.locate
  cases hd : w.scopes.distance? o.name.lexeme with
  | none =>
    refine ⟨[], by rw [List.append_nil], List.nil_sublist _, ?_⟩
    intro T _ hT
    obtain ⟨hlimit, hdistance⟩ := hT o List.mem_cons_self
    exact ⟨hlimit, hdistance.trans hd.symm⟩
  | some d =>
    refine ⟨[(o.id, d)], Array.toList_push, List.Sublist.refl _, ?_⟩
    intro T _ hT
    obtain ⟨hlimit, hdistance⟩ := hT o List.mem_cons_self
    refine ⟨hlimit, hdistance.trans ?_⟩
    rw [hd, List.lookup_cons, beq_self_eq_true]

/-! ## §4. Expressions. -/

/-- The scopes that a class role promises: `this`, and `super` just outside
it. -/
def Housed : ClassRole → Scopes → Prop
  | .none, _ => True
  | .plain, scopes => ∃ d, scopes.find? "this" = some (d, true)
  | .derived, scopes =>
      ∃ d, scopes.find? "this" = some (d, true) ∧ scopes.find? "super" = some (d + 1, true)

/-- Only the innermost scope has a name that is not defined yet. -/
def Opening (scopes : Scopes) : Prop :=
  ∀ name d, scopes.find? name = some (d, false) → d = 0

mutual

/-- The names that are assigned to directly in an expression. -/
def targets : Expr → List String
  | .literal _ => []
  | .unary _ right => targets right
  | .binary left _ right => targets left ++ targets right
  | .logical left _ right => targets left ++ targets right
  | .grouping inner => targets inner
  | .variable _ => []
  | .assign o value => targets value ++ [o.name.lexeme]
  | .call callee _ arguments => targets callee ++ targetsAll arguments
  | .get object _ => targets object
  | .set object _ value => targets value ++ targets object
  | .super _ _ => []
  | .this _ => []

/-- The names that are assigned to directly in expressions. -/
def targetsAll : List Expr → List String
  | [] => []
  | e :: rest => targets e ++ targetsAll rest

end

/-- What a strict chart asks of the names that are assigned to. -/
def Assignable (T : Chart) (scopes : Scopes) (names : List String) : Prop :=
  T.strict → ∀ name ∈ names, scopes.Defined name

theorem Assignable.left {T : Chart} {scopes : Scopes} {names names' : List String}
    (h : Assignable T scopes (names ++ names')) : Assignable T scopes names :=
  fun hT name hname => h hT name (List.mem_append_left _ hname)

theorem Assignable.right {T : Chart} {scopes : Scopes} {names names' : List String}
    (h : Assignable T scopes (names ++ names')) : Assignable T scopes names' :=
  fun hT name hname => h hT name (List.mem_append_right _ hname)

/-- A name that is read without a violation is defined. -/
theorem defined_of_checkInitialized {w : Walk} {t : Token} (hopening : Opening w.scopes)
    (h : (w.checkInitialized t).Clean) : w.scopes.Defined t.lexeme := by
  intro d hd
  obtain rfl := hopening _ _ hd
  unfold Walk.checkInitialized at h
  split at h
  · next hs =>
    rw [hs] at hd
    cases hd
  · next scope rest hs =>
    have hviolated := (Walk.clean_of_reportIf h).1
    rw [hs, Scopes.find?] at hd
    cases hget : scope.get? t.lexeme with
    | none =>
      rw [hget] at hd
      obtain ⟨p, -, hp⟩ := Option.map_eq_some_iff.mp hd
      cases hp
    | some b =>
      rw [hget] at hd hviolated
      cases hd
      cases hviolated

theorem yields_use {w : Walk} {o : Occurrence} (ho : Ordinary o.name.lexeme)
    (hopening : Opening w.scopes) (h : (w.use o).Clean) :
    Yields w (w.use o) [o] fun T => BoundExpr T w.scopes (.variable o) := by
  have hlocated := yields_locate (w.checkInitialized o.name) o
  rw [Walk.checkInitialized_scopes] at hlocated
  refine (hlocated.congr (Walk.checkInitialized_distances w o.name) rfl).imp ?_
  intro T hT
  exact ⟨hT, ho, defined_of_checkInitialized hopening (Walk.clean_of_use h).1⟩

/-- `this` stands where the class role lets it. -/
theorem yields_this {role : ClassRole} {w : Walk} {o : Occurrence} (ho : o.name.lexeme = "this")
    (hhoused : Housed role w.scopes) (h : (w.expr role (.this o)).Clean) :
    Yields w (w.expr role (.this o)) [o] fun T => BoundExpr T w.scopes (.this o) := by
  rw [Walk.expr.eq_def] at h ⊢
  cases role with
  | none => exact absurd h (Walk.not_clean_report w _ _)
  | plain => exact (yields_locate w o).imp fun T hT => ⟨hT, ho, hhoused⟩
  | derived =>
    obtain ⟨d, hthis, -⟩ := hhoused
    exact (yields_locate w o).imp fun T hT => ⟨hT, ho, d, hthis⟩

theorem yields_super {role : ClassRole} {w : Walk} {o : Occurrence} {method : Token}
    (ho : o.name.lexeme = "super") (hhoused : Housed role w.scopes)
    (h : (w.expr role (.super o method)).Clean) :
    Yields w (w.expr role (.super o method)) [o] fun T => BoundExpr T w.scopes (.super o method) := by
  rw [Walk.expr.eq_def] at h ⊢
  cases role with
  | none | plain => exact absurd h (Walk.not_clean_report w _ _)
  | derived => exact (yields_locate w o).imp fun T hT => ⟨hT, ho, hhoused⟩

theorem nodup_left {os os' : List Occurrence} (h : ((os ++ os').map Occurrence.id).Nodup) :
    (os.map Occurrence.id).Nodup := by
  rw [List.map_append] at h
  exact (List.nodup_append.mp h).1

theorem nodup_right {os os' : List Occurrence} (h : ((os ++ os').map Occurrence.id).Nodup) :
    (os'.map Occurrence.id).Nodup := by
  rw [List.map_append] at h
  exact (List.nodup_append.mp h).2.1

mutual

/-- **An expression that is walked over without a violation is bound.** -/
theorem yields_expr {role : ClassRole} : ∀ {w : Walk} (e : Expr), e.Proper →
    Housed role w.scopes → Opening w.scopes → (e.occurrences.map Occurrence.id).Nodup →
    (w.expr role e).Clean →
    Yields w (w.expr role e) e.occurrences fun T =>
      Assignable T w.scopes (targets e) → BoundExpr T w.scopes e
  | w, .literal _, _, _, _, _, _ => by
    rw [Walk.expr]
    exact .none rfl fun _ _ => trivial
  | w, .grouping inner, hp, hh, ho, hn, h => by
    rw [Walk.expr] at h ⊢
    exact yields_expr inner hp hh ho hn h
  | w, .unary _ right, hp, hh, ho, hn, h => by
    rw [Walk.expr] at h ⊢
    exact yields_expr right hp hh ho hn h
  | w, .binary left _ right, hp, hh, ho, hn, h => by
    rw [Walk.expr] at h ⊢
    have hl := yields_expr left hp.1 hh ho (nodup_left hn) (Walk.clean_of_expr right h)
    have hscopes := Walk.expr_scopes role w left
    have hr := yields_expr right hp.2 (hscopes ▸ hh) (hscopes ▸ ho) (nodup_right hn) h
    rw [hscopes] at hr
    exact (hl.seq hr hn).imp fun T hT ha => ⟨hT.1 ha.left, hT.2 ha.right⟩
  | w, .logical left _ right, hp, hh, ho, hn, h => by
    rw [Walk.expr] at h ⊢
    have hl := yields_expr left hp.1 hh ho (nodup_left hn) (Walk.clean_of_expr right h)
    have hscopes := Walk.expr_scopes role w left
    have hr := yields_expr right hp.2 (hscopes ▸ hh) (hscopes ▸ ho) (nodup_right hn) h
    rw [hscopes] at hr
    exact (hl.seq hr hn).imp fun T hT ha => ⟨hT.1 ha.left, hT.2 ha.right⟩
  | w, .variable o, hp, _, ho, _, h => by
    rw [Walk.expr] at h ⊢
    exact (yields_use hp ho h).imp fun T hT _ => hT
  | w, .assign o value, hp, hh, ho, hn, h => by
    rw [Walk.expr] at h ⊢
    have hv := yields_expr value hp.2 hh ho (nodup_left hn) (Walk.clean_of_locate h)
    have hl := yields_locate (w.expr role value) o
    rw [Walk.expr_scopes] at hl
    refine (hv.seq hl hn).imp fun T hT ha => ⟨hT.1 ha.left, hT.2, hp.1, ?_⟩
    exact fun hstrict => ha.right hstrict _ List.mem_cons_self
  | w, .call callee _ arguments, hp, hh, ho, hn, h => by
    rw [Walk.expr] at h ⊢
    have hc := yields_expr callee hp.1 hh ho (nodup_left hn) (Walk.clean_of_exprs arguments h)
    have hscopes := Walk.expr_scopes role w callee
    have ha := yields_exprs arguments hp.2 (hscopes ▸ hh) (hscopes ▸ ho) (nodup_right hn) h
    rw [hscopes] at ha
    exact (hc.seq ha hn).imp fun T hT ha => ⟨hT.1 ha.left, hT.2 ha.right⟩
  | w, .get object _, hp, hh, ho, hn, h => by
    rw [Walk.expr] at h ⊢
    exact yields_expr object hp hh ho hn h
  | w, .set object _ value, hp, hh, ho, hn, h => by
    rw [Walk.expr] at h ⊢
    have hv := yields_expr value hp.2 hh ho (nodup_left hn) (Walk.clean_of_expr object h)
    have hscopes := Walk.expr_scopes role w value
    have hobject := yields_expr object hp.1 (hscopes ▸ hh) (hscopes ▸ ho) (nodup_right hn) h
    rw [hscopes] at hobject
    exact (hv.seq hobject hn).imp fun T hT ha => ⟨hT.1 ha.left, hT.2 ha.right⟩
  | w, .this o, hp, hh, _, _, h => (yields_this hp hh h).imp fun T hT _ => hT
  | w, .super o _, hp, hh, _, _, h => (yields_super hp hh h).imp fun T hT _ => hT

theorem yields_exprs {role : ClassRole} : ∀ {w : Walk} (es : List Expr), Expr.ProperAll es →
    Housed role w.scopes → Opening w.scopes →
    ((Expr.occurrencesAll es).map Occurrence.id).Nodup → (w.exprs role es).Clean →
    Yields w (w.exprs role es) (Expr.occurrencesAll es) fun T =>
      Assignable T w.scopes (targetsAll es) → BoundExprs T w.scopes es
  | w, [], _, _, _, _, _ => by
    rw [Walk.exprs]
    exact .none rfl fun _ _ => trivial
  | w, e :: rest, hp, hh, ho, hn, h => by
    rw [Walk.exprs] at h ⊢
    have hl := yields_expr e hp.1 hh ho (nodup_left hn) (Walk.clean_of_exprs rest h)
    have hscopes := Walk.expr_scopes role w e
    have hr := yields_exprs rest hp.2 (hscopes ▸ hh) (hscopes ▸ ho) (nodup_right hn) h
    rw [hscopes] at hr
    exact (hl.seq hr hn).imp fun T hT ha => ⟨hT.1 ha.left, hT.2 ha.right⟩

end

/-! ## §5. Scopes between statements. -/

theorem AllDefined.cons {scope : Bindings Bool} {scopes : Scopes} (h : AllDefined scopes)
    (hscope : ∀ name, scope.get? name ≠ some false) : AllDefined (scope :: scopes) :=
  List.forall_mem_cons.mpr ⟨hscope, h⟩

theorem AllDefined.defined {scopes : Scopes} (h : AllDefined scopes) (name : String) :
    scopes.Defined name := by
  intro d hd
  induction scopes generalizing d with
  | nil => cases hd
  | cons scope rest ih =>
    obtain ⟨hscope, hrest⟩ := List.forall_mem_cons.mp h
    rw [Scopes.find?] at hd
    cases hget : scope.get? name with
    | none =>
      rw [hget] at hd
      obtain ⟨⟨d', b⟩, hfind, hp⟩ := Option.map_eq_some_iff.mp hd
      cases hp
      exact ih hrest d' hfind
    | some b =>
      rw [hget] at hd
      cases hd
      exact hscope name hget

theorem AllDefined.opening {scopes : Scopes} (h : AllDefined scopes) : Opening scopes :=
  fun name d hd => absurd hd (h.defined name d)

theorem AllDefined.add {scopes : Scopes} (h : AllDefined scopes) (name : String) :
    AllDefined (scopes.add name) := by
  cases scopes with
  | nil => exact h
  | cons scope rest =>
    obtain ⟨hscope, hrest⟩ := List.forall_mem_cons.mp h
    refine AllDefined.cons hrest fun other hother => ?_
    rw [Bindings.get?_insert] at hother
    split at hother
    · cases hother
    · exact hscope other hother

theorem AllDefined.after {scopes : Scopes} (h : AllDefined scopes) (s : Stmt) :
    AllDefined (scopes.after s) := by
  unfold Scopes.after
  split
  · exact h.add _
  · exact h

/-- A bound statement stands where it may. -/
theorem BoundStmt.home {T : Chart} {inside : Bool} {scopes : Scopes} {s : Stmt}
    (h : BoundStmt T inside scopes s) : T.home scopes s := by
  cases s with
  | ifElse condition thenBranch elseBranch => cases elseBranch <;> exact h.1
  | _ => exact h.1

/-- What a bound statement declares can be declared. -/
theorem BoundStmt.declarable {T : Chart} {inside : Bool} {scopes : Scopes} {s : Stmt}
    (h : BoundStmt T inside scopes s) {t : Token} (ht : s.declared? = some t) :
    Declarable T scopes t := by
  cases s with
  | var | function | «class» =>
    cases ht
    exact h.2.1
  | _ => cases ht

/-- A name that was new did not hide a name without a value. -/
theorem AllDefined.of_add {T : Chart} {scopes : Scopes} {t : Token} (ht : Declarable T scopes t)
    (h : AllDefined (scopes.add t.lexeme)) : AllDefined scopes := by
  cases scopes with
  | nil => exact h
  | cons scope rest =>
    have hnew : scope.get? t.lexeme = none := ht.2
    obtain ⟨hscope, hrest⟩ := List.forall_mem_cons.mp h
    refine AllDefined.cons hrest fun name hname => hscope name ?_
    rw [Bindings.get?_insert, if_neg, hname]
    rintro rfl
    rw [hnew] at hname
    cases hname

theorem AllDefined.of_after {T : Chart} {inside : Bool} {scopes : Scopes} {s : Stmt}
    (hb : BoundStmt T inside scopes s) (h : AllDefined (scopes.after s)) : AllDefined scopes := by
  unfold Scopes.after at h
  split at h
  · next t ht => exact .of_add (hb.declarable ht) h
  · exact h

theorem BoundStmts.allDefined {T : Chart} {inside : Bool} {scopes : Scopes} {ss : List Stmt}
    (h : BoundStmts T inside scopes ss) : AllDefined scopes := by
  induction ss generalizing scopes with
  | nil => exact h
  | cons s rest ih => exact .of_after h.1 (ih h.2)

theorem BoundStmts.allDefined_afterAll {T : Chart} {inside : Bool} {scopes : Scopes}
    {ss : List Stmt} (h : BoundStmts T inside scopes ss) : AllDefined (scopes.afterAll ss) := by
  induction ss generalizing scopes with
  | nil => exact h
  | cons s rest ih => exact ih h.2

/-- While the initializer of a variable is read, its name alone is not
defined. -/
theorem AllDefined.declare {scopes : Scopes} (h : AllDefined scopes) (name : String) :
    Opening (scopes.declare name)
      ∧ ∀ other, other ≠ name → (scopes.declare name).Defined other := by
  have hother : ∀ other, other ≠ name → (scopes.declare name).Defined other := by
    intro other hne d hd
    rw [Scopes.find?_declare_of_ne _ (Ne.symm hne)] at hd
    exact h.defined other d hd
  refine ⟨?_, hother⟩
  intro other d hd
  by_cases hne : other = name
  · subst hne
    cases scopes with
    | nil => cases hd
    | cons scope rest =>
      rw [Scopes.declare] at hd
      split at hd
      · exact absurd hd (h.defined _ _)
      · rw [Scopes.find?_insert_false, if_pos rfl] at hd
        cases hd
        rfl
  · exact absurd hd (hother other hne d)

theorem Housed.of_find? {role : ClassRole} {scopes scopes' : Scopes} (h : Housed role scopes)
    (hthis : scopes'.find? "this" = scopes.find? "this")
    (hsuper : scopes'.find? "super" = scopes.find? "super") : Housed role scopes' := by
  cases role with
  | none => trivial
  | plain =>
    obtain ⟨d, hd⟩ := h
    exact ⟨d, hthis.trans hd⟩
  | derived =>
    obtain ⟨d, hd, hd'⟩ := h
    exact ⟨d, hthis.trans hd, hsuper.trans hd'⟩

theorem Housed.add {role : ClassRole} {scopes : Scopes} {name : String} (h : Housed role scopes)
    (hname : Ordinary name) : Housed role (scopes.add name) :=
  h.of_find? (Scopes.find?_add_of_ne _ hname.1) (Scopes.find?_add_of_ne _ hname.2)

theorem Housed.declare {role : ClassRole} {scopes : Scopes} {name : String}
    (h : Housed role scopes) (hname : Ordinary name) : Housed role (scopes.declare name) :=
  h.of_find? (Scopes.find?_declare_of_ne _ hname.1) (Scopes.find?_declare_of_ne _ hname.2)

/-- A declared name in a proper statement is an ordinary one. -/
theorem ordinary_of_declared {s : Stmt} (hp : s.Proper) {name : Token}
    (h : s.declared? = some name) : Ordinary name.lexeme := by
  cases s with
  | var | function | «class» =>
    cases h
    exact hp.1
  | _ => cases h

theorem Housed.after {role : ClassRole} {scopes : Scopes} {s : Stmt} (h : Housed role scopes)
    (hp : s.Proper) : Housed role (scopes.after s) := by
  unfold Scopes.after
  split
  · next hs => exact h.add (ordinary_of_declared hp hs)
  · exact h

theorem Housed.cons {role : ClassRole} {scopes : Scopes} {scope : Bindings Bool}
    (h : Housed role scopes) (hthis : scope.get? "this" = none)
    (hsuper : scope.get? "super" = none) : Housed role (scope :: scopes) := by
  have hfind : ∀ name, scope.get? name = none →
      Scopes.find? (scope :: scopes) name = (scopes.find? name).map fun p => (p.1 + 1, p.2) := by
    intro name hget
    rw [Scopes.find?, hget]
  cases role with
  | none => trivial
  | plain =>
    obtain ⟨d, hd⟩ := h
    exact ⟨d + 1, by rw [hfind _ hthis, hd]; rfl⟩
  | derived =>
    obtain ⟨d, hd, hd'⟩ := h
    exact ⟨d + 1, by rw [hfind _ hthis, hd]; rfl, by rw [hfind _ hsuper, hd']; rfl⟩

theorem housed_classScopes (scopes : Scopes) (derived : Bool) :
    Housed (if derived then .derived else .plain) (Walk.classScopes scopes derived) := by
  cases derived with
  | false => exact ⟨0, rfl⟩
  | true => exact ⟨0, rfl, rfl⟩

theorem allDefined_classScopes {scopes : Scopes} (h : AllDefined scopes) (derived : Bool) :
    AllDefined (Walk.classScopes scopes derived) := by
  have hone : ∀ key name, Bindings.get? [(key, true)] name ≠ some false := by
    intro key name
    unfold Bindings.get?
    split <;> simp
  unfold Walk.classScopes
  cases derived with
  | false => exact h.cons (hone "this")
  | true => exact (h.cons (hone "super")).cons (hone "this")

/-- The parameters of a function, and nothing else, are defined in its
scope. -/
theorem get?_parameterScope (params : List Token) (name : String) :
    (Walk.parameterScope params).get? name
      = if name ∈ params.map Token.lexeme then some true else none := by
  have hfold : ∀ scope : Bindings Bool,
      (params.foldl (fun scope t => scope.insert t.lexeme true) scope).get? name
        = if name ∈ params.map Token.lexeme then some true else scope.get? name := by
    induction params with
    | nil => exact fun scope => rfl
    | cons t params ih =>
      intro scope
      rw [List.foldl_cons, ih, Bindings.get?_insert]
      by_cases hmem : name ∈ params.map Token.lexeme
      · simp [hmem]
      · by_cases heq : t.lexeme = name
        · simp [heq]
        · simp [hmem, heq, Ne.symm heq]
  exact hfold []

theorem Housed.parameterScope {role : ClassRole} {scopes : Scopes} {params : List Token}
    (h : Housed role scopes) (hp : ∀ t ∈ params, Ordinary t.lexeme) :
    Housed role (Walk.parameterScope params :: scopes) := by
  refine h.cons ?_ ?_
  · rw [get?_parameterScope, if_neg]
    intro hmem
    obtain ⟨t, ht, hlexeme⟩ := List.mem_map.mp hmem
    exact (hp t ht).1 hlexeme
  · rw [get?_parameterScope, if_neg]
    intro hmem
    obtain ⟨t, ht, hlexeme⟩ := List.mem_map.mp hmem
    exact (hp t ht).2 hlexeme

theorem AllDefined.parameterScope {scopes : Scopes} (h : AllDefined scopes) (params : List Token) :
    AllDefined (Walk.parameterScope params :: scopes) := by
  refine h.cons ?_
  intro name hget
  rw [get?_parameterScope] at hget
  split at hget <;> cases hget

/-! ## §6. Statements. -/

mutual

/-- No local variable is assigned to directly inside its own initializer;
`inner` tells whether the statement stands in a scope of its own. -/
def SelfFree (inner : Bool) : Stmt → Prop
  | .expression _ => True
  | .print _ => True
  | .var _ none => True
  | .var name (some e) => inner = true → name.lexeme ∉ targets e
  | .block body => SelfFreeAll true body
  | .ifElse _ thenBranch none => SelfFree inner thenBranch
  | .ifElse _ thenBranch (some elseBranch) => SelfFree inner thenBranch ∧ SelfFree inner elseBranch
  | .while _ body => SelfFree inner body
  | .function decl => SelfFreeFunction decl
  | .return _ _ => True
  | .class _ _ methods => SelfFreeMethods methods

/-- No local variable of these statements is assigned to inside its own
initializer. -/
def SelfFreeAll (inner : Bool) : List Stmt → Prop
  | [] => True
  | s :: rest => SelfFree inner s ∧ SelfFreeAll inner rest

/-- No local variable of a function is assigned to inside its own
initializer. -/
def SelfFreeFunction : FunctionDecl Stmt → Prop
  | ⟨_, _, body⟩ => SelfFreeAll true body

/-- No local variable of methods is assigned to inside its own initializer. -/
def SelfFreeMethods : List (FunctionDecl Stmt) → Prop
  | [] => True
  | m :: rest => SelfFreeFunction m ∧ SelfFreeMethods rest

end

mutual

/-- Whether a statement is free of assignments of variables to themselves. -/
def decideSelfFree (inner : Bool) : (s : Stmt) → Decidable (SelfFree inner s)
  | .expression _ | .print _ | .var _ none | .return _ _ => isTrue trivial
  | .var name (some e) => inferInstanceAs (Decidable (inner = true → name.lexeme ∉ targets e))
  | .block body => decideSelfFreeAll true body
  | .ifElse _ thenBranch none => decideSelfFree inner thenBranch
  | .ifElse _ thenBranch (some elseBranch) =>
      @instDecidableAnd _ _ (decideSelfFree inner thenBranch) (decideSelfFree inner elseBranch)
  | .while _ body => decideSelfFree inner body
  | .function decl => decideSelfFreeFunction decl
  | .class _ _ methods => decideSelfFreeMethods methods

def decideSelfFreeAll (inner : Bool) : (ss : List Stmt) → Decidable (SelfFreeAll inner ss)
  | [] => isTrue trivial
  | s :: rest => @instDecidableAnd _ _ (decideSelfFree inner s) (decideSelfFreeAll inner rest)

def decideSelfFreeFunction : (decl : FunctionDecl Stmt) → Decidable (SelfFreeFunction decl)
  | ⟨_, _, body⟩ => decideSelfFreeAll true body

def decideSelfFreeMethods : (ms : List (FunctionDecl Stmt)) → Decidable (SelfFreeMethods ms)
  | [] => isTrue trivial
  | m :: rest => @instDecidableAnd _ _ (decideSelfFreeFunction m) (decideSelfFreeMethods rest)

end

instance (inner : Bool) (ss : List Stmt) : Decidable (SelfFreeAll inner ss) :=
  decideSelfFreeAll inner ss

/-- What a chart asks of a statement beside the walk. -/
structure Admits (T : Chart) (scopes : Scopes) (s : Stmt) : Prop where
  strict : T.strict → SelfFree (!scopes.isEmpty) s
  globals : scopes = [] → ∀ name, s.declared? = some name → T.globals name.lexeme

/-- What a chart asks of statements beside the walk. -/
structure AdmitsAll (T : Chart) (scopes : Scopes) (ss : List Stmt) : Prop where
  strict : T.strict → SelfFreeAll (!scopes.isEmpty) ss
  globals : scopes = [] → ∀ s ∈ ss, ∀ name, s.declared? = some name → T.globals name.lexeme

theorem admitsAll_cons {T : Chart} {scope : Bindings Bool} {scopes : Scopes} {ss : List Stmt}
    (h : T.strict → SelfFreeAll true ss) : AdmitsAll T (scope :: scopes) ss :=
  ⟨h, fun h => nomatch h⟩

/-- A statement that is no declaration only has to be free of assignments of
variables to themselves. -/
theorem admits_of_declared {T : Chart} {scopes : Scopes} {s : Stmt} (hs : s.declared? = none)
    (h : T.strict → SelfFree (!scopes.isEmpty) s) : Admits T scopes s := by
  refine ⟨h, ?_⟩
  intro _ name hname
  rw [hs] at hname
  cases hname

theorem isEmpty_declare (scopes : Scopes) (name : String) :
    (scopes.declare name).isEmpty = scopes.isEmpty := by
  cases scopes with
  | nil => rfl
  | cons scope rest =>
    rw [Scopes.declare]
    split <;> rfl

theorem isEmpty_add (scopes : Scopes) (name : String) :
    (scopes.add name).isEmpty = scopes.isEmpty := by
  cases scopes <;> rfl

theorem isEmpty_after (scopes : Scopes) (s : Stmt) :
    (scopes.after s).isEmpty = scopes.isEmpty := by
  unfold Scopes.after
  split
  · exact isEmpty_add scopes _
  · rfl

theorem isEmpty_afterAll (scopes : Scopes) (ss : List Stmt) :
    (scopes.afterAll ss).isEmpty = scopes.isEmpty := by
  induction ss generalizing scopes with
  | nil => rfl
  | cons s ss ih => exact (ih (scopes.after s)).trans (isEmpty_after scopes s)

theorem AdmitsAll.tail {T : Chart} {scopes : Scopes} {s : Stmt} {ss : List Stmt}
    (h : AdmitsAll T scopes (s :: ss)) : AdmitsAll T (scopes.after s) ss := by
  have hempty := isEmpty_after scopes s
  refine ⟨?_, ?_⟩
  · intro hstrict
    rw [hempty]
    exact (h.strict hstrict).2
  · intro hnil s' hs'
    rw [hnil] at hempty
    exact h.globals (List.isEmpty_iff.mp hempty.symm) s' (List.mem_cons_of_mem s hs')

/-- A name that is declared without a violation is new. -/
theorem declarable_of_clean {T : Chart} {w : Walk} {name : Token} (hname : Ordinary name.lexeme)
    (hglobals : w.scopes = [] → T.globals name.lexeme) (h : (w.declare name).Clean) :
    Declarable T w.scopes name := by
  refine ⟨hname, ?_⟩
  unfold Walk.declare at h
  cases hs : w.scopes with
  | nil => exact hglobals hs
  | cons scope rest =>
    rw [hs] at h
    dsimp only at h ⊢
    split at h
    · exact absurd h (Walk.not_clean_report w _ _)
    · next hbinds =>
      unfold Bindings.binds at hbinds
      simpa using hbinds

/-- Parameters that are introduced without a violation are different. -/
theorem nodup_of_introduce {params : List Token} : ∀ {w : Walk} {scope : Bindings Bool}
    {rest : Scopes}, w.scopes = scope :: rest → (w.introduce params).Clean →
      (∀ t ∈ params, scope.get? t.lexeme = none) ∧ (params.map Token.lexeme).Nodup := by
  induction params with
  | nil => exact fun _ _ => ⟨by simp, List.nodup_nil⟩
  | cons t params ih =>
    intro w scope rest hs h
    have hfirst : (w.declare t).Clean := Walk.clean_of_define (Walk.clean_of_introduce h)
    have hnew : scope.get? t.lexeme = none := by
      unfold Walk.declare at hfirst
      rw [hs] at hfirst
      dsimp only at hfirst
      split at hfirst
      · exact absurd hfirst (Walk.not_clean_report w _ _)
      · next hbinds =>
        unfold Bindings.binds at hbinds
        simpa using hbinds
    have hscopes : ((w.declare t).define t).scopes = scope.insert t.lexeme true :: rest := by
      rw [Walk.define_scopes, Walk.declare_scopes, Scopes.add_declare, hs]
      rfl
    obtain ⟨hrest, hnodup⟩ := ih hscopes h
    have hne : ∀ t' ∈ params, t.lexeme ≠ t'.lexeme ∧ scope.get? t'.lexeme = none := by
      intro t' ht'
      have hget := hrest t' ht'
      rw [Bindings.get?_insert] at hget
      split at hget
      · cases hget
      · next hne => exact ⟨hne, hget⟩
    refine ⟨?_, ?_⟩
    · intro t' ht'
      rcases List.mem_cons.mp ht' with rfl | ht'
      · exact hnew
      · exact (hne t' ht').2
    · rw [List.map_cons, List.nodup_cons]
      refine ⟨?_, hnodup⟩
      intro hmem
      obtain ⟨t', ht', hlexeme⟩ := List.mem_map.mp hmem
      exact (hne t' ht').1 hlexeme.symm

/-- Whether a function body is around a place. -/
def Surroundings.inside (around : Surroundings) : Bool :=
  decide (around.functionRole ≠ .none)

theorem yields_expr? {role : ClassRole} {w : Walk} (e : Option Expr) (hp : Expr.ProperOption e)
    (hh : Housed role w.scopes) (ho : Opening w.scopes)
    (hn : ((Expr.occurrences? e).map Occurrence.id).Nodup) (h : (w.expr? role e).Clean) :
    Yields w (w.expr? role e) (Expr.occurrences? e) fun T =>
      (∀ e' ∈ e, Assignable T w.scopes (targets e')) → BoundExpr? T w.scopes e := by
  cases e with
  | none => exact .none rfl fun _ _ => trivial
  | some e => exact (yields_expr e hp hh ho hn h).imp fun T hT ha => hT (ha e rfl)

/-- In scopes where every name is defined, all names can be assigned to. -/
theorem AllDefined.assignable {T : Chart} {scopes : Scopes} (h : AllDefined scopes)
    (names : List String) : Assignable T scopes names :=
  fun _ name _ => h.defined name

theorem yields_condition {role : ClassRole} {w : Walk} (e : Expr) (hp : e.Proper)
    (hh : Housed role w.scopes) (hd : AllDefined w.scopes)
    (hn : (e.occurrences.map Occurrence.id).Nodup) (h : (w.expr role e).Clean) :
    Yields w (w.expr role e) e.occurrences fun T => BoundExpr T w.scopes e :=
  (yields_expr e hp hh hd.opening hn h).imp fun _ hT => hT (hd.assignable _)

/-- The superclass of a class is bound where the class is. -/
theorem yields_enterClass {w : Walk} {name : Token} {superclass : Option Occurrence}
    (hp : ∀ o ∈ superclass, Ordinary o.name.lexeme) (hd : AllDefined w.scopes)
    (h : (w.enterClass name superclass).Clean) :
    Yields w (w.enterClass name superclass) superclass.toList fun T =>
      ∀ o ∈ superclass, BoundExpr T w.scopes (.variable o) := by
  cases superclass with
  | none => exact .none rfl fun _ _ h => nomatch h
  | some parent =>
    let w' := w.reportIf (parent.name.lexeme == name.lexeme) parent.name .inheritsFromItself
    have hscopes : w'.scopes = w.scopes := Walk.reportIf_scopes w _ _ _
    have huse : (w'.use parent).Clean := h
    have hyields := yields_use (hp parent rfl) (hscopes ▸ hd.opening) huse
    rw [hscopes] at hyields
    refine (hyields.congr (Walk.reportIf_distances w _ _ _) rfl).imp ?_
    rintro T hT _ ⟨⟩
    exact hT

mutual

/-- **A statement that is walked over without a violation is bound.** -/
theorem yields_stmt : ∀ {around : Surroundings} {w : Walk} (s : Stmt), s.Proper →
    Housed around.classRole w.scopes → AllDefined w.scopes →
    (s.occurrences.map Occurrence.id).Nodup → (w.stmt around s).Clean →
    Yields w (w.stmt around s) s.occurrences fun T =>
      Admits T w.scopes s → BoundStmt T around.inside w.scopes s
  | around, w, .expression e, hp, hh, hd, hn, h => by
    rw [Walk.stmt] at h ⊢
    exact (yields_condition e hp hh hd hn h).and_open.imp fun T hT _ => ⟨hT.2 _ _, hT.1⟩
  | around, w, .print e, hp, hh, hd, hn, h => by
    rw [Walk.stmt] at h ⊢
    exact (yields_condition e hp hh hd hn h).and_open.imp fun T hT _ => ⟨hT.2 _ _, hT.1⟩
  | around, w, .var name initializer, hp, hh, hd, hn, h => by
    rw [Walk.stmt] at h ⊢
    have hclean := Walk.clean_of_define h
    have hscopes := Walk.declare_scopes w name
    obtain ⟨hopening, hother⟩ := hd.declare name.lexeme
    have hyields := yields_expr? initializer hp.2 (hscopes ▸ hh.declare hp.1)
      (hscopes ▸ hopening) hn hclean
    rw [hscopes] at hyields
    have hnoted := hyields.congr (Walk.declare_distances w name) (Walk.define_distances _ name)
    refine hnoted.and_open.imp ?_
    intro T ⟨hT, hopen⟩ ha
    refine ⟨hopen _ _, declarable_of_clean hp.1 (fun hs => ha.globals hs name rfl)
      (Walk.clean_of_expr? hclean), hT ?_⟩
    rintro e ⟨⟩ hstrict target htarget
    cases hs : w.scopes with
    | nil => exact fun d hd => nomatch hd
    | cons scope rest =>
      -- in a scope of its own the name is not assigned to, and all others are defined
      have hself := ha.strict hstrict
      rw [hs] at hself hother
      refine hother target ?_
      rintro rfl
      exact hself rfl htarget
  | around, w, .block body, hp, hh, hd, hn, h => by
    rw [Walk.stmt] at h ⊢
    have hyields := yields_stmts (w := w.enter []) body hp (hh.cons rfl rfl)
      (hd.cons fun _ => nofun) hn h
    exact (hyields.congr rfl rfl).and_open.imp fun T hT ha =>
      ⟨hT.2 _ _, hT.1 (admitsAll_cons ha.strict)⟩
  | around, w, .ifElse condition thenBranch none, hp, hh, hd, hn, h => by
    rw [Walk.stmt] at h ⊢
    have hscopes := Walk.expr_scopes around.classRole w condition
    have hc := yields_condition condition hp.1 hh hd (nodup_left hn)
      (Walk.clean_of_stmt thenBranch h)
    have ht := yields_stmt thenBranch hp.2.1 (hscopes ▸ hh) (hscopes ▸ hd) (nodup_right hn) h
    rw [hscopes] at ht
    exact (hc.seq ht hn).and_open.imp fun T hT ha =>
      ⟨hT.2 _ _, hT.1.1, hT.1.2 (admits_of_declared hp.2.2 ha.strict), hp.2.2⟩
  | around, w, .ifElse condition thenBranch (some elseBranch), hp, hh, hd, hn, h => by
    rw [Walk.stmt] at h ⊢
    have hscopes := Walk.expr_scopes around.classRole w condition
    have hscopes' : ((w.expr around.classRole condition).stmt around thenBranch).scopes
        = w.scopes := by
      rw [Walk.stmt_scopes _ _ _ hp.2.1.1, hscopes, Scopes.after_of_declared hp.2.1.2]
    have hclean := Walk.clean_of_stmt elseBranch h
    have hc := yields_condition condition hp.1 hh hd (nodup_left hn)
      (Walk.clean_of_stmt thenBranch hclean)
    have ht := yields_stmt thenBranch hp.2.1.1 (hscopes ▸ hh) (hscopes ▸ hd)
      (nodup_left (nodup_right hn)) hclean
    have he := yields_stmt elseBranch hp.2.2.1 (hscopes' ▸ hh) (hscopes' ▸ hd)
      (nodup_right (nodup_right hn)) h
    rw [hscopes] at ht
    rw [hscopes'] at he
    refine (hc.seq (ht.seq he (nodup_right hn)) hn).and_open.imp ?_
    intro T ⟨hT, hopen⟩ ha
    have hthen := hT.2.1 (admits_of_declared hp.2.1.2 fun hs => (ha.strict hs).1)
    have helse := hT.2.2 (admits_of_declared hp.2.2.2 fun hs => (ha.strict hs).2)
    exact ⟨hopen _ _, hT.1, ⟨hthen, hp.2.1.2⟩, helse, hp.2.2.2⟩
  | around, w, .while condition body, hp, hh, hd, hn, h => by
    rw [Walk.stmt] at h ⊢
    have hscopes := Walk.expr_scopes around.classRole w condition
    have hc := yields_condition condition hp.1 hh hd (nodup_left hn) (Walk.clean_of_stmt body h)
    have hb := yields_stmt body hp.2.1 (hscopes ▸ hh) (hscopes ▸ hd) (nodup_right hn) h
    rw [hscopes] at hb
    exact (hc.seq hb hn).and_open.imp fun T hT ha =>
      ⟨hT.2 _ _, hT.1.1, hT.1.2 (admits_of_declared hp.2.2 ha.strict), hp.2.2⟩
  | around, w, .function decl, hp, hh, hd, hn, h => by
    rw [Walk.stmt] at h ⊢
    have hscopes : (w.introduce [decl.name]).scopes = w.scopes.add decl.name.lexeme :=
      Walk.introduce_scopes w [decl.name]
    have hclean := Walk.clean_of_function decl h
    have hf := yields_function decl rfl hp.2 (hscopes ▸ hh.add hp.1) (hscopes ▸ hd.add _) hn h
    rw [hscopes] at hf
    refine (hf.congr (Walk.introduce_distances w _) rfl).and_open.imp ?_
    intro T ⟨hT, hopen⟩ ha
    exact ⟨hopen _ _, declarable_of_clean hp.1 (fun hs => ha.globals hs decl.name rfl)
      (Walk.clean_of_define hclean), hT ha.strict⟩
  | around, w, .return keyword value, hp, hh, hd, hn, h => by
    rw [Walk.stmt] at h ⊢
    have hscopes := Walk.checkReturn_scopes w around.functionRole keyword value.isSome
    have hrole := (Walk.clean_of_checkReturn (Walk.clean_of_expr? h)).1
    have hv := yields_expr? value hp (hscopes ▸ hh) (hscopes ▸ hd.opening) hn h
    rw [hscopes] at hv
    refine (hv.congr (Walk.checkReturn_distances w _ _ _) rfl).and_open.imp ?_
    intro T ⟨hT, hopen⟩ _
    exact ⟨hopen _ _, decide_eq_true hrole, hT fun e' _ => hd.assignable _⟩
  | around, w, .class name superclass methods, hp, hh, hd, hn, h => by
    rw [Walk.stmt] at h ⊢
    have hscopes : (w.introduce [name]).scopes = w.scopes.add name.lexeme :=
      Walk.introduce_scopes w [name]
    have hd' : AllDefined (w.introduce [name]).scopes := hscopes ▸ hd.add _
    have hclean := Walk.clean_of_leaveClass h
    have hclean' := Walk.clean_of_methods methods hclean
    have hparent := yields_enterClass hp.2.1 hd' hclean'
    have hinner := Walk.enterClass_scopes (w.introduce [name]) name superclass
    have hm := yields_methods methods hp.2.2 (by rw [hinner]; exact housed_classScopes _ _)
      (by rw [hinner]; exact allDefined_classScopes hd' _) (nodup_right hn) hclean
    rw [hinner, hscopes] at hm
    rw [hscopes] at hparent
    refine ((hparent.seq hm hn).congr (Walk.introduce_distances w _) ?_).and_open.imp ?_
    · cases superclass <;> rfl
    · intro T ⟨hT, hopen⟩ ha
      exact ⟨hopen _ _, declarable_of_clean hp.1 (fun hs => ha.globals hs name rfl)
        (Walk.clean_of_define (Walk.clean_of_enterClass hclean')), hT.1, hT.2 ha.strict⟩

theorem yields_stmts : ∀ {around : Surroundings} {w : Walk} (ss : List Stmt), Stmt.ProperAll ss →
    Housed around.classRole w.scopes → AllDefined w.scopes →
    ((Stmt.occurrencesAll ss).map Occurrence.id).Nodup → (w.stmts around ss).Clean →
    Yields w (w.stmts around ss) (Stmt.occurrencesAll ss) fun T =>
      AdmitsAll T w.scopes ss → BoundStmts T around.inside w.scopes ss
  | around, w, [], _, _, hd, _, _ => by
    rw [Walk.stmts]
    exact .none rfl fun _ _ => hd
  | around, w, s :: rest, hp, hh, hd, hn, h => by
    rw [Walk.stmts] at h ⊢
    have hscopes := Walk.stmt_scopes around w s hp.1
    have hs := yields_stmt s hp.1 hh hd (nodup_left hn) (Walk.clean_of_stmts rest h)
    have hr := yields_stmts rest hp.2 (hscopes ▸ hh.after hp.1) (hscopes ▸ hd.after s)
      (nodup_right hn) h
    rw [hscopes] at hr
    refine (hs.seq hr hn).imp ?_
    intro T hT ha
    refine ⟨hT.1 ⟨fun hs => (ha.strict hs).1, ?_⟩, hT.2 ha.tail⟩
    exact fun hs name => ha.globals hs s List.mem_cons_self name

theorem yields_function : ∀ {around : Surroundings} {w : Walk} (decl : FunctionDecl Stmt),
    around.inside = true → Stmt.ProperFunction decl → Housed around.classRole w.scopes →
    AllDefined w.scopes → ((Stmt.occurrencesFunction decl).map Occurrence.id).Nodup →
    (w.function around decl).Clean →
    Yields w (w.function around decl) (Stmt.occurrencesFunction decl) fun T =>
      (T.strict → SelfFreeFunction decl) → BoundFunction T w.scopes decl
  | around, w, ⟨_, params, body⟩, hi, hp, hh, hd, hn, h => by
    rw [Walk.function] at h ⊢
    have hscopes := Walk.introduce_enter_scopes w params
    have hclean : ((w.enter []).introduce params).Clean := Walk.clean_of_stmts body h
    obtain ⟨-, hnodup⟩ := nodup_of_introduce (w := w.enter []) rfl hclean
    have hb := yields_stmts body hp.2 (hscopes ▸ hh.parameterScope hp.1)
      (hscopes ▸ hd.parameterScope params) hn h
    rw [hscopes, hi] at hb
    refine (hb.congr (Walk.introduce_distances (w.enter []) params) rfl).imp ?_
    intro T hT hstrict
    exact ⟨hp.1, hnodup, hT (admitsAll_cons hstrict)⟩

theorem yields_methods : ∀ {around : Surroundings} {w : Walk} (ms : List (FunctionDecl Stmt)),
    Stmt.ProperMethods ms → Housed around.classRole w.scopes → AllDefined w.scopes →
    ((Stmt.occurrencesMethods ms).map Occurrence.id).Nodup → (w.methods around ms).Clean →
    Yields w (w.methods around ms) (Stmt.occurrencesMethods ms) fun T =>
      (T.strict → SelfFreeMethods ms) → BoundMethods T w.scopes ms
  | around, w, [], _, _, _, _, _ => by
    rw [Walk.methods]
    exact .none rfl fun _ _ => trivial
  | around, w, m :: rest, hp, hh, hd, hn, h => by
    rw [Walk.methods] at h ⊢
    have hinside : Surroundings.inside
        { around with functionRole := if m.isInitializer then .initializer else .method } = true := by
      unfold Surroundings.inside
      split <;> rfl
    have hscopes := Walk.function_scopes
      { around with functionRole := if m.isInitializer then .initializer else .method } w m hp.1
    have hm := yields_function m hinside hp.1 hh hd (nodup_left hn) (Walk.clean_of_methods rest h)
    have hr := yields_methods rest hp.2 (hscopes ▸ hh) (hscopes ▸ hd) (nodup_right hn) h
    rw [hscopes] at hr
    exact (hm.seq hr hn).imp fun T hT hs => ⟨hT.1 fun h => (hs h).1, hT.2 fun h => (hs h).2⟩

end

/-! ## §7. Programs. -/

theorem allDefined_nil : AllDefined [] :=
  fun _ h => nomatch h

/-- The walk over a whole program. -/
theorem yields_program {globals : List String} {ss : List Stmt} (hp : Stmt.ProperAll ss)
    (hn : ((Stmt.occurrencesAll ss).map Occurrence.id).Nodup)
    (hclean : (program globals ss).failures = []) :
    let w : Walk := ⟨[], globals.map (·, true), #[], #[]⟩
    Yields w (w.stmts .topLevel ss) (Stmt.occurrencesAll ss) fun T =>
      AdmitsAll T [] ss → BoundStmts T false [] ss := by
  intro w
  have hw : (w.stmts .topLevel ss).Clean := Array.toList_eq_nil_iff.mp hclean
  exact @yields_stmts .topLevel w ss hp trivial allDefined_nil hn hw

/-- **An accepted program is bound** in every open chart that has the distances
the walk noted for its occurrences. -/
theorem bound_of_walk {globals : List String} {ss : List Stmt} (hp : Stmt.ProperAll ss)
    (hn : ((Stmt.occurrencesAll ss).map Occurrence.id).Nodup)
    (hclean : (program globals ss).failures = []) {T : Chart} (hopen : T.Open)
    (hT : Agrees T (Stmt.occurrencesAll ss) (program globals ss).distances)
    (ha : AdmitsAll T [] ss) : BoundStmts T false [] ss := by
  obtain ⟨entries, hentries, -, hbound⟩ := yields_program hp hn hclean
  have hdistances : (program globals ss).distances = entries := hentries
  rw [hdistances] at hT
  exact hbound T hopen hT ha

/-- The numbers that distances are noted for are numbers of the program, each
at most once. -/
theorem distances_sublist {globals : List String} {ss : List Stmt} (hp : Stmt.ProperAll ss)
    (hn : ((Stmt.occurrencesAll ss).map Occurrence.id).Nodup)
    (hclean : (program globals ss).failures = []) :
    ((program globals ss).distances.map Prod.fst).Sublist
      ((Stmt.occurrencesAll ss).map Occurrence.id) := by
  obtain ⟨entries, hentries, hsublist, -⟩ := yields_program hp hn hclean
  have hdistances : (program globals ss).distances = entries := hentries
  rw [hdistances]
  exact hsublist

end Lox.Resolve
