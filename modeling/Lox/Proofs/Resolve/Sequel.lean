/-
  Lox.Proofs.Resolve.Sequel
  ─────────────────────────
  **ANALYSING A TEXT AFTER ANOTHER ONE.**

  A walk over a text can start afresh, with the globals that exist, or go on
  after a walk over an earlier text, with the globals that it has seen.  The
  two go side by side (`Trails`): they have the same scopes and note the same
  distances.  The second walk knows at least the globals of the first, so it
  finds nothing to report where the first finds nothing (`program_append`).
-/
import Lox.Proofs.Resolve.Bound
import Lox.Proofs.Syntax.Lines

namespace Lox.Resolve

/-! ## §1. Two walks. -/

/-- A walk `w'` that goes on after distances `D`, beside a walk `w` afresh. -/
structure Trails (D : Array (Nat × Nat)) (w w' : Walk) : Prop where
  scopes : w'.scopes = w.scopes
  /-- Every known global is known here. -/
  binds : ∀ name, w.globals.binds name → w'.globals.binds name
  /-- A global without a value here has no value there. -/
  undefined : ∀ name, w'.globals.get? name = some false → w.globals.get? name = some false
  distances : w'.distances = D ++ w.distances
  clean : w.Clean → w'.Clean

namespace Trails

variable {D : Array (Nat × Nat)} {w w' : Walk} (f : Nat → Nat) {role : ClassRole}

/-- Where the walk afresh reports something, nothing is asked of the other. -/
theorem report (h : Trails D w w') (t : Token) (fault : ScopeFault) {v : Walk}
    (hscopes : v.scopes = w'.scopes) (hglobals : v.globals = w'.globals)
    (hdistances : v.distances = w'.distances) : Trails D (w.report t fault) v := by
  refine ⟨hscopes.trans h.scopes, ?_, ?_, hdistances.trans h.distances, ?_⟩
  · rw [hglobals]
    exact h.binds
  · rw [hglobals]
    exact h.undefined
  · intro hclean
    exact absurd hclean (Walk.not_clean_report w t fault)

theorem reportIf (h : Trails D w w') {b b' : Bool} (hb : b' = true → b = true) (t : Token)
    (fault : ScopeFault) : Trails D (w.reportIf b t fault) (w'.reportIf b' (t.reline f) fault) := by
  unfold Walk.reportIf
  cases b with
  | true =>
    rw [if_pos rfl]
    split
    · exact h.report t fault rfl rfl rfl
    · exact h.report t fault rfl rfl rfl
  | false =>
    have hb' : b' = false := by
      cases b' with
      | false => rfl
      | true => cases hb rfl
    rw [hb']
    exact h

theorem enter (h : Trails D w w') (names : List String) : Trails D (w.enter names) (w'.enter names) := by
  refine ⟨?_, h.binds, h.undefined, h.distances, h.clean⟩
  show _ :: w'.scopes = _ :: w.scopes
  rw [h.scopes]

theorem leave (h : Trails D w w') : Trails D w.leave w'.leave := by
  refine ⟨?_, h.binds, h.undefined, h.distances, h.clean⟩
  show w'.scopes.tail = w.scopes.tail
  rw [h.scopes]

/-- A name that is new to the walk that goes on is new to the one afresh. -/
theorem declare (h : Trails D w w') (t : Token) :
    Trails D (w.declare t) (w'.declare (t.reline f)) := by
  have hscopes := h.scopes
  unfold Walk.declare
  rw [hscopes, Token.reline_lexeme]
  cases hw : w.scopes with
  | nil =>
    dsimp only
    by_cases hb' : w'.globals.binds t.lexeme
    · rw [if_pos hb']
      by_cases hb : w.globals.binds t.lexeme
      · rw [if_pos hb]
        exact h
      · -- only one of the walks knows the name before, and it stays undefined in the other
        rw [if_neg hb]
        refine ⟨h.scopes.trans hw, ?_, ?_, h.distances, h.clean⟩
        · intro name hname
          rw [Bindings.binds_insert, Bool.or_eq_true, decide_eq_true_iff] at hname
          rcases hname with rfl | hname
          · exact hb'
          · exact h.binds name hname
        · intro name hname
          show (w.globals.insert t.lexeme false).get? name = some false
          rw [Bindings.get?_insert]
          split
          · rfl
          · exact h.undefined name hname
    · have hb : ¬ w.globals.binds t.lexeme := fun hb => hb' (h.binds _ hb)
      rw [if_neg hb', if_neg hb]
      refine ⟨rfl, ?_, ?_, h.distances, h.clean⟩
      · intro name hname
        rw [Bindings.binds_insert, Bool.or_eq_true, decide_eq_true_iff] at hname ⊢
        exact hname.imp_right (h.binds name)
      · intro name hname
        show (w.globals.insert t.lexeme false).get? name = some false
        rw [Bindings.get?_insert] at hname ⊢
        split at hname
        · next heq => rw [if_pos heq]
        · next hne =>
          rw [if_neg hne]
          exact h.undefined name hname
  | cons scope rest =>
    dsimp only
    split
    · exact h.report t _ rfl rfl rfl
    · exact ⟨rfl, h.binds, h.undefined, h.distances, h.clean⟩

theorem define (h : Trails D w w') (t : Token) : Trails D (w.define t) (w'.define (t.reline f)) := by
  have hscopes := h.scopes
  unfold Walk.define
  rw [hscopes, Token.reline_lexeme]
  cases hw : w.scopes with
  | nil =>
    refine ⟨rfl, ?_, ?_, h.distances, h.clean⟩
    · intro name hname
      rw [Bindings.binds_insert, Bool.or_eq_true, decide_eq_true_iff] at hname ⊢
      exact hname.imp_right (h.binds name)
    · intro name hname
      show (w.globals.insert t.lexeme true).get? name = some false
      rw [Bindings.get?_insert] at hname ⊢
      split at hname
      · cases hname
      · next hne =>
        rw [if_neg hne]
        exact h.undefined name hname
  | cons scope rest => exact ⟨rfl, h.binds, h.undefined, h.distances, h.clean⟩

theorem introduce (h : Trails D w w') (names : List Token) :
    Trails D (w.introduce names) (w'.introduce (names.map (Token.reline f))) := by
  unfold Walk.introduce
  induction names generalizing w w' with
  | nil => exact h
  | cons t names ih => exact ih ((h.declare f t).define f t)

/-- Both walks note the same distance. -/
theorem locate (h : Trails D w w') (o : Occurrence) :
    Trails D (w.locate o) (w'.locate (o.reline f)) := by
  have hdistance : w'.scopes.distance? (o.reline f).name.lexeme
      = w.scopes.distance? o.name.lexeme := by
    rw [h.scopes]
    rfl
  unfold Walk.locate
  rw [hdistance]
  split
  · refine ⟨h.scopes, h.binds, h.undefined, ?_, h.clean⟩
    show w'.distances.push _ = D ++ w.distances.push _
    rw [h.distances, Array.append_push]
    rfl
  · exact h

theorem use (h : Trails D w w') (o : Occurrence) : Trails D (w.use o) (w'.use (o.reline f)) := by
  refine locate f ?_ o
  have hscopes := h.scopes
  unfold Walk.checkInitialized
  rw [hscopes]
  cases w.scopes with
  | nil =>
    refine h.reportIf f ?_ o.name _
    intro hundefined
    exact beq_iff_eq.mpr (h.undefined _ (beq_iff_eq.mp hundefined))
  | cons scope rest => exact h.reportIf f (fun hb => hb) o.name _

/-! ## §2. Side by side. -/

mutual

/-- Walking over an expression keeps two walks side by side. -/
theorem expr : ∀ {w w' : Walk} (e : Expr), Trails D w w' →
    Trails D (w.expr role e) (w'.expr role (e.reline f))
  | _, _, .literal _, h => by
    rw [Expr.reline, Walk.expr, Walk.expr]
    exact h
  | _, _, .grouping inner, h => by
    rw [Expr.reline, Walk.expr, Walk.expr]
    exact expr inner h
  | _, _, .unary _ right, h => by
    rw [Expr.reline, Walk.expr, Walk.expr]
    exact expr right h
  | _, _, .binary left _ right, h => by
    rw [Expr.reline, Walk.expr, Walk.expr]
    exact expr right (expr left h)
  | _, _, .logical left _ right, h => by
    rw [Expr.reline, Walk.expr, Walk.expr]
    exact expr right (expr left h)
  | _, _, .variable o, h => by
    rw [Expr.reline, Walk.expr, Walk.expr]
    exact h.use f o
  | _, _, .assign target value, h => by
    rw [Expr.reline, Walk.expr, Walk.expr]
    exact (expr value h).locate f target
  | _, _, .call callee _ arguments, h => by
    rw [Expr.reline, Walk.expr, Walk.expr]
    exact exprs arguments (expr callee h)
  | _, _, .get object _, h => by
    rw [Expr.reline, Walk.expr, Walk.expr]
    exact expr object h
  | _, _, .set object _ value, h => by
    rw [Expr.reline, Walk.expr, Walk.expr]
    exact expr object (expr value h)
  | _, _, .this o, h => by
    rw [Expr.reline, Walk.expr.eq_def, Walk.expr.eq_def]
    cases role with
    | none => exact h.report o.name _ rfl rfl rfl
    | plain | derived => exact h.locate f o
  | _, _, .super o _, h => by
    rw [Expr.reline, Walk.expr.eq_def, Walk.expr.eq_def]
    cases role with
    | none | plain => exact h.report o.name _ rfl rfl rfl
    | derived => exact h.locate f o

theorem exprs : ∀ {w w' : Walk} (es : List Expr), Trails D w w' →
    Trails D (w.exprs role es) (w'.exprs role (Expr.relineAll f es))
  | _, _, [], h => by
    rw [Expr.relineAll, Walk.exprs, Walk.exprs]
    exact h
  | _, _, e :: rest, h => by
    rw [Expr.relineAll, Walk.exprs, Walk.exprs]
    exact exprs rest (expr e h)

end

theorem expr? (h : Trails D w w') (e : Option Expr) :
    Trails D (w.expr? role e) (w'.expr? role (e.map (Expr.reline f))) := by
  cases e with
  | none => exact h
  | some e => exact expr f e h

theorem checkReturn (h : Trails D w w') (role : FunctionRole) (keyword : Token) (hasValue : Bool) :
    Trails D (w.checkReturn role keyword hasValue)
      (w'.checkReturn role (keyword.reline f) hasValue) :=
  (h.reportIf f (fun hb => hb) keyword _).reportIf f (fun hb => hb) keyword _

theorem enterClass (h : Trails D w w') (name : Token) (superclass : Option Occurrence) :
    Trails D (w.enterClass name superclass)
      (w'.enterClass (name.reline f) (superclass.map (Occurrence.reline f))) := by
  cases superclass with
  | none => exact h.enter ["this"]
  | some parent =>
    have hreported := h.reportIf f (b := parent.name.lexeme == name.lexeme) (fun hb => hb)
      parent.name .inheritsFromItself
    exact ((hreported.use f parent).enter ["super"]).enter ["this"]

theorem leaveClass (h : Trails D w w') (superclass : Option Occurrence) :
    Trails D (w.leaveClass superclass)
      (w'.leaveClass (superclass.map (Occurrence.reline f))) := by
  cases superclass with
  | none => exact h.leave
  | some parent => exact h.leave.leave

mutual

/-- **Walking over a statement keeps two walks side by side.** -/
theorem stmt : ∀ {around : Surroundings} {w w' : Walk} (s : Stmt), Trails D w w' →
    Trails D (w.stmt around s) (w'.stmt around (s.reline f))
  | _, _, _, .expression e, h => by
    rw [Stmt.reline, Walk.stmt, Walk.stmt]
    exact expr f e h
  | _, _, _, .print e, h => by
    rw [Stmt.reline, Walk.stmt, Walk.stmt]
    exact expr f e h
  | _, _, _, .var name initializer, h => by
    rw [Stmt.reline, Walk.stmt, Walk.stmt]
    exact ((h.declare f name).expr? f initializer).define f name
  | _, _, _, .block body, h => by
    rw [Stmt.reline, Walk.stmt, Walk.stmt]
    exact (stmts body (h.enter [])).leave
  | _, _, _, .ifElse condition thenBranch none, h => by
    rw [Stmt.reline, Walk.stmt, Walk.stmt]
    exact stmt thenBranch (expr f condition h)
  | _, _, _, .ifElse condition thenBranch (some elseBranch), h => by
    rw [Stmt.reline, Walk.stmt, Walk.stmt]
    exact stmt elseBranch (stmt thenBranch (expr f condition h))
  | _, _, _, .while condition body, h => by
    rw [Stmt.reline, Walk.stmt, Walk.stmt]
    exact stmt body (expr f condition h)
  | _, _, _, .function decl, h => by
    rw [Stmt.reline, Walk.stmt, Walk.stmt]
    have hname : (Stmt.relineFunction f decl).name = decl.name.reline f := by
      obtain ⟨name, params, body⟩ := decl
      rw [Stmt.relineFunction]
    rw [hname]
    exact function decl (h.introduce f [decl.name])
  | _, _, _, .return keyword value, h => by
    rw [Stmt.reline, Walk.stmt, Walk.stmt, Option.isSome_map]
    exact (h.checkReturn f _ keyword _).expr? f value
  | _, _, _, .class name superclass ms, h => by
    rw [Stmt.reline, Walk.stmt, Walk.stmt, Option.isSome_map]
    exact (methods ms ((h.introduce f [name]).enterClass f name superclass)).leaveClass f superclass

theorem stmts : ∀ {around : Surroundings} {w w' : Walk} (ss : List Stmt), Trails D w w' →
    Trails D (w.stmts around ss) (w'.stmts around (Stmt.relineAll f ss))
  | _, _, _, [], h => by
    rw [Stmt.relineAll, Walk.stmts, Walk.stmts]
    exact h
  | _, _, _, s :: rest, h => by
    rw [Stmt.relineAll, Walk.stmts, Walk.stmts]
    exact stmts rest (stmt s h)

theorem function : ∀ {around : Surroundings} {w w' : Walk} (decl : FunctionDecl Stmt),
    Trails D w w' → Trails D (w.function around decl) (w'.function around (Stmt.relineFunction f decl))
  | _, _, _, ⟨_, params, body⟩, h => by
    rw [Stmt.relineFunction, Walk.function, Walk.function]
    exact (stmts body ((h.enter []).introduce f params)).leave

theorem methods : ∀ {around : Surroundings} {w w' : Walk} (ms : List (FunctionDecl Stmt)),
    Trails D w w' → Trails D (w.methods around ms) (w'.methods around (Stmt.relineMethods f ms))
  | _, _, _, [], h => by
    rw [Stmt.relineMethods, Walk.methods, Walk.methods]
    exact h
  | _, _, _, ⟨name, params, body⟩ :: rest, h => by
    have hinit : (Stmt.relineFunction f ⟨name, params, body⟩).isInitializer
        = (⟨name, params, body⟩ : FunctionDecl Stmt).isInitializer := by
      rw [Stmt.relineFunction]
      rfl
    rw [Stmt.relineMethods, Walk.methods, Walk.methods, hinit]
    exact methods rest (function ⟨name, params, body⟩ h)

end

end Trails

/-! ## §3. Globals after a walk. -/

/-- What a walk does to the globals: none is forgotten, and if all had a value
before, then all have one again. -/
structure Settles (b b' : Bindings Bool) : Prop where
  binds : ∀ name, b.binds name → b'.binds name
  defined : (∀ name, b.get? name ≠ some false) → ∀ name, b'.get? name ≠ some false

theorem Settles.refl (b : Bindings Bool) : Settles b b :=
  ⟨fun _ h => h, fun h => h⟩

theorem Settles.trans {b b' b'' : Bindings Bool} (h : Settles b b') (h' : Settles b' b'') :
    Settles b b'' :=
  ⟨fun name hname => h'.binds name (h.binds name hname), fun hb => h'.defined (h.defined hb)⟩

namespace Walk

theorem reportIf_globals (w : Walk) (b : Bool) (t : Token) (fault : ScopeFault) :
    (w.reportIf b t fault).globals = w.globals := by
  unfold reportIf
  split <;> rfl

theorem locate_globals (w : Walk) (o : Occurrence) : (w.locate o).globals = w.globals := by
  unfold locate
  split <;> rfl

theorem use_globals (w : Walk) (o : Occurrence) : (w.use o).globals = w.globals := by
  unfold use checkInitialized
  rw [locate_globals]
  split <;> exact reportIf_globals w _ _ _

mutual

/-- Expressions declare nothing. -/
theorem expr_globals (role : ClassRole) : ∀ (w : Walk) (e : Expr),
    (w.expr role e).globals = w.globals
  | w, .literal _ => by rw [expr]
  | w, .grouping inner => by rw [expr, expr_globals role w inner]
  | w, .unary _ right => by rw [expr, expr_globals role w right]
  | w, .binary left _ right => by rw [expr, expr_globals role _ right, expr_globals role w left]
  | w, .logical left _ right => by rw [expr, expr_globals role _ right, expr_globals role w left]
  | w, .variable o => by rw [expr, use_globals]
  | w, .assign target value => by rw [expr, locate_globals, expr_globals role w value]
  | w, .call callee _ arguments => by
    rw [expr, exprs_globals role _ arguments, expr_globals role w callee]
  | w, .get object _ => by rw [expr, expr_globals role w object]
  | w, .set object _ value => by rw [expr, expr_globals role _ object, expr_globals role w value]
  | w, .this o => by
    rw [expr.eq_def]
    cases role with
    | none => rfl
    | plain | derived => exact locate_globals w o
  | w, .super o _ => by
    rw [expr.eq_def]
    cases role with
    | none | plain => rfl
    | derived => exact locate_globals w o

theorem exprs_globals (role : ClassRole) : ∀ (w : Walk) (es : List Expr),
    (w.exprs role es).globals = w.globals
  | w, [] => by rw [exprs]
  | w, e :: rest => by rw [exprs, exprs_globals role _ rest, expr_globals role w e]

end

theorem expr?_globals (role : ClassRole) (w : Walk) (e : Option Expr) :
    (w.expr? role e).globals = w.globals := by
  cases e with
  | none => rfl
  | some e => exact expr_globals role w e

/-- A name that is declared and then defined has a value in the end. -/
theorem settles_define {w v : Walk} {t : Token} (hscopes : v.scopes = (w.declare t).scopes)
    (hglobals : v.globals = (w.declare t).globals) : Settles w.globals (v.define t).globals := by
  rw [declare_scopes] at hscopes
  cases hw : w.scopes with
  | nil =>
    -- the declaration changes no other global, and the definition this one
    rw [hw, Scopes.declare] at hscopes
    have hdefine : (v.define t).globals = v.globals.insert t.lexeme true := by
      unfold define
      rw [hscopes]
    have hget : ∀ name, t.lexeme ≠ name → v.globals.get? name = w.globals.get? name := by
      intro name hname
      rw [hglobals]
      unfold declare
      rw [hw]
      dsimp only
      split
      · rfl
      · exact (Bindings.get?_insert _ _ _ _).trans (if_neg hname)
    rw [hdefine]
    refine ⟨?_, ?_⟩
    · intro name hname
      rw [Bindings.binds_insert, Bool.or_eq_true, decide_eq_true_iff]
      by_cases heq : t.lexeme = name
      · exact .inl heq
      · refine .inr ?_
        unfold Bindings.binds at hname ⊢
        rw [hget name heq]
        exact hname
    · intro hdefined name
      rw [Bindings.get?_insert]
      by_cases heq : t.lexeme = name
      · rw [if_pos heq]
        simp
      · rw [if_neg heq, hget name heq]
        exact hdefined name
  | cons scope rest =>
    -- in a local scope the globals are out of sight
    have hdeclare : (w.declare t).globals = w.globals := by
      unfold declare
      rw [hw]
      dsimp only
      split <;> rfl
    have hdefine : (v.define t).globals = w.globals := by
      have hne : v.scopes ≠ [] := by
        rw [hscopes, hw, Scopes.declare]
        split <;> exact List.cons_ne_nil _ _
      unfold define
      rw [← hdeclare, ← hglobals]
      split
      · next hnil => exact absurd hnil hne
      · rfl
    rw [hdefine]
    exact .refl _

theorem settles_introduce (w : Walk) (names : List Token) :
    Settles w.globals (w.introduce names).globals := by
  unfold introduce
  induction names generalizing w with
  | nil => exact .refl _
  | cons t names ih => exact (settles_define rfl rfl).trans (ih _)

theorem enterClass_globals (w : Walk) (name : Token) (superclass : Option Occurrence) :
    (w.enterClass name superclass).globals = w.globals := by
  cases superclass with
  | none => rfl
  | some parent =>
    show ((w.reportIf _ _ _).use parent).globals = _
    rw [use_globals, reportIf_globals]

theorem leaveClass_globals (w : Walk) (superclass : Option Occurrence) :
    (w.leaveClass superclass).globals = w.globals := by
  cases superclass <;> rfl

mutual

/-- **After a statement all globals have a value**, if they had one before. -/
theorem settles_stmt : ∀ (around : Surroundings) (w : Walk) (s : Stmt),
    Settles w.globals (w.stmt around s).globals
  | _, w, .expression e | _, w, .print e => by
    rw [stmt, expr_globals]
    exact .refl _
  | around, w, .var name initializer => by
    rw [stmt]
    exact settles_define (expr?_scopes _ _ _) (expr?_globals _ _ _)
  | around, w, .block body => by
    rw [stmt]
    exact settles_stmts around (w.enter []) body
  | around, w, .ifElse condition thenBranch none => by
    rw [stmt]
    have h := settles_stmt around (w.expr around.classRole condition) thenBranch
    rw [expr_globals] at h
    exact h
  | around, w, .ifElse condition thenBranch (some elseBranch) => by
    rw [stmt]
    have h := settles_stmt around (w.expr around.classRole condition) thenBranch
    rw [expr_globals] at h
    exact h.trans (settles_stmt around _ elseBranch)
  | around, w, .while condition body => by
    rw [stmt]
    have h := settles_stmt around (w.expr around.classRole condition) body
    rw [expr_globals] at h
    exact h
  | around, w, .function decl => by
    rw [stmt]
    exact (settles_introduce w [decl.name]).trans (settles_function _ _ decl)
  | around, w, .return keyword value => by
    rw [stmt, expr?_globals]
    unfold checkReturn
    rw [reportIf_globals, reportIf_globals]
    exact .refl _
  | around, w, .class name superclass ms => by
    rw [stmt, leaveClass_globals]
    have h := settles_methods { around with classRole := if superclass.isSome then .derived else .plain }
      ((w.introduce [name]).enterClass name superclass) ms
    rw [enterClass_globals] at h
    exact (settles_introduce w [name]).trans h

theorem settles_stmts : ∀ (around : Surroundings) (w : Walk) (ss : List Stmt),
    Settles w.globals (w.stmts around ss).globals
  | _, w, [] => by
    rw [stmts]
    exact .refl _
  | around, w, s :: rest => by
    rw [stmts]
    exact (settles_stmt around w s).trans (settles_stmts around _ rest)

theorem settles_function : ∀ (around : Surroundings) (w : Walk) (decl : FunctionDecl Stmt),
    Settles w.globals (w.function around decl).globals
  | around, w, ⟨_, params, body⟩ => by
    rw [function]
    exact (settles_introduce (w.enter []) params).trans (settles_stmts around _ body)

theorem settles_methods : ∀ (around : Surroundings) (w : Walk) (ms : List (FunctionDecl Stmt)),
    Settles w.globals (w.methods around ms).globals
  | _, w, [] => by
    rw [methods]
    exact .refl _
  | around, w, m :: rest => by
    rw [methods]
    exact (settles_function _ w m).trans (settles_methods around _ rest)

end

/-- A name that is defined at the top level is a global. -/
theorem binds_define {w : Walk} (hw : w.scopes = []) (t : Token) :
    (w.define t).globals.binds t.lexeme := by
  unfold define
  rw [hw]
  dsimp only
  rw [Bindings.binds_insert, decide_eq_true rfl, Bool.true_or]

theorem binds_introduce {w : Walk} (hw : w.scopes = []) (t : Token) :
    (w.introduce [t]).globals.binds t.lexeme := by
  refine binds_define ?_ t
  rw [declare_scopes, hw]
  rfl

/-- The name that a statement declares at the top level is a global. -/
theorem binds_of_declared {around : Surroundings} {w : Walk} (hw : w.scopes = []) {s : Stmt}
    {t : Token} (ht : s.declared? = some t) : (w.stmt around s).globals.binds t.lexeme := by
  cases s with
  | var name initializer =>
    cases ht
    rw [stmt]
    refine binds_define ?_ t
    rw [expr?_scopes, declare_scopes, hw]
    rfl
  | function decl =>
    cases ht
    rw [stmt]
    exact (settles_function _ _ decl).binds _ (binds_introduce hw decl.name)
  | «class» name superclass ms =>
    cases ht
    rw [stmt, leaveClass_globals]
    refine (settles_methods _ _ ms).binds _ ?_
    rw [enterClass_globals]
    exact binds_introduce hw t
  | _ => cases ht

/-- All names that statements declare at the top level are globals. -/
theorem binds_of_mem {around : Surroundings} {w : Walk} (hw : w.scopes = []) {ss : List Stmt}
    (hp : Stmt.ProperAll ss) {s : Stmt} (hs : s ∈ ss) {t : Token} (ht : s.declared? = some t) :
    (w.stmts around ss).globals.binds t.lexeme := by
  induction ss generalizing w with
  | nil => cases hs
  | cons s' rest ih =>
    rw [stmts]
    rcases List.mem_cons.mp hs with rfl | hs
    · exact (settles_stmts around _ rest).binds _ (binds_of_declared hw ht)
    · refine ih ?_ hp.2 hs
      rw [stmt_scopes around w s' hp.1, hw]
      exact List.isEmpty_iff.mp (isEmpty_after [] s')

theorem stmts_append (around : Surroundings) (w : Walk) (ss ss' : List Stmt) :
    w.stmts around (ss ++ ss') = (w.stmts around ss).stmts around ss' := by
  induction ss generalizing w with
  | nil => rw [List.nil_append, stmts]
  | cons s rest ih => rw [List.cons_append, stmts, stmts, ih]

end Walk

/-! ## §4. One text after another. -/

theorem binds_map_true (globals : List String) (name : String) :
    (Bindings.binds (globals.map (·, true)) name) = decide (name ∈ globals) := by
  induction globals with
  | nil => rfl
  | cons key rest ih =>
    unfold Bindings.binds at ih ⊢
    rw [List.map_cons, Bindings.get?]
    by_cases hkey : key = name
    · simp [hkey]
    · rw [if_neg hkey, ih]
      simp [Ne.symm hkey]

theorem get?_map_true (globals : List String) (name : String) :
    Bindings.get? (globals.map (·, true)) name ≠ some false := by
  induction globals with
  | nil => simp
  | cons key rest ih =>
    rw [List.map_cons, Bindings.get?]
    split
    · simp
    · exact ih

/-- **A text after an accepted one is analysed as if it stood alone**, where
the globals that exist then are ones that existed before or that the first
text declares. -/
theorem program_append (f : Nat → Nat) {globals globals' : List String} {ss us : List Stmt}
    (hp : Stmt.ProperAll ss) (h : (program globals ss).failures = [])
    (h' : (program globals' us).failures = [])
    (hglobals : ∀ name ∈ globals', name ∈ globals
      ∨ ∃ s ∈ ss, ∃ t, s.declared? = some t ∧ t.lexeme = name) :
    program globals (ss ++ us.map (Stmt.reline f))
      = ⟨(program globals ss).distances ++ (program globals' us).distances, []⟩ := by
  let w : Walk := ⟨[], globals.map (·, true), #[], #[]⟩
  let v : Walk := ⟨[], globals'.map (·, true), #[], #[]⟩
  have hsettles := Walk.settles_stmts .topLevel w ss
  have hclean : (w.stmts .topLevel ss).Clean := Array.toList_eq_nil_iff.mp h
  have hscopes : (w.stmts .topLevel ss).scopes = [] := by
    rw [Walk.stmts_scopes .topLevel w ss hp]
    exact List.isEmpty_iff.mp (isEmpty_afterAll [] ss)
  have htrails : Trails (w.stmts .topLevel ss).distances v (w.stmts .topLevel ss) := by
    refine ⟨hscopes, ?_, ?_, (Array.append_empty).symm, fun _ => hclean⟩
    · intro name hname
      have hmem : name ∈ globals' := by
        rw [binds_map_true] at hname
        exact of_decide_eq_true hname
      rcases hglobals name hmem with hold | ⟨s, hs, t, ht, rfl⟩
      · refine hsettles.binds name ?_
        rw [binds_map_true]
        exact decide_eq_true hold
      · exact Walk.binds_of_mem rfl hp hs ht
    · intro name hname
      exact absurd hname (hsettles.defined (get?_map_true globals) name)
  have hboth : Trails (w.stmts .topLevel ss).distances (v.stmts .topLevel us)
      ((w.stmts .topLevel ss).stmts .topLevel (Stmt.relineAll f us)) := Trails.stmts f us htrails
  have hjoint : w.stmts .topLevel (ss ++ us.map (Stmt.reline f))
      = (w.stmts .topLevel ss).stmts .topLevel (Stmt.relineAll f us) := by
    rw [Walk.stmts_append, Stmt.relineAll_eq_map]
  show (⟨(w.stmts .topLevel (ss ++ us.map (Stmt.reline f))).distances.toList,
    (w.stmts .topLevel (ss ++ us.map (Stmt.reline f))).failures.toList⟩ : Resolution) = _
  have hfailures : ((w.stmts .topLevel ss).stmts .topLevel (Stmt.relineAll f us)).failures = #[] :=
    hboth.clean (Array.toList_eq_nil_iff.mp h')
  rw [hjoint, hboth.distances, hfailures, Array.toList_append]
  rfl

end Lox.Resolve
