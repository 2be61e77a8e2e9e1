/-
  Lox.Proofs.Syntax.Relabel
  ─────────────────────────
  **PROGRAMS UNDER NEW LABELS.**

  To give a tree other tokens, of the same kinds, and other numbers for its
  occurrences is a map over all of it that keeps its shape.  With the map that
  forgets the numbers it says that two trees are equal up to numbers.
-/
import Lox.Proofs.Syntax.Lines

namespace Lox

/-! ## §1. Labels. -/

/-- A token for every token, of the same kind, and a number for every number. -/
structure Relabel where
  token : Token → Token
  id : Nat → Nat
  kind : ∀ t, (token t).kind = t.kind

namespace Relabel

/-- Numbers in a row stay in a row. -/
def Steady (m : Relabel) : Prop :=
  ∀ n, m.id (n + 1) = m.id n + 1

/-- The same numbers, with every token on another line. -/
def lines (f : Nat → Nat) : Relabel :=
  ⟨Token.reline f, fun n => n, fun _ => rfl⟩

/-- The same tokens, without numbers. -/
def unnumbered : Relabel :=
  ⟨fun t => t, fun _ => 0, fun _ => rfl⟩

/-- The same tokens, with the numbers moved up. -/
def moved (k : Nat) : Relabel :=
  ⟨fun t => t, (· + k), fun _ => rfl⟩

theorem steady_lines (f : Nat → Nat) : (lines f).Steady :=
  fun _ => rfl

theorem steady_moved (k : Nat) : (moved k).Steady :=
  fun n => Nat.add_right_comm n 1 k

end Relabel

/-- A token under a new label. -/
def Token.relabel (m : Relabel) (t : Token) : Token :=
  m.token t

@[simp]
theorem Token.relabel_kind (m : Relabel) (t : Token) : (t.relabel m).kind = t.kind :=
  m.kind t

/-- A diagnostic of the grammar under new labels. -/
def Diagnostic.relabel (m : Relabel) : Diagnostic → Diagnostic
  | .syntactic offender fault => .syntactic (offender.relabel m) fault
  | d => d

theorem Diagnostic.relabel_moved (k : Nat) (d : Diagnostic) : d.relabel (.moved k) = d := by
  cases d <;> rfl

/-! ## §2. Trees. -/

/-- An occurrence under new labels. -/
def Occurrence.relabel (m : Relabel) (o : Occurrence) : Occurrence :=
  ⟨m.id o.id, o.name.relabel m⟩

mutual

/-- An expression under new labels. -/
def Expr.relabel (m : Relabel) : Expr → Expr
  | .literal value => .literal value
  | .unary operator right => .unary (operator.relabel m) (right.relabel m)
  | .binary left operator right => .binary (left.relabel m) (operator.relabel m) (right.relabel m)
  | .logical left operator right => .logical (left.relabel m) (operator.relabel m) (right.relabel m)
  | .grouping inner => .grouping (inner.relabel m)
  | .variable occurrence => .variable (occurrence.relabel m)
  | .assign target value => .assign (target.relabel m) (value.relabel m)
  | .call callee paren arguments =>
      .call (callee.relabel m) (paren.relabel m) (Expr.relabelAll m arguments)
  | .get object name => .get (object.relabel m) (name.relabel m)
  | .set object name value => .set (object.relabel m) (name.relabel m) (value.relabel m)
  | .super occurrence method => .super (occurrence.relabel m) (method.relabel m)
  | .this occurrence => .this (occurrence.relabel m)

/-- Expressions under new labels. -/
def Expr.relabelAll (m : Relabel) : List Expr → List Expr
  | [] => []
  | e :: rest => e.relabel m :: Expr.relabelAll m rest

end

mutual

/-- A statement under new labels. -/
def Stmt.relabel (m : Relabel) : Stmt → Stmt
  | .expression e => .expression (e.relabel m)
  | .print e => .print (e.relabel m)
  | .var name initializer => .var (name.relabel m) (initializer.map (Expr.relabel m))
  | .block body => .block (Stmt.relabelAll m body)
  | .ifElse condition thenBranch none =>
      .ifElse (condition.relabel m) (thenBranch.relabel m) none
  | .ifElse condition thenBranch (some elseBranch) =>
      .ifElse (condition.relabel m) (thenBranch.relabel m) (some (elseBranch.relabel m))
  | .while condition body => .while (condition.relabel m) (body.relabel m)
  | .function decl => .function (Stmt.relabelFunction m decl)
  | .return keyword value => .return (keyword.relabel m) (value.map (Expr.relabel m))
  | .class name superclass methods =>
      .class (name.relabel m) (superclass.map (Occurrence.relabel m)) (Stmt.relabelMethods m methods)

/-- Statements under new labels. -/
def Stmt.relabelAll (m : Relabel) : List Stmt → List Stmt
  | [] => []
  | s :: rest => s.relabel m :: Stmt.relabelAll m rest

/-- A function under new labels. -/
def Stmt.relabelFunction (m : Relabel) : FunctionDecl Stmt → FunctionDecl Stmt
  | ⟨name, params, body⟩ => ⟨name.relabel m, params.map (Token.relabel m), Stmt.relabelAll m body⟩

/-- Methods under new labels. -/
def Stmt.relabelMethods (m : Relabel) : List (FunctionDecl Stmt) → List (FunctionDecl Stmt)
  | [] => []
  | d :: rest => Stmt.relabelFunction m d :: Stmt.relabelMethods m rest

end

@[simp]
theorem Expr.relabelAll_eq_map (m : Relabel) (es : List Expr) :
    Expr.relabelAll m es = es.map (Expr.relabel m) := by
  induction es with
  | nil => rfl
  | cons e rest ih => rw [Expr.relabelAll, ih, List.map_cons]

@[simp]
theorem Stmt.relabelAll_eq_map (m : Relabel) (ss : List Stmt) :
    Stmt.relabelAll m ss = ss.map (Stmt.relabel m) := by
  induction ss with
  | nil => rfl
  | cons s rest ih => rw [Stmt.relabelAll, ih, List.map_cons]

@[simp]
theorem Stmt.relabelMethods_eq_map (m : Relabel) (ms : List (FunctionDecl Stmt)) :
    Stmt.relabelMethods m ms = ms.map (Stmt.relabelFunction m) := by
  induction ms with
  | nil => rfl
  | cons m rest ih => rw [Stmt.relabelMethods, ih, List.map_cons]

theorem Stmt.relabelFunction_eq (m : Relabel) (name : Token) (params : List Token)
    (body : List Stmt) : Stmt.relabelFunction m ⟨name, params, body⟩
      = ⟨name.relabel m, params.map (Token.relabel m), body.map (Stmt.relabel m)⟩ := by
  rw [Stmt.relabelFunction, Stmt.relabelAll_eq_map]

theorem Stmt.relabel_ifElse (m : Relabel) (condition : Expr) (thenBranch : Stmt)
    (elseBranch : Option Stmt) : (Stmt.ifElse condition thenBranch elseBranch).relabel m
      = .ifElse (condition.relabel m) (thenBranch.relabel m) (elseBranch.map (Stmt.relabel m)) := by
  cases elseBranch with
  | none => rw [Stmt.relabel, Option.map_none]
  | some s => rw [Stmt.relabel, Option.map_some]

/-- A loop with three clauses is the same loop under new labels. -/
theorem Stmt.relabel_forLoop (m : Relabel) (initializer : Option Stmt)
    (condition increment : Option Expr) (body : Stmt) :
    (Stmt.forLoop initializer condition increment body).relabel m
      = Stmt.forLoop (initializer.map (Stmt.relabel m)) (condition.map (Expr.relabel m))
        (increment.map (Expr.relabel m)) (body.relabel m) := by
  unfold Stmt.forLoop
  cases initializer <;> cases condition <;> cases increment <;>
    simp [Stmt.relabel, Stmt.relabelAll, Expr.relabel]

/-! ## §3. New lines. -/

mutual

theorem Expr.relabel_lines (f : Nat → Nat) : ∀ e : Expr, e.relabel (.lines f) = e.reline f
  | .literal _ => by rw [Expr.relabel, Expr.reline]
  | .unary _ right => by
    rw [Expr.relabel, Expr.reline, relabel_lines f right]
    rfl
  | .binary left _ right => by
    rw [Expr.relabel, Expr.reline, relabel_lines f left, relabel_lines f right]
    rfl
  | .logical left _ right => by
    rw [Expr.relabel, Expr.reline, relabel_lines f left, relabel_lines f right]
    rfl
  | .grouping inner => by rw [Expr.relabel, Expr.reline, relabel_lines f inner]
  | .variable _ | .super _ _ | .this _ => by
    rw [Expr.relabel, Expr.reline]
    rfl
  | .assign _ value => by
    rw [Expr.relabel, Expr.reline, relabel_lines f value]
    rfl
  | .call callee _ arguments => by
    rw [Expr.relabel, Expr.reline, relabel_lines f callee, relabelAll_lines f arguments]
    rfl
  | .get object _ => by
    rw [Expr.relabel, Expr.reline, relabel_lines f object]
    rfl
  | .set object _ value => by
    rw [Expr.relabel, Expr.reline, relabel_lines f object, relabel_lines f value]
    rfl

theorem Expr.relabelAll_lines (f : Nat → Nat) : ∀ es : List Expr,
    Expr.relabelAll (.lines f) es = Expr.relineAll f es
  | [] => by rw [Expr.relabelAll, Expr.relineAll]
  | e :: rest => by
    rw [Expr.relabelAll, Expr.relineAll, relabel_lines f e, relabelAll_lines f rest]

end

theorem Expr.map_relabel_lines (f : Nat → Nat) (e : Option Expr) :
    e.map (Expr.relabel (.lines f)) = e.map (Expr.reline f) := by
  cases e with
  | none => rfl
  | some e => exact congrArg some (Expr.relabel_lines f e)

mutual

/-- **Lines are labels.** -/
theorem Stmt.relabel_lines (f : Nat → Nat) : ∀ s : Stmt, s.relabel (.lines f) = s.reline f
  | .expression e => by rw [Stmt.relabel, Stmt.reline, Expr.relabel_lines]
  | .print e => by rw [Stmt.relabel, Stmt.reline, Expr.relabel_lines]
  | .var _ initializer => by
    rw [Stmt.relabel, Stmt.reline, Expr.map_relabel_lines]
    rfl
  | .block body => by rw [Stmt.relabel, Stmt.reline, relabelAll_lines f body]
  | .ifElse condition thenBranch none => by
    rw [Stmt.relabel, Stmt.reline, Expr.relabel_lines, relabel_lines f thenBranch]
  | .ifElse condition thenBranch (some elseBranch) => by
    rw [Stmt.relabel, Stmt.reline, Expr.relabel_lines, relabel_lines f thenBranch,
      relabel_lines f elseBranch]
  | .while condition body => by
    rw [Stmt.relabel, Stmt.reline, Expr.relabel_lines, relabel_lines f body]
  | .function decl => by rw [Stmt.relabel, Stmt.reline, relabelFunction_lines f decl]
  | .return _ value => by
    rw [Stmt.relabel, Stmt.reline, Expr.map_relabel_lines]
    rfl
  | .class _ superclass methods => by
    rw [Stmt.relabel, Stmt.reline, relabelMethods_lines f methods]
    rfl

theorem Stmt.relabelAll_lines (f : Nat → Nat) : ∀ ss : List Stmt,
    Stmt.relabelAll (.lines f) ss = Stmt.relineAll f ss
  | [] => by rw [Stmt.relabelAll, Stmt.relineAll]
  | s :: rest => by
    rw [Stmt.relabelAll, Stmt.relineAll, relabel_lines f s, relabelAll_lines f rest]

theorem Stmt.relabelFunction_lines (f : Nat → Nat) : ∀ decl : FunctionDecl Stmt,
    Stmt.relabelFunction (.lines f) decl = Stmt.relineFunction f decl
  | ⟨_, _, body⟩ => by
    rw [Stmt.relabelFunction, Stmt.relineFunction, relabelAll_lines f body]
    rfl

theorem Stmt.relabelMethods_lines (f : Nat → Nat) : ∀ ms : List (FunctionDecl Stmt),
    Stmt.relabelMethods (.lines f) ms = Stmt.relineMethods f ms
  | [] => by rw [Stmt.relabelMethods, Stmt.relineMethods]
  | m :: rest => by
    rw [Stmt.relabelMethods, Stmt.relineMethods, relabelFunction_lines f m,
      relabelMethods_lines f rest]

end

/-! ## §4. Equal up to numbers. -/

/-- Equal but for the numbers of occurrences. -/
def Expr.Alike (e e' : Expr) : Prop :=
  e.relabel .unnumbered = e'.relabel .unnumbered

/-- Equal but for the numbers of occurrences. -/
def Expr.AlikeAll (es es' : List Expr) : Prop :=
  es.map (Expr.relabel .unnumbered) = es'.map (Expr.relabel .unnumbered)

/-- Equal but for the numbers of occurrences. -/
def Stmt.Alike (s s' : Stmt) : Prop :=
  s.relabel .unnumbered = s'.relabel .unnumbered

/-- Equal but for the numbers of occurrences. -/
def Stmt.AlikeAll (ss ss' : List Stmt) : Prop :=
  ss.map (Stmt.relabel .unnumbered) = ss'.map (Stmt.relabel .unnumbered)

namespace Expr.Alike

variable {e e' left left' right right' : Expr} {es es' : List Expr}

theorem refl (e : Expr) : e.Alike e := rfl

theorem unary (operator : Token) (h : right.Alike right') :
    (Expr.unary operator right).Alike (.unary operator right') := by
  unfold Expr.Alike at h ⊢
  rw [Expr.relabel, Expr.relabel, h]

theorem binary (operator : Token) (h : left.Alike left') (h' : right.Alike right') :
    (Expr.binary left operator right).Alike (.binary left' operator right') := by
  unfold Expr.Alike at h h' ⊢
  rw [Expr.relabel, Expr.relabel, h, h']

theorem logical (operator : Token) (h : left.Alike left') (h' : right.Alike right') :
    (Expr.logical left operator right).Alike (.logical left' operator right') := by
  unfold Expr.Alike at h h' ⊢
  rw [Expr.relabel, Expr.relabel, h, h']

theorem grouping (h : e.Alike e') : (Expr.grouping e).Alike (.grouping e') := by
  unfold Expr.Alike at h ⊢
  rw [Expr.relabel, Expr.relabel, h]

theorem «variable» (id id' : Nat) (t : Token) :
    (Expr.variable ⟨id, t⟩).Alike (.variable ⟨id', t⟩) := by
  unfold Expr.Alike
  rw [Expr.relabel, Expr.relabel]
  rfl

theorem this (id id' : Nat) (t : Token) : (Expr.this ⟨id, t⟩).Alike (.this ⟨id', t⟩) := by
  unfold Expr.Alike
  rw [Expr.relabel, Expr.relabel]
  rfl

theorem super (id id' : Nat) (t method : Token) :
    (Expr.super ⟨id, t⟩ method).Alike (.super ⟨id', t⟩ method) := by
  unfold Expr.Alike
  rw [Expr.relabel, Expr.relabel]
  rfl

theorem assign (id id' : Nat) (t : Token) (h : e.Alike e') :
    (Expr.assign ⟨id, t⟩ e).Alike (.assign ⟨id', t⟩ e') := by
  unfold Expr.Alike at h ⊢
  rw [Expr.relabel, Expr.relabel, h]
  rfl

theorem call (paren : Token) (h : e.Alike e') (h' : Expr.AlikeAll es es') :
    (Expr.call e paren es).Alike (.call e' paren es') := by
  unfold Expr.Alike Expr.AlikeAll at *
  rw [Expr.relabel, Expr.relabel, h, Expr.relabelAll_eq_map, Expr.relabelAll_eq_map, h']

theorem get (name : Token) (h : e.Alike e') : (Expr.get e name).Alike (.get e' name) := by
  unfold Expr.Alike at h ⊢
  rw [Expr.relabel, Expr.relabel, h]

theorem set (name : Token) (h : e.Alike e') (h' : right.Alike right') :
    (Expr.set e name right).Alike (.set e' name right') := by
  unfold Expr.Alike at h h' ⊢
  rw [Expr.relabel, Expr.relabel, h, h']

end Expr.Alike

theorem Expr.AlikeAll.snoc {es es' : List Expr} {e e' : Expr} (h : Expr.AlikeAll es es')
    (h' : e.Alike e') : Expr.AlikeAll (es ++ [e]) (es' ++ [e']) := by
  unfold Expr.AlikeAll Expr.Alike at *
  rw [List.map_append, List.map_append, h, List.map_singleton, List.map_singleton, h']

theorem Expr.AlikeAll.length_eq {es es' : List Expr} (h : Expr.AlikeAll es es') :
    es.length = es'.length := by
  have hlength := congrArg List.length h
  rwa [List.length_map, List.length_map] at hlength

/-- Equal but for the numbers of occurrences. -/
def Stmt.AlikeFunction (d d' : FunctionDecl Stmt) : Prop :=
  Stmt.relabelFunction .unnumbered d = Stmt.relabelFunction .unnumbered d'

/-- Equal but for the numbers of occurrences. -/
def Stmt.AlikeMethods (ds ds' : List (FunctionDecl Stmt)) : Prop :=
  ds.map (Stmt.relabelFunction .unnumbered) = ds'.map (Stmt.relabelFunction .unnumbered)

namespace Stmt.Alike

variable {e e' : Expr} {s s' t t' : Stmt} {ss ss' : List Stmt}

theorem expression (h : e.Alike e') : (Stmt.expression e).Alike (.expression e') := by
  unfold Expr.Alike Stmt.Alike at *
  rw [Stmt.relabel, Stmt.relabel, h]

theorem print (h : e.Alike e') : (Stmt.print e).Alike (.print e') := by
  unfold Expr.Alike Stmt.Alike at *
  rw [Stmt.relabel, Stmt.relabel, h]

theorem var (name : Token) (h : e.Alike e') :
    (Stmt.var name (some e)).Alike (.var name (some e')) := by
  unfold Expr.Alike Stmt.Alike at *
  rw [Stmt.relabel, Stmt.relabel, Option.map_some, Option.map_some, h]

theorem «return» (keyword : Token) (h : e.Alike e') :
    (Stmt.return keyword (some e)).Alike (.return keyword (some e')) := by
  unfold Expr.Alike Stmt.Alike at *
  rw [Stmt.relabel, Stmt.relabel, Option.map_some, Option.map_some, h]

theorem block (h : Stmt.AlikeAll ss ss') : (Stmt.block ss).Alike (.block ss') := by
  unfold Stmt.Alike Stmt.AlikeAll at *
  rw [Stmt.relabel, Stmt.relabel, Stmt.relabelAll_eq_map, Stmt.relabelAll_eq_map, h]

theorem ifThen (h : e.Alike e') (hs : s.Alike s') :
    (Stmt.ifElse e s none).Alike (.ifElse e' s' none) := by
  unfold Expr.Alike Stmt.Alike at *
  rw [Stmt.relabel, Stmt.relabel, h, hs]

theorem ifElse (h : e.Alike e') (hs : s.Alike s') (ht : t.Alike t') :
    (Stmt.ifElse e s (some t)).Alike (.ifElse e' s' (some t')) := by
  unfold Expr.Alike Stmt.Alike at *
  rw [Stmt.relabel, Stmt.relabel, h, hs, ht]

theorem «while» (h : e.Alike e') (hs : s.Alike s') : (Stmt.while e s).Alike (.while e' s') := by
  unfold Expr.Alike Stmt.Alike at *
  rw [Stmt.relabel, Stmt.relabel, h, hs]

theorem function {d d' : FunctionDecl Stmt} (h : Stmt.AlikeFunction d d') :
    (Stmt.function d).Alike (.function d') := by
  unfold Stmt.Alike Stmt.AlikeFunction at *
  rw [Stmt.relabel, Stmt.relabel, h]

theorem «class» (name : Token) {parent parent' : Option Occurrence}
    {ds ds' : List (FunctionDecl Stmt)}
    (hparent : parent.map Occurrence.name = parent'.map Occurrence.name)
    (h : Stmt.AlikeMethods ds ds') : (Stmt.class name parent ds).Alike (.class name parent' ds') := by
  have hsame : ∀ o : Option Occurrence, o.map (Occurrence.relabel .unnumbered)
      = (o.map Occurrence.name).map (Occurrence.mk 0) := by
    intro o
    cases o <;> rfl
  unfold Stmt.Alike Stmt.AlikeMethods at *
  rw [Stmt.relabel, Stmt.relabel, Stmt.relabelMethods_eq_map, Stmt.relabelMethods_eq_map, h, hsame,
    hsame, hparent]

end Stmt.Alike

theorem Stmt.AlikeFunction.mk (name : Token) (params : List Token) {ss ss' : List Stmt}
    (h : Stmt.AlikeAll ss ss') : Stmt.AlikeFunction ⟨name, params, ss⟩ ⟨name, params, ss'⟩ := by
  unfold Stmt.AlikeFunction Stmt.AlikeAll at *
  rw [Stmt.relabelFunction_eq, Stmt.relabelFunction_eq, h]

theorem Stmt.AlikeAll.refl (ss : List Stmt) : Stmt.AlikeAll ss ss := rfl

theorem Stmt.AlikeAll.append {ss ss' us us' : List Stmt} (h : Stmt.AlikeAll ss ss')
    (h' : Stmt.AlikeAll us us') : Stmt.AlikeAll (ss ++ us) (ss' ++ us') := by
  unfold Stmt.AlikeAll at *
  rw [List.map_append, List.map_append, h, h']

theorem Stmt.Alike.singleton {s s' : Stmt} (h : s.Alike s') : Stmt.AlikeAll [s] [s'] :=
  congrArg (fun s => [s]) h

theorem Stmt.AlikeMethods.snoc {ds ds' : List (FunctionDecl Stmt)} {d d' : FunctionDecl Stmt}
    (h : Stmt.AlikeMethods ds ds') (h' : Stmt.AlikeFunction d d') :
    Stmt.AlikeMethods (ds ++ [d]) (ds' ++ [d']) := by
  unfold Stmt.AlikeMethods Stmt.AlikeFunction at *
  rw [List.map_append, List.map_append, h, List.map_singleton, List.map_singleton, h']

end Lox
