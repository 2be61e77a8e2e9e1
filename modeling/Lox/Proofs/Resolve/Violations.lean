/-
  Lox.Proofs.Resolve.Violations
  ─────────────────────────────
  **WHICH VIOLATIONS ARE REPORTED.**

  The static rules on names, stated on the tree alone.  A site is a place in
  a program that one of the rules speaks about, together with what that rule
  looks at: the nearest function, the nearest class, the names declared
  earlier in the same scope, the variable whose initializer it stands in.
  `Site.fault?` is the table of the rules.

  Main result: the failures of the analysis are the violated sites of the
  program, one failure for each, in the order in which they are met.
-/
import Lox.Proofs.Resolve.Sequel

namespace Lox

namespace Resolve

/-! ## §1. The rules. -/

/-- The scope a place stands in, up to that place. -/
structure Ground where
  /-- Whether it is a local scope, not the top level. -/
  isLocal : Bool
  /-- The names declared earlier, directly in this scope. -/
  earlier : List String
  deriving Repr, DecidableEq

/-- A local scope before its first declaration. -/
def Ground.opened : Ground := ⟨true, []⟩

/-- The scope after some more names were declared in it. -/
def Ground.declaring (g : Ground) (names : List String) : Ground :=
  { g with earlier := g.earlier ++ names }

/-- A place that a rule speaks about, with what the rule looks at. -/
inductive Site where
  /-- A `return` whose nearest function has this role. -/
  | exit (keyword : Token) (role : FunctionRole) (hasValue : Bool)
  /-- A `this` whose nearest class has this role. -/
  | receiver (keyword : Token) (role : ClassRole)
  /-- A `super` whose nearest class has this role. -/
  | ancestor (keyword : Token) (role : ClassRole)
  /-- A class with its superclass. -/
  | inheritance (name parent : Token)
  /-- A declaration of a variable, function, class or parameter. -/
  | declaration (name : Token) (ground : Ground)
  /-- A read of a variable, perhaps in the initializer of a variable. -/
  | reading (name : Token) (ground : Ground) (initialized : Option String)
  deriving Repr, DecidableEq

namespace Site

/-- Where a violation is reported. -/
def offender : Site → Token
  | exit keyword _ _ | receiver keyword _ | ancestor keyword _ => keyword
  | inheritance _ parent => parent
  | declaration name _ | reading name _ _ => name

/-- **The static rules**: what is wrong at a site, if anything. -/
def fault? : Site → Option ScopeFault
  | exit _ .none _ => some .returnAtTopLevel
  | exit _ .initializer true => some .valueFromInitializer
  | exit _ _ _ => none
  | receiver _ .none => some .thisOutsideClass
  | receiver _ _ => none
  | ancestor _ .none => some .superOutsideClass
  | ancestor _ .plain => some .superWithoutSuperclass
  | ancestor _ .derived => none
  | inheritance name parent =>
      if parent.lexeme = name.lexeme then some .inheritsFromItself else none
  | declaration name ground =>
      if ground.isLocal ∧ name.lexeme ∈ ground.earlier then some .alreadyDeclared else none
  | reading name ground initialized =>
      if initialized = some name.lexeme ∧ name.lexeme ∉ ground.earlier then
        some (if ground.isLocal then .localInOwnInitializer else .globalInOwnInitializer)
      else none

/-- The violation at a site. -/
def violation? (s : Site) : Option Diagnostic :=
  s.fault?.map (.scoping s.offender)

end Site

/-- The violations among some sites. -/
def violations (sites : List Site) : List Diagnostic :=
  sites.filterMap Site.violation?

end Resolve

open Resolve

/-! ## §2. The sites of a program. -/

mutual

/-- The sites of an expression.  A property assignment looks at the value
before it looks at the object. -/
def Expr.sites (role : ClassRole) (ground : Ground) (initialized : Option String) :
    Expr → List Site
  | .literal _ => []
  | .grouping inner => inner.sites role ground initialized
  | .unary _ right => right.sites role ground initialized
  | .binary left _ right | .logical left _ right =>
      left.sites role ground initialized ++ right.sites role ground initialized
  | .variable o => [.reading o.name ground initialized]
  | .assign _ value => value.sites role ground initialized
  | .call callee _ arguments =>
      callee.sites role ground initialized ++ Expr.sitesAll role ground initialized arguments
  | .get object _ => object.sites role ground initialized
  | .set object _ value =>
      value.sites role ground initialized ++ object.sites role ground initialized
  | .this o => [.receiver o.name role]
  | .super o _ => [.ancestor o.name role]

/-- The sites of expressions in order. -/
def Expr.sitesAll (role : ClassRole) (ground : Ground) (initialized : Option String) :
    List Expr → List Site
  | [] => []
  | e :: rest => e.sites role ground initialized ++ Expr.sitesAll role ground initialized rest

end

/-- The sites of an expression that may be missing. -/
def Expr.sites? (role : ClassRole) (ground : Ground) (initialized : Option String) :
    Option Expr → List Site
  | none => []
  | some e => e.sites role ground initialized

/-- The names that a statement declares in the scope it stands in. -/
def Stmt.names : Stmt → List String
  | .var name _ => [name.lexeme]
  | .function decl => [decl.name.lexeme]
  | .class name _ _ => [name.lexeme]
  | .ifElse _ thenBranch none => thenBranch.names
  | .ifElse _ thenBranch (some elseBranch) => thenBranch.names ++ elseBranch.names
  | .while _ body => body.names
  | .expression _ | .print _ | .block _ | .return _ _ => []

/-- Where a statement is no declaration itself, it declares no name. -/
theorem Stmt.names_eq_nil (s : Stmt) (hp : s.Proper) (h : s.declared? = none) : s.names = [] := by
  cases s with
  | var | function | «class» => cases h
  | «while» condition body => exact names_eq_nil body hp.2.1 hp.2.2
  | ifElse condition th el =>
    cases el with
    | none => exact names_eq_nil th hp.2.1 hp.2.2
    | some el =>
      rw [names, names_eq_nil th hp.2.1.1 hp.2.1.2, names_eq_nil el hp.2.2.1 hp.2.2.2]
      rfl
  | _ => rfl

/-- The sites of declarations that follow each other in one scope. -/
def Resolve.Ground.declarations (ground : Ground) : List Token → List Site
  | [] => []
  | name :: rest => .declaration name ground :: (ground.declaring [name.lexeme]).declarations rest

/-- The sites of the superclass of a class. -/
def Stmt.parentSites (name : Token) (ground : Ground) : Option Occurrence → List Site
  | none => []
  | some parent => [.inheritance name parent.name, .reading parent.name ground none]

mutual

/-- The sites of a statement. -/
def Stmt.sites (around : Surroundings) (ground : Ground) : Stmt → List Site
  | .expression e => e.sites around.classRole ground none
  | .print e => e.sites around.classRole ground none
  | .var name initializer =>
      .declaration name ground :: Expr.sites? around.classRole ground (some name.lexeme) initializer
  | .block body => Stmt.sitesAll around .opened body
  | .ifElse condition thenBranch none =>
      condition.sites around.classRole ground none ++ thenBranch.sites around ground
  | .ifElse condition thenBranch (some elseBranch) =>
      condition.sites around.classRole ground none ++ thenBranch.sites around ground
        ++ elseBranch.sites around (ground.declaring thenBranch.names)
  | .while condition body =>
      condition.sites around.classRole ground none ++ body.sites around ground
  | .function decl =>
      .declaration decl.name ground
        :: Stmt.sitesFunction { around with functionRole := .function } decl
  | .return keyword value =>
      .exit keyword around.functionRole value.isSome
        :: Expr.sites? around.classRole ground none value
  | .class name superclass methods =>
      let role := if superclass.isSome then .derived else .plain
      .declaration name ground :: Stmt.parentSites name (ground.declaring [name.lexeme]) superclass
        ++ Stmt.sitesMethods { around with classRole := role } methods

/-- The sites of statements in order. -/
def Stmt.sitesAll (around : Surroundings) (ground : Ground) : List Stmt → List Site
  | [] => []
  | s :: rest => s.sites around ground ++ Stmt.sitesAll around (ground.declaring s.names) rest

/-- The sites of a function: its parameters and its body are one scope. -/
def Stmt.sitesFunction (around : Surroundings) : FunctionDecl Stmt → List Site
  | ⟨_, params, body⟩ =>
      Ground.opened.declarations params
        ++ Stmt.sitesAll around (Ground.opened.declaring (params.map Token.lexeme)) body

/-- The sites of the methods of a class. -/
def Stmt.sitesMethods (around : Surroundings) : List (FunctionDecl Stmt) → List Site
  | [] => []
  | m :: rest =>
      let role := if m.isInitializer then .initializer else .method
      Stmt.sitesFunction { around with functionRole := role } m ++ Stmt.sitesMethods around rest

end

namespace Resolve

/-- The sites of a program that starts with some globals defined. -/
def sites (globals : List String) (statements : List Stmt) : List Site :=
  Stmt.sitesAll .topLevel ⟨false, globals⟩ statements

theorem violations_append (sites sites' : List Site) :
    violations (sites ++ sites') = violations sites ++ violations sites' :=
  List.filterMap_append

theorem Ground.declaring_nil (g : Ground) : g.declaring [] = g := by
  unfold Ground.declaring
  rw [List.append_nil]

theorem Ground.declaring_append (g : Ground) (names names' : List String) :
    g.declaring (names ++ names') = (g.declaring names).declaring names' := by
  unfold Ground.declaring
  rw [List.append_assoc]

/-! ## §3. What the walk knows of the current scope. -/

/-- Whether a name is declared in the current scope, and whether it is
defined. -/
def Walk.status (w : Walk) (name : String) : Option Bool :=
  match w.scopes with
  | [] => w.globals.get? name
  | scope :: _ => scope.get? name

/-- The status that a name has at a place: names declared earlier are defined,
and the variable being initialized is declared. -/
def Ground.status (g : Ground) (initialized : Option String) (name : String) : Option Bool :=
  if name ∈ g.earlier then some true
  else if initialized = some name then some false
  else none

/-- The walk stands in a scope, perhaps in the initializer of a variable. -/
structure Stands (g : Ground) (initialized : Option String) (w : Walk) : Prop where
  isLocal : w.scopes = [] ↔ g.isLocal = false
  status : ∀ name, w.status name = g.status initialized name

/-- A part of the program was walked over that declares nothing outside
itself. -/
structure Passes (w w' : Walk) (found : List Site) : Prop where
  failures : w'.failures.toList = w.failures.toList ++ violations found
  scopes : w'.scopes = w.scopes
  globals : w'.globals = w.globals

/-- A statement was walked over: only the current scope may have changed, and
it is this one now. -/
structure Leads (w w' : Walk) (found : List Site) (g : Ground) : Prop where
  failures : w'.failures.toList = w.failures.toList ++ violations found
  outer : w'.scopes.tail = w.scopes.tail
  globals : w.scopes ≠ [] → w'.globals = w.globals
  stands : Stands g none w'

theorem Stands.congr {g : Ground} {initialized : Option String} {w w' : Walk}
    (h : Stands g initialized w) (hscopes : w'.scopes = w.scopes)
    (hglobals : w'.globals = w.globals) : Stands g initialized w' := by
  refine ⟨?_, ?_⟩
  · rw [hscopes]
    exact h.isLocal
  · intro name
    rw [← h.status name]
    unfold Walk.status
    rw [hscopes, hglobals]

theorem Passes.refl (w : Walk) : Passes w w [] :=
  ⟨(List.append_nil _).symm, rfl, rfl⟩

theorem Passes.trans {w w' w'' : Walk} {found found' : List Site} (h : Passes w w' found)
    (h' : Passes w' w'' found') : Passes w w'' (found ++ found') := by
  refine ⟨?_, h'.scopes.trans h.scopes, h'.globals.trans h.globals⟩
  rw [h'.failures, h.failures, violations_append, List.append_assoc]

theorem Passes.stands {g : Ground} {initialized : Option String} {w w' : Walk}
    {found : List Site} (h : Passes w w' found) (hw : Stands g initialized w) :
    Stands g initialized w' :=
  hw.congr h.scopes h.globals

theorem Passes.leads {g : Ground} {w w' : Walk} {found : List Site} (h : Passes w w' found)
    (hw : Stands g none w) : Leads w w' found g :=
  ⟨h.failures, congrArg List.tail h.scopes, fun _ => h.globals, h.stands hw⟩

/-- The top level stays the top level, and a local scope stays one. -/
theorem Leads.scopes_eq_nil_iff {g g' : Ground} {w w' : Walk} {found : List Site}
    (h : Leads w w' found g') (hw : Stands g none w) (hlocal : g'.isLocal = g.isLocal) :
    w'.scopes = [] ↔ w.scopes = [] := by
  rw [h.stands.isLocal, hw.isLocal, hlocal]

theorem Leads.trans {g g' g'' : Ground} {w w' w'' : Walk} {found found' : List Site}
    (hw : Stands g none w) (h : Leads w w' found g') (hlocal : g'.isLocal = g.isLocal)
    (h' : Leads w' w'' found' g'') : Leads w w'' (found ++ found') g'' := by
  refine ⟨?_, h'.outer.trans h.outer, ?_, h'.stands⟩
  · rw [h'.failures, h.failures, violations_append, List.append_assoc]
  · intro hne
    have hne' : w'.scopes ≠ [] := by
      rwa [Ne, h.scopes_eq_nil_iff hw hlocal]
    rw [h'.globals hne', h.globals hne]

/-! ## §4. Single checks. -/

namespace Walk

theorem reportIf_failures (w : Walk) (b : Bool) (t : Token) (fault : ScopeFault) :
    (w.reportIf b t fault).failures.toList
      = w.failures.toList ++ if b then [.scoping t fault] else [] := by
  cases b with
  | false => exact (List.append_nil _).symm
  | true => exact Array.toList_push

theorem locate_failures (w : Walk) (o : Occurrence) : (w.locate o).failures = w.failures := by
  unfold locate
  split <;> rfl

theorem passes_locate (w : Walk) (o : Occurrence) : Passes w (w.locate o) [] := by
  refine ⟨?_, locate_scopes w o, locate_globals w o⟩
  rw [locate_failures]
  exact (List.append_nil _).symm

/-- A check that reports the violation of one site, if there is one. -/
theorem passes_reportIf (w : Walk) (site : Site) {b : Bool} {fault : ScopeFault}
    (h : site.fault? = if b then some fault else none) :
    Passes w (w.reportIf b site.offender fault) [site] := by
  refine ⟨?_, reportIf_scopes w _ _ _, reportIf_globals w _ _ _⟩
  rw [reportIf_failures]
  congr 1
  unfold violations
  rw [List.filterMap_cons, List.filterMap_nil, Site.violation?, h]
  cases b <;> rfl

theorem passes_report (w : Walk) (site : Site) {fault : ScopeFault}
    (h : site.fault? = some fault) : Passes w (w.report site.offender fault) [site] :=
  passes_reportIf w site (b := true) h

theorem passes_of_fault (w : Walk) {site : Site} (h : site.fault? = none) : Passes w w [site] := by
  have hnone : violations [site] = [] := by
    unfold violations
    rw [List.filterMap_cons, Site.violation?, h]
    rfl
  refine ⟨?_, rfl, rfl⟩
  rw [hnone, List.append_nil]

/-- A name that is declared and not yet defined is the variable being
initialized, and no earlier declaration has its name. -/
theorem status_eq_some_false {g : Ground} {initialized : Option String} {w : Walk}
    (hw : Stands g initialized w) (name : String) :
    (w.status name == some false) = decide (initialized = some name ∧ name ∉ g.earlier) := by
  rw [hw.status, Ground.status]
  by_cases hearlier : name ∈ g.earlier
  · simp [hearlier]
  · by_cases hinit : initialized = some name <;> simp [hearlier, hinit]

theorem passes_checkInitialized {g : Ground} {initialized : Option String} {w : Walk}
    (hw : Stands g initialized w) (name : Token) :
    Passes w (w.checkInitialized name) [.reading name g initialized] := by
  have hstatus := status_eq_some_false hw name.lexeme
  unfold Walk.status at hstatus
  unfold checkInitialized
  cases hscopes : w.scopes with
  | nil =>
    rw [hscopes] at hstatus
    dsimp only at hstatus ⊢
    refine passes_reportIf w (.reading name g initialized) ?_
    rw [hstatus, Site.fault?, if_neg (ne_true_of_eq_false (hw.isLocal.mp hscopes))]
    simp only [decide_eq_true_eq]
  | cons scope rest =>
    have hlocal : g.isLocal = true := by
      rw [← Bool.not_eq_false, ← hw.isLocal, hscopes]
      exact List.cons_ne_nil _ _
    rw [hscopes] at hstatus
    dsimp only at hstatus ⊢
    refine passes_reportIf w (.reading name g initialized) ?_
    rw [hstatus, Site.fault?, if_pos hlocal]
    simp only [decide_eq_true_eq]

theorem passes_use {g : Ground} {initialized : Option String} {w : Walk}
    (hw : Stands g initialized w) (o : Occurrence) :
    Passes w (w.use o) [.reading o.name g initialized] :=
  (passes_checkInitialized hw o.name).trans (passes_locate _ o)

theorem passes_checkReturn (w : Walk) (role : FunctionRole) (keyword : Token) (hasValue : Bool) :
    Passes w (w.checkReturn role keyword hasValue) [.exit keyword role hasValue] := by
  -- At most one of the two checks fires: their roles differ.
  cases role with
  | none =>
    have hsecond : (hasValue && (FunctionRole.none == .initializer)) = false := by simp
    unfold checkReturn
    rw [hsecond]
    exact passes_report w (.exit keyword .none hasValue) rfl
  | function | method =>
    unfold checkReturn
    cases hasValue <;> exact passes_of_fault w rfl
  | initializer =>
    unfold checkReturn
    cases hasValue with
    | false => exact passes_of_fault w rfl
    | true => exact passes_report w (.exit keyword .initializer true) rfl

/-! ## §5. Expressions. -/

mutual

/-- **The failures of an expression are the violations at its sites.** -/
theorem passes_expr (role : ClassRole) {g : Ground} {initialized : Option String} :
    ∀ {w : Walk} (e : Expr), Stands g initialized w →
      Passes w (w.expr role e) (e.sites role g initialized)
  | w, .literal _, _ => by
    rw [expr, Expr.sites]
    exact .refl w
  | w, .grouping inner, hw => by
    rw [expr, Expr.sites]
    exact passes_expr role inner hw
  | w, .unary _ right, hw => by
    rw [expr, Expr.sites]
    exact passes_expr role right hw
  | w, .binary left _ right, hw => by
    rw [expr, Expr.sites]
    have hleft := passes_expr role left hw
    exact hleft.trans (passes_expr role right (hleft.stands hw))
  | w, .logical left _ right, hw => by
    rw [expr, Expr.sites]
    have hleft := passes_expr role left hw
    exact hleft.trans (passes_expr role right (hleft.stands hw))
  | w, .variable o, hw => by
    rw [expr, Expr.sites]
    exact passes_use hw o
  | w, .assign target value, hw => by
    rw [expr, Expr.sites, ← List.append_nil (value.sites _ _ _)]
    exact (passes_expr role value hw).trans (passes_locate _ target)
  | w, .call callee _ arguments, hw => by
    rw [expr, Expr.sites]
    have hcallee := passes_expr role callee hw
    exact hcallee.trans (passes_exprs role arguments (hcallee.stands hw))
  | w, .get object _, hw => by
    rw [expr, Expr.sites]
    exact passes_expr role object hw
  | w, .set object _ value, hw => by
    rw [expr, Expr.sites]
    have hvalue := passes_expr role value hw
    exact hvalue.trans (passes_expr role object (hvalue.stands hw))
  | w, .this o, _ => by
    rw [expr.eq_def, Expr.sites]
    cases role with
    | none => exact passes_report w (.receiver o.name .none) rfl
    | plain | derived => exact (passes_of_fault w rfl).trans (passes_locate w o)
  | w, .super o _, _ => by
    rw [expr.eq_def, Expr.sites]
    cases role with
    | none => exact passes_report w (.ancestor o.name .none) rfl
    | plain => exact passes_report w (.ancestor o.name .plain) rfl
    | derived => exact (passes_of_fault w rfl).trans (passes_locate w o)

theorem passes_exprs (role : ClassRole) {g : Ground} {initialized : Option String} :
    ∀ {w : Walk} (es : List Expr), Stands g initialized w →
      Passes w (w.exprs role es) (Expr.sitesAll role g initialized es)
  | w, [], _ => by
    rw [exprs, Expr.sitesAll]
    exact .refl w
  | w, e :: rest, hw => by
    rw [exprs, Expr.sitesAll]
    have hfirst := passes_expr role e hw
    exact hfirst.trans (passes_exprs role rest (hfirst.stands hw))

end

theorem passes_expr? (role : ClassRole) {g : Ground} {initialized : Option String} {w : Walk}
    (e : Option Expr) (hw : Stands g initialized w) :
    Passes w (w.expr? role e) (Expr.sites? role g initialized e) := by
  cases e with
  | none => exact .refl w
  | some e => exact passes_expr role e hw

/-! ## §6. Declarations. -/

theorem status_declare (w : Walk) (t : Token) (name : String) :
    (w.declare t).status name
      = if t.lexeme = name ∧ w.status name = none then some false else w.status name := by
  obtain ⟨scopes, globals, distances, failures⟩ := w
  have key : ∀ b : Bindings Bool,
      (if b.binds t.lexeme then b else b.insert t.lexeme false).get? name
        = if t.lexeme = name ∧ b.get? name = none then some false else b.get? name := by
    intro b
    by_cases hname : t.lexeme = name
    · subst hname
      unfold Bindings.binds
      cases hget : b.get? t.lexeme <;> simp [hget]
    · cases b.binds t.lexeme <;> simp [hname]
  cases scopes with
  | nil =>
    rw [declare]
    dsimp only
    rw [show (Walk.mk [] globals distances failures).status name = globals.get? name from rfl,
      ← key globals]
    split <;> rfl
  | cons scope rest =>
    rw [declare]
    dsimp only
    rw [show (Walk.mk (scope :: rest) globals distances failures).status name
      = scope.get? name from rfl, ← key scope]
    split <;> rfl

theorem status_define (w : Walk) (t : Token) (name : String) :
    (w.define t).status name = if t.lexeme = name then some true else w.status name := by
  obtain ⟨scopes, globals, distances, failures⟩ := w
  cases scopes <;> exact Bindings.get?_insert _ _ _ _

theorem declare_scopes_eq_nil_iff (w : Walk) (t : Token) :
    (w.declare t).scopes = [] ↔ w.scopes = [] := by
  rw [declare_scopes]
  cases w.scopes with
  | nil => exact Iff.rfl
  | cons scope rest =>
    rw [Scopes.declare]
    split <;> simp

theorem define_scopes_eq_nil_iff (w : Walk) (t : Token) :
    (w.define t).scopes = [] ↔ w.scopes = [] := by
  rw [define_scopes]
  cases w.scopes <;> simp [Scopes.add]

theorem declare_globals_of_local {w : Walk} (h : w.scopes ≠ []) (t : Token) :
    (w.declare t).globals = w.globals := by
  unfold declare
  split
  · next hnil => exact absurd hnil h
  · split <;> rfl

theorem define_globals_of_local {w : Walk} (h : w.scopes ≠ []) (t : Token) :
    (w.define t).globals = w.globals := by
  unfold define
  split
  · next hnil => exact absurd hnil h
  · rfl

theorem declare_tail (w : Walk) (t : Token) : (w.declare t).scopes.tail = w.scopes.tail := by
  rw [declare_scopes]
  cases w.scopes with
  | nil => rfl
  | cons scope rest =>
    rw [Scopes.declare]
    split <;> rfl

theorem stands_declare {g : Ground} {w : Walk} (hw : Stands g none w) (t : Token) :
    Stands g (some t.lexeme) (w.declare t) := by
  refine ⟨(declare_scopes_eq_nil_iff w t).trans hw.isLocal, ?_⟩
  intro name
  rw [status_declare, hw.status]
  unfold Ground.status
  by_cases hearlier : name ∈ g.earlier
  · simp [hearlier]
  · by_cases hname : t.lexeme = name <;> simp [hearlier, hname]

theorem stands_define {g : Ground} {w : Walk} {t : Token} (hw : Stands g (some t.lexeme) w) :
    Stands (g.declaring [t.lexeme]) none (w.define t) := by
  refine ⟨(define_scopes_eq_nil_iff w t).trans hw.isLocal, ?_⟩
  intro name
  rw [status_define, hw.status]
  unfold Ground.status Ground.declaring
  by_cases hname : t.lexeme = name
  · simp [hname]
  · simp [hname, Ne.symm hname]

/-- A local declaration is reported if the scope has the name already. -/
theorem declare_failures {g : Ground} {w : Walk} (hw : Stands g none w) (t : Token) :
    (w.declare t).failures.toList
      = w.failures.toList ++ violations [.declaration t g] := by
  have hstatus : (w.status t.lexeme).isSome = decide (t.lexeme ∈ g.earlier) := by
    rw [hw.status, Ground.status]
    by_cases hearlier : t.lexeme ∈ g.earlier <;> simp [hearlier]
  unfold Walk.status at hstatus
  unfold declare
  cases hscopes : w.scopes with
  | nil =>
    have hnone : (Site.declaration t g).fault? = none := by
      rw [Site.fault?, hw.isLocal.mp hscopes]
      simp
    rw [← (passes_of_fault w hnone).failures]
    dsimp only
    split <;> rfl
  | cons scope rest =>
    have hlocal : g.isLocal = true := by
      rw [← Bool.not_eq_false, ← hw.isLocal, hscopes]
      exact List.cons_ne_nil _ _
    rw [hscopes] at hstatus
    have hfault : (Site.declaration t g).fault?
        = if scope.binds t.lexeme then some .alreadyDeclared else none := by
      rw [Bindings.binds, hstatus, Site.fault?, hlocal]
      simp
    rw [← (passes_reportIf w _ hfault).failures]
    unfold reportIf
    dsimp only
    split <;> rfl

/-- A declaration whose name gets its value after an initializer, which may
be missing. -/
theorem leads_define {g : Ground} {w v : Walk} {t : Token} {found : List Site}
    (hw : Stands g none w) (hv : Passes (w.declare t) v found) :
    Leads w (v.define t) (.declaration t g :: found) (g.declaring [t.lexeme]) := by
  have hnil : v.scopes = [] ↔ w.scopes = [] := by
    rw [hv.scopes]
    exact declare_scopes_eq_nil_iff w t
  refine ⟨?_, ?_, ?_, stands_define (hv.stands (stands_declare hw t))⟩
  · have hsame : (v.define t).failures = v.failures := by
      unfold define
      split <;> rfl
    rw [hsame, hv.failures, declare_failures hw, List.append_assoc, ← violations_append]
    rfl
  · rw [define_scopes, Scopes.tail_add, hv.scopes, declare_tail]
  · intro hne
    rw [define_globals_of_local (mt hnil.mp hne), hv.globals, declare_globals_of_local hne]

/-- Names that have a value from the start are declared one after the other. -/
theorem leads_introduce {g : Ground} {w : Walk} (names : List Token) (hw : Stands g none w) :
    Leads w (w.introduce names) (g.declarations names) (g.declaring (names.map Token.lexeme)) := by
  induction names generalizing g w with
  | nil =>
    rw [Ground.declarations, List.map_nil, Ground.declaring_nil]
    exact (Passes.refl w).leads hw
  | cons t rest ih =>
    have hfirst := leads_define hw (.refl (w.declare t))
    have hnames : (t :: rest).map Token.lexeme = [t.lexeme] ++ rest.map Token.lexeme := rfl
    rw [hnames, Ground.declaring_append]
    exact hfirst.trans hw rfl (ih hfirst.stands)

/-! ## §7. Scopes. -/

theorem stands_enter (w : Walk) : Stands .opened none (w.enter []) := by
  refine ⟨iff_of_false (List.cons_ne_nil _ _) Bool.noConfusion, ?_⟩
  intro name
  rfl

/-- What was walked over in a scope of its own declares nothing outside. -/
theorem passes_leave {w w' : Walk} {names : List String} {found : List Site} {g : Ground}
    (h : Leads (w.enter names) w' found g) : Passes w w'.leave found :=
  ⟨h.failures, h.outer, h.globals (List.cons_ne_nil _ _)⟩

theorem passes_enterClass {g : Ground} {w : Walk} (hw : Stands g none w) (name : Token)
    (parent : Occurrence) :
    Passes w ((w.reportIf (parent.name.lexeme == name.lexeme) parent.name .inheritsFromItself).use
      parent) (Stmt.parentSites name g (some parent)) := by
  have hfault : (Site.inheritance name parent.name).fault?
      = if parent.name.lexeme == name.lexeme then some .inheritsFromItself else none := by
    rw [Site.fault?]
    simp only [beq_iff_eq]
  have hreport := passes_reportIf w _ hfault
  exact hreport.trans (passes_use (hreport.stands hw) parent)

/-- The scopes of a class body are left as they were entered. -/
theorem passes_class {g : Ground} {w : Walk} (name : Token) (superclass : Option Occurrence)
    {found : List Site} (hw : Stands g none w) {body : Walk → Walk}
    (hbody : ∀ v, Passes v (body v) found) :
    Passes w ((body (w.enterClass name superclass)).leaveClass superclass)
      (Stmt.parentSites name g superclass ++ found) := by
  cases superclass with
  | none =>
    obtain ⟨hfailures, hscopes, hglobals⟩ := hbody (w.enter ["this"])
    exact ⟨hfailures, congrArg List.tail hscopes, hglobals⟩
  | some parent =>
    have hparent := passes_enterClass hw name parent
    obtain ⟨hfailures, hscopes, hglobals⟩ := hbody (w.enterClass name (some parent))
    exact hparent.trans ⟨hfailures, congrArg (List.tail ∘ List.tail) hscopes, hglobals⟩

/-! ## §8. Statements. -/

/-- A statement that declares nothing where it stands. -/
theorem leads_passed {g : Ground} {w w' : Walk} {found : List Site} (h : Passes w w' found)
    (hw : Stands g none w) : Leads w w' found (g.declaring []) := by
  rw [Ground.declaring_nil]
  exact h.leads hw

mutual

/-- **The failures of a statement are the violations at its sites**, and the
current scope has the names that it declares. -/
theorem leads_stmt : ∀ (around : Surroundings) {g : Ground} {w : Walk} (s : Stmt),
    Stands g none w → Leads w (w.stmt around s) (s.sites around g) (g.declaring s.names)
  | around, g, w, .expression e, hw => by
    rw [stmt, Stmt.sites, Stmt.names]
    exact leads_passed (passes_expr _ e hw) hw
  | around, g, w, .print e, hw => by
    rw [stmt, Stmt.sites, Stmt.names]
    exact leads_passed (passes_expr _ e hw) hw
  | around, g, w, .var name initializer, hw => by
    rw [stmt, Stmt.sites, Stmt.names]
    exact leads_define hw (passes_expr? _ initializer (stands_declare hw name))
  | around, g, w, .block body, hw => by
    rw [stmt, Stmt.sites, Stmt.names]
    exact leads_passed (passes_leave (leads_stmts around body (stands_enter w))) hw
  | around, g, w, .ifElse condition thenBranch none, hw => by
    rw [stmt, Stmt.sites, Stmt.names]
    have hcondition := passes_expr around.classRole condition hw
    exact (hcondition.leads hw).trans hw rfl (leads_stmt around thenBranch (hcondition.stands hw))
  | around, g, w, .ifElse condition thenBranch (some elseBranch), hw => by
    rw [stmt, Stmt.sites, Stmt.names, Ground.declaring_append]
    have hcondition := passes_expr around.classRole condition hw
    have hthen := (hcondition.leads hw).trans hw rfl
      (leads_stmt around thenBranch (hcondition.stands hw))
    exact hthen.trans hw rfl (leads_stmt around elseBranch hthen.stands)
  | around, g, w, .while condition body, hw => by
    rw [stmt, Stmt.sites, Stmt.names]
    have hcondition := passes_expr around.classRole condition hw
    exact (hcondition.leads hw).trans hw rfl (leads_stmt around body (hcondition.stands hw))
  | around, g, w, .function decl, hw => by
    rw [stmt, Stmt.sites, Stmt.names]
    have hname := leads_introduce [decl.name] hw
    exact hname.trans hw rfl ((passes_function _ decl _).leads hname.stands)
  | around, g, w, .return keyword value, hw => by
    rw [stmt, Stmt.sites, Stmt.names]
    have hreturn := passes_checkReturn w around.functionRole keyword value.isSome
    exact leads_passed (hreturn.trans (passes_expr? _ value (hreturn.stands hw))) hw
  | around, g, w, .class name superclass methods, hw => by
    rw [stmt, Stmt.sites, Stmt.names]
    have hname := leads_introduce [name] hw
    have hclass := fun role => passes_class name superclass hname.stands
      (passes_methods { around with classRole := role } methods)
    rw [List.cons_append, ← List.singleton_append]
    exact hname.trans hw rfl ((hclass _).leads hname.stands)

theorem leads_stmts : ∀ (around : Surroundings) {g : Ground} {w : Walk} (ss : List Stmt),
    Stands g none w →
      Leads w (w.stmts around ss) (Stmt.sitesAll around g ss) (g.declaring (ss.flatMap Stmt.names))
  | around, g, w, [], hw => by
    rw [stmts, Stmt.sitesAll]
    exact leads_passed (.refl w) hw
  | around, g, w, s :: rest, hw => by
    rw [stmts, Stmt.sitesAll, List.flatMap_cons, Ground.declaring_append]
    have hfirst := leads_stmt around s hw
    exact hfirst.trans hw rfl (leads_stmts around rest hfirst.stands)

theorem passes_function : ∀ (around : Surroundings) (decl : FunctionDecl Stmt) (w : Walk),
    Passes w (w.function around decl) (Stmt.sitesFunction around decl)
  | around, ⟨_, params, body⟩, w => by
    rw [function, Stmt.sitesFunction]
    have hparams := leads_introduce params (stands_enter w)
    exact passes_leave (hparams.trans (stands_enter w) rfl (leads_stmts around body hparams.stands))

theorem passes_methods : ∀ (around : Surroundings) (ms : List (FunctionDecl Stmt)) (w : Walk),
    Passes w (w.methods around ms) (Stmt.sitesMethods around ms)
  | around, [], w => by
    rw [methods, Stmt.sitesMethods]
    exact .refl w
  | around, m :: rest, w => by
    rw [methods, Stmt.sitesMethods]
    exact (passes_function _ m w).trans (passes_methods around rest _)

end

end Walk

/-! ## §9. Programs. -/

theorem get?_map_true_eq (globals : List String) (name : String) :
    Bindings.get? (globals.map (·, true)) name = if name ∈ globals then some true else none := by
  induction globals with
  | nil => rfl
  | cons key rest ih =>
    rw [List.map_cons, Bindings.get?, ih]
    by_cases hkey : key = name
    · simp [hkey]
    · simp [hkey, Ne.symm hkey]

/-- The walk begins where the names that are given are declared. -/
theorem stands_program (globals : List String) :
    Stands ⟨false, globals⟩ none ⟨[], globals.map (·, true), #[], #[]⟩ := by
  refine ⟨iff_of_true rfl rfl, ?_⟩
  intro name
  refine (get?_map_true_eq globals name).trans ?_
  unfold Ground.status
  simp

theorem program_failures (globals : List String) (statements : List Stmt) :
    (program globals statements).failures = violations (sites globals statements) :=
  (Walk.leads_stmts _ statements (stands_program globals)).failures

/-- **The failures of the analysis are the violations of the static rules**,
one for each violated site of the program; so there is no failure exactly if
no site is violated. -/
theorem failures_eq_violations (globals : List String) (statements : List Stmt) :
    (program globals statements).failures = violations (sites globals statements)
      ∧ ((program globals statements).failures = []
          ↔ ∀ site ∈ sites globals statements, site.fault? = none) := by
  have hfailures := program_failures globals statements
  refine ⟨hfailures, ?_⟩
  rw [hfailures]
  unfold violations Site.violation?
  simp

end Resolve

end Lox
