/-
  Lox.Proofs.Resolve.Nesting
  ──────────────────────────
  **DISTANCES ARE NESTING DISTANCES.**

  The analysis keeps one stack of scopes and changes it in place while it walks.  At
  every moment the stack has the names of the scopes that surround the place where the
  walk is (`Mirrors`), also after a declaration that was reported and not
  carried out.  So the distance that is noted for a use is the number of scopes between
  it and the innermost one that declares its name before it (`Enclosure.Reaches`).

  Main results:
    * `Walk.records_stmt`: walking over a statement notes the distances of the uses
      in it.
    * `distances_static`: the table of a program that was read has the distances of
      its uses and nothing else.
-/
import Lox.Proofs.Resolve.Uses
import Lox.Proofs.Token.Scan
import Mathlib.Data.List.Forall2
import Mathlib.Data.List.Nodup

namespace Lox.Resolve

/-! ## §1. What the scopes of the walk mirror. -/

/-- **The scopes of the walk have the names of what surrounds it.** -/
def Mirrors (levels : List (List String)) (scopes : Scopes) : Prop :=
  List.Forall₂ (fun names (scope : Bindings Bool) => ∀ name, scope.binds name ↔ name ∈ names)
    levels scopes

namespace Mirrors

variable {k : Enclosure} {scopes : Scopes}

/-- In scopes that are mirrored a name is found at its nesting distance. -/
theorem distance? {levels : List (List String)} (h : Mirrors levels scopes) (name : String) :
    scopes.distance? name = levels.findIdx? (name ∈ ·) := by
  induction h with
  | nil => rfl
  | @cons names scope levels scopes hnames hrest ih =>
    rw [Scopes.distance?, List.findIdx?_cons, ih]
    by_cases hname : name ∈ names
    · rw [if_pos ((hnames name).mpr hname), if_pos (decide_eq_true hname)]
    · rw [if_neg (mt (hnames name).mp hname), decide_eq_false hname,
        if_neg Bool.false_ne_true]

/-- A name is declared, and no other one is. -/
theorem insert {names : List String} {scope : Bindings Bool}
    (h : ∀ name, scope.binds name ↔ name ∈ names) (name : String) (value : Bool) :
    ∀ other, (scope.insert name value).binds other ↔ other ∈ names ++ [name] := by
  intro other
  rw [Bindings.binds_insert, Bool.or_eq_true, decide_eq_true_iff, h, List.mem_append,
    List.mem_singleton, or_comm, eq_comm (a := name)]

theorem add (h : Mirrors k.scopes scopes) (name : String) :
    Mirrors (k.declaring [name]).scopes (scopes.add name) := by
  obtain ⟨levels, role⟩ := k
  cases h with
  | nil => exact .nil
  | cons hnames hrest => exact .cons (insert hnames name true) hrest

/-- Also a name that the scope has already is declared, though the walk leaves the scope
as it is. -/
theorem declare (h : Mirrors k.scopes scopes) (name : String) :
    Mirrors (k.declaring [name]).scopes (scopes.declare name) := by
  obtain ⟨levels, role⟩ := k
  cases h with
  | nil => exact .nil
  | @cons names scope _ _ hnames hrest =>
    rw [Scopes.declare]
    split
    · next hbinds =>
      refine .cons ?_ hrest
      intro other
      rw [hnames, List.mem_append, List.mem_singleton]
      refine ⟨.inl, ?_⟩
      rintro (hmem | rfl)
      · exact hmem
      · exact (hnames _).mp hbinds
    · exact .cons (insert hnames name false) hrest

theorem introduce {w : Walk} (h : Mirrors k.scopes w.scopes) (names : List Token) :
    Mirrors (k.declaring (names.map Token.lexeme)).scopes (w.introduce names).scopes := by
  rw [Walk.introduce_scopes]
  generalize w.scopes = scopes at h
  induction names generalizing k scopes with
  | nil =>
    rw [List.map_nil, Enclosure.declaring_nil]
    exact h
  | cons t names ih =>
    have hnames : (t :: names).map Token.lexeme = [t.lexeme] ++ names.map Token.lexeme := rfl
    rw [hnames, Enclosure.declaring_append, List.foldl_cons]
    exact ih _ (h.add t.lexeme)

/-- A scope that nothing is declared in yet. -/
theorem enter {w : Walk} (h : Mirrors k.scopes w.scopes) :
    Mirrors (k.opening []).scopes (w.enter []).scopes := by
  refine .cons ?_ h
  intro name
  exact iff_of_false Bool.false_ne_true List.not_mem_nil

theorem implicit (name : String) :
    ∀ other, Bindings.binds [(name, true)] other ↔ other ∈ [name] := by
  intro other
  rw [List.mem_singleton, Bindings.binds, Bindings.get?, Bindings.get?_nil]
  split
  · next heq => exact iff_of_true rfl heq.symm
  · next hne => exact iff_of_false Bool.false_ne_true (Ne.symm hne)

theorem enterClass {w : Walk} (h : Mirrors k.scopes w.scopes) (name : Token)
    (superclass : Option Occurrence) :
    Mirrors (k.classBody superclass.isSome).scopes (w.enterClass name superclass).scopes := by
  rw [Walk.enterClass_scopes]
  cases superclass with
  | none => exact .cons (implicit "this") h
  | some parent => exact .cons (implicit "this") (.cons (implicit "super") h)

/-- A scope is left, whatever was declared in it. -/
theorem leave {names names' : List String} {w : Walk}
    (h : Mirrors ((k.opening names).declaring names').scopes w.scopes) :
    Mirrors k.scopes w.leave.scopes := by
  obtain ⟨scopes, globals, distances, failures⟩ := w
  cases h with
  | cons hnames hrest => exact hrest

theorem leaveClass {w : Walk} {superclass : Option Occurrence}
    (h : Mirrors (k.classBody superclass.isSome).scopes w.scopes) :
    Mirrors k.scopes (w.leaveClass superclass).scopes := by
  obtain ⟨scopes, globals, distances, failures⟩ := w
  cases superclass with
  | none =>
    cases h with
    | cons hnames hrest => exact hrest
  | some parent =>
    cases h with
    | cons hthis hrest =>
      cases hrest with
      | cons hsuper hrest => exact hrest

end Mirrors

/-! ## §2. What the walk records. -/

/-- What is recorded for a use: its nesting distance, if it breaks no rule and some local
scope has its name. -/
def recorded? (use : Enclosure × Use) : Option (Nat × Nat) :=
  match use.2.fault? use.1.role with
  | some _ => none
  | none =>
      (use.1.scopes.findIdx? (use.2.occurrence.name.lexeme ∈ ·)).map
        (use.2.occurrence.id, ·)

/-- A part of the program was walked over: the distances of the uses in it are noted, and
the scopes are those of a place behind it. -/
structure Records (k : Enclosure) (w w' : Walk) (found : List (Enclosure × Use)) : Prop where
  distances : w'.distances.toList = w.distances.toList ++ found.filterMap recorded?
  scopes : Mirrors k.scopes w'.scopes

namespace Records

variable {k k' : Enclosure} {w w' w'' : Walk} {found found' : List (Enclosure × Use)}

/-- What notes no distance records nothing. -/
theorem silent (hdistances : w'.distances = w.distances) (h : Mirrors k.scopes w'.scopes) :
    Records k w w' [] := by
  refine ⟨?_, h⟩
  rw [hdistances, List.filterMap_nil, List.append_nil]

theorem trans (h : Records k w w' found) (h' : Records k' w' w'' found') :
    Records k' w w'' (found ++ found') := by
  refine ⟨?_, h'.scopes⟩
  rw [h'.distances, h.distances, List.filterMap_append, List.append_assoc]

/-- Steps around a part that note no distance. -/
theorem congr {w₀ : Walk} (h : Records k w w' found) (hw : w.distances = w₀.distances)
    (hw' : w''.distances = w'.distances) (hscopes : Mirrors k'.scopes w''.scopes) :
    Records k' w₀ w'' found := by
  refine ⟨?_, hscopes⟩
  rw [hw', h.distances, hw]

end Records

namespace Walk

theorem records_locate {k : Enclosure} {w : Walk} (u : Use) (h : Mirrors k.scopes w.scopes)
    (hu : u.fault? k.role = none) : Records k w (w.locate u.occurrence) [(k, u)] := by
  refine ⟨?_, (locate_scopes w u.occurrence).symm ▸ h⟩
  rw [locate, h.distance?, List.filterMap_cons, recorded?, hu]
  dsimp only
  cases k.scopes.findIdx? (u.occurrence.name.lexeme ∈ ·) with
  | none => exact (List.append_nil _).symm
  | some d => exact Array.toList_push

/-- A use that breaks a rule is not located. -/
theorem records_report {k : Enclosure} {w : Walk} (u : Use) (t : Token) {fault : ScopeFault}
    (h : Mirrors k.scopes w.scopes) (hu : u.fault? k.role = some fault) :
    Records k w (w.report t fault) [(k, u)] := by
  refine ⟨?_, h⟩
  rw [List.filterMap_cons, recorded?, hu]
  exact (List.append_nil _).symm

theorem records_use {k : Enclosure} {w : Walk} (o : Occurrence) (h : Mirrors k.scopes w.scopes) :
    Records k w (w.use o) [(k, .variable o)] := by
  have hchecked : Mirrors k.scopes (w.checkInitialized o.name).scopes := by
    rw [checkInitialized_scopes]
    exact h
  have hlocated := records_locate (.variable o) hchecked rfl
  exact hlocated.congr (checkInitialized_distances w o.name) rfl hlocated.scopes

/-! ## §3. Expressions. -/

mutual

/-- **The distances of the uses in an expression are noted.** -/
theorem records_expr : ∀ {k : Enclosure} {w : Walk} (e : Expr), Mirrors k.scopes w.scopes →
    Records k w (w.expr k.role e) (e.uses.map (k, ·))
  | k, w, .literal _, h => by
    rw [expr, Expr.uses]
    exact .silent rfl h
  | k, w, .grouping inner, h => by
    rw [expr, Expr.uses]
    exact records_expr inner h
  | k, w, .unary _ right, h => by
    rw [expr, Expr.uses]
    exact records_expr right h
  | k, w, .binary left _ right, h => by
    rw [expr, Expr.uses, List.map_append]
    have hleft := records_expr left h
    exact hleft.trans (records_expr right hleft.scopes)
  | k, w, .logical left _ right, h => by
    rw [expr, Expr.uses, List.map_append]
    have hleft := records_expr left h
    exact hleft.trans (records_expr right hleft.scopes)
  | k, w, .variable o, h => by
    rw [expr, Expr.uses]
    exact records_use o h
  | k, w, .assign target value, h => by
    rw [expr, Expr.uses, List.map_append]
    have hvalue := records_expr value h
    exact hvalue.trans (records_locate (.assign target) hvalue.scopes rfl)
  | k, w, .call callee _ arguments, h => by
    rw [expr, Expr.uses, List.map_append]
    have hcallee := records_expr callee h
    exact hcallee.trans (records_exprs arguments hcallee.scopes)
  | k, w, .get object _, h => by
    rw [expr, Expr.uses]
    exact records_expr object h
  | k, w, .set object _ value, h => by
    rw [expr, Expr.uses, List.map_append]
    have hvalue := records_expr value h
    exact hvalue.trans (records_expr object hvalue.scopes)
  | ⟨levels, role⟩, w, .this o, h => by
    rw [expr.eq_def, Expr.uses]
    cases role with
    | none => exact records_report (.this o) o.name h rfl
    | plain | derived => exact records_locate (.this o) h rfl
  | ⟨levels, role⟩, w, .super o _, h => by
    rw [expr.eq_def, Expr.uses]
    cases role with
    | none | plain => exact records_report (.super o) o.name h rfl
    | derived => exact records_locate (.super o) h rfl

theorem records_exprs : ∀ {k : Enclosure} {w : Walk} (es : List Expr), Mirrors k.scopes w.scopes →
    Records k w (w.exprs k.role es) ((Expr.usesAll es).map (k, ·))
  | k, w, [], h => by
    rw [exprs, Expr.usesAll]
    exact .silent rfl h
  | k, w, e :: rest, h => by
    rw [exprs, Expr.usesAll, List.map_append]
    have hfirst := records_expr e h
    exact hfirst.trans (records_exprs rest hfirst.scopes)

end

theorem records_expr? {k : Enclosure} {w : Walk} (e : Option Expr) (h : Mirrors k.scopes w.scopes) :
    Records k w (w.expr? k.role e) ((Expr.uses? e).map (k, ·)) := by
  cases e with
  | none => exact .silent rfl h
  | some e => exact records_expr e h

/-! ## §4. Statements. -/

/-- A statement that declares nothing where it stands. -/
theorem records_passed {k : Enclosure} {w w' : Walk} {found : List (Enclosure × Use)}
    (h : Records k w w' found) : Records (k.declaring []) w w' found := by
  rw [Enclosure.declaring_nil]
  exact h

/-- A function or a class is introduced by its name. -/
theorem records_introduce {k : Enclosure} {w : Walk} (names : List Token)
    (h : Mirrors k.scopes w.scopes) :
    Records (k.declaring (names.map Token.lexeme)) w (w.introduce names) [] :=
  .silent (introduce_distances w names) (h.introduce names)

/-- A variable is defined behind its initializer, which leaves the scopes alone. -/
theorem records_define {k : Enclosure} {w v : Walk} {found : List (Enclosure × Use)} (name : Token)
    (hw : Mirrors k.scopes w.scopes)
    (h : Records (k.declaring [name.lexeme]) (w.declare name) v found)
    (hv : v.scopes = (w.declare name).scopes) :
    Records (k.declaring [name.lexeme]) w (v.define name) found := by
  refine h.congr (declare_distances w name) (define_distances v name) ?_
  rw [define_scopes, hv, declare_scopes, Scopes.add_declare]
  exact hw.add name.lexeme

/-- The name of a superclass is used in front of the class body. -/
theorem records_enterClass {k : Enclosure} {w : Walk} (name : Token) (superclass : Option Occurrence)
    (h : Mirrors k.scopes w.scopes) :
    Records (k.classBody superclass.isSome) w (w.enterClass name superclass)
      (superclass.toList.map fun parent => (k, .variable parent)) := by
  have hbody := h.enterClass name superclass
  cases superclass with
  | none => exact .silent rfl hbody
  | some parent =>
    let checked := w.reportIf (parent.name.lexeme == name.lexeme) parent.name .inheritsFromItself
    have hchecked : Mirrors k.scopes checked.scopes := by
      rw [reportIf_scopes]
      exact h
    exact (records_use parent hchecked).congr (reportIf_distances w _ _ _) rfl hbody

mutual

/-- **The distances of the uses in a statement are noted**, and the current scope has the
names that the statement declares. -/
theorem records_stmt : ∀ (around : Surroundings) {k : Enclosure} {w : Walk} (s : Stmt),
    around.classRole = k.role → Mirrors k.scopes w.scopes →
      Records (k.declaring s.names) w (w.stmt around s) (s.uses k)
  | around, k, w, .expression e, hrole, h => by
    rw [stmt, Stmt.uses, Stmt.names, hrole]
    exact records_passed (records_expr e h)
  | around, k, w, .print e, hrole, h => by
    rw [stmt, Stmt.uses, Stmt.names, hrole]
    exact records_passed (records_expr e h)
  | around, k, w, .var name initializer, hrole, h => by
    rw [stmt, Stmt.uses, Stmt.names, hrole]
    have hdeclared : Mirrors (k.declaring [name.lexeme]).scopes (w.declare name).scopes := by
      rw [declare_scopes]
      exact h.declare name.lexeme
    exact records_define name h (records_expr? initializer hdeclared) (expr?_scopes _ _ _)
  | around, k, w, .block body, hrole, h => by
    rw [stmt, Stmt.uses, Stmt.names]
    have hbody := records_stmts around (k := k.opening []) body hrole h.enter
    exact records_passed (hbody.congr rfl rfl hbody.scopes.leave)
  | around, k, w, .ifElse condition th none, hrole, h => by
    rw [stmt, Stmt.uses, Stmt.names, hrole]
    have hcondition := records_expr condition h
    exact hcondition.trans (records_stmt around th hrole hcondition.scopes)
  | around, k, w, .ifElse condition th (some el), hrole, h => by
    rw [stmt, Stmt.uses, Stmt.names, hrole, Enclosure.declaring_append]
    have hcondition := records_expr condition h
    have hthen := hcondition.trans (records_stmt around th hrole hcondition.scopes)
    exact hthen.trans (records_stmt around (k := k.declaring th.names) el hrole hthen.scopes)
  | around, k, w, .while condition body, hrole, h => by
    rw [stmt, Stmt.uses, Stmt.names, hrole]
    have hcondition := records_expr condition h
    exact hcondition.trans (records_stmt around body hrole hcondition.scopes)
  | around, k, w, .function decl, hrole, h => by
    rw [stmt, Stmt.uses, Stmt.names]
    have hname := records_introduce [decl.name] h
    exact hname.trans (records_function _ (k := k.declaring [decl.name.lexeme]) decl hrole
      hname.scopes)
  | around, k, w, .return keyword value, hrole, h => by
    rw [stmt, Stmt.uses, Stmt.names, hrole]
    have hchecked : Mirrors k.scopes
        (w.checkReturn around.functionRole keyword value.isSome).scopes := by
      rw [checkReturn_scopes]
      exact h
    have hvalue := records_expr? value hchecked
    exact records_passed (hvalue.congr (checkReturn_distances w _ _ _) rfl hvalue.scopes)
  | around, k, w, .class name superclass ms, hrole, h => by
    rw [stmt, Stmt.uses, Stmt.names]
    have hname := records_introduce [name] h
    have hparent := hname.trans (records_enterClass name superclass hname.scopes)
    have hmethods := hparent.trans (records_methods
      { around with classRole := if superclass.isSome then .derived else .plain }
      ms rfl hparent.scopes)
    have hdistances : ∀ v : Walk, (v.leaveClass superclass).distances = v.distances := by
      intro v
      cases superclass <;> rfl
    exact hmethods.congr rfl (hdistances _) hmethods.scopes.leaveClass

theorem records_stmts : ∀ (around : Surroundings) {k : Enclosure} {w : Walk} (ss : List Stmt),
    around.classRole = k.role → Mirrors k.scopes w.scopes →
      Records (k.declaring (ss.flatMap Stmt.names)) w (w.stmts around ss) (Stmt.usesAll k ss)
  | around, k, w, [], hrole, h => by
    rw [stmts, Stmt.usesAll]
    exact records_passed (.silent rfl h)
  | around, k, w, s :: rest, hrole, h => by
    rw [stmts, Stmt.usesAll, List.flatMap_cons, Enclosure.declaring_append]
    have hfirst := records_stmt around s hrole h
    exact hfirst.trans (records_stmts around (k := k.declaring s.names) rest hrole hfirst.scopes)

theorem records_function : ∀ (around : Surroundings) {k : Enclosure} {w : Walk}
    (decl : FunctionDecl Stmt), around.classRole = k.role → Mirrors k.scopes w.scopes →
      Records k w (w.function around decl) (Stmt.usesFunction k decl)
  | around, k, w, ⟨_, params, body⟩, hrole, h => by
    rw [function, Stmt.usesFunction]
    have hparams := records_introduce params h.enter
    have hbody := records_stmts around (k := k.opening (params.map Token.lexeme)) body hrole
      hparams.scopes
    exact (hparams.trans hbody).congr rfl rfl hbody.scopes.leave

theorem records_methods : ∀ (around : Surroundings) {k : Enclosure} {w : Walk}
    (ms : List (FunctionDecl Stmt)), around.classRole = k.role → Mirrors k.scopes w.scopes →
      Records k w (w.methods around ms) (Stmt.usesMethods k ms)
  | around, k, w, [], hrole, h => by
    rw [methods, Stmt.usesMethods]
    exact .silent rfl h
  | around, k, w, m :: rest, hrole, h => by
    rw [methods, Stmt.usesMethods]
    have hfirst := records_function
      { around with functionRole := if m.isInitializer then .initializer else .method } m hrole h
    exact hfirst.trans (records_methods around rest hrole hfirst.scopes)

end

end Walk

/-! ## §5. Programs. -/

theorem recorded_iff {k : Enclosure} {u : Use} {id d : Nat} :
    recorded? (k, u) = some (id, d) ↔
      u.fault? k.role = none ∧ u.occurrence.id = id ∧ k.Reaches u.occurrence.name.lexeme d := by
  rw [recorded?]
  dsimp only
  cases u.fault? k.role with
  | some fault => exact iff_of_false nofun fun h => nomatch h.1
  | none =>
    rw [← Enclosure.findIdx?_iff, Option.map_eq_some_iff]
    constructor
    · rintro ⟨d, hd, heq⟩
      cases heq
      exact ⟨rfl, rfl, hd⟩
    · rintro ⟨-, rfl, hd⟩
      exact ⟨d, hd, rfl⟩

/-- The numbers of entries are numbers of uses, in their order. -/
theorem entries_sublist (found : List (Enclosure × Use)) :
    ((found.filterMap recorded?).map Prod.fst).Sublist
      ((Use.occurrences found).map Occurrence.id) := by
  induction found with
  | nil => exact .slnil
  | cons use found ih =>
    rw [List.filterMap_cons]
    cases hentry : recorded? use with
    | none => exact ih.cons _
    | some entry =>
      obtain ⟨id, d⟩ := entry
      obtain ⟨-, rfl, -⟩ := recorded_iff.mp hentry
      exact ih.cons_cons _

theorem program_distances (globals : List String) (statements : List Stmt) :
    (program globals statements).distances
      = (Stmt.usesAll .topLevel statements).filterMap recorded? :=
  (Walk.records_stmts .topLevel (k := .topLevel) (w := ⟨[], _, #[], #[]⟩) statements rfl
    List.Forall₂.nil).distances

theorem mem_program_distances {globals : List String} {statements : List Stmt} {id d : Nat} :
    (id, d) ∈ (program globals statements).distances ↔
      ∃ k u, Stmt.HoldsAll .topLevel statements k u ∧ u.fault? k.role = none
        ∧ u.occurrence.id = id ∧ k.Reaches u.occurrence.name.lexeme d := by
  rw [program_distances, List.mem_filterMap]
  constructor
  · rintro ⟨⟨k, u⟩, hmem, hentry⟩
    exact ⟨k, u, (Stmt.mem_usesAll _ _).mp hmem, recorded_iff.mp hentry⟩
  · rintro ⟨k, u, hholds, hentry⟩
    exact ⟨(k, u), (Stmt.mem_usesAll _ _).mpr hholds, recorded_iff.mpr hentry⟩

/-- In a table whose keys are distinct an entry is what is looked up. -/
theorem lookup_eq_some_iff_of_nodup {entries : List (Nat × Nat)}
    (h : (entries.map Prod.fst).Nodup) (id d : Nat) :
    entries.lookup id = some d ↔ (id, d) ∈ entries := by
  refine ⟨mem_of_lookup, ?_⟩
  intro hmem
  obtain ⟨before, after, rfl⟩ := List.append_of_mem hmem
  rw [List.map_append, List.map_cons, List.nodup_append] at h
  have hfresh : id ∉ before.map Prod.fst := fun hid =>
    h.2.2 id hid id List.mem_cons_self rfl
  rw [List.lookup_append, lookup_eq_none_of_notMem hfresh, List.lookup_cons, beq_self_eq_true]
  rfl

/-- **Recorded distances are nesting distances.**  Take the statements that the parser
reads from any tokens, also with failures, and any globals.  A use in them that breaks
no rule has a distance in the table exactly if some local scope around it declares its name
before it, and then the number of scopes between the use and the innermost such scope.
No other entry is in the table, each number has at most one, and the uses are all the
occurrences of the statements. -/
theorem distances_static (globals : List String) (firstId : Nat) (tokens : List Token) :
    let statements := (Parse.program firstId tokens).statements
    let table := (program globals statements).distances
    (∀ k u, Stmt.HoldsAll .topLevel statements k u → u.fault? k.role = none →
      (∀ d, table.lookup u.occurrence.id = some d ↔ k.Reaches u.occurrence.name.lexeme d)
        ∧ (table.lookup u.occurrence.id = none ↔
          ∀ scope ∈ k.scopes, u.occurrence.name.lexeme ∉ scope))
    ∧ (∀ entry ∈ table, ∃ k u, Stmt.HoldsAll .topLevel statements k u ∧ u.fault? k.role = none
      ∧ u.occurrence.id = entry.1 ∧ k.Reaches u.occurrence.name.lexeme entry.2)
    ∧ (table.map Prod.fst).Nodup
    ∧ ∀ o, o ∈ Stmt.occurrencesAll statements ↔
      ∃ k u, Stmt.HoldsAll .topLevel statements k u ∧ u.occurrence = o := by
  intro statements table
  have hids : ((Stmt.occurrencesAll statements).map Occurrence.id).Nodup :=
    (Parse.program_numbering firstId tokens).1
  rw [← Stmt.occurrences_usesAll .topLevel statements] at hids
  have hnodup : (table.map Prod.fst).Nodup := by
    have hsublist := entries_sublist (Stmt.usesAll .topLevel statements)
    rw [← program_distances globals] at hsublist
    exact hsublist.nodup hids
  -- a number stands for one use only
  have hsame : ∀ {k u k' u'}, Stmt.HoldsAll .topLevel statements k u →
      Stmt.HoldsAll .topLevel statements k' u' → u'.occurrence.id = u.occurrence.id →
        k' = k ∧ u' = u := by
    intro k u k' u' h h' hid
    rw [Use.occurrences, List.map_map] at hids
    have hpair := List.inj_on_of_nodup_map hids ((Stmt.mem_usesAll _ _).mpr h')
      ((Stmt.mem_usesAll _ _).mpr h) hid
    cases hpair
    exact ⟨rfl, rfl⟩
  have hlookup : ∀ k u, Stmt.HoldsAll .topLevel statements k u → u.fault? k.role = none →
      ∀ d, table.lookup u.occurrence.id = some d ↔ k.Reaches u.occurrence.name.lexeme d := by
    intro k u h hfault d
    rw [lookup_eq_some_iff_of_nodup hnodup, mem_program_distances]
    constructor
    · rintro ⟨k', u', h', -, hid, hreaches⟩
      obtain ⟨rfl, rfl⟩ := hsame h h' hid
      exact hreaches
    · exact fun hreaches => ⟨k, u, h, hfault, rfl, hreaches⟩
  refine ⟨?_, fun entry hentry => mem_program_distances.mp hentry, hnodup,
    Stmt.mem_occurrencesAll_iff .topLevel statements⟩
  intro k u h hfault
  refine ⟨hlookup k u h hfault, ?_⟩
  rw [Option.eq_none_iff_forall_ne_some]
  simp only [ne_eq, hlookup k u h hfault, ← Enclosure.findIdx?_iff]
  rw [← Option.eq_none_iff_forall_ne_some, List.findIdx?_eq_none_iff]
  simp only [decide_eq_false_iff_not]

end Lox.Resolve
