/-
  Lox.Proofs.Resolve.Sides
  ────────────────────────
  **WHICH TOKENS A RENAMING WRITES ANEW.**

  A local variable or a parameter is declared by a token `d`.  The scope that
  declares `d` is on one side, all other scopes are on the other, and every
  name of a tree is on the side of the scope that declares it.  To rename `d`
  is to write anew the tokens that are on its side and have its name: the
  declaration, and the occurrences that are bound to it.  The tree that comes
  out is a renaming of the tree (`renamesStmts_sided`).

  A token is known by its line here, so the lines of a tree have to be
  different: they are places in the text, and stand for lines.
-/
import Lox.Proofs.Resolve.Renamed

namespace Lox

open Resolve

/-! ## §1. Sides. -/

/-- A token that no scope declares. -/
def Token.kept (t : Token) : Token × Bool :=
  (t, false)

mutual

/-- The tokens of an expression, each name with the side of the scope that
declares it. -/
def Expr.sided (sides : List Bool) (scopes : Scopes) : Expr → List (Token × Bool)
  | .literal _ => []
  | .unary operator right => operator.kept :: right.sided sides scopes
  | .binary left operator right =>
      left.sided sides scopes ++ operator.kept :: right.sided sides scopes
  | .logical left operator right =>
      left.sided sides scopes ++ operator.kept :: right.sided sides scopes
  | .grouping inner => inner.sided sides scopes
  | .variable o => [(o.name, sideOf sides scopes o.name.lexeme)]
  | .assign o value => (o.name, sideOf sides scopes o.name.lexeme) :: value.sided sides scopes
  | .call callee paren arguments =>
      callee.sided sides scopes ++ (Expr.sidedAll sides scopes arguments ++ [paren.kept])
  | .get object name => object.sided sides scopes ++ [name.kept]
  | .set object name value =>
      object.sided sides scopes ++ name.kept :: value.sided sides scopes
  | .super o method => [o.name.kept, method.kept]
  | .this o => [o.name.kept]

/-- The tokens of expressions with their sides. -/
def Expr.sidedAll (sides : List Bool) (scopes : Scopes) : List Expr → List (Token × Bool)
  | [] => []
  | e :: rest => e.sided sides scopes ++ Expr.sidedAll sides scopes rest

end

/-- The tokens of an expression that may be missing, with their sides. -/
def Expr.sided? (sides : List Bool) (scopes : Scopes) : Option Expr → List (Token × Bool)
  | none => []
  | some e => e.sided sides scopes

/-- The variable that a statement declares. -/
def Stmt.varName? : Stmt → Option Token
  | .var name _ => some name
  | _ => none

/-- The function or the class that a statement declares. -/
def Stmt.printed? : Stmt → Option Token
  | .function decl => some decl.name
  | .class name _ _ => some name
  | _ => none

/-- Whether a scope with these parameters and statements declares `d`. -/
def Stmt.declares (d : Token) (params : List Token) (body : List Stmt) : Bool :=
  decide (d ∈ params ++ body.filterMap Stmt.varName?)

mutual

/-- **The tokens of a statement with their sides.** -/
def Stmt.sided (d : Token) (sides : List Bool) (scopes : Scopes) : Stmt → List (Token × Bool)
  | .expression e => e.sided sides scopes
  | .print e => e.sided sides scopes
  | .var name initializer => (name, sides.headD false)
      :: Expr.sided? sides (scopes.declare name.lexeme) initializer
  | .block body => Stmt.sidedAll d (Stmt.declares d [] body :: sides) ([] :: scopes) body
  | .ifElse condition thenBranch none =>
      condition.sided sides scopes ++ thenBranch.sided d sides scopes
  | .ifElse condition thenBranch (some elseBranch) =>
      condition.sided sides scopes
        ++ (thenBranch.sided d sides scopes ++ elseBranch.sided d sides scopes)
  | .while condition body => condition.sided sides scopes ++ body.sided d sides scopes
  | .function decl => Stmt.sidedFunction d sides (scopes.add decl.name.lexeme) decl
  | .return keyword value => keyword.kept :: Expr.sided? sides scopes value
  | .class name superclass methods =>
      name.kept :: (superclass.toList.map (fun o =>
          (o.name, sideOf sides (scopes.add name.lexeme) o.name.lexeme))
        ++ Stmt.sidedMethods d (false :: methodSides sides superclass.isSome)
          (Walk.classScopes (scopes.add name.lexeme) superclass.isSome) methods)
termination_by structural s => s

/-- The tokens of statements with their sides. -/
def Stmt.sidedAll (d : Token) (sides : List Bool) (scopes : Scopes) :
    List Stmt → List (Token × Bool)
  | [] => []
  | s :: rest => s.sided d sides scopes ++ Stmt.sidedAll d sides (scopes.after s) rest

/-- The tokens of a function with their sides. -/
def Stmt.sidedFunction (d : Token) (sides : List Bool) (scopes : Scopes) :
    FunctionDecl Stmt → List (Token × Bool)
  | ⟨name, params, body⟩ => name.kept :: (params.map (·, Stmt.declares d params body)
      ++ Stmt.sidedAll d (Stmt.declares d params body :: sides)
        (Walk.parameterScope params :: scopes) body)

/-- The tokens of methods with their sides. -/
def Stmt.sidedMethods (d : Token) (sides : List Bool) (scopes : Scopes) :
    List (FunctionDecl Stmt) → List (Token × Bool)
  | [] => []
  | m :: rest => Stmt.sidedFunction d sides scopes m ++ Stmt.sidedMethods d sides scopes rest

end

/-! ## §2. A name is declared once. -/

theorem Stmt.declared?_of_variable {s : Stmt} {t : Token} (h : s.varName? = some t) :
    s.declared? = some t ∧ s.printed? = none := by
  cases s with
  | var =>
    cases h
    exact ⟨rfl, rfl⟩
  | _ => cases h

theorem Stmt.declared?_of_printed {s : Stmt} {t : Token} (h : s.printed? = some t) :
    s.declared? = some t := by
  cases s with
  | function | «class» =>
    cases h
    rfl
  | _ => cases h

namespace Resolve

section Once

variable {C : Chart} {inside : Bool} {scope : Bindings Bool} {rest : Scopes} {ss : List Stmt}
  {name : String}

theorem after_cons (scope : Bindings Bool) (rest : Scopes) (s : Stmt) :
    ∃ scope', Scopes.after (scope :: rest) s = scope' :: rest
      ∧ (∀ name, scope.binds name → scope'.binds name)
      ∧ ∀ t, s.declared? = some t → scope'.binds t.lexeme := by
  unfold Scopes.after
  cases hdeclared : s.declared? with
  | none => exact ⟨scope, rfl, fun _ h => h, nofun⟩
  | some t =>
    refine ⟨scope.insert t.lexeme true, rfl, ?_, ?_⟩
    · intro name h
      rw [Bindings.binds_insert, h, Bool.or_true]
    · rintro t' ⟨⟩
      rw [Bindings.binds_insert, decide_eq_true rfl, Bool.true_or]

/-- A name that a scope has is not declared in it again. -/
theorem BoundStmts.ne_of_binds (h : BoundStmts C inside (scope :: rest) ss)
    (hname : scope.binds name) {s : Stmt} (hs : s ∈ ss) {t : Token} (ht : s.declared? = some t) :
    t.lexeme ≠ name := by
  induction ss generalizing scope with
  | nil => cases hs
  | cons first ss ih =>
    obtain ⟨hfirst, hss⟩ := h
    rcases List.mem_cons.mp hs with rfl | hs
    · rintro rfl
      have hnone : scope.get? t.lexeme = none := (BoundStmt.declarable hfirst ht).2
      rw [Bindings.binds, hnone] at hname
      cases hname
    · obtain ⟨scope', hscope', hkeeps, -⟩ := after_cons scope rest first
      rw [hscope'] at hss
      exact ih hss (hkeeps name hname) hs

/-- **No function and no class has the name of a variable in its scope.** -/
theorem BoundStmts.ne_of_variable (h : BoundStmts C inside (scope :: rest) ss)
    (hname : scope.binds name ∨ ∃ s ∈ ss, ∃ t, s.varName? = some t ∧ t.lexeme = name)
    {s : Stmt} (hs : s ∈ ss) {t : Token} (ht : s.printed? = some t) : t.lexeme ≠ name := by
  rcases hname with hname | hname
  · exact h.ne_of_binds hname hs (Stmt.declared?_of_printed ht)
  · induction ss generalizing scope with
    | nil => cases hs
    | cons first ss ih =>
      obtain ⟨v, hv, u, hu, rfl⟩ := hname
      obtain ⟨hdeclared, hnone⟩ := Stmt.declared?_of_variable hu
      obtain ⟨scope', hscope', -, hadded⟩ := after_cons scope rest first
      have hss := h.2
      rw [hscope'] at hss
      rcases List.mem_cons.mp hv with rfl | hlater
      · -- the variable comes first
        rcases List.mem_cons.mp hs with rfl | hs
        · rw [hnone] at ht
          cases ht
        · exact hss.ne_of_binds (hadded u hdeclared) hs (Stmt.declared?_of_printed ht)
      · rcases List.mem_cons.mp hs with rfl | hs
        · exact (hss.ne_of_binds (hadded t (Stmt.declared?_of_printed ht)) hlater hdeclared).symm
        · exact ih hss hs ⟨v, hlater, u, hu, rfl⟩

end Once

end Resolve

/-! ## §3. Writing anew. -/

/-- Every token on another line, and some of them with another name. -/
def Relabel.respelled (f : Nat → Nat) (anew : Nat → Bool) (new : String) : Relabel :=
  ⟨fun t => { t.reline f with lexeme := if anew t.line then new else t.lexeme }, fun n => n,
    fun _ => rfl⟩

/-- The name of `d` becomes a new one, in a text with these tokens and a tree
with these occurrences. -/
def respelling (d : Token) (f : Nat → Nat) (anew : Nat → Bool) (new : String) (ts : List Token)
    (os : List Occurrence) : Spelling :=
  .rename d.lexeme new fun o o' => ∃ q ∈ os, q.name ∈ ts ∧ o = q.relabel (.lines f)
    ∧ o' = q.relabel (.respelled f anew new)

/-- What a text with `d` renamed writes anew: a token that is declared in the
scope of `d` and has its name.  No token has the new name. -/
def Follows (d : Token) (anew : Nat → Bool) (new : String) (ts : List Token)
    (p : Token × Bool) : Prop :=
  anew p.1.line = (p.2 && p.1.lexeme == d.lexeme) ∧ p.1.lexeme ≠ new ∧ p.1 ∈ ts

/-- All tokens are written as they should. -/
def Obeys (d : Token) (anew : Nat → Bool) (new : String) (ts : List Token)
    (sided : List (Token × Bool)) : Prop :=
  ∀ p ∈ sided, Follows d anew new ts p

section Tokens

variable {d : Token} {f : Nat → Nat} {anew : Nat → Bool} {new : String} {ts : List Token}
  {os : List Occurrence}

theorem obeys_cons {p : Token × Bool} {sided : List (Token × Bool)} :
    Obeys d anew new ts (p :: sided) ↔ Follows d anew new ts p ∧ Obeys d anew new ts sided :=
  List.forall_mem_cons

theorem obeys_append {sided sided' : List (Token × Bool)} :
    Obeys d anew new ts (sided ++ sided') ↔ Obeys d anew new ts sided ∧ Obeys d anew new ts sided' :=
  List.forall_mem_append

theorem relabel_kept {t : Token} (h : Follows d anew new ts t.kept) :
    t.relabel (.respelled f anew new) = t.relabel (.lines f) := by
  have hanew : anew t.line = false := h.1
  show { t.reline f with lexeme := if anew t.line then new else t.lexeme } = t.reline f
  rw [hanew, if_neg Bool.false_ne_true]
  rfl

/-- An occurrence whose token stays stands at the same place in both texts. -/
theorem pairs_kept {o : Occurrence} (h : Follows d anew new ts o.name.kept) (ho : o ∈ os) :
    (respelling d f anew new ts os).pairs (o.relabel (.lines f))
      ⟨o.id, o.name.relabel (.lines f)⟩ := by
  refine ⟨o, ho, h.2.2, rfl, ?_⟩
  rw [Occurrence.relabel, relabel_kept h]
  rfl

theorem respells_sided {side : Bool} {t : Token} (h : Follows d anew new ts (t, side)) :
    (respelling d f anew new ts os).Respells side (t.relabel (.lines f))
      (t.relabel (.respelled f anew new)) := by
  obtain ⟨hanew, hfresh, -⟩ := h
  refine ⟨hfresh, ?_⟩
  dsimp only at hanew hfresh
  show { t.reline f with lexeme := if anew t.line then new else t.lexeme }
    = { t.reline f with lexeme := (respelling d f anew new ts os).spell side t.lexeme }
  have hlexeme : (if anew t.line then new else t.lexeme)
      = (respelling d f anew new ts os).spell side t.lexeme := by
    rw [hanew]
    cases side with
    | false => rfl
    | true =>
      by_cases hname : t.lexeme = d.lexeme
      · rw [Bool.true_and, if_pos (beq_iff_eq.mpr hname), hname]
        exact (Spelling.rename_respell_old d.lexeme new _).symm
      · rw [Bool.true_and, if_neg (mt beq_iff_eq.mp hname)]
        exact ((if_neg hname).trans (if_neg hfresh)).symm
  rw [hlexeme]

theorem renamesOccurrence_sided {sides : List Bool} {scopes : Scopes} {o : Occurrence}
    (h : Follows d anew new ts (o.name, sideOf sides scopes o.name.lexeme)) (ho : o ∈ os) :
    (respelling d f anew new ts os).RenamesOccurrence id sides scopes (o.relabel (.lines f))
      (o.relabel (.respelled f anew new)) :=
  ⟨rfl, ⟨o, ho, h.2.2, rfl, rfl⟩, respells_sided h⟩

/-- A name other than that of `d` stays on both sides. -/
theorem keeps_kept {side : Bool} {t : Token}
    (h : Follows d anew new ts t.kept)
    (hname : side = true → t.lexeme ≠ d.lexeme) :
    (respelling d f anew new ts os).Keeps side (t.relabel (.lines f)) := by
  refine ⟨h.2.1, ?_⟩
  cases side with
  | false => rfl
  | true => exact (if_neg (hname rfl)).trans (if_neg h.2.1)

/-! ## §4. Expressions. -/

mutual

/-- An expression in which `d` is renamed. -/
theorem renamesExpr_sided {sides : List Bool} {scopes : Scopes} : ∀ e : Expr,
    Obeys d anew new ts (e.sided sides scopes) → e.occurrences ⊆ os →
    (respelling d f anew new ts os).RenamesExpr id sides scopes (e.relabel (.lines f))
      (e.relabel (.respelled f anew new))
  | .literal v, _, _ => by
    rw [Expr.relabel, Expr.relabel]
    exact rfl
  | .unary operator right, h, hos => by
    obtain ⟨ho, hr⟩ := obeys_cons.mp h
    rw [Expr.relabel, Expr.relabel, relabel_kept ho]
    exact ⟨_, rfl, renamesExpr_sided right hr hos⟩
  | .binary left operator right, h, hos => by
    obtain ⟨hl, hrest⟩ := obeys_append.mp h
    obtain ⟨ho, hr⟩ := obeys_cons.mp hrest
    obtain ⟨hleft, hright⟩ := List.append_subset.mp hos
    rw [Expr.relabel, Expr.relabel, relabel_kept ho]
    exact ⟨_, _, rfl, renamesExpr_sided left hl hleft, renamesExpr_sided right hr hright⟩
  | .logical left operator right, h, hos => by
    obtain ⟨hl, hrest⟩ := obeys_append.mp h
    obtain ⟨ho, hr⟩ := obeys_cons.mp hrest
    obtain ⟨hleft, hright⟩ := List.append_subset.mp hos
    rw [Expr.relabel, Expr.relabel, relabel_kept ho]
    exact ⟨_, _, rfl, renamesExpr_sided left hl hleft, renamesExpr_sided right hr hright⟩
  | .grouping inner, h, hos => by
    rw [Expr.relabel, Expr.relabel]
    exact ⟨_, rfl, renamesExpr_sided inner h hos⟩
  | .variable o, h, hos => by
    rw [Expr.relabel, Expr.relabel]
    exact ⟨_, rfl, renamesOccurrence_sided (obeys_cons.mp h).1 (hos (List.mem_singleton_self o))⟩
  | .assign o value, h, hos => by
    obtain ⟨ho, hv⟩ := obeys_cons.mp h
    obtain ⟨hvalue, htarget⟩ := List.append_subset.mp hos
    rw [Expr.relabel, Expr.relabel]
    exact ⟨_, _, rfl, renamesOccurrence_sided ho (htarget (List.mem_singleton_self o)),
      renamesExpr_sided value hv hvalue⟩
  | .call callee paren arguments, h, hos => by
    obtain ⟨hc, hrest⟩ := obeys_append.mp h
    obtain ⟨ha, hp⟩ := obeys_append.mp hrest
    obtain ⟨hcallee, harguments⟩ := List.append_subset.mp hos
    rw [Expr.relabel, Expr.relabel, relabel_kept (obeys_cons.mp hp).1]
    exact ⟨_, _, rfl, renamesExpr_sided callee hc hcallee,
      renamesExprs_sided arguments ha harguments⟩
  | .get object name, h, hos => by
    obtain ⟨ho, hn⟩ := obeys_append.mp h
    rw [Expr.relabel, Expr.relabel, relabel_kept (obeys_cons.mp hn).1]
    exact ⟨_, rfl, renamesExpr_sided object ho hos⟩
  | .set object name value, h, hos => by
    obtain ⟨ho, hrest⟩ := obeys_append.mp h
    obtain ⟨hn, hv⟩ := obeys_cons.mp hrest
    obtain ⟨hvalue, hobject⟩ := List.append_subset.mp hos
    rw [Expr.relabel, Expr.relabel, relabel_kept hn]
    exact ⟨_, _, rfl, renamesExpr_sided object ho hobject, renamesExpr_sided value hv hvalue⟩
  | .super o method, h, hos => by
    obtain ⟨ho, hrest⟩ := obeys_cons.mp h
    rw [Expr.relabel, Expr.relabel, relabel_kept (obeys_cons.mp hrest).1, Occurrence.relabel,
      Occurrence.relabel, relabel_kept ho]
    exact ⟨rfl, pairs_kept ho (hos (List.mem_singleton_self o))⟩
  | .this o, h, hos => by
    rw [Expr.relabel, Expr.relabel, Occurrence.relabel, Occurrence.relabel,
      relabel_kept (obeys_cons.mp h).1]
    exact ⟨rfl, pairs_kept (obeys_cons.mp h).1 (hos (List.mem_singleton_self o))⟩

theorem renamesExprs_sided {sides : List Bool} {scopes : Scopes} : ∀ es : List Expr,
    Obeys d anew new ts (Expr.sidedAll sides scopes es) → Expr.occurrencesAll es ⊆ os →
    (respelling d f anew new ts os).RenamesExprs id sides scopes (Expr.relabelAll (.lines f) es)
      (Expr.relabelAll (.respelled f anew new) es)
  | [], _, _ => by
    rw [Expr.relabelAll, Expr.relabelAll]
    exact rfl
  | e :: rest, h, hos => by
    obtain ⟨he, hr⟩ := obeys_append.mp h
    obtain ⟨hfirst, hrest⟩ := List.append_subset.mp hos
    rw [Expr.relabelAll, Expr.relabelAll]
    exact ⟨_, _, rfl, renamesExpr_sided e he hfirst, renamesExprs_sided rest hr hrest⟩

end

theorem renamesExpr?_sided {sides : List Bool} {scopes : Scopes} {e : Option Expr}
    (h : Obeys d anew new ts (Expr.sided? sides scopes e)) (hos : Expr.occurrences? e ⊆ os) :
    (respelling d f anew new ts os).RenamesExpr? id sides scopes (e.map (Expr.relabel (.lines f)))
      (e.map (Expr.relabel (.respelled f anew new))) := by
  cases e with
  | none => exact .none
  | some e => exact .some (renamesExpr_sided e h hos)

/-! ## §5. Statements. -/

/-- In the scope of `d`, no function and no class has its name. -/
def Reserved (d : Token) (sides : List Bool) (s : Stmt) : Prop :=
  sides.headD false = true → ∀ t, s.printed? = some t → t.lexeme ≠ d.lexeme

theorem reserved_of_declared {sides : List Bool} {s : Stmt} (h : s.declared? = none) :
    Reserved d sides s := by
  intro _ t ht
  rw [Stmt.declared?_of_printed ht] at h
  cases h

theorem varName?_relabel (m : Relabel) (s : Stmt) :
    (s.relabel m).varName? = s.varName?.map (Token.relabel m) := by
  cases s with
  | ifElse =>
    rw [Stmt.relabel_ifElse]
    rfl
  | _ =>
    rw [Stmt.relabel]
    rfl

theorem after_relabel_lines (scopes : Scopes) (s : Stmt) :
    scopes.after (s.relabel (.lines f)) = scopes.after s := by
  unfold Scopes.after
  cases s with
  | ifElse =>
    rw [Stmt.relabel_ifElse]
    rfl
  | function decl =>
    obtain ⟨name, params, body⟩ := decl
    rw [Stmt.relabel, Stmt.relabelFunction]
    rfl
  | _ =>
    rw [Stmt.relabel]
    rfl

theorem parameterScope_relabel_lines (params : List Token) :
    Walk.parameterScope (params.map (Token.relabel (.lines f))) = Walk.parameterScope params := by
  unfold Walk.parameterScope
  rw [List.foldl_map]
  rfl

theorem binds_parameterScope {params : List Token} {t : Token} (h : t ∈ params) :
    (Walk.parameterScope params).binds t.lexeme := by
  rw [Bindings.binds, get?_parameterScope, if_pos (List.mem_map_of_mem h)]
  rfl

/-- **The scope of `d` has no other declaration of its name.** -/
theorem reserved_of_bound {C : Chart} {inside : Bool} {sides : List Bool} {scopes : Scopes}
    {params : List Token} {body : List Stmt}
    (h : BoundStmts C inside (Walk.parameterScope params :: scopes)
      (Stmt.relabelAll (.lines f) body)) :
    ∀ s ∈ body, Reserved d (Stmt.declares d params body :: sides) (s.relabel (.lines f)) := by
  intro s hs hside t ht
  rw [Stmt.relabelAll_eq_map] at h
  refine h.ne_of_variable ?_ (List.mem_map_of_mem hs) ht
  rcases List.mem_append.mp (of_decide_eq_true hside) with hparam | hvariable
  · exact .inl (binds_parameterScope hparam)
  · obtain ⟨v, hv, hd⟩ := List.mem_filterMap.mp hvariable
    refine .inr ⟨_, List.mem_map_of_mem hv, d.relabel (.lines f), ?_, rfl⟩
    rw [varName?_relabel, hd]
    rfl

theorem forall₂_respells_sided {side : Bool} {params : List Token}
    (h : Obeys d anew new ts (params.map (·, side))) :
    List.Forall₂ ((respelling d f anew new ts os).Respells side)
      (params.map (Token.relabel (.lines f)))
      (params.map (Token.relabel (.respelled f anew new))) := by
  rw [List.forall₂_map_left_iff, List.forall₂_map_right_iff, List.forall₂_same]
  exact fun t ht => respells_sided (h _ (List.mem_map_of_mem ht))

variable {C : Chart}

mutual

/-- A statement in which `d` is renamed. -/
theorem renamesStmt_sided : ∀ {inside : Bool} {sides : List Bool} {scopes : Scopes} (s : Stmt),
    BoundStmt C inside scopes (s.relabel (.lines f)) → Reserved d sides (s.relabel (.lines f)) →
    Obeys d anew new ts (s.sided d sides scopes) → s.occurrences ⊆ os →
    (respelling d f anew new ts os).RenamesStmt id sides scopes (s.relabel (.lines f))
      (s.relabel (.respelled f anew new))
  | _, _, _, .expression e, _, _, h, hos => by
    rw [Stmt.relabel, Stmt.relabel]
    exact ⟨_, rfl, renamesExpr_sided e h hos⟩
  | _, _, _, .print e, _, _, h, hos => by
    rw [Stmt.relabel, Stmt.relabel]
    exact ⟨_, rfl, renamesExpr_sided e h hos⟩
  | _, _, _, .var name initializer, _, _, h, hos => by
    obtain ⟨hn, hi⟩ := obeys_cons.mp h
    rw [Stmt.relabel, Stmt.relabel]
    exact ⟨_, _, rfl, respells_sided hn, renamesExpr?_sided hi hos⟩
  | _, _, _, .block body, hb, _, h, hos => by
    rw [Stmt.relabel] at hb ⊢
    rw [Stmt.relabel]
    have hbound : BoundStmts C _ (Walk.parameterScope [] :: _) (Stmt.relabelAll (.lines f) body) :=
      hb.2
    exact ⟨_, _, rfl, renamesStmts_sided body hbound (reserved_of_bound hbound) h hos⟩
  | _, _, _, .ifElse condition thenBranch none, hb, _, h, hos => by
    obtain ⟨hc, ht⟩ := obeys_append.mp h
    obtain ⟨hcondition, hthen⟩ := List.append_subset.mp hos
    rw [Stmt.relabel] at hb ⊢
    rw [Stmt.relabel]
    exact ⟨_, _, rfl, renamesExpr_sided condition hc hcondition,
      renamesStmt_sided thenBranch hb.2.2.1 (reserved_of_declared hb.2.2.2) ht hthen⟩
  | _, _, _, .ifElse condition thenBranch (some elseBranch), hb, _, h, hos => by
    obtain ⟨hc, hrest⟩ := obeys_append.mp h
    obtain ⟨ht, he⟩ := obeys_append.mp hrest
    obtain ⟨hcondition, hbranches⟩ := List.append_subset.mp hos
    obtain ⟨hosThen, hosElse⟩ := List.append_subset.mp hbranches
    rw [Stmt.relabel] at hb ⊢
    rw [Stmt.relabel]
    obtain ⟨-, -, ⟨hthen, hdeclared⟩, helse, hdeclared'⟩ := hb
    exact ⟨_, _, _, rfl, renamesExpr_sided condition hc hcondition,
      renamesStmt_sided thenBranch hthen (reserved_of_declared hdeclared) ht hosThen,
      renamesStmt_sided elseBranch helse (reserved_of_declared hdeclared') he hosElse⟩
  | _, _, _, .while condition body, hb, _, h, hos => by
    obtain ⟨hc, ht⟩ := obeys_append.mp h
    obtain ⟨hcondition, hbody⟩ := List.append_subset.mp hos
    rw [Stmt.relabel] at hb ⊢
    rw [Stmt.relabel]
    exact ⟨_, _, rfl, renamesExpr_sided condition hc hcondition,
      renamesStmt_sided body hb.2.2.1 (reserved_of_declared hb.2.2.2) ht hbody⟩
  | _, _, _, .function ⟨name, params, body⟩, hb, hreserved, h, hos => by
    have hname := (obeys_cons.mp h).1
    rw [Stmt.relabel] at hb hreserved ⊢
    rw [Stmt.relabel]
    refine ⟨_, rfl, keeps_kept hname fun hside => hreserved hside (name.relabel (.lines f)) ?_, ?_⟩
    · rw [Stmt.relabelFunction]
      rfl
    exact renamesFunction_sided ⟨name, params, body⟩ hb.2.2 h hos
  | _, _, _, .return keyword value, _, _, h, hos => by
    obtain ⟨hk, hv⟩ := obeys_cons.mp h
    rw [Stmt.relabel, Stmt.relabel, relabel_kept hk]
    exact ⟨_, rfl, renamesExpr?_sided hv hos⟩
  | _, _, _, .class name superclass methods, hb, hreserved, h, hos => by
    obtain ⟨hname, hrest⟩ := obeys_cons.mp h
    obtain ⟨hs, hm⟩ := obeys_append.mp hrest
    obtain ⟨hparent, hosMethods⟩ := List.append_subset.mp hos
    rw [Stmt.relabel] at hb hreserved ⊢
    rw [Stmt.relabel, relabel_kept hname]
    refine ⟨_, _, rfl, keeps_kept hname fun hside => hreserved hside (name.relabel (.lines f)) rfl,
      ?_, ?_⟩
    · cases superclass with
      | none => exact .none
      | some o =>
        have ho : o ∈ os := hparent (List.mem_singleton_self o)
        exact .some (renamesOccurrence_sided (obeys_cons.mp hs).1 ho)
    · have hmethods := hb.2.2.2
      rw [Option.isSome_map] at hmethods ⊢
      exact renamesMethods_sided methods hmethods hm hosMethods

theorem renamesStmts_sided : ∀ {inside : Bool} {sides : List Bool} {scopes : Scopes}
    (ss : List Stmt), BoundStmts C inside scopes (Stmt.relabelAll (.lines f) ss) →
    (∀ s ∈ ss, Reserved d sides (s.relabel (.lines f))) →
    Obeys d anew new ts (Stmt.sidedAll d sides scopes ss) → Stmt.occurrencesAll ss ⊆ os →
    (respelling d f anew new ts os).RenamesStmts id sides scopes (Stmt.relabelAll (.lines f) ss)
      (Stmt.relabelAll (.respelled f anew new) ss)
  | _, _, _, [], _, _, _, _ => by
    rw [Stmt.relabelAll, Stmt.relabelAll]
    exact rfl
  | _, _, scopes, s :: rest, hb, hreserved, h, hos => by
    obtain ⟨hs, hr⟩ := obeys_append.mp h
    obtain ⟨hosFirst, hosRest⟩ := List.append_subset.mp hos
    rw [Stmt.relabelAll] at hb ⊢
    rw [Stmt.relabelAll]
    obtain ⟨hfirst, hrest⟩ := hb
    rw [after_relabel_lines] at hrest
    refine ⟨_, _, rfl, renamesStmt_sided s hfirst (hreserved s List.mem_cons_self) hs hosFirst, ?_⟩
    rw [after_relabel_lines]
    exact renamesStmts_sided rest hrest
      (fun s' hs' => hreserved s' (List.mem_cons_of_mem s hs')) hr hosRest

theorem renamesFunction_sided : ∀ {sides : List Bool} {scopes : Scopes} (m : FunctionDecl Stmt),
    BoundFunction C scopes (Stmt.relabelFunction (.lines f) m) →
    Obeys d anew new ts (Stmt.sidedFunction d sides scopes m) → Stmt.occurrencesFunction m ⊆ os →
    (respelling d f anew new ts os).RenamesFunction id sides scopes
      (Stmt.relabelFunction (.lines f) m) (Stmt.relabelFunction (.respelled f anew new) m)
  | _, _, ⟨name, params, body⟩, hb, h, hos => by
    obtain ⟨hname, hrest⟩ := obeys_cons.mp h
    obtain ⟨hparams, hbody⟩ := obeys_append.mp hrest
    rw [Stmt.relabelFunction] at hb ⊢
    rw [Stmt.relabelFunction, relabel_kept hname]
    have hbound := hb.2.2
    rw [parameterScope_relabel_lines] at hbound
    refine ⟨_, _, _, rfl, forall₂_respells_sided hparams, ?_⟩
    rw [parameterScope_relabel_lines]
    exact renamesStmts_sided body hbound (reserved_of_bound hbound) hbody hos

theorem renamesMethods_sided : ∀ {sides : List Bool} {scopes : Scopes}
    (ms : List (FunctionDecl Stmt)), BoundMethods C scopes (Stmt.relabelMethods (.lines f) ms) →
    Obeys d anew new ts (Stmt.sidedMethods d sides scopes ms) → Stmt.occurrencesMethods ms ⊆ os →
    (respelling d f anew new ts os).RenamesMethods id sides scopes
      (Stmt.relabelMethods (.lines f) ms) (Stmt.relabelMethods (.respelled f anew new) ms)
  | _, _, [], _, _, _ => by
    rw [Stmt.relabelMethods, Stmt.relabelMethods]
    exact rfl
  | _, _, m :: rest, hb, h, hos => by
    obtain ⟨hm, hr⟩ := obeys_append.mp h
    obtain ⟨hosFirst, hosRest⟩ := List.append_subset.mp hos
    rw [Stmt.relabelMethods] at hb ⊢
    rw [Stmt.relabelMethods]
    exact ⟨_, _, rfl, renamesFunction_sided m hb.1 hm hosFirst,
      renamesMethods_sided rest hb.2 hr hosRest⟩

end

end Tokens

end Lox
