/-
  Lox.Proofs.Tied.Code
  ────────────────────
  **TWO PROGRAMS THAT DIFFER IN NAMES AND NUMBERS.**

  The occurrences of two programs may have different numbers as long as the
  distances under them are the same, and their local names may be spelled
  differently as long as this is done scope by scope.  Each static scope is on
  a side: on one, names are the same in both programs; on the other, the names
  of the second program are respelled.  A static scope is known here by its
  side only, so the sides around a place do not change from one statement to
  the next.

  Names of functions and classes are printed; they are the same in both
  programs, and can only stand where respelling keeps them.
-/
import Lox.Proofs.Machine.Layout
import Lox.Proofs.Resolve.Renamed

namespace Lox

open Resolve

/-! ## §1. Occurrences. -/

/-- How the names and the numbers of two programs go together. -/
structure Tie extends Spelling where
  /-- The distances of the first program. -/
  here : Nat → Option Nat
  /-- The distances of the second program. -/
  there : Nat → Option Nat
  /-- All numbers of the first program are below this one. -/
  limitHere : Nat
  /-- All numbers of the second program are below this one. -/
  limitThere : Nat
  /-- Occurrences that a failure of both programs may be about. -/
  blames : Occurrence → Occurrence → Prop
  lawful : toSpelling.Lawful

namespace Tie

variable (T : Tie)

theorem spell_injective {side : Bool} {name other : String}
    (h : T.spell side name = T.spell side other) : name = other :=
  T.lawful.spell_injective h

@[simp]
theorem spell_this (side : Bool) : T.spell side "this" = "this" :=
  T.lawful.fixes_special not_ordinary_this side

/-- **Occurrences that mean the same variable**: their distances are equal, and
their names are spelled as in the scope that the distance leads to. -/
structure Occurrences (sides : List Bool) (o o' : Occurrence) : Prop where
  belowHere : o.id < T.limitHere
  belowThere : o'.id < T.limitThere
  paired : T.pairs o o'
  line : o'.name.line = o.name.line
  distance : T.there o'.id = T.here o.id
  /-- A name without a distance is a global one. -/
  global : T.here o.id = none → o'.name.lexeme = o.name.lexeme
  bound : ∀ d, T.here o.id = some d →
    ∃ side, sides[d]? = some side ∧ o'.name.lexeme = T.spell side o.name.lexeme

/-- `this` and `super` are spelled alike. -/
theorem Occurrences.special {T : Tie} {sides : List Bool} {o o' : Occurrence}
    (h : T.Occurrences sides o o') (hname : ¬ Ordinary o.name.lexeme) :
    o'.name.lexeme = o.name.lexeme := by
  cases hd : T.here o.id with
  | none => exact h.global hd
  | some d =>
    obtain ⟨side, -, hspelled⟩ := h.bound d hd
    exact hspelled.trans (T.lawful.fixes_special hname side)

/-- Names that are declared in the innermost scope. -/
def Declares (sides : List Bool) (name name' : Token) : Prop :=
  name'.lexeme = T.spell (sides.headD false) name.lexeme

end Tie

/-! ## §2. Trees. -/

section Trees

variable (T : Tie)

mutual

/-- Expressions that do the same in scopes on these sides. -/
def TiedExpr (sides : List Bool) : Expr → Expr → Prop
  | .literal v, e' => e' = .literal v
  | .unary operator right, e' =>
      ∃ right', e' = .unary operator right' ∧ TiedExpr sides right right'
  | .binary left operator right, e' => ∃ left' right', e' = .binary left' operator right'
      ∧ TiedExpr sides left left' ∧ TiedExpr sides right right'
  | .logical left operator right, e' => ∃ left' right', e' = .logical left' operator right'
      ∧ TiedExpr sides left left' ∧ TiedExpr sides right right'
  | .grouping inner, e' => ∃ inner', e' = .grouping inner' ∧ TiedExpr sides inner inner'
  | .variable o, e' => ∃ o', e' = .variable o' ∧ T.Occurrences sides o o'
  | .assign o value, e' => ∃ o' value', e' = .assign o' value' ∧ T.Occurrences sides o o'
      ∧ TiedExpr sides value value'
  | .call callee paren arguments, e' => ∃ callee' arguments', e' = .call callee' paren arguments'
      ∧ TiedExpr sides callee callee' ∧ TiedExprs sides arguments arguments'
  | .get object name, e' => ∃ object', e' = .get object' name ∧ TiedExpr sides object object'
  | .set object name value, e' => ∃ object' value', e' = .set object' name value'
      ∧ TiedExpr sides object object' ∧ TiedExpr sides value value'
  | .super o method, e' => ∃ o', e' = .super o' method ∧ T.Occurrences sides o o'
      ∧ ¬ Ordinary o.name.lexeme
  | .this o, e' => ∃ o', e' = .this o' ∧ T.Occurrences sides o o' ∧ ¬ Ordinary o.name.lexeme

/-- Expressions that do the same one by one. -/
def TiedExprs (sides : List Bool) : List Expr → List Expr → Prop
  | [], es' => es' = []
  | e :: rest, es' => ∃ e' rest', es' = e' :: rest' ∧ TiedExpr sides e e'
      ∧ TiedExprs sides rest rest'

end

/-- Expressions that may be missing in both programs. -/
def TiedExpr? (sides : List Bool) (e e' : Option Expr) : Prop :=
  Option.Rel (TiedExpr T sides) e e'

mutual

/-- **Statements that do the same** in scopes on these sides. -/
def TiedStmt (sides : List Bool) : Stmt → Stmt → Prop
  | .expression e, s' => ∃ e', s' = .expression e' ∧ TiedExpr T sides e e'
  | .print e, s' => ∃ e', s' = .print e' ∧ TiedExpr T sides e e'
  | .var name initializer, s' => ∃ name' initializer', s' = .var name' initializer'
      ∧ T.Declares sides name name' ∧ TiedExpr? T sides initializer initializer'
  | .block body, s' => ∃ side body', s' = .block body' ∧ TiedStmts (side :: sides) body body'
  | .ifElse condition thenBranch none, s' => ∃ condition' thenBranch',
      s' = .ifElse condition' thenBranch' none
      ∧ TiedExpr T sides condition condition' ∧ TiedStmt sides thenBranch thenBranch'
  | .ifElse condition thenBranch (some elseBranch), s' => ∃ condition' thenBranch' elseBranch',
      s' = .ifElse condition' thenBranch' (some elseBranch')
      ∧ TiedExpr T sides condition condition' ∧ TiedStmt sides thenBranch thenBranch'
      ∧ TiedStmt sides elseBranch elseBranch'
  | .while condition body, s' => ∃ condition' body', s' = .while condition' body'
      ∧ TiedExpr T sides condition condition' ∧ TiedStmt sides body body'
  | .function decl, s' => ∃ decl', s' = .function decl'
      ∧ T.Fixes (sides.headD false) decl.name.lexeme ∧ TiedFunction sides decl decl'
  | .return keyword value, s' =>
      ∃ value', s' = .return keyword value' ∧ TiedExpr? T sides value value'
  | .class name parent methods, s' => ∃ parent' methods', s' = .class name parent' methods'
      ∧ T.Fixes (sides.headD false) name.lexeme ∧ Option.Rel (T.Occurrences sides) parent parent'
      ∧ TiedMethods (false :: methodSides sides parent.isSome) methods methods'
termination_by structural s => s

/-- Statements that do the same one by one. -/
def TiedStmts (sides : List Bool) : List Stmt → List Stmt → Prop
  | [], ss' => ss' = []
  | s :: rest, ss' => ∃ s' rest', ss' = s' :: rest' ∧ TiedStmt sides s s'
      ∧ TiedStmts sides rest rest'

/-- Functions whose bodies do the same in a scope on some side. -/
def TiedFunction (sides : List Bool) : FunctionDecl Stmt → FunctionDecl Stmt → Prop
  | ⟨name, params, body⟩, d' => ∃ side params' body', d' = ⟨name, params', body'⟩
      ∧ List.Forall₂ (T.Declares (side :: sides)) params params'
      ∧ TiedStmts (side :: sides) body body'

/-- Methods that do the same one by one. -/
def TiedMethods (sides : List Bool) : List (FunctionDecl Stmt) → List (FunctionDecl Stmt) → Prop
  | [], ms' => ms' = []
  | m :: rest, ms' => ∃ m' rest', ms' = m' :: rest' ∧ TiedFunction sides m m'
      ∧ TiedMethods sides rest rest'

end

end Trees

/-! ## §3. Learning more distances. -/

/-- A tie that knows more numbers. -/
structure Tie.Extends (T T' : Tie) : Prop where
  spelling : T'.toSpelling = T.toSpelling
  limitHere : T.limitHere ≤ T'.limitHere
  limitThere : T.limitThere ≤ T'.limitThere
  here : ∀ id < T.limitHere, T'.here id = T.here id
  there : ∀ id < T.limitThere, T'.there id = T.there id

section Extending

variable {T T' : Tie}

theorem Tie.Extends.spell (hT : T.Extends T') (side : Bool) (name : String) :
    T'.spell side name = T.spell side name := by
  rw [hT.spelling]

theorem Tie.Occurrences.extend (hT : T.Extends T') {sides : List Bool} {o o' : Occurrence}
    (h : T.Occurrences sides o o') : T'.Occurrences sides o o' := by
  have hhere : T'.here o.id = T.here o.id := hT.here o.id h.belowHere
  have hthere : T'.there o'.id = T.there o'.id := hT.there o'.id h.belowThere
  refine ⟨?_, ?_, hT.spelling ▸ h.paired, h.line, ?_, ?_, ?_⟩
  · exact Nat.lt_of_lt_of_le h.belowHere hT.limitHere
  · exact Nat.lt_of_lt_of_le h.belowThere hT.limitThere
  · rw [hhere, hthere]
    exact h.distance
  · rw [hhere]
    exact h.global
  · intro d hd
    rw [hhere] at hd
    obtain ⟨side, hside, hname⟩ := h.bound d hd
    exact ⟨side, hside, by rw [hT.spell]; exact hname⟩

theorem Tie.Declares.extend (hT : T.Extends T') {sides : List Bool} {name name' : Token}
    (h : T.Declares sides name name') : T'.Declares sides name name' := by
  unfold Tie.Declares
  rw [hT.spell]
  exact h

theorem Spelling.Fixes.extend (hT : T.Extends T') {side : Bool} {name : String}
    (h : T.Fixes side name) : T'.Fixes side name := by
  rw [hT.spelling]
  exact h

mutual

theorem TiedExpr.extend (hT : T.Extends T') {sides : List Bool} : ∀ (e : Expr) {e' : Expr},
    TiedExpr T sides e e' → TiedExpr T' sides e e'
  | .literal v, _, h => h
  | .unary operator right, _, h => by
    obtain ⟨right', rfl, hr⟩ := h
    exact ⟨right', rfl, TiedExpr.extend hT right hr⟩
  | .binary left operator right, _, h => by
    obtain ⟨left', right', rfl, hl, hr⟩ := h
    exact ⟨left', right', rfl, TiedExpr.extend hT left hl, TiedExpr.extend hT right hr⟩
  | .logical left operator right, _, h => by
    obtain ⟨left', right', rfl, hl, hr⟩ := h
    exact ⟨left', right', rfl, TiedExpr.extend hT left hl, TiedExpr.extend hT right hr⟩
  | .grouping inner, _, h => by
    obtain ⟨inner', rfl, hi⟩ := h
    exact ⟨inner', rfl, TiedExpr.extend hT inner hi⟩
  | .variable o, _, h => by
    obtain ⟨o', rfl, ho⟩ := h
    exact ⟨o', rfl, ho.extend hT⟩
  | .assign o value, _, h => by
    obtain ⟨o', value', rfl, ho, hv⟩ := h
    exact ⟨o', value', rfl, ho.extend hT, TiedExpr.extend hT value hv⟩
  | .call callee paren arguments, _, h => by
    obtain ⟨callee', arguments', rfl, hc, ha⟩ := h
    exact ⟨callee', arguments', rfl, TiedExpr.extend hT callee hc, TiedExprs.extend hT arguments ha⟩
  | .get object name, _, h => by
    obtain ⟨object', rfl, ho⟩ := h
    exact ⟨object', rfl, TiedExpr.extend hT object ho⟩
  | .set object name value, _, h => by
    obtain ⟨object', value', rfl, ho, hv⟩ := h
    exact ⟨object', value', rfl, TiedExpr.extend hT object ho, TiedExpr.extend hT value hv⟩
  | .super o method, _, h => by
    obtain ⟨o', rfl, ho, hname⟩ := h
    exact ⟨o', rfl, ho.extend hT, hname⟩
  | .this o, _, h => by
    obtain ⟨o', rfl, ho, hname⟩ := h
    exact ⟨o', rfl, ho.extend hT, hname⟩

theorem TiedExprs.extend (hT : T.Extends T') {sides : List Bool} : ∀ (es : List Expr)
    {es' : List Expr}, TiedExprs T sides es es' → TiedExprs T' sides es es'
  | [], _, h => h
  | e :: rest, _, h => by
    obtain ⟨e', rest', rfl, he, hr⟩ := h
    exact ⟨e', rest', rfl, TiedExpr.extend hT e he, TiedExprs.extend hT rest hr⟩

end

theorem TiedExpr?.extend (hT : T.Extends T') {sides : List Bool} {e e' : Option Expr}
    (h : TiedExpr? T sides e e') : TiedExpr? T' sides e e' :=
  Lockstep.optionRel_imp (fun e _ => TiedExpr.extend hT e) h

mutual

theorem TiedStmt.extend (hT : T.Extends T') : ∀ {sides : List Bool} (s : Stmt) {s' : Stmt},
    TiedStmt T sides s s' → TiedStmt T' sides s s'
  | _, .expression e, _, h => by
    obtain ⟨e', rfl, he⟩ := h
    exact ⟨e', rfl, TiedExpr.extend hT e he⟩
  | _, .print e, _, h => by
    obtain ⟨e', rfl, he⟩ := h
    exact ⟨e', rfl, TiedExpr.extend hT e he⟩
  | _, .var name initializer, _, h => by
    obtain ⟨name', initializer', rfl, hn, hi⟩ := h
    exact ⟨name', initializer', rfl, hn.extend hT, TiedExpr?.extend hT hi⟩
  | _, .block body, _, h => by
    obtain ⟨side, body', rfl, hb⟩ := h
    exact ⟨side, body', rfl, TiedStmts.extend hT body hb⟩
  | _, .ifElse condition thenBranch none, _, h => by
    obtain ⟨condition', thenBranch', rfl, hc, ht⟩ := h
    exact ⟨condition', thenBranch', rfl, TiedExpr.extend hT condition hc,
      TiedStmt.extend hT thenBranch ht⟩
  | _, .ifElse condition thenBranch (some elseBranch), _, h => by
    obtain ⟨condition', thenBranch', elseBranch', rfl, hc, ht, he⟩ := h
    exact ⟨condition', thenBranch', elseBranch', rfl, TiedExpr.extend hT condition hc,
      TiedStmt.extend hT thenBranch ht, TiedStmt.extend hT elseBranch he⟩
  | _, .while condition body, _, h => by
    obtain ⟨condition', body', rfl, hc, hb⟩ := h
    exact ⟨condition', body', rfl, TiedExpr.extend hT condition hc, TiedStmt.extend hT body hb⟩
  | _, .function decl, _, h => by
    obtain ⟨decl', rfl, hn, hd⟩ := h
    exact ⟨decl', rfl, hn.extend hT, TiedFunction.extend hT decl hd⟩
  | _, .return keyword value, _, h => by
    obtain ⟨value', rfl, hv⟩ := h
    exact ⟨value', rfl, TiedExpr?.extend hT hv⟩
  | _, .class name parent methods, _, h => by
    obtain ⟨parent', methods', rfl, hn, hp, hm⟩ := h
    exact ⟨parent', methods', rfl, hn.extend hT,
      Lockstep.optionRel_imp (fun _ _ => .extend hT) hp, TiedMethods.extend hT methods hm⟩
termination_by structural _ s => s

theorem TiedStmts.extend (hT : T.Extends T') : ∀ {sides : List Bool} (ss : List Stmt)
    {ss' : List Stmt}, TiedStmts T sides ss ss' → TiedStmts T' sides ss ss'
  | _, [], _, h => h
  | _, s :: rest, _, h => by
    obtain ⟨s', rest', rfl, hs, hr⟩ := h
    exact ⟨s', rest', rfl, TiedStmt.extend hT s hs, TiedStmts.extend hT rest hr⟩
termination_by structural _ ss => ss

theorem TiedFunction.extend (hT : T.Extends T') : ∀ {sides : List Bool} (d : FunctionDecl Stmt)
    {d' : FunctionDecl Stmt}, TiedFunction T sides d d' → TiedFunction T' sides d d'
  | _, ⟨name, params, body⟩, _, h => by
    obtain ⟨side, params', body', rfl, hp, hb⟩ := h
    exact ⟨side, params', body', rfl, hp.imp fun _ _ => .extend hT, TiedStmts.extend hT body hb⟩
termination_by structural _ d => d

theorem TiedMethods.extend (hT : T.Extends T') : ∀ {sides : List Bool}
    (ms : List (FunctionDecl Stmt)) {ms' : List (FunctionDecl Stmt)},
    TiedMethods T sides ms ms' → TiedMethods T' sides ms ms'
  | _, [], _, h => h
  | _, m :: rest, _, h => by
    obtain ⟨m', rest', rfl, hm, hr⟩ := h
    exact ⟨m', rest', rfl, TiedFunction.extend hT m hm, TiedMethods.extend hT rest hr⟩
termination_by structural _ ms => ms

end

end Extending

/-! ## §4. Renamed programs. -/

/-- Charts with the distances of a tie, both under the numbers of the first
program. -/
structure Tie.Numbers (T : Tie) (number : Nat → Nat) (C C' : Chart) : Prop where
  here : ∀ id, T.here id = C.distance id
  there : ∀ id, T.there (number id) = C'.distance id
  limitHere : ∀ id < C.limit, id < T.limitHere
  limitThere : ∀ id < C'.limit, number id < T.limitThere

section Renaming

variable {T : Tie} {number : Nat → Nat} {C C' : Chart}

theorem Spelling.Respells.declares {sides : List Bool} {t t' : Token}
    (h : T.Respells (sides.headD false) t t') : T.Declares sides t t' :=
  congrArg Token.lexeme h.2

theorem lt_length_of_distance? {scopes : Scopes} {name : String} {d : Nat}
    (h : scopes.distance? name = some d) : d < scopes.length := by
  induction scopes generalizing d with
  | nil => cases h
  | cons scope rest ih =>
    unfold Scopes.distance? at h
    split at h
    · cases h
      exact Nat.succ_pos _
    · obtain ⟨d', hd', rfl⟩ := Option.map_eq_some_iff.mp h
      exact Nat.succ_lt_succ (ih hd')

/-- **Renamed occurrences mean the same variable.** -/
theorem Spelling.RenamesOccurrence.tied (hT : T.Numbers number C C') {sides : List Bool}
    {scopes : Scopes} (hsides : sides.length = scopes.length) {o o' : Occurrence}
    (h : T.RenamesOccurrence number sides scopes o o') (hl : Located C scopes o)
    (hl' : Located C' scopes o) : T.Occurrences sides o o' := by
  obtain ⟨hid, hpair, -, hname⟩ := h
  have hhere : T.here o.id = scopes.distance? o.name.lexeme := (hT.here o.id).trans hl.2
  have hthere : T.there o'.id = scopes.distance? o.name.lexeme := by
    rw [hid, hT.there]
    exact hl'.2
  refine ⟨hT.limitHere _ hl.1, ?_, hpair, by rw [hname], hthere.trans hhere.symm, ?_, ?_⟩
  · rw [hid]
    exact hT.limitThere _ hl'.1
  · intro hnone
    have hdistance := hhere.symm.trans hnone
    rw [hname, sideOf, hdistance]
    rfl
  · intro d hd
    have hdistance := hhere.symm.trans hd
    have hlt : d < sides.length := by
      rw [hsides]
      exact lt_length_of_distance? hdistance
    refine ⟨sides[d], List.getElem?_eq_getElem hlt, ?_⟩
    rw [hname, sideOf, hdistance]
    show T.spell ((sides[d]?).getD false) _ = _
    rw [List.getElem?_eq_getElem hlt]
    rfl

/-- The words `this` and `super` mean the same variable. -/
theorem Tie.occurrences_special (hT : T.Numbers number C C') {sides : List Bool}
    {scopes : Scopes} (hsides : sides.length = scopes.length) {o : Occurrence}
    (ho : ¬ Ordinary o.name.lexeme) (hpair : T.pairs o ⟨number o.id, o.name⟩)
    (hl : Located C scopes o)
    (hl' : Located C' scopes o) : T.Occurrences sides o ⟨number o.id, o.name⟩ := by
  have hfixes : T.Fixes (sideOf sides scopes o.name.lexeme) o.name.lexeme :=
    T.lawful.fixes_special ho _
  have hrenames : T.RenamesOccurrence number sides scopes o ⟨number o.id, o.name⟩ :=
    ⟨rfl, hpair, (T.lawful.special _ ho).1, by rw [hfixes]⟩
  exact hrenames.tied hT hsides hl hl'

mutual

theorem RenamesExpr.tied (hT : T.Numbers number C C') {sides : List Bool} {scopes : Scopes}
    (hsides : sides.length = scopes.length) : ∀ (e : Expr) {e' : Expr}, BoundExpr C scopes e →
    BoundExpr C' scopes e → T.RenamesExpr number sides scopes e e' → TiedExpr T sides e e'
  | .literal v, _, _, _, h => h
  | .unary operator right, _, hb, hb', h => by
    obtain ⟨right', rfl, hr⟩ := h
    exact ⟨right', rfl, RenamesExpr.tied hT hsides right hb hb' hr⟩
  | .binary left operator right, _, hb, hb', h => by
    obtain ⟨left', right', rfl, hl, hr⟩ := h
    exact ⟨left', right', rfl, RenamesExpr.tied hT hsides left hb.1 hb'.1 hl,
      RenamesExpr.tied hT hsides right hb.2 hb'.2 hr⟩
  | .logical left operator right, _, hb, hb', h => by
    obtain ⟨left', right', rfl, hl, hr⟩ := h
    exact ⟨left', right', rfl, RenamesExpr.tied hT hsides left hb.1 hb'.1 hl,
      RenamesExpr.tied hT hsides right hb.2 hb'.2 hr⟩
  | .grouping inner, _, hb, hb', h => by
    obtain ⟨inner', rfl, hi⟩ := h
    exact ⟨inner', rfl, RenamesExpr.tied hT hsides inner hb hb' hi⟩
  | .variable o, _, hb, hb', h => by
    obtain ⟨o', rfl, ho⟩ := h
    exact ⟨o', rfl, ho.tied hT hsides hb.1 hb'.1⟩
  | .assign o value, _, hb, hb', h => by
    obtain ⟨o', value', rfl, ho, hv⟩ := h
    exact ⟨o', value', rfl, ho.tied hT hsides hb.2.1 hb'.2.1,
      RenamesExpr.tied hT hsides value hb.1 hb'.1 hv⟩
  | .call callee paren arguments, _, hb, hb', h => by
    obtain ⟨callee', arguments', rfl, hc, ha⟩ := h
    exact ⟨callee', arguments', rfl, RenamesExpr.tied hT hsides callee hb.1 hb'.1 hc,
      RenamesExprs.tied hT hsides arguments hb.2 hb'.2 ha⟩
  | .get object name, _, hb, hb', h => by
    obtain ⟨object', rfl, ho⟩ := h
    exact ⟨object', rfl, RenamesExpr.tied hT hsides object hb hb' ho⟩
  | .set object name value, _, hb, hb', h => by
    obtain ⟨object', value', rfl, ho, hv⟩ := h
    exact ⟨object', value', rfl, RenamesExpr.tied hT hsides object hb.2 hb'.2 ho,
      RenamesExpr.tied hT hsides value hb.1 hb'.1 hv⟩
  | .super o method, _, hb, hb', h => by
    obtain ⟨rfl, hpair⟩ := h
    have hname : ¬ Ordinary o.name.lexeme := hb.2.1 ▸ not_ordinary_super
    exact ⟨_, rfl, T.occurrences_special hT hsides hname hpair hb.1 hb'.1, hname⟩
  | .this o, _, hb, hb', h => by
    obtain ⟨rfl, hpair⟩ := h
    have hname : ¬ Ordinary o.name.lexeme := hb.2.1 ▸ not_ordinary_this
    exact ⟨_, rfl, T.occurrences_special hT hsides hname hpair hb.1 hb'.1, hname⟩

theorem RenamesExprs.tied (hT : T.Numbers number C C') {sides : List Bool} {scopes : Scopes}
    (hsides : sides.length = scopes.length) : ∀ (es : List Expr) {es' : List Expr},
    BoundExprs C scopes es → BoundExprs C' scopes es → T.RenamesExprs number sides scopes es es' →
    TiedExprs T sides es es'
  | [], _, _, _, h => h
  | e :: rest, _, hb, hb', h => by
    obtain ⟨e', rest', rfl, he, hr⟩ := h
    exact ⟨e', rest', rfl, RenamesExpr.tied hT hsides e hb.1 hb'.1 he,
      RenamesExprs.tied hT hsides rest hb.2 hb'.2 hr⟩

end

theorem RenamesExpr?.tied (hT : T.Numbers number C C') {sides : List Bool} {scopes : Scopes}
    (hsides : sides.length = scopes.length) {e e' : Option Expr} (hb : BoundExpr? C scopes e)
    (hb' : BoundExpr? C' scopes e) (h : T.RenamesExpr? number sides scopes e e') :
    TiedExpr? T sides e e' := by
  cases h with
  | none => exact .none
  | some he => exact .some (RenamesExpr.tied hT hsides _ hb hb' he)

theorem length_add (scopes : Scopes) (name : String) : (scopes.add name).length = scopes.length := by
  cases scopes <;> rfl

theorem length_declare (scopes : Scopes) (name : String) :
    (scopes.declare name).length = scopes.length := by
  cases scopes with
  | nil => rfl
  | cons scope rest =>
    rw [Scopes.declare]
    split <;> rfl

theorem length_after (scopes : Scopes) (s : Stmt) : (scopes.after s).length = scopes.length := by
  unfold Scopes.after
  split
  · exact length_add scopes _
  · rfl

mutual

/-- **A renamed statement does the same** as the statement, if both have the
distances that its names have. -/
theorem RenamesStmt.tied (hT : T.Numbers number C C') : ∀ {inside : Bool} {sides : List Bool}
    {scopes : Scopes}, sides.length = scopes.length → ∀ (s : Stmt) {s' : Stmt},
    BoundStmt C inside scopes s → BoundStmt C' inside scopes s →
    T.RenamesStmt number sides scopes s s' → TiedStmt T sides s s'
  | _, _, _, hsides, .expression e, _, ⟨_, hb⟩, ⟨_, hb'⟩, h => by
    obtain ⟨e', rfl, he⟩ := h
    exact ⟨e', rfl, RenamesExpr.tied hT hsides e hb hb' he⟩
  | _, _, _, hsides, .print e, _, ⟨_, hb⟩, ⟨_, hb'⟩, h => by
    obtain ⟨e', rfl, he⟩ := h
    exact ⟨e', rfl, RenamesExpr.tied hT hsides e hb hb' he⟩
  | _, _, _, hsides, .var name initializer, _, ⟨_, hb⟩, ⟨_, hb'⟩, h => by
    obtain ⟨name', initializer', rfl, hn, hi⟩ := h
    have hlength := hsides.trans (length_declare _ name.lexeme).symm
    exact ⟨name', initializer', rfl, hn.declares, RenamesExpr?.tied hT hlength hb.2 hb'.2 hi⟩
  | _, _, _, hsides, .block body, _, ⟨_, hb⟩, ⟨_, hb'⟩, h => by
    obtain ⟨side, body', rfl, hbody⟩ := h
    exact ⟨side, body', rfl,
      RenamesStmts.tied hT (congrArg (· + 1) hsides) body hb hb' hbody⟩
  | _, _, _, hsides, .ifElse condition thenBranch none, _, ⟨_, hb⟩, ⟨_, hb'⟩, h => by
    obtain ⟨condition', thenBranch', rfl, hc, ht⟩ := h
    exact ⟨condition', thenBranch', rfl, RenamesExpr.tied hT hsides condition hb.1 hb'.1 hc,
      RenamesStmt.tied hT hsides thenBranch hb.2.1 hb'.2.1 ht⟩
  | _, _, _, hsides, .ifElse condition thenBranch (some elseBranch), _, ⟨_, hb⟩, ⟨_, hb'⟩, h => by
    obtain ⟨condition', thenBranch', elseBranch', rfl, hc, ht, he⟩ := h
    exact ⟨condition', thenBranch', elseBranch', rfl,
      RenamesExpr.tied hT hsides condition hb.1 hb'.1 hc,
      RenamesStmt.tied hT hsides thenBranch hb.2.1.1 hb'.2.1.1 ht,
      RenamesStmt.tied hT hsides elseBranch hb.2.2.1 hb'.2.2.1 he⟩
  | _, _, _, hsides, .while condition body, _, ⟨_, hb⟩, ⟨_, hb'⟩, h => by
    obtain ⟨condition', body', rfl, hc, hbody⟩ := h
    exact ⟨condition', body', rfl, RenamesExpr.tied hT hsides condition hb.1 hb'.1 hc,
      RenamesStmt.tied hT hsides body hb.2.1 hb'.2.1 hbody⟩
  | _, _, _, hsides, .function decl, _, ⟨_, hb⟩, ⟨_, hb'⟩, h => by
    obtain ⟨decl', rfl, hn, hf⟩ := h
    have hlength := hsides.trans (length_add _ decl.name.lexeme).symm
    exact ⟨decl', rfl, hn.2, RenamesFunction.tied hT hlength decl hb.2 hb'.2 hf⟩
  | _, _, _, hsides, .return keyword value, _, ⟨_, hb⟩, ⟨_, hb'⟩, h => by
    obtain ⟨value', rfl, hv⟩ := h
    exact ⟨value', rfl, RenamesExpr?.tied hT hsides hb.2 hb'.2 hv⟩
  | _, sides, scopes, hsides, .class name superclass methods, _, ⟨_, hb⟩, ⟨_, hb'⟩, h => by
    obtain ⟨superclass', methods', rfl, hn, hs, hm⟩ := h
    have hlength := hsides.trans (length_add _ name.lexeme).symm
    have hmethods : (false :: methodSides sides superclass.isSome).length
        = (Walk.classScopes (scopes.add name.lexeme) superclass.isSome).length := by
      unfold methodSides Walk.classScopes
      cases superclass.isSome
      · exact congrArg (· + 1) hlength
      · exact congrArg (· + 2) hlength
    refine ⟨superclass', methods', rfl, hn.2, ?_,
      RenamesMethods.tied hT hmethods methods hb.2.2 hb'.2.2 hm⟩
    cases hs with
    | none => exact .none
    | some ho => exact .some (ho.tied hT hlength (hb.2.1 _ rfl).1 (hb'.2.1 _ rfl).1)
termination_by structural _ _ _ _ s => s

theorem RenamesStmts.tied (hT : T.Numbers number C C') : ∀ {inside : Bool} {sides : List Bool}
    {scopes : Scopes}, sides.length = scopes.length → ∀ (ss : List Stmt) {ss' : List Stmt},
    BoundStmts C inside scopes ss → BoundStmts C' inside scopes ss →
    T.RenamesStmts number sides scopes ss ss' → TiedStmts T sides ss ss'
  | _, _, _, _, [], _, _, _, h => h
  | _, _, _, hsides, s :: rest, _, hb, hb', h => by
    obtain ⟨s', rest', rfl, hs, hr⟩ := h
    exact ⟨s', rest', rfl, RenamesStmt.tied hT hsides s hb.1 hb'.1 hs,
      RenamesStmts.tied hT (hsides.trans (length_after _ s).symm) rest hb.2 hb'.2 hr⟩
termination_by structural _ _ _ _ ss => ss

theorem RenamesFunction.tied (hT : T.Numbers number C C') : ∀ {sides : List Bool} {scopes : Scopes},
    sides.length = scopes.length → ∀ (d : FunctionDecl Stmt) {d' : FunctionDecl Stmt},
    BoundFunction C scopes d → BoundFunction C' scopes d →
    T.RenamesFunction number sides scopes d d' → TiedFunction T sides d d'
  | _, _, hsides, ⟨name, params, body⟩, _, hb, hb', h => by
    obtain ⟨side, params', body', rfl, hparams, hbody⟩ := h
    refine ⟨side, params', body', rfl, hparams.imp fun _ _ ht => ht.declares, ?_⟩
    exact RenamesStmts.tied hT (congrArg (· + 1) hsides) body hb.2.2 hb'.2.2 hbody
termination_by structural _ _ _ d => d

theorem RenamesMethods.tied (hT : T.Numbers number C C') : ∀ {sides : List Bool} {scopes : Scopes},
    sides.length = scopes.length → ∀ (ms : List (FunctionDecl Stmt)) {ms' : List (FunctionDecl Stmt)},
    BoundMethods C scopes ms → BoundMethods C' scopes ms →
    T.RenamesMethods number sides scopes ms ms' → TiedMethods T sides ms ms'
  | _, _, _, [], _, _, _, h => h
  | _, _, hsides, m :: rest, _, hb, hb', h => by
    obtain ⟨m', rest', rfl, hm, hr⟩ := h
    exact ⟨m', rest', rfl, RenamesFunction.tied hT hsides m hb.1 hb'.1 hm,
      RenamesMethods.tied hT hsides rest hb.2 hb'.2 hr⟩
termination_by structural _ _ _ ms => ms

end

end Renaming

end Lox
