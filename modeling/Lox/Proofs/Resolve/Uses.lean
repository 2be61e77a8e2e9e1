/-
  Lox.Proofs.Resolve.Uses
  ───────────────────────
  **WHERE NAMES ARE USED.**

  A use of a name stands in some local scopes: blocks, function bodies with their
  parameters, and the scopes of `super` and `this` in a class.  Each of them
  declares, before the use, the names of the statements in front of it and of the
  declaration that it is part of.  This is said on the tree alone, once as a relation
  (`Stmt.Holds`) and once as a list in the order in which the analysis meets the
  uses (`Stmt.uses`).

  Main results:
    * `Stmt.mem_usesAll`: the list has the uses that the relation finds.
    * `Stmt.mem_occurrencesAll_iff`: they are all the occurrences of a program.
-/
import Lox.Proofs.Resolve.Violations

namespace Lox

open Resolve

/-! ## §1. Uses of names. -/

/-- A use of a name, with its occurrence. -/
inductive Use where
  | variable (o : Occurrence)
  | assign (o : Occurrence)
  | this (o : Occurrence)
  | super (o : Occurrence)
  deriving Repr, DecidableEq

namespace Use

/-- The occurrence of a use. -/
def occurrence : Use → Occurrence
  | .variable o | .assign o | .this o | .super o => o

/-- What is wrong with a use in a class of this role, by the static rules. -/
def fault? (role : ClassRole) : Use → Option ScopeFault
  | .variable _ | .assign _ => none
  | .this o => (Site.receiver o.name role).fault?
  | .super o => (Site.ancestor o.name role).fault?

end Use

mutual

/-- The uses in an expression, in the order in which the analysis meets them. -/
def Expr.uses : Expr → List Use
  | .literal _ => []
  | .grouping inner => inner.uses
  | .unary _ right => right.uses
  | .binary left _ right | .logical left _ right => left.uses ++ right.uses
  | .variable o => [.variable o]
  | .assign target value => value.uses ++ [.assign target]
  | .call callee _ arguments => callee.uses ++ Expr.usesAll arguments
  | .get object _ => object.uses
  | .set object _ value => value.uses ++ object.uses
  | .this o => [.this o]
  | .super o _ => [.super o]

/-- The uses in expressions. -/
def Expr.usesAll : List Expr → List Use
  | [] => []
  | e :: rest => e.uses ++ Expr.usesAll rest

end

/-- The uses in an expression that may be missing. -/
def Expr.uses? : Option Expr → List Use
  | none => []
  | some e => e.uses

/-! ## §2. Where a use stands. -/

namespace Resolve

/-- **What surrounds a place in a program**: the local scopes, the innermost first,
each with the names that it declares before the place, and the nearest class. -/
structure Enclosure where
  scopes : List (List String)
  role : ClassRole
  deriving Repr, DecidableEq

namespace Enclosure

/-- No scope is local at the top level. -/
def topLevel : Enclosure := ⟨[], .none⟩

/-- Behind declarations of these names; at the top level they are global. -/
def declaring (k : Enclosure) (names : List String) : Enclosure :=
  { k with scopes := k.scopes.modifyHead (· ++ names) }

/-- In a new scope, behind declarations of these names in it. -/
def opening (k : Enclosure) (names : List String) : Enclosure :=
  { k with scopes := names :: k.scopes }

/-- In the body of a class: the scope of `this`, and around it the scope of `super` if
there is a superclass. -/
def classBody (k : Enclosure) (derived : Bool) : Enclosure :=
  ⟨["this"] :: if derived then ["super"] :: k.scopes else k.scopes,
    if derived then .derived else .plain⟩

/-- **The nesting distance of a name**: so many scopes lie between a place and the
innermost scope around it that declares the name. -/
structure Reaches (k : Enclosure) (name : String) (d : Nat) : Prop where
  declared : ∃ scope, k.scopes[d]? = some scope ∧ name ∈ scope
  innermost : ∀ i scope, k.scopes[i]? = some scope → name ∈ scope → d ≤ i

end Enclosure

end Resolve

/-- **A use in a statement.**  `s.Holds k k' u`: when the statement is surrounded by
`k`, the use `u` in it is surrounded by `k'`.  A variable is declared in its own
initializer, a function in its own body, a class in its methods and at the name of its
superclass. -/
inductive Stmt.Holds : Enclosure → Stmt → Enclosure → Use → Prop
  | expression {k e u} (h : u ∈ e.uses) : Holds k (.expression e) k u
  | print {k e u} (h : u ∈ e.uses) : Holds k (.print e) k u
  | initializer {k name e u} (h : u ∈ e.uses) :
      Holds k (.var name (some e)) (k.declaring [name.lexeme]) u
  | block {k k' u front s back} (h : Holds (k.opening (front.flatMap Stmt.names)) s k' u) :
      Holds k (.block (front ++ s :: back)) k' u
  | ifCondition {k u condition thenBranch elseBranch} (h : u ∈ condition.uses) :
      Holds k (.ifElse condition thenBranch elseBranch) k u
  | thenBranch {k k' u condition thenBranch elseBranch} (h : Holds k thenBranch k' u) :
      Holds k (.ifElse condition thenBranch elseBranch) k' u
  | elseBranch {k k' u condition thenBranch elseBranch}
      (h : Holds (k.declaring thenBranch.names) elseBranch k' u) :
      Holds k (.ifElse condition thenBranch (some elseBranch)) k' u
  | whileCondition {k u condition body} (h : u ∈ condition.uses) :
      Holds k (.while condition body) k u
  | whileBody {k k' u condition body} (h : Holds k body k' u) :
      Holds k (.while condition body) k' u
  | functionBody {k k' u name params front s back}
      (h : Holds ((k.declaring [name.lexeme]).opening
        (params.map Token.lexeme ++ front.flatMap Stmt.names)) s k' u) :
      Holds k (.function ⟨name, params, front ++ s :: back⟩) k' u
  | value {k keyword e u} (h : u ∈ e.uses) : Holds k (.return keyword (some e)) k u
  | superclass {k name parent methods} :
      Holds k (.class name (some parent) methods) (k.declaring [name.lexeme]) (.variable parent)
  | methodBody {k k' u name superclass methods method params front s back}
      (hm : ⟨method, params, front ++ s :: back⟩ ∈ methods)
      (h : Holds (((k.declaring [name.lexeme]).classBody superclass.isSome).opening
        (params.map Token.lexeme ++ front.flatMap Stmt.names)) s k' u) :
      Holds k (.class name superclass methods) k' u

/-- A use in statements that follow each other: the names of the statements in front
are declared before it. -/
def Stmt.HoldsAll (k : Enclosure) (ss : List Stmt) (k' : Enclosure) (u : Use) : Prop :=
  ∃ front s back, ss = front ++ s :: back
    ∧ s.Holds (k.declaring (front.flatMap Stmt.names)) k' u

/-! ## §3. All uses in order. -/

mutual

/-- The uses in a statement with what surrounds them, in the order in which the analysis
meets them. -/
def Stmt.uses (k : Enclosure) : Stmt → List (Enclosure × Use)
  | .expression e => e.uses.map (k, ·)
  | .print e => e.uses.map (k, ·)
  | .var name initializer => (Expr.uses? initializer).map (k.declaring [name.lexeme], ·)
  | .block body => Stmt.usesAll (k.opening []) body
  | .ifElse condition thenBranch none => condition.uses.map (k, ·) ++ thenBranch.uses k
  | .ifElse condition thenBranch (some elseBranch) =>
      condition.uses.map (k, ·) ++ thenBranch.uses k
        ++ elseBranch.uses (k.declaring thenBranch.names)
  | .while condition body => condition.uses.map (k, ·) ++ body.uses k
  | .function decl => Stmt.usesFunction (k.declaring [decl.name.lexeme]) decl
  | .return _ value => (Expr.uses? value).map (k, ·)
  | .class name superclass methods =>
      superclass.toList.map (fun parent => (k.declaring [name.lexeme], .variable parent))
        ++ Stmt.usesMethods ((k.declaring [name.lexeme]).classBody superclass.isSome) methods

/-- The uses in statements. -/
def Stmt.usesAll (k : Enclosure) : List Stmt → List (Enclosure × Use)
  | [] => []
  | s :: rest => s.uses k ++ Stmt.usesAll (k.declaring s.names) rest

/-- The uses in a function. -/
def Stmt.usesFunction (k : Enclosure) : FunctionDecl Stmt → List (Enclosure × Use)
  | ⟨_, params, body⟩ => Stmt.usesAll (k.opening (params.map Token.lexeme)) body

/-- The uses in the methods of a class. -/
def Stmt.usesMethods (k : Enclosure) : List (FunctionDecl Stmt) → List (Enclosure × Use)
  | [] => []
  | m :: rest => Stmt.usesFunction k m ++ Stmt.usesMethods k rest

end

namespace Resolve.Enclosure

theorem declaring_nil (k : Enclosure) : k.declaring [] = k := by
  obtain ⟨scopes, role⟩ := k
  cases scopes with
  | nil => rfl
  | cons scope rest =>
    unfold declaring
    rw [List.modifyHead_cons, List.append_nil]

theorem declaring_append (k : Enclosure) (names names' : List String) :
    k.declaring (names ++ names') = (k.declaring names).declaring names' := by
  obtain ⟨scopes, role⟩ := k
  cases scopes with
  | nil => rfl
  | cons scope rest =>
    unfold declaring
    dsimp only
    rw [List.modifyHead_cons, List.modifyHead_cons, List.modifyHead_cons, List.append_assoc]

/-- The innermost scope that has a name. -/
theorem findIdx?_iff (k : Enclosure) (name : String) (d : Nat) :
    k.scopes.findIdx? (name ∈ ·) = some d ↔ k.Reaches name d := by
  rw [List.findIdx?_eq_some_iff_getElem]
  constructor
  · rintro ⟨hd, hmem, hinner⟩
    refine ⟨⟨_, List.getElem?_eq_getElem hd, of_decide_eq_true hmem⟩, ?_⟩
    intro i scope hscope hmem'
    obtain ⟨hi, rfl⟩ := List.getElem?_eq_some_iff.mp hscope
    exact Nat.le_of_not_lt fun hlt => hinner i hlt (decide_eq_true hmem')
  · rintro ⟨⟨scope, hscope, hmem⟩, hinner⟩
    obtain ⟨hd, rfl⟩ := List.getElem?_eq_some_iff.mp hscope
    refine ⟨hd, decide_eq_true hmem, ?_⟩
    intro i hi hmem'
    have hle := hinner i _ (List.getElem?_eq_getElem (Nat.lt_trans hi hd))
      (of_decide_eq_true hmem')
    exact absurd hi (Nat.not_lt_of_le hle)

end Resolve.Enclosure

theorem Stmt.holdsAll_nil {k k' : Enclosure} {u : Use} : ¬ HoldsAll k [] k' u := by
  rintro ⟨front, s, back, hss, -⟩
  exact List.append_ne_nil_of_right_ne_nil front (List.cons_ne_nil s back) hss.symm

theorem Stmt.holdsAll_cons {k k' : Enclosure} {u : Use} {s : Stmt} {rest : List Stmt} :
    HoldsAll k (s :: rest) k' u ↔ s.Holds k k' u ∨ HoldsAll (k.declaring s.names) rest k' u := by
  constructor
  · rintro ⟨front, s', back, hss, h⟩
    cases front with
    | nil =>
      cases hss
      rw [List.flatMap_nil, Enclosure.declaring_nil] at h
      exact .inl h
    | cons first front =>
      cases hss
      rw [List.flatMap_cons, Enclosure.declaring_append] at h
      exact .inr ⟨front, s', back, rfl, h⟩
  · rintro (h | ⟨front, s', back, rfl, h⟩)
    · refine ⟨[], s, rest, rfl, ?_⟩
      rw [List.flatMap_nil, Enclosure.declaring_nil]
      exact h
    · refine ⟨s :: front, s', back, rfl, ?_⟩
      rw [List.flatMap_cons, Enclosure.declaring_append]
      exact h

theorem Stmt.mem_map_pair {k k' : Enclosure} {u : Use} {us : List Use} :
    (k', u) ∈ us.map (k, ·) ↔ k' = k ∧ u ∈ us := by
  rw [List.mem_map]
  constructor
  · rintro ⟨u', hu', heq⟩
    cases heq
    exact ⟨rfl, hu'⟩
  · rintro ⟨rfl, hu⟩
    exact ⟨u, hu, rfl⟩

mutual

/-- **The listed uses are those that a statement holds.** -/
theorem Stmt.mem_uses {k' : Enclosure} {u : Use} :
    ∀ (k : Enclosure) (s : Stmt), (k', u) ∈ s.uses k ↔ s.Holds k k' u
  | k, .expression e => by
    rw [uses, mem_map_pair]
    constructor
    · rintro ⟨rfl, h⟩
      exact .expression h
    · rintro ⟨⟩
      exact ⟨rfl, ‹_›⟩
  | k, .print e => by
    rw [uses, mem_map_pair]
    constructor
    · rintro ⟨rfl, h⟩
      exact .print h
    · rintro ⟨⟩
      exact ⟨rfl, ‹_›⟩
  | k, .var name none => by
    rw [uses]
    exact iff_of_false List.not_mem_nil nofun
  | k, .var name (some e) => by
    rw [uses, mem_map_pair]
    constructor
    · rintro ⟨rfl, h⟩
      exact .initializer h
    · rintro ⟨⟩
      exact ⟨rfl, ‹_›⟩
  | k, .block body => by
    rw [uses, mem_usesAll (k.opening []) body]
    constructor
    · rintro ⟨front, s, back, rfl, h⟩
      exact .block h
    · rintro ⟨⟩
      exact ⟨_, _, _, rfl, ‹_›⟩
  | k, .ifElse condition th none => by
    rw [uses, List.mem_append, mem_map_pair, mem_uses k th]
    constructor
    · rintro (⟨rfl, h⟩ | h)
      · exact .ifCondition h
      · exact .thenBranch h
    · intro h
      cases h with
      | ifCondition h => exact .inl ⟨rfl, h⟩
      | thenBranch h => exact .inr h
  | k, .ifElse condition th (some el) => by
    rw [uses, List.mem_append, List.mem_append, mem_map_pair, mem_uses k th,
      mem_uses (k.declaring th.names) el]
    constructor
    · rintro ((⟨rfl, h⟩ | h) | h)
      · exact .ifCondition h
      · exact .thenBranch h
      · exact .elseBranch h
    · intro h
      cases h with
      | ifCondition h => exact .inl (.inl ⟨rfl, h⟩)
      | thenBranch h => exact .inl (.inr h)
      | elseBranch h => exact .inr h
  | k, .while condition body => by
    rw [uses, List.mem_append, mem_map_pair, mem_uses k body]
    constructor
    · rintro (⟨rfl, h⟩ | h)
      · exact .whileCondition h
      · exact .whileBody h
    · intro h
      cases h with
      | whileCondition h => exact .inl ⟨rfl, h⟩
      | whileBody h => exact .inr h
  | k, .function ⟨name, params, body⟩ => by
    rw [uses, mem_usesFunction _ ⟨name, params, body⟩]
    constructor
    · rintro ⟨front, s, back, hbody, h⟩
      cases hbody
      exact .functionBody h
    · rintro ⟨⟩
      exact ⟨_, _, _, rfl, ‹_›⟩
  | k, .return keyword none => by
    rw [uses]
    exact iff_of_false List.not_mem_nil nofun
  | k, .return keyword (some e) => by
    rw [uses, mem_map_pair]
    constructor
    · rintro ⟨rfl, h⟩
      exact .value h
    · rintro ⟨⟩
      exact ⟨rfl, ‹_›⟩
  | k, .class name superclass ms => by
    rw [uses, List.mem_append, mem_usesMethods _ ms]
    constructor
    · rintro (h | ⟨⟨method, params, body⟩, hm, front, s, back, hbody, h⟩)
      · obtain ⟨parent, hparent, heq⟩ := List.mem_map.mp h
        cases heq
        rw [Option.mem_toList.mp hparent]
        exact .superclass
      · cases hbody
        exact .methodBody hm h
    · intro h
      cases h with
      | superclass => exact .inl List.mem_cons_self
      | methodBody hm h => exact .inr ⟨_, hm, _, _, _, rfl, h⟩

theorem Stmt.mem_usesAll {k' : Enclosure} {u : Use} :
    ∀ (k : Enclosure) (ss : List Stmt), (k', u) ∈ usesAll k ss ↔ HoldsAll k ss k' u
  | k, [] => by
    rw [usesAll]
    exact iff_of_false List.not_mem_nil holdsAll_nil
  | k, s :: rest => by
    rw [usesAll, List.mem_append, mem_uses k s, mem_usesAll (k.declaring s.names) rest,
      holdsAll_cons]

theorem Stmt.mem_usesFunction {k' : Enclosure} {u : Use} :
    ∀ (k : Enclosure) (decl : FunctionDecl Stmt), (k', u) ∈ usesFunction k decl ↔
      HoldsAll (k.opening (decl.params.map Token.lexeme)) decl.body k' u
  | k, ⟨_, params, body⟩ => by
    rw [usesFunction, mem_usesAll (k.opening (params.map Token.lexeme)) body]

theorem Stmt.mem_usesMethods {k' : Enclosure} {u : Use} :
    ∀ (k : Enclosure) (ms : List (FunctionDecl Stmt)), (k', u) ∈ usesMethods k ms ↔
      ∃ m ∈ ms, HoldsAll (k.opening (m.params.map Token.lexeme)) m.body k' u
  | k, [] => by
    rw [usesMethods]
    exact iff_of_false List.not_mem_nil nofun
  | k, m :: rest => by
    rw [usesMethods, List.mem_append, mem_usesFunction k m, mem_usesMethods k rest]
    simp only [List.mem_cons, exists_eq_or_imp]

end

/-! ## §4. Every occurrence is a use. -/

mutual

theorem Expr.map_uses : ∀ e : Expr, e.uses.map Use.occurrence = e.occurrences
  | .literal _ => rfl
  | .grouping inner => by rw [uses, occurrences, map_uses inner]
  | .unary _ right => by rw [uses, occurrences, map_uses right]
  | .binary left _ right => by
    rw [uses, occurrences, List.map_append, map_uses left, map_uses right]
  | .logical left _ right => by
    rw [uses, occurrences, List.map_append, map_uses left, map_uses right]
  | .variable _ => rfl
  | .assign _ value => by
    rw [uses, occurrences, List.map_append, map_uses value]
    rfl
  | .call callee _ arguments => by
    rw [uses, occurrences, List.map_append, map_uses callee, map_usesAll arguments]
  | .get object _ => by rw [uses, occurrences, map_uses object]
  | .set object _ value => by
    rw [uses, occurrences, List.map_append, map_uses value, map_uses object]
  | .this _ => rfl
  | .super _ _ => rfl

theorem Expr.map_usesAll : ∀ es : List Expr, (usesAll es).map Use.occurrence = occurrencesAll es
  | [] => rfl
  | e :: rest => by
    rw [usesAll, occurrencesAll, List.map_append, map_uses e, map_usesAll rest]

end

theorem Expr.map_uses? (e : Option Expr) : (uses? e).map Use.occurrence = occurrences? e := by
  cases e with
  | none => rfl
  | some e => exact map_uses e

/-- The occurrences of uses at some places. -/
def Use.occurrences (found : List (Enclosure × Use)) : List Occurrence :=
  found.map fun use => use.2.occurrence

theorem Use.occurrences_append (found found' : List (Enclosure × Use)) :
    occurrences (found ++ found') = occurrences found ++ occurrences found' :=
  List.map_append

theorem Use.occurrences_map (k : Enclosure) (us : List Use) :
    occurrences (us.map (k, ·)) = us.map Use.occurrence :=
  List.map_map

open Use in
mutual

/-- **The uses in a statement are its occurrences.** -/
theorem Stmt.occurrences_uses : ∀ (k : Enclosure) (s : Stmt),
    Use.occurrences (s.uses k) = s.occurrences
  | k, .expression e => by rw [uses, occurrences, occurrences_map, e.map_uses]
  | k, .print e => by rw [uses, occurrences, occurrences_map, e.map_uses]
  | k, .var _ initializer => by
    rw [uses, occurrences, occurrences_map, Expr.map_uses? initializer]
  | k, .block body => by rw [uses, occurrences, occurrences_usesAll _ body]
  | k, .ifElse condition th none => by
    rw [uses, occurrences, occurrences_append, occurrences_map, condition.map_uses,
      occurrences_uses k th]
  | k, .ifElse condition th (some el) => by
    rw [uses, occurrences, occurrences_append, occurrences_append, occurrences_map,
      condition.map_uses, occurrences_uses k th, occurrences_uses _ el, List.append_assoc]
  | k, .while condition body => by
    rw [uses, occurrences, occurrences_append, occurrences_map, condition.map_uses,
      occurrences_uses k body]
  | k, .function decl => by rw [uses, occurrences, occurrences_usesFunction _ decl]
  | k, .return _ value => by rw [uses, occurrences, occurrences_map, Expr.map_uses? value]
  | k, .class name superclass ms => by
    rw [uses, occurrences, occurrences_append, occurrences_usesMethods _ ms]
    cases superclass <;> rfl

theorem Stmt.occurrences_usesAll : ∀ (k : Enclosure) (ss : List Stmt),
    Use.occurrences (usesAll k ss) = occurrencesAll ss
  | k, [] => rfl
  | k, s :: rest => by
    rw [usesAll, occurrencesAll, occurrences_append, occurrences_uses k s,
      occurrences_usesAll _ rest]

theorem Stmt.occurrences_usesFunction : ∀ (k : Enclosure) (decl : FunctionDecl Stmt),
    Use.occurrences (usesFunction k decl) = occurrencesFunction decl
  | k, ⟨_, params, body⟩ => by
    rw [usesFunction, occurrencesFunction, occurrences_usesAll _ body]

theorem Stmt.occurrences_usesMethods : ∀ (k : Enclosure) (ms : List (FunctionDecl Stmt)),
    Use.occurrences (usesMethods k ms) = occurrencesMethods ms
  | k, [] => rfl
  | k, m :: rest => by
    rw [usesMethods, occurrencesMethods, occurrences_append, occurrences_usesFunction k m,
      occurrences_usesMethods k rest]

end

theorem Stmt.mem_occurrencesAll_iff (k : Enclosure) (ss : List Stmt) (o : Occurrence) :
    o ∈ occurrencesAll ss ↔ ∃ k' u, HoldsAll k ss k' u ∧ u.occurrence = o := by
  rw [← occurrences_usesAll k ss, Use.occurrences, List.mem_map]
  constructor
  · rintro ⟨⟨k', u⟩, hmem, rfl⟩
    exact ⟨k', u, (mem_usesAll k ss).mp hmem, rfl⟩
  · rintro ⟨k', u, h, rfl⟩
    exact ⟨(k', u), (mem_usesAll k ss).mpr h, rfl⟩

end Lox
