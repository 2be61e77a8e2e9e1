/-
  Lox.Proofs.Resolve.Renamed
  ──────────────────────────
  **RENAMING LOCAL VARIABLES.**

  A program can be renamed scope by scope.  Each scope is on a side: on one,
  its names stay as they are; on the other, they are respelled.  An occurrence
  is spelled as the scope wants that declares its name, so a renamed program
  is the program with some declarations renamed, and with them the occurrences
  that are bound to them and no others.  Names of functions and classes are
  printed; they have to stay.

  The walk over a renamed program goes beside the walk over the program: it
  meets the same scopes, notes the same distances, and reports something where
  the other does (`Resolve.program_renamed`).
-/
import Lox.Proofs.Resolve.Bound
import Lox.Proofs.Syntax.Relabel
import Mathlib.Data.List.Forall2

namespace Lox

open Resolve (Scopes Walk)

/-! ## §1. Spelling. -/

/-- A way to spell the names of a program in another one. -/
structure Spelling where
  /-- How a name of a respelled scope is written in the second program. -/
  respell : String → String
  /-- The names that the first program may use. -/
  known : String → Prop
  /-- Which occurrences of both programs stand at the same place. -/
  pairs : Occurrence → Occurrence → Prop

namespace Spelling

variable (S : Spelling)

/-- Respelling makes no two names equal, and leaves `this` and `super` alone. -/
structure Lawful : Prop where
  injective : ∀ name other, S.respell name = S.respell other → name = other
  /-- No name in use becomes another name in use. -/
  apart : ∀ name other, S.known name → S.known other → S.respell name = other → name = other
  special : ∀ name, ¬ Ordinary name → S.known name ∧ S.respell name = name

/-- All names stay as they are. -/
def same : Spelling :=
  ⟨fun name => name, fun _ => True, fun o o' => o'.name = o.name⟩

theorem lawful_same : same.Lawful :=
  ⟨fun _ _ h => h, fun _ _ _ _ h => h, fun _ _ => ⟨trivial, rfl⟩⟩

/-- One name becomes another one, which is not in use (and the other way
round, so that no two names become equal). -/
def rename (old new : String) (pairs : Occurrence → Occurrence → Prop) : Spelling where
  respell name := if name = old then new else if name = new then old else name
  known name := name ≠ new
  pairs := pairs

theorem rename_respell_old (old new : String) (pairs : Occurrence → Occurrence → Prop) :
    (rename old new pairs).respell old = new :=
  if_pos rfl

theorem lawful_rename {old new : String} (ho : Ordinary old) (hn : Ordinary new)
    (pairs : Occurrence → Occurrence → Prop) : (rename old new pairs).Lawful := by
  refine ⟨?_, ?_, ?_⟩
  · intro name other h
    unfold rename at h
    grind
  · intro name other hname hother h
    unfold rename at h hname hother
    grind
  · intro name hname
    have hold : name ≠ old := fun heq => hname (heq ▸ ho)
    have hnew : name ≠ new := fun heq => hname (heq ▸ hn)
    exact ⟨hnew, (if_neg hold).trans (if_neg hnew)⟩

/-- A name of the first program in the second one. -/
def spell (side : Bool) (name : String) : String :=
  if side then S.respell name else name

/-- A name is the same on a side. -/
def Fixes (side : Bool) (name : String) : Prop :=
  S.spell side name = name

@[simp]
theorem same_spell (side : Bool) (name : String) : same.spell side name = name := by
  cases side <;> rfl

variable {S}

theorem Lawful.spell_injective (hS : S.Lawful) {side : Bool} {name other : String}
    (h : S.spell side name = S.spell side other) : name = other := by
  cases side with
  | false => exact h
  | true => exact hS.injective name other h

/-- Different names in use are spelled differently, whatever the sides. -/
theorem Lawful.spell_apart (hS : S.Lawful) {side side' : Bool} {name other : String}
    (hname : S.known name) (hother : S.known other)
    (h : S.spell side name = S.spell side' other) : name = other := by
  cases side with
  | false =>
    cases side' with
    | false => exact h
    | true => exact (hS.apart other name hother hname h.symm).symm
  | true =>
    cases side' with
    | false => exact hS.apart name other hname hother h
    | true => exact hS.injective name other h

theorem Lawful.fixes_special (hS : S.Lawful) {name : String} (h : ¬ Ordinary name) (side : Bool) :
    S.Fixes side name := by
  cases side with
  | false => rfl
  | true => exact (hS.special name h).2

end Spelling

/-! ## §2. Renamed trees. -/

/-- The side of the scope that declares a name. -/
def sideOf (sides : List Bool) (scopes : Scopes) (name : String) : Bool :=
  ((scopes.distance? name).bind fun d => sides[d]?).getD false

/-- The sides around the methods of a class: the scope of `super` is one of
them. -/
def methodSides (sides : List Bool) (derived : Bool) : List Bool :=
  if derived then false :: sides else sides

namespace Spelling

variable (S : Spelling) (number : Nat → Nat)

/-- A name that is in use, and its token on a side. -/
def Respells (side : Bool) (t t' : Token) : Prop :=
  S.known t.lexeme ∧ t' = { t with lexeme := S.spell side t.lexeme }

/-- A name that is in use and has to stay. -/
def Keeps (side : Bool) (t : Token) : Prop :=
  S.known t.lexeme ∧ S.Fixes side t.lexeme

/-- An occurrence with its new number, spelled as where its name is declared. -/
def RenamesOccurrence (sides : List Bool) (scopes : Scopes) (o o' : Occurrence) : Prop :=
  o'.id = number o.id ∧ S.pairs o o'
    ∧ S.Respells (sideOf sides scopes o.name.lexeme) o.name o'.name

mutual

/-- A renamed expression, in scopes on these sides. -/
def RenamesExpr (sides : List Bool) (scopes : Scopes) : Expr → Expr → Prop
  | .literal v, e' => e' = .literal v
  | .unary operator right, e' =>
      ∃ right', e' = .unary operator right' ∧ RenamesExpr sides scopes right right'
  | .binary left operator right, e' => ∃ left' right', e' = .binary left' operator right'
      ∧ RenamesExpr sides scopes left left' ∧ RenamesExpr sides scopes right right'
  | .logical left operator right, e' => ∃ left' right', e' = .logical left' operator right'
      ∧ RenamesExpr sides scopes left left' ∧ RenamesExpr sides scopes right right'
  | .grouping inner, e' =>
      ∃ inner', e' = .grouping inner' ∧ RenamesExpr sides scopes inner inner'
  | .variable o, e' =>
      ∃ o', e' = .variable o' ∧ S.RenamesOccurrence number sides scopes o o'
  | .assign o value, e' => ∃ o' value', e' = .assign o' value'
      ∧ S.RenamesOccurrence number sides scopes o o' ∧ RenamesExpr sides scopes value value'
  | .call callee paren arguments, e' => ∃ callee' arguments', e' = .call callee' paren arguments'
      ∧ RenamesExpr sides scopes callee callee' ∧ RenamesExprs sides scopes arguments arguments'
  | .get object name, e' =>
      ∃ object', e' = .get object' name ∧ RenamesExpr sides scopes object object'
  | .set object name value, e' => ∃ object' value', e' = .set object' name value'
      ∧ RenamesExpr sides scopes object object' ∧ RenamesExpr sides scopes value value'
  | .super o method, e' =>
      e' = .super ⟨number o.id, o.name⟩ method ∧ S.pairs o ⟨number o.id, o.name⟩
  | .this o, e' => e' = .this ⟨number o.id, o.name⟩ ∧ S.pairs o ⟨number o.id, o.name⟩

/-- Expressions that are renamed one by one. -/
def RenamesExprs (sides : List Bool) (scopes : Scopes) : List Expr → List Expr → Prop
  | [], es' => es' = []
  | e :: rest, es' => ∃ e' rest', es' = e' :: rest' ∧ RenamesExpr sides scopes e e'
      ∧ RenamesExprs sides scopes rest rest'

end

/-- An expression that is renamed, or missing. -/
def RenamesExpr? (sides : List Bool) (scopes : Scopes) (e e' : Option Expr) : Prop :=
  Option.Rel (S.RenamesExpr number sides scopes) e e'

mutual

/-- **A renamed statement**, in scopes on these sides.  Each scope that it
opens is on a side of its own. -/
def RenamesStmt (sides : List Bool) (scopes : Scopes) : Stmt → Stmt → Prop
  | .expression e, s' => ∃ e', s' = .expression e' ∧ S.RenamesExpr number sides scopes e e'
  | .print e, s' => ∃ e', s' = .print e' ∧ S.RenamesExpr number sides scopes e e'
  | .var name initializer, s' => ∃ name' initializer', s' = .var name' initializer'
      ∧ S.Respells (sides.headD false) name name'
      ∧ S.RenamesExpr? number sides (scopes.declare name.lexeme) initializer initializer'
  | .block body, s' =>
      ∃ side body', s' = .block body' ∧ RenamesStmts (side :: sides) ([] :: scopes) body body'
  | .ifElse condition thenBranch none, s' => ∃ condition' thenBranch',
      s' = .ifElse condition' thenBranch' none
      ∧ S.RenamesExpr number sides scopes condition condition'
      ∧ RenamesStmt sides scopes thenBranch thenBranch'
  | .ifElse condition thenBranch (some elseBranch), s' => ∃ condition' thenBranch' elseBranch',
      s' = .ifElse condition' thenBranch' (some elseBranch')
      ∧ S.RenamesExpr number sides scopes condition condition'
      ∧ RenamesStmt sides scopes thenBranch thenBranch'
      ∧ RenamesStmt sides scopes elseBranch elseBranch'
  | .while condition body, s' => ∃ condition' body', s' = .while condition' body'
      ∧ S.RenamesExpr number sides scopes condition condition'
      ∧ RenamesStmt sides scopes body body'
  | .function decl, s' => ∃ decl', s' = .function decl'
      ∧ S.Keeps (sides.headD false) decl.name
      ∧ RenamesFunction sides (scopes.add decl.name.lexeme) decl decl'
  | .return keyword value, s' =>
      ∃ value', s' = .return keyword value' ∧ S.RenamesExpr? number sides scopes value value'
  | .class name superclass methods, s' => ∃ superclass' methods',
      s' = .class name superclass' methods'
      ∧ S.Keeps (sides.headD false) name
      ∧ Option.Rel (S.RenamesOccurrence number sides (scopes.add name.lexeme)) superclass superclass'
      ∧ RenamesMethods (false :: methodSides sides superclass.isSome)
        (Walk.classScopes (scopes.add name.lexeme) superclass.isSome) methods methods'
termination_by structural s => s

/-- Statements that are renamed one after another. -/
def RenamesStmts (sides : List Bool) (scopes : Scopes) : List Stmt → List Stmt → Prop
  | [], ss' => ss' = []
  | s :: rest, ss' => ∃ s' rest', ss' = s' :: rest' ∧ RenamesStmt sides scopes s s'
      ∧ RenamesStmts sides (scopes.after s) rest rest'

/-- A function whose parameters and body are renamed. -/
def RenamesFunction (sides : List Bool) (scopes : Scopes) :
    FunctionDecl Stmt → FunctionDecl Stmt → Prop
  | ⟨name, params, body⟩, d' => ∃ side params' body', d' = ⟨name, params', body'⟩
      ∧ List.Forall₂ (S.Respells side) params params'
      ∧ RenamesStmts (side :: sides) (Walk.parameterScope params :: scopes) body body'

/-- Methods that are renamed one by one. -/
def RenamesMethods (sides : List Bool) (scopes : Scopes) :
    List (FunctionDecl Stmt) → List (FunctionDecl Stmt) → Prop
  | [], ms' => ms' = []
  | m :: rest, ms' => ∃ m' rest', ms' = m' :: rest' ∧ RenamesFunction sides scopes m m'
      ∧ RenamesMethods sides scopes rest rest'

end

end Spelling

/-! ## §3. Renamed scopes. -/

namespace Resolve

/-- A static scope on a side, and its counterpart in the same order. -/
def RenamesScope (S : Spelling) (side : Bool) (b b' : Bindings Bool) : Prop :=
  List.Forall₂ (fun p p' => S.known p.1 ∧ p' = (S.spell side p.1, p.2)) b b'

variable {S : Spelling} {number : Nat → Nat}

theorem renamesScope_names (hS : S.Lawful) {names : List String} (h : ∀ n ∈ names, ¬ Ordinary n)
    (side : Bool) : RenamesScope S side (names.map (·, true)) (names.map (·, true)) := by
  induction names with
  | nil => exact .nil
  | cons name names ih =>
    have hname := h name List.mem_cons_self
    refine .cons ⟨(hS.special name hname).1, ?_⟩ (ih fun n hn => h n (List.mem_cons_of_mem _ hn))
    exact congrArg (·, true) (hS.fixes_special hname side).symm

section Scope

variable {side : Bool} {b b' : Bindings Bool}

theorem RenamesScope.get? (hS : S.Lawful) (h : RenamesScope S side b b') (name : String) :
    b'.get? (S.spell side name) = b.get? name := by
  induction h with
  | nil => rfl
  | @cons p p' _ _ hp _ ih =>
    obtain ⟨key, defined⟩ := p
    obtain ⟨-, rfl⟩ := hp
    rw [Bindings.get?, Bindings.get?]
    by_cases hkey : key = name
    · rw [if_pos hkey, if_pos (congrArg (S.spell side) hkey)]
    · rw [if_neg hkey, if_neg (mt hS.spell_injective hkey)]
      exact ih

/-- A name that a scope does not declare is not declared in its counterpart,
however the name is spelled. -/
theorem RenamesScope.get?_none (hS : S.Lawful) (h : RenamesScope S side b b') {name : String}
    (hname : S.known name) (hnone : b.get? name = none) (side' : Bool) :
    b'.get? (S.spell side' name) = none := by
  induction h with
  | nil => rfl
  | @cons p p' _ _ hp _ ih =>
    obtain ⟨key, defined⟩ := p
    obtain ⟨hknown, rfl⟩ := hp
    rw [Bindings.get?] at hnone ⊢
    by_cases hkey : key = name
    · rw [if_pos hkey] at hnone
      cases hnone
    · rw [if_neg hkey] at hnone
      rw [if_neg fun heq => hkey (hS.spell_apart hknown hname heq)]
      exact ih hnone

theorem RenamesScope.insert (hS : S.Lawful) (h : RenamesScope S side b b') {name : String}
    (hname : S.known name) (defined : Bool) :
    RenamesScope S side (b.insert name defined) (b'.insert (S.spell side name) defined) := by
  induction h with
  | nil => exact .cons ⟨hname, rfl⟩ .nil
  | @cons p p' _ _ hp hrest ih =>
    obtain ⟨key, old⟩ := p
    obtain ⟨hknown, rfl⟩ := hp
    rw [Bindings.insert, Bindings.insert]
    by_cases hkey : key = name
    · rw [if_pos hkey, if_pos (congrArg (S.spell side) hkey)]
      exact .cons ⟨hknown, rfl⟩ hrest
    · rw [if_neg hkey, if_neg (mt hS.spell_injective hkey)]
      exact .cons ⟨hknown, rfl⟩ ih

end Scope

/-- Static scopes on their sides, and their counterparts. -/
inductive RenamesScopes (S : Spelling) : List Bool → Scopes → Scopes → Prop
  | nil : RenamesScopes S [] [] []
  | cons {side : Bool} {sides : List Bool} {b b' : Bindings Bool} {scopes scopes' : Scopes}
      (h : RenamesScope S side b b') (hrest : RenamesScopes S sides scopes scopes') :
      RenamesScopes S (side :: sides) (b :: scopes) (b' :: scopes')

section Lookup

variable {sides : List Bool} {scopes scopes' : Scopes}

theorem sideOf_cons_of_get? {side : Bool} {b : Bindings Bool} {name : String} {defined : Bool}
    (h : b.get? name = some defined) : sideOf (side :: sides) (b :: scopes) name = side := by
  unfold sideOf Scopes.distance? Bindings.binds
  rw [h]
  rfl

theorem sideOf_cons_of_none {side : Bool} {b : Bindings Bool} {name : String}
    (h : b.get? name = none) :
    sideOf (side :: sides) (b :: scopes) name = sideOf sides scopes name := by
  unfold sideOf
  rw [Scopes.distance?, Bindings.binds, h, Option.isSome_none, if_neg Bool.false_ne_true]
  cases scopes.distance? name <;> rfl

/-- **A name is found at the same distance**, if it is spelled as where it is
declared. -/
theorem RenamesScopes.distance? (hS : S.Lawful) (h : RenamesScopes S sides scopes scopes')
    {name : String} (hname : S.known name) :
    scopes'.distance? (S.spell (sideOf sides scopes name) name) = scopes.distance? name := by
  induction h with
  | nil => rfl
  | @cons side sides b b' scopes scopes' hb _ ih =>
    cases hget : b.get? name with
    | some defined =>
      have hget' : b'.get? (S.spell side name) = some defined :=
        (hb.get? hS name).trans hget
      rw [sideOf_cons_of_get? hget, Scopes.distance?, Scopes.distance?, Bindings.binds,
        Bindings.binds, hget, hget']
      rfl
    | none =>
      have hget' := hb.get?_none hS hname hget (sideOf sides scopes name)
      rw [sideOf_cons_of_none hget, Scopes.distance?, Scopes.distance?, Bindings.binds,
        Bindings.binds, hget, hget', ih]

/-- What the innermost scope knows of a name. -/
theorem RenamesScopes.get?_head {side : Bool} {b b' : Bindings Bool} (hS : S.Lawful)
    (h : RenamesScope S side b b') {name : String} (hname : S.known name) :
    b'.get? (S.spell (sideOf (side :: sides) (b :: scopes) name) name) = b.get? name := by
  cases hget : b.get? name with
  | some defined =>
    rw [sideOf_cons_of_get? hget]
    exact (h.get? hS name).trans hget
  | none => exact h.get?_none hS hname hget _

/-- A name that was just added is declared in the innermost scope. -/
theorem RenamesScopes.sideOf_add (h : RenamesScopes S sides scopes scopes') (name : String) :
    sideOf sides (scopes.add name) name = sides.headD false := by
  cases h with
  | nil => rfl
  | cons => exact sideOf_cons_of_get? ((Bindings.get?_insert ..).trans (if_pos rfl))

end Lookup

/-! ## §4. Two walks. -/

/-- A walk over a renamed program, beside the walk over the program. -/
structure Beside (S : Spelling) (number : Nat → Nat) (sides : List Bool) (w w' : Walk) : Prop where
  scopes : RenamesScopes S sides w.scopes w'.scopes
  globals : w'.globals = w.globals
  distances : w'.distances = w.distances.map fun p => (number p.1, p.2)
  clean : w'.Clean ↔ w.Clean

namespace Beside

variable {sides : List Bool} {scopes : Scopes} {w w' : Walk}

theorem report (h : Beside S number sides w w') (t t' : Token) (fault : ScopeFault) :
    Beside S number sides (w.report t fault) (w'.report t' fault) :=
  ⟨h.scopes, h.globals, h.distances,
    iff_of_false (Walk.not_clean_report w' t' fault) (Walk.not_clean_report w t fault)⟩

theorem reportIf (h : Beside S number sides w w') (b : Bool) (t t' : Token) (fault : ScopeFault) :
    Beside S number sides (w.reportIf b t fault) (w'.reportIf b t' fault) := by
  cases b with
  | false => exact h
  | true => exact h.report t t' fault

theorem enter (hS : S.Lawful) (h : Beside S number sides w w') {names : List String}
    (hnames : ∀ n ∈ names, ¬ Ordinary n) (side : Bool) :
    Beside S number (side :: sides) (w.enter names) (w'.enter names) :=
  ⟨.cons (renamesScope_names hS hnames side) h.scopes, h.globals, h.distances, h.clean⟩

theorem leave {side : Bool} (h : Beside S number (side :: sides) w w') :
    Beside S number sides w.leave w'.leave := by
  refine ⟨?_, h.globals, h.distances, h.clean⟩
  have hscopes := h.scopes
  show RenamesScopes S sides w.scopes.tail w'.scopes.tail
  generalize w.scopes = scopes at hscopes
  generalize w'.scopes = scopes' at hscopes
  cases hscopes with
  | cons _ hrest => exact hrest

/-- A name is new to both walks, or to none. -/
theorem declare (hS : S.Lawful) (h : Beside S number sides w w') {t t' : Token}
    (ht : S.Respells (sides.headD false) t t') :
    Beside S number sides (w.declare t) (w'.declare t') := by
  obtain ⟨hknown, rfl⟩ := ht
  obtain ⟨scopes, globals, distances, failures⟩ := w
  obtain ⟨scopes', globals', distances', failures'⟩ := w'
  obtain ⟨hscopes, rfl, hdistances, hclean⟩ := h
  dsimp only at hscopes hdistances
  cases hscopes with
  | nil =>
    by_cases hbinds : globals'.binds t.lexeme
    · simp only [Walk.declare, List.headD, Spelling.spell, Bool.false_eq_true, if_false,
        if_pos hbinds]
      exact ⟨.nil, rfl, hdistances, hclean⟩
    · simp only [Walk.declare, List.headD, Spelling.spell, Bool.false_eq_true, if_false,
        if_neg hbinds]
      exact ⟨.nil, rfl, hdistances, hclean⟩
  | @cons side sides b b' _ _ hb hrest =>
    have hbinds : b'.binds (S.spell side t.lexeme) = b.binds t.lexeme := by
      unfold Bindings.binds
      rw [hb.get? hS]
    by_cases hnew : b.binds t.lexeme
    · have hbeside : Beside S number (side :: sides) ⟨_, globals', distances, failures⟩
          ⟨_, globals', distances', failures'⟩ := ⟨.cons hb hrest, rfl, hdistances, hclean⟩
      simp only [Walk.declare, List.headD, hbinds, if_pos hnew]
      exact hbeside.report t _ .alreadyDeclared
    · simp only [Walk.declare, List.headD, hbinds, if_neg hnew]
      exact ⟨.cons (hb.insert hS hknown false) hrest, rfl, hdistances, hclean⟩

theorem define (hS : S.Lawful) (h : Beside S number sides w w') {t t' : Token}
    (ht : S.Respells (sides.headD false) t t') :
    Beside S number sides (w.define t) (w'.define t') := by
  obtain ⟨hknown, rfl⟩ := ht
  obtain ⟨scopes, globals, distances, failures⟩ := w
  obtain ⟨scopes', globals', distances', failures'⟩ := w'
  obtain ⟨hscopes, rfl, hdistances, hclean⟩ := h
  dsimp only at hscopes hdistances
  cases hscopes with
  | nil => exact ⟨.nil, rfl, hdistances, hclean⟩
  | cons hb hrest => exact ⟨.cons (hb.insert hS hknown true) hrest, rfl, hdistances, hclean⟩

theorem introduce (hS : S.Lawful) (h : Beside S number sides w w') {ts ts' : List Token}
    (hts : List.Forall₂ (S.Respells (sides.headD false)) ts ts') :
    Beside S number sides (w.introduce ts) (w'.introduce ts') := by
  unfold Walk.introduce
  induction hts generalizing w w' with
  | nil => exact h
  | cons ht _ ih => exact ih ((h.declare hS ht).define hS ht)

/-- Names of functions and classes are introduced as they are. -/
theorem introduce_keeps (hS : S.Lawful) (h : Beside S number sides w w') {t : Token}
    (ht : S.Keeps (sides.headD false) t) :
    Beside S number sides (w.introduce [t]) (w'.introduce [t]) := by
  have hlexeme : S.spell (sides.headD false) t.lexeme = t.lexeme := ht.2
  refine h.introduce hS (.cons ⟨ht.1, ?_⟩ .nil)
  rw [hlexeme]

/-- Both walks note the same distance. -/
theorem locate (hS : S.Lawful) (h : Beside S number sides w w') {o o' : Occurrence}
    (ho : S.RenamesOccurrence number sides w.scopes o o') :
    Beside S number sides (w.locate o) (w'.locate o') := by
  obtain ⟨hid, -, hknown, hname⟩ := ho
  have hdistance : w'.scopes.distance? o'.name.lexeme = w.scopes.distance? o.name.lexeme := by
    rw [hname]
    exact h.scopes.distance? hS hknown
  unfold Walk.locate
  rw [hdistance]
  split
  · refine ⟨h.scopes, h.globals, ?_, h.clean⟩
    show w'.distances.push _ = (w.distances.push _).map _
    rw [h.distances, Array.map_push, hid]
  · exact h

theorem use (hS : S.Lawful) (h : Beside S number sides w w') {o o' : Occurrence}
    (ho : S.RenamesOccurrence number sides w.scopes o o') :
    Beside S number sides (w.use o) (w'.use o') := by
  have hchecked : Beside S number sides (w.checkInitialized o.name)
      (w'.checkInitialized o'.name) := by
    obtain ⟨-, -, hknown, hname⟩ := ho
    have hscopes := h.scopes
    unfold Walk.checkInitialized
    generalize hw : w.scopes = scopes at hscopes hname
    generalize w'.scopes = scopes' at hscopes
    cases hscopes with
    | nil =>
      have hsame : o'.name.lexeme = o.name.lexeme := by
        rw [hname]
        rfl
      dsimp only
      rw [hsame, h.globals]
      exact h.reportIf _ _ _ _
    | @cons side sides b b' rest rest' hb _ =>
      have hget : b'.get? o'.name.lexeme = b.get? o.name.lexeme := by
        rw [hname]
        exact RenamesScopes.get?_head hS hb hknown
      dsimp only
      rw [hget]
      exact h.reportIf _ _ _ _
  refine hchecked.locate hS ?_
  rw [Walk.checkInitialized_scopes]
  exact ho

/-- The words `this` and `super` are spelled alike everywhere. -/
theorem locate_special (hS : S.Lawful) (h : Beside S number sides w w') {o : Occurrence}
    (ho : ¬ Ordinary o.name.lexeme) (hpair : S.pairs o ⟨number o.id, o.name⟩) :
    Beside S number sides (w.locate o) (w'.locate ⟨number o.id, o.name⟩) := by
  refine h.locate hS ⟨rfl, hpair, (hS.special _ ho).1, ?_⟩
  have hlexeme : S.spell (sideOf sides w.scopes o.name.lexeme) o.name.lexeme = o.name.lexeme :=
    hS.fixes_special ho _
  rw [hlexeme]

/-! ## §5. Side by side. -/

mutual

/-- Walking over a renamed expression keeps two walks side by side. -/
theorem expr (hS : S.Lawful) {role : ClassRole} : ∀ {w w' : Walk} (e : Expr) {e' : Expr}, e.Proper →
    S.RenamesExpr number sides scopes e e' → w.scopes = scopes → Beside S number sides w w' →
    Beside S number sides (w.expr role e) (w'.expr role e')
  | _, _, .literal _, _, _, hr, _, h => by
    obtain rfl := hr
    rw [Walk.expr, Walk.expr]
    exact h
  | _, _, .grouping inner, _, hp, hr, hw, h => by
    obtain ⟨inner', rfl, hi⟩ := hr
    rw [Walk.expr, Walk.expr]
    exact expr hS inner hp hi hw h
  | _, _, .unary _ right, _, hp, hr, hw, h => by
    obtain ⟨right', rfl, hr⟩ := hr
    rw [Walk.expr, Walk.expr]
    exact expr hS right hp hr hw h
  | w, _, .binary left _ right, _, hp, hr, hw, h => by
    obtain ⟨left', right', rfl, hl, hr⟩ := hr
    rw [Walk.expr, Walk.expr]
    exact expr hS right hp.2 hr ((Walk.expr_scopes role w left).trans hw) (expr hS left hp.1 hl hw h)
  | w, _, .logical left _ right, _, hp, hr, hw, h => by
    obtain ⟨left', right', rfl, hl, hr⟩ := hr
    rw [Walk.expr, Walk.expr]
    exact expr hS right hp.2 hr ((Walk.expr_scopes role w left).trans hw) (expr hS left hp.1 hl hw h)
  | _, _, .variable o, _, _, hr, hw, h => by
    obtain ⟨o', rfl, ho⟩ := hr
    rw [Walk.expr, Walk.expr]
    exact h.use hS (hw ▸ ho)
  | w, _, .assign target value, _, hp, hr, hw, h => by
    obtain ⟨target', value', rfl, ht, hv⟩ := hr
    rw [Walk.expr, Walk.expr]
    refine (expr hS value hp.2 hv hw h).locate hS ?_
    rw [Walk.expr_scopes, hw]
    exact ht
  | w, _, .call callee _ arguments, _, hp, hr, hw, h => by
    obtain ⟨callee', arguments', rfl, hc, ha⟩ := hr
    rw [Walk.expr, Walk.expr]
    exact exprs hS arguments hp.2 ha ((Walk.expr_scopes role w callee).trans hw)
      (expr hS callee hp.1 hc hw h)
  | _, _, .get object _, _, hp, hr, hw, h => by
    obtain ⟨object', rfl, ho⟩ := hr
    rw [Walk.expr, Walk.expr]
    exact expr hS object hp ho hw h
  | w, _, .set object _ value, _, hp, hr, hw, h => by
    obtain ⟨object', value', rfl, ho, hv⟩ := hr
    rw [Walk.expr, Walk.expr]
    exact expr hS object hp.1 ho ((Walk.expr_scopes role w value).trans hw)
      (expr hS value hp.2 hv hw h)
  | _, _, .this o, _, hp, hr, _, h => by
    obtain ⟨rfl, hpair⟩ := hr
    have hlexeme : o.name.lexeme = "this" := hp
    rw [Walk.expr.eq_def, Walk.expr.eq_def]
    cases role with
    | none => exact h.report o.name o.name _
    | plain | derived => exact h.locate_special hS (hlexeme ▸ not_ordinary_this) hpair
  | _, _, .super o _, _, hp, hr, _, h => by
    obtain ⟨rfl, hpair⟩ := hr
    have hlexeme : o.name.lexeme = "super" := hp
    rw [Walk.expr.eq_def, Walk.expr.eq_def]
    cases role with
    | none | plain => exact h.report o.name o.name _
    | derived => exact h.locate_special hS (hlexeme ▸ not_ordinary_super) hpair

theorem exprs (hS : S.Lawful) {role : ClassRole} : ∀ {w w' : Walk} (es : List Expr) {es' : List Expr},
    Expr.ProperAll es → S.RenamesExprs number sides scopes es es' → w.scopes = scopes →
    Beside S number sides w w' → Beside S number sides (w.exprs role es) (w'.exprs role es')
  | _, _, [], _, _, hr, _, h => by
    obtain rfl := hr
    rw [Walk.exprs, Walk.exprs]
    exact h
  | w, _, e :: rest, _, hp, hr, hw, h => by
    obtain ⟨e', rest', rfl, he, hr⟩ := hr
    rw [Walk.exprs, Walk.exprs]
    exact exprs hS rest hp.2 hr ((Walk.expr_scopes role w e).trans hw) (expr hS e hp.1 he hw h)

end

theorem expr? (hS : S.Lawful) {role : ClassRole} (h : Beside S number sides w w')
    {e e' : Option Expr} (hp : Expr.ProperOption e)
    (hr : S.RenamesExpr? number sides scopes e e') (hw : w.scopes = scopes) :
    Beside S number sides (w.expr? role e) (w'.expr? role e') := by
  cases hr with
  | none => exact h
  | some hr => exact expr hS _ hp hr hw h

theorem checkReturn (h : Beside S number sides w w') (role : FunctionRole) (keyword : Token)
    (hasValue : Bool) : Beside S number sides (w.checkReturn role keyword hasValue)
      (w'.checkReturn role keyword hasValue) :=
  (h.reportIf _ keyword keyword _).reportIf _ keyword keyword _

/-- A class inherits from itself after renaming if and only if it did so
before. -/
theorem enterClass (hS : S.Lawful) (h : Beside S number sides w w') {name : Token}
    (hname : S.Keeps (sideOf sides w.scopes name.lexeme) name) {superclass superclass' : Option Occurrence}
    (hs : Option.Rel (S.RenamesOccurrence number sides w.scopes) superclass superclass') :
    Beside S number (false :: methodSides sides superclass.isSome) (w.enterClass name superclass)
      (w'.enterClass name superclass') := by
  have hthis : ∀ n ∈ ["this"], ¬ Ordinary n := by
    simpa using not_ordinary_this
  have hsuper : ∀ n ∈ ["super"], ¬ Ordinary n := by
    simpa using not_ordinary_super
  cases hs with
  | none => exact h.enter hS hthis false
  | @some parent parent' ho =>
    have hself : (parent'.name.lexeme == name.lexeme) = (parent.name.lexeme == name.lexeme) := by
      obtain ⟨-, -, hknown, hspelled⟩ := id ho
      rw [hspelled, Bool.eq_iff_iff, beq_iff_eq, beq_iff_eq]
      constructor
      · intro heq
        have hspell : S.spell _ parent.name.lexeme = S.spell false name.lexeme := heq
        exact hS.spell_apart hknown hname.1 hspell
      · intro heq
        dsimp only
        rw [heq]
        exact hname.2
    have hreported : Beside S number sides
        (w.reportIf (parent.name.lexeme == name.lexeme) parent.name .inheritsFromItself)
        (w'.reportIf (parent'.name.lexeme == name.lexeme) parent'.name .inheritsFromItself) := by
      rw [hself]
      exact h.reportIf _ _ _ _
    refine ((hreported.use hS ?_).enter hS hsuper false).enter hS hthis false
    rw [Walk.reportIf_scopes]
    exact ho

theorem leaveClass {superclass superclass' : Option Occurrence}
    (hs : superclass'.isSome = superclass.isSome)
    (h : Beside S number (false :: methodSides sides superclass.isSome) w w') :
    Beside S number sides (w.leaveClass superclass) (w'.leaveClass superclass') := by
  cases superclass with
  | none =>
    cases superclass' with
    | none => exact h.leave
    | some => cases hs
  | some =>
    cases superclass' with
    | none => cases hs
    | some => exact h.leave.leave

mutual

/-- **Walking over a renamed statement keeps two walks side by side.** -/
theorem stmt (hS : S.Lawful) : ∀ {around : Surroundings} {sides : List Bool} {scopes : Scopes}
    {w w' : Walk} (s : Stmt) {s' : Stmt}, s.Proper → S.RenamesStmt number sides scopes s s' →
    w.scopes = scopes → Beside S number sides w w' →
    Beside S number sides (w.stmt around s) (w'.stmt around s')
  | _, _, _, _, _, .expression e, _, hp, hr, hw, h => by
    obtain ⟨e', rfl, he⟩ := hr
    rw [Walk.stmt, Walk.stmt]
    exact expr hS e hp he hw h
  | _, _, _, _, _, .print e, _, hp, hr, hw, h => by
    obtain ⟨e', rfl, he⟩ := hr
    rw [Walk.stmt, Walk.stmt]
    exact expr hS e hp he hw h
  | _, _, _, w, _, .var name initializer, _, hp, hr, hw, h => by
    obtain ⟨name', initializer', rfl, hn, hi⟩ := hr
    rw [Walk.stmt, Walk.stmt]
    refine ((h.declare hS hn).expr? hS hp.2 hi ?_).define hS hn
    rw [Walk.declare_scopes, hw]
  | _, _, _, w, _, .block body, _, hp, hr, hw, h => by
    obtain ⟨side, body', rfl, hb⟩ := hr
    rw [Walk.stmt, Walk.stmt]
    refine (stmts hS body hp hb ?_ (h.enter hS (List.forall_mem_nil _) side)).leave
    rw [← hw]
    rfl
  | around, _, _, w, _, .ifElse condition thenBranch none, _, hp, hr, hw, h => by
    obtain ⟨condition', thenBranch', rfl, hc, ht⟩ := hr
    rw [Walk.stmt, Walk.stmt]
    exact stmt hS thenBranch hp.2.1 ht ((Walk.expr_scopes _ w condition).trans hw)
      (expr hS condition hp.1 hc hw h)
  | around, _, _, w, _, .ifElse condition thenBranch (some elseBranch), _, hp, hr, hw, h => by
    obtain ⟨condition', thenBranch', elseBranch', rfl, hc, ht, he⟩ := hr
    rw [Walk.stmt, Walk.stmt]
    have hcondition := (Walk.expr_scopes around.classRole w condition).trans hw
    refine stmt hS elseBranch hp.2.2.1 he ?_
      (stmt hS thenBranch hp.2.1.1 ht hcondition (expr hS condition hp.1 hc hw h))
    -- a branch declares nothing, so the other one is walked over in the same scopes
    rw [Walk.stmt_scopes _ _ _ hp.2.1.1, hcondition]
    exact Scopes.after_of_declared hp.2.1.2
  | around, _, _, w, _, .while condition body, _, hp, hr, hw, h => by
    obtain ⟨condition', body', rfl, hc, hb⟩ := hr
    rw [Walk.stmt, Walk.stmt]
    exact stmt hS body hp.2.1 hb ((Walk.expr_scopes _ w condition).trans hw)
      (expr hS condition hp.1 hc hw h)
  | _, _, _, w, _, .function ⟨name, params, body⟩, _, hp, hr, hw, h => by
    obtain ⟨decl', rfl, hn, hf⟩ := hr
    rw [Walk.stmt, Walk.stmt]
    have hname : decl'.name = name := by
      obtain ⟨side, params', body', rfl, -, -⟩ := hf
      rfl
    rw [hname]
    refine function hS ⟨name, params, body⟩ hp.2 hf ?_ (h.introduce_keeps hS hn)
    rw [Walk.introduce_scopes, hw]
    rfl
  | _, _, _, w, _, .return keyword value, _, hp, hr, hw, h => by
    obtain ⟨value', rfl, hv⟩ := hr
    rw [Walk.stmt, Walk.stmt]
    have hsome : value'.isSome = value.isSome := by
      cases hv <;> rfl
    rw [hsome]
    exact (h.checkReturn _ keyword _).expr? hS hp hv ((Walk.checkReturn_scopes w _ _ _).trans hw)
  | _, sides, scopes, w, _, .class name superclass ms, _, hp, hr, hw, h => by
    obtain ⟨superclass', ms', rfl, hn, hs, hm⟩ := hr
    rw [Walk.stmt, Walk.stmt]
    have hsome : superclass'.isSome = superclass.isSome := by
      cases hs <;> rfl
    have hscopes : (w.introduce [name]).scopes = scopes.add name.lexeme := by
      rw [Walk.introduce_scopes, hw]
      rfl
    have hside : sideOf sides (scopes.add name.lexeme) name.lexeme = sides.headD false :=
      RenamesScopes.sideOf_add (hw ▸ h.scopes) name.lexeme
    have hentered := (h.introduce_keeps hS hn).enterClass hS (by rw [hscopes, hside]; exact hn)
      (hscopes.symm ▸ hs)
    rw [hsome]
    refine leaveClass hsome (methods hS ms hp.2.2 hm ?_ hentered)
    rw [Walk.enterClass_scopes, hscopes]
termination_by structural _ _ _ _ _ s => s

theorem stmts (hS : S.Lawful) : ∀ {around : Surroundings} {sides : List Bool} {scopes : Scopes}
    {w w' : Walk} (ss : List Stmt) {ss' : List Stmt}, Stmt.ProperAll ss →
    S.RenamesStmts number sides scopes ss ss' → w.scopes = scopes → Beside S number sides w w' →
    Beside S number sides (w.stmts around ss) (w'.stmts around ss')
  | _, _, _, _, _, [], _, _, hr, _, h => by
    obtain rfl := hr
    rw [Walk.stmts, Walk.stmts]
    exact h
  | around, _, _, w, _, s :: rest, _, hp, hr, hw, h => by
    obtain ⟨s', rest', rfl, hs, hr⟩ := hr
    rw [Walk.stmts, Walk.stmts]
    refine stmts hS rest hp.2 hr ?_ (stmt hS s hp.1 hs hw h)
    rw [Walk.stmt_scopes around w s hp.1, hw]
termination_by structural _ _ _ _ _ ss => ss

theorem function (hS : S.Lawful) : ∀ {around : Surroundings} {sides : List Bool} {scopes : Scopes}
    {w w' : Walk} (decl : FunctionDecl Stmt) {decl' : FunctionDecl Stmt},
    Stmt.ProperFunction decl → S.RenamesFunction number sides scopes decl decl' →
    w.scopes = scopes → Beside S number sides w w' →
    Beside S number sides (w.function around decl) (w'.function around decl')
  | _, _, _, w, _, ⟨_, params, body⟩, _, hp, hr, hw, h => by
    obtain ⟨side, params', body', rfl, hparams, hb⟩ := hr
    rw [Walk.function, Walk.function]
    have hentered := (h.enter hS (List.forall_mem_nil _) side).introduce hS hparams
    refine (stmts hS body hp.2 hb ?_ hentered).leave
    rw [Walk.introduce_enter_scopes, hw]
termination_by structural _ _ _ _ _ d => d

theorem methods (hS : S.Lawful) : ∀ {around : Surroundings} {sides : List Bool} {scopes : Scopes}
    {w w' : Walk} (ms : List (FunctionDecl Stmt)) {ms' : List (FunctionDecl Stmt)},
    Stmt.ProperMethods ms → S.RenamesMethods number sides scopes ms ms' → w.scopes = scopes →
    Beside S number sides w w' → Beside S number sides (w.methods around ms) (w'.methods around ms')
  | _, _, _, _, _, [], _, _, hr, _, h => by
    obtain rfl := hr
    rw [Walk.methods, Walk.methods]
    exact h
  | around, _, _, w, _, ⟨name, params, body⟩ :: rest, _, hp, hr, hw, h => by
    obtain ⟨m', rest', rfl, hm, hr⟩ := hr
    rw [Walk.methods, Walk.methods]
    have hinit : m'.isInitializer = (⟨name, params, body⟩ : FunctionDecl Stmt).isInitializer := by
      obtain ⟨side, params', body', rfl, -, -⟩ := hm
      rfl
    rw [hinit]
    refine methods hS rest hp.2 hr ?_ (function hS ⟨name, params, body⟩ hp.1 hm hw h)
    rw [Walk.function_scopes _ w _ hp.1, hw]
termination_by structural _ _ _ _ _ ms => ms

end

/-- Walking over a renamed program at top level. -/
theorem stmts_topLevel (hS : S.Lawful) (h : Beside S number [] w w') {ss ss' : List Stmt}
    (hp : Stmt.ProperAll ss) (hr : S.RenamesStmts number [] w.scopes ss ss') :
    Beside S number [] (w.stmts .topLevel ss) (w'.stmts .topLevel ss') :=
  stmts hS ss hp hr rfl h

end Beside

/-! ## §6. Programs. -/

/-- **A renamed program is analysed alike**: its occurrences have the same
distances under their new numbers, and it has a violation if and only if the
program has one. -/
theorem program_renamed (hS : S.Lawful) (globals : List String) {ss ss' : List Stmt}
    (hp : Stmt.ProperAll ss) (h : S.RenamesStmts number [] [] ss ss') :
    (program globals ss').distances
        = (program globals ss).distances.map (fun p => (number p.1, p.2))
      ∧ ((program globals ss').failures = [] ↔ (program globals ss).failures = []) := by
  have hstart : Beside S number [] ⟨[], globals.map (·, true), #[], #[]⟩
      ⟨[], globals.map (·, true), #[], #[]⟩ := ⟨.nil, rfl, Array.map_empty.symm, .rfl⟩
  have hend := hstart.stmts_topLevel hS hp h
  refine ⟨?_, ?_⟩
  · show Array.toList _ = (Array.toList _).map _
    rw [hend.distances, Array.toList_map]
  · show Array.toList _ = [] ↔ Array.toList _ = []
    rw [Array.toList_eq_nil_iff, Array.toList_eq_nil_iff]
    exact hend.clean

end Resolve

/-! ## §7. Moved numbers. -/

namespace Spelling

variable (k : Nat)

theorem renamesOccurrence_moved (sides : List Bool) (scopes : Scopes) (o : Occurrence) :
    same.RenamesOccurrence (· + k) sides scopes o (o.relabel (.moved k)) := by
  refine ⟨rfl, rfl, trivial, ?_⟩
  rw [same_spell]
  rfl

theorem respells_same (side : Bool) (t : Token) : same.Respells side t t := by
  refine ⟨trivial, ?_⟩
  rw [same_spell]

theorem keeps_same (side : Bool) (t : Token) : same.Keeps side t :=
  ⟨trivial, same_spell side t.lexeme⟩

mutual

/-- An expression whose numbers are moved is the expression renamed. -/
theorem renamesExpr_moved : ∀ {sides : List Bool} {scopes : Scopes} (e : Expr),
    same.RenamesExpr (· + k) sides scopes e (e.relabel (.moved k))
  | _, _, .literal v => by
    rw [Expr.relabel]
    exact rfl
  | _, _, .unary _ right => by
    rw [Expr.relabel]
    exact ⟨_, rfl, renamesExpr_moved right⟩
  | _, _, .binary left _ right => by
    rw [Expr.relabel]
    exact ⟨_, _, rfl, renamesExpr_moved left, renamesExpr_moved right⟩
  | _, _, .logical left _ right => by
    rw [Expr.relabel]
    exact ⟨_, _, rfl, renamesExpr_moved left, renamesExpr_moved right⟩
  | _, _, .grouping inner => by
    rw [Expr.relabel]
    exact ⟨_, rfl, renamesExpr_moved inner⟩
  | sides, scopes, .variable o => by
    rw [Expr.relabel]
    exact ⟨_, rfl, renamesOccurrence_moved k sides scopes o⟩
  | sides, scopes, .assign o value => by
    rw [Expr.relabel]
    exact ⟨_, _, rfl, renamesOccurrence_moved k sides scopes o, renamesExpr_moved value⟩
  | _, _, .call callee _ arguments => by
    rw [Expr.relabel]
    exact ⟨_, _, rfl, renamesExpr_moved callee, renamesExprs_moved arguments⟩
  | _, _, .get object _ => by
    rw [Expr.relabel]
    exact ⟨_, rfl, renamesExpr_moved object⟩
  | _, _, .set object _ value => by
    rw [Expr.relabel]
    exact ⟨_, _, rfl, renamesExpr_moved object, renamesExpr_moved value⟩
  | sides, scopes, .super o _ => by
    rw [Expr.relabel]
    exact ⟨rfl, rfl⟩
  | sides, scopes, .this o => by
    rw [Expr.relabel]
    exact ⟨rfl, rfl⟩

theorem renamesExprs_moved : ∀ {sides : List Bool} {scopes : Scopes} (es : List Expr),
    same.RenamesExprs (· + k) sides scopes es (Expr.relabelAll (.moved k) es)
  | _, _, [] => by
    rw [Expr.relabelAll]
    exact rfl
  | _, _, e :: rest => by
    rw [Expr.relabelAll]
    exact ⟨_, _, rfl, renamesExpr_moved e, renamesExprs_moved rest⟩

end

theorem renamesExpr?_moved {sides : List Bool} {scopes : Scopes} (e : Option Expr) :
    same.RenamesExpr? (· + k) sides scopes e (e.map (Expr.relabel (.moved k))) := by
  cases e with
  | none => exact .none
  | some e => exact .some (renamesExpr_moved k e)

mutual

/-- **A statement whose numbers are moved is the statement renamed.** -/
theorem renamesStmt_moved : ∀ {sides : List Bool} {scopes : Scopes} (s : Stmt),
    same.RenamesStmt (· + k) sides scopes s (s.relabel (.moved k))
  | _, _, .expression e => by
    rw [Stmt.relabel]
    exact ⟨_, rfl, renamesExpr_moved k e⟩
  | _, _, .print e => by
    rw [Stmt.relabel]
    exact ⟨_, rfl, renamesExpr_moved k e⟩
  | _, _, .var name initializer => by
    rw [Stmt.relabel]
    exact ⟨_, _, rfl, respells_same _ name, renamesExpr?_moved k initializer⟩
  | _, _, .block body => by
    rw [Stmt.relabel]
    exact ⟨false, _, rfl, renamesStmts_moved body⟩
  | _, _, .ifElse condition thenBranch none => by
    rw [Stmt.relabel]
    exact ⟨_, _, rfl, renamesExpr_moved k condition, renamesStmt_moved thenBranch⟩
  | _, _, .ifElse condition thenBranch (some elseBranch) => by
    rw [Stmt.relabel]
    exact ⟨_, _, _, rfl, renamesExpr_moved k condition,
      renamesStmt_moved thenBranch, renamesStmt_moved elseBranch⟩
  | _, _, .while condition body => by
    rw [Stmt.relabel]
    exact ⟨_, _, rfl, renamesExpr_moved k condition, renamesStmt_moved body⟩
  | _, _, .function decl => by
    rw [Stmt.relabel]
    exact ⟨_, rfl, keeps_same _ _, renamesFunction_moved decl⟩
  | _, _, .return keyword value => by
    rw [Stmt.relabel]
    exact ⟨_, rfl, renamesExpr?_moved k value⟩
  | sides, scopes, .class name superclass methods => by
    rw [Stmt.relabel]
    refine ⟨_, _, rfl, keeps_same _ name, ?_, renamesMethods_moved methods⟩
    cases superclass with
    | none => exact .none
    | some o => exact .some (renamesOccurrence_moved k sides _ o)

theorem renamesStmts_moved : ∀ {sides : List Bool} {scopes : Scopes} (ss : List Stmt),
    same.RenamesStmts (· + k) sides scopes ss (Stmt.relabelAll (.moved k) ss)
  | _, _, [] => by
    rw [Stmt.relabelAll]
    exact rfl
  | _, _, s :: rest => by
    rw [Stmt.relabelAll]
    exact ⟨_, _, rfl, renamesStmt_moved s, renamesStmts_moved rest⟩

theorem renamesFunction_moved : ∀ {sides : List Bool} {scopes : Scopes} (d : FunctionDecl Stmt),
    same.RenamesFunction (· + k) sides scopes d (Stmt.relabelFunction (.moved k) d)
  | _, _, ⟨name, params, body⟩ => by
    have hparams : params.map (Token.relabel (.moved k)) = params := List.map_id params
    rw [Stmt.relabelFunction, hparams]
    refine ⟨false, _, _, rfl, ?_, renamesStmts_moved body⟩
    exact List.forall₂_same.mpr fun t _ => respells_same false t

theorem renamesMethods_moved : ∀ {sides : List Bool} {scopes : Scopes}
    (ms : List (FunctionDecl Stmt)),
    same.RenamesMethods (· + k) sides scopes ms (Stmt.relabelMethods (.moved k) ms)
  | _, _, [] => by
    rw [Stmt.relabelMethods]
    exact rfl
  | _, _, m :: rest => by
    rw [Stmt.relabelMethods]
    exact ⟨_, _, rfl, renamesFunction_moved m, renamesMethods_moved rest⟩

end

end Spelling

end Lox
