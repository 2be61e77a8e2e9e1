/-
  Lox.Proofs.Resolve.Standing
  ───────────────────────────
  **WHERE STATEMENTS STAND.**

  A statement of a program stands in the local scopes around it, which have the names
  that are declared in front of it (`Coming`).  These are the scopes that nesting
  distances are counted in (`Coming.holdsAll`).

  A chart can let statements stand just there (`Chart.standing`).  A program that is
  bound stays so in this chart (`BoundStmts.standing`), and whoever runs it knows in
  which scopes each statement stands.
-/
import Lox.Proofs.Resolve.Chart
import Lox.Proofs.Resolve.Nesting

namespace Lox.Resolve

/-! ## §1. Places in a program. -/

/-- **The statements coming at a place of a program**, in the same list, and what
surrounds the place. -/
inductive Coming (program : List Stmt) : Enclosure → List Stmt → Prop
  | program : Coming program .topLevel program
  | next {k s rest} (h : Coming program k (s :: rest)) :
      Coming program (k.declaring s.names) rest
  | block {k body rest} (h : Coming program k (.block body :: rest)) :
      Coming program (k.opening []) body
  | thenBranch {k condition thenBranch elseBranch rest}
      (h : Coming program k (.ifElse condition thenBranch elseBranch :: rest)) :
      Coming program k [thenBranch]
  | elseBranch {k condition thenBranch elseBranch rest}
      (h : Coming program k (.ifElse condition thenBranch (some elseBranch) :: rest)) :
      Coming program (k.declaring thenBranch.names) [elseBranch]
  | whileBody {k condition body rest} (h : Coming program k (.while condition body :: rest)) :
      Coming program k [body]
  | functionBody {k name params body rest}
      (h : Coming program k (.function ⟨name, params, body⟩ :: rest)) :
      Coming program ((k.declaring [name.lexeme]).opening (params.map Token.lexeme)) body
  | methodBody {k name superclass methods method params body rest}
      (h : Coming program k (.class name superclass methods :: rest))
      (hm : ⟨method, params, body⟩ ∈ methods) :
      Coming program (((k.declaring [name.lexeme]).classBody superclass.isSome).opening
        (params.map Token.lexeme)) body

/-- A statement of one of some programs, and what surrounds it there. -/
def Standing (programs : List (List Stmt)) (k : Enclosure) (s : Stmt) : Prop :=
  ∃ program ∈ programs, ∃ rest, Coming program k (s :: rest)

section Uses

variable {k k' : Enclosure} {u : Use} {s : Stmt} {rest : List Stmt}

theorem holdsAll_singleton : Stmt.HoldsAll k [s] k' u ↔ s.Holds k k' u := by
  rw [Stmt.holdsAll_cons, or_iff_left Stmt.holdsAll_nil]

theorem holdsAll_opening {names : List String} {body : List Stmt}
    (h : Stmt.HoldsAll (k.opening names) body k' u) :
    ∃ front s back, body = front ++ s :: back
      ∧ s.Holds (k.opening (names ++ front.flatMap Stmt.names)) k' u :=
  h

/-- **The uses in a statement are uses in its program**, in the same scopes. -/
theorem Coming.holdsAll {program ss : List Stmt} (h : Coming program k ss)
    (hu : Stmt.HoldsAll k ss k' u) : Stmt.HoldsAll .topLevel program k' u := by
  induction h with
  | program => exact hu
  | next _ ih => exact ih (Stmt.holdsAll_cons.mpr (.inr hu))
  | block _ ih =>
    obtain ⟨front, s, back, rfl, hs⟩ := holdsAll_opening hu
    exact ih (Stmt.holdsAll_cons.mpr (.inl (.block hs)))
  | thenBranch _ ih =>
    exact ih (Stmt.holdsAll_cons.mpr (.inl (.thenBranch (holdsAll_singleton.mp hu))))
  | elseBranch _ ih =>
    exact ih (Stmt.holdsAll_cons.mpr (.inl (.elseBranch (holdsAll_singleton.mp hu))))
  | whileBody _ ih =>
    exact ih (Stmt.holdsAll_cons.mpr (.inl (.whileBody (holdsAll_singleton.mp hu))))
  | functionBody _ ih =>
    obtain ⟨front, s, back, rfl, hs⟩ := holdsAll_opening hu
    exact ih (Stmt.holdsAll_cons.mpr (.inl (.functionBody hs)))
  | methodBody _ hm ih =>
    obtain ⟨front, s, back, rfl, hs⟩ := holdsAll_opening hu
    exact ih (Stmt.holdsAll_cons.mpr (.inl (.methodBody hm hs)))

end Uses

/-! ## §2. The scopes of the analysis at these places. -/

namespace Mirrors

variable {k : Enclosure} {scopes : Scopes}

/-- Behind a statement. -/
theorem after (h : Mirrors k.scopes scopes) {s : Stmt} (hs : s.Proper) :
    Mirrors (k.declaring s.names).scopes (scopes.after s) := by
  unfold Scopes.after
  cases hdeclared : s.declared? with
  | none =>
    rw [s.names_eq_nil hs hdeclared, Enclosure.declaring_nil]
    exact h
  | some name =>
    have hnames : s.names = [name.lexeme] := by
      cases s with
      | var | function | «class» =>
        cases hdeclared
        rfl
      | _ => cases hdeclared
    rw [hnames]
    exact h.add name.lexeme

theorem parameters (h : Mirrors k.scopes scopes) (params : List Token) :
    Mirrors (k.opening (params.map Token.lexeme)).scopes
      (Walk.parameterScope params :: scopes) := by
  refine .cons ?_ h
  intro name
  rw [Bindings.binds, get?_parameterScope]
  split
  · next hmem => exact iff_of_true rfl hmem
  · next hmem => exact iff_of_false Bool.false_ne_true hmem

theorem classBody (h : Mirrors k.scopes scopes) (derived : Bool) :
    Mirrors (k.classBody derived).scopes (Walk.classScopes scopes derived) := by
  cases derived with
  | false => exact .cons (implicit "this") h
  | true => exact .cons (implicit "this") (.cons (implicit "super") h)

end Mirrors

/-! ## §3. Charts that know where statements stand. -/

/-- Statements stand where some programs have them. -/
def Chart.standing (T : Chart) (programs : List (List Stmt)) : Chart :=
  { T with home := fun scopes s => ∃ k, Standing programs k s ∧ Mirrors k.scopes scopes }

theorem Chart.keeps_standing (T : Chart) (programs : List (List Stmt)) :
    T.Keeps (T.standing programs) :=
  ⟨Nat.le_refl _, fun _ _ => rfl, fun hstrict => hstrict⟩

/-- More programs have more places. -/
theorem Chart.Keeps.standing {T T' : Chart} (hT : T.Keeps T')
    {programs programs' : List (List Stmt)} (hprograms : programs ⊆ programs') :
    (T.standing programs).Extends (T'.standing programs') := by
  refine ⟨⟨hT.limit, hT.distance, hT.strict⟩, ?_⟩
  rintro scopes s ⟨k, ⟨program, hprogram, hstands⟩, hmirrors⟩
  exact ⟨k, ⟨program, hprograms hprogram, hstands⟩, hmirrors⟩

section Standing

variable {T : Chart} {programs : List (List Stmt)} {program : List Stmt}

mutual

/-- A bound statement stays bound in a chart that knows where it stands. -/
theorem BoundStmt.standing (hmem : program ∈ programs) :
    ∀ {inside : Bool} {scopes : Scopes} {k : Enclosure} {rest : List Stmt} (s : Stmt),
    BoundStmt T inside scopes s → Coming program k (s :: rest) → Mirrors k.scopes scopes →
    BoundStmt (T.standing programs) inside scopes s
  | _, _, k, rest, .expression e, ⟨_, h⟩, hs, hm =>
      ⟨⟨k, ⟨program, hmem, rest, hs⟩, hm⟩, BoundExpr.extend (T.keeps_standing programs) e h⟩
  | _, _, k, rest, .print e, ⟨_, h⟩, hs, hm =>
      ⟨⟨k, ⟨program, hmem, rest, hs⟩, hm⟩, BoundExpr.extend (T.keeps_standing programs) e h⟩
  | _, _, k, rest, .var _ _, ⟨_, h⟩, hs, hm =>
      ⟨⟨k, ⟨program, hmem, rest, hs⟩, hm⟩, h.1, h.2.extend (T.keeps_standing programs)⟩
  | _, _, k, rest, .block body, ⟨_, h⟩, hs, hm =>
      ⟨⟨k, ⟨program, hmem, rest, hs⟩, hm⟩,
        BoundStmts.standing hmem body h hs.block (hm.parameters [])⟩
  | _, _, k, rest, .ifElse condition thenBranch none, ⟨_, h⟩, hs, hm =>
      ⟨⟨k, ⟨program, hmem, rest, hs⟩, hm⟩,
        BoundExpr.extend (T.keeps_standing programs) condition h.1,
        BoundStmt.standing hmem thenBranch h.2.1 hs.thenBranch hm, h.2.2⟩
  | _, _, k, rest, .ifElse condition thenBranch (some elseBranch), ⟨_, h⟩, hs, hm => by
      have hnames := thenBranch.names_eq_nil (BoundStmt.proper _ h.2.1.1) h.2.1.2
      have helse := hs.elseBranch
      rw [hnames, Enclosure.declaring_nil] at helse
      exact ⟨⟨k, ⟨program, hmem, rest, hs⟩, hm⟩,
        BoundExpr.extend (T.keeps_standing programs) condition h.1,
        ⟨BoundStmt.standing hmem thenBranch h.2.1.1 hs.thenBranch hm, h.2.1.2⟩,
        BoundStmt.standing hmem elseBranch h.2.2.1 helse hm, h.2.2.2⟩
  | _, _, k, rest, .while condition body, ⟨_, h⟩, hs, hm =>
      ⟨⟨k, ⟨program, hmem, rest, hs⟩, hm⟩,
        BoundExpr.extend (T.keeps_standing programs) condition h.1,
        BoundStmt.standing hmem body h.2.1 hs.whileBody hm, h.2.2⟩
  | _, _, k, rest, .function ⟨_, _, body⟩, ⟨_, h⟩, hs, hm =>
      ⟨⟨k, ⟨program, hmem, rest, hs⟩, hm⟩, h.1, h.2.1, h.2.2.1,
        BoundStmts.standing hmem body h.2.2.2 hs.functionBody ((hm.add _).parameters _)⟩
  | _, _, k, rest, .return _ _, ⟨_, h⟩, hs, hm =>
      ⟨⟨k, ⟨program, hmem, rest, hs⟩, hm⟩, h.1, h.2.extend (T.keeps_standing programs)⟩
  | _, _, k, rest, .class _ _ methods, ⟨_, h⟩, hs, hm =>
      ⟨⟨k, ⟨program, hmem, rest, hs⟩, hm⟩, h.1,
        fun o ho => BoundExpr.extend (T.keeps_standing programs) _ (h.2.1 o ho),
        BoundMethods.standing hmem methods h.2.2 (fun hmethod => hs.methodBody hmethod)
          ((hm.add _).classBody _)⟩

/-- **A bound program stays bound** in a chart that knows where its statements
stand. -/
theorem BoundStmts.standing (hmem : program ∈ programs) :
    ∀ {inside : Bool} {scopes : Scopes} {k : Enclosure} (ss : List Stmt),
    BoundStmts T inside scopes ss → Coming program k ss → Mirrors k.scopes scopes →
    BoundStmts (T.standing programs) inside scopes ss
  | _, _, _, [], h, _, _ => h
  | _, _, _, s :: rest, h, hs, hm =>
      ⟨BoundStmt.standing hmem s h.1 hs hm,
        BoundStmts.standing hmem rest h.2 hs.next (hm.after (BoundStmt.proper s h.1))⟩

theorem BoundMethods.standing (hmem : program ∈ programs) :
    ∀ {scopes : Scopes} {k : Enclosure} (ms : List (FunctionDecl Stmt)),
    BoundMethods T scopes ms →
    (∀ {name params body}, ⟨name, params, body⟩ ∈ ms →
      Coming program (k.opening (params.map Token.lexeme)) body) →
    Mirrors k.scopes scopes → BoundMethods (T.standing programs) scopes ms
  | _, _, [], _, _, _ => trivial
  | _, _, ⟨_, params, body⟩ :: rest, h, hs, hm =>
      ⟨⟨h.1.1, h.1.2.1,
          BoundStmts.standing hmem body h.1.2.2 (hs List.mem_cons_self) (hm.parameters params)⟩,
        BoundMethods.standing hmem rest h.2
          (fun hmethod => hs (List.mem_cons_of_mem _ hmethod)) hm⟩

end

end Standing

end Lox.Resolve
