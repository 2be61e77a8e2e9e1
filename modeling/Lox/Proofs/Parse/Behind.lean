/-
  Lox.Proofs.Parse.Behind
  ───────────────────────
  **READING BEHIND WHAT HAS BEEN READ.**

  Complete statements and failures are only ever added to.  So a reader that has some
  already does with each token what it would do without them (`Reader.offer_behind`),
  and where a declaration can begin at the top, it reads what follows as a program of its
  own (`Reader.readAll_top`).
-/
import Lox.Parse.Program

namespace Lox.Parse

variable (ds : Array Diagnostic)

/-! ## §1. Expressions. -/

/-- A ledger behind some failures. -/
def Ledger.behind (l : Ledger) : Ledger :=
  { l with failures := ds ++ l.failures }

theorem Ledger.report_behind (l : Ledger) (t : Token) (fault : SyntaxFault) :
    (l.behind ds).report t fault = (l.report t fault).behind ds := by
  simp [Ledger.behind, Ledger.report]

theorem closeAll_behind (ps : List Pending) (e : Expr) (l : Ledger) :
    closeAll ps e (l.behind ds)
      = ((closeAll ps e l).1, (closeAll ps e l).2.1, (closeAll ps e l).2.2.behind ds) := by
  induction ps generalizing e l with
  | nil => rfl
  | cons p ps ih =>
    cases p with
    | unary | binary => exact ih _ l
    | assignment target equals =>
      rw [closeAll, closeAll]
      cases assigned? target e with
      | none =>
        dsimp only
        rw [Ledger.report_behind]
        exact ih _ _
      | some e' => exact ih _ l
    | group | arguments => rfl

/-- An offer, and a ledger behind some failures. -/
def offerBehind (x : Offer × Ledger) : Offer × Ledger :=
  (x.1, x.2.behind ds)

theorem offerOperand_behind (ps : List Pending) (t : Token) (l : Ledger) :
    offerOperand ps t (l.behind ds) = offerBehind ds (offerOperand ps t l) := by
  unfold offerOperand
  split <;> rfl

theorem offerEnd_behind (ps : List Pending) (e : Expr) (t : Token) (l : Ledger) :
    offerEnd ps e t (l.behind ds) = offerBehind ds (offerEnd ps e t l) := by
  unfold offerEnd
  rw [closeAll_behind]
  generalize closeAll ps e l = x
  obtain ⟨ps', e', l'⟩ := x
  cases ps' with
  | nil => rfl
  | cons p rest =>
    cases p with
    | group | arguments =>
      dsimp only
      split <;> rfl
    | _ => rfl

theorem offerAfter_behind (ps : List Pending) (e : Expr) (t : Token) (l : Ledger) :
    offerAfter ps e t (l.behind ds) = offerBehind ds (offerAfter ps e t l) := by
  unfold offerAfter
  split
  · rfl
  · rfl
  · rfl
  · rfl
  · exact offerEnd_behind ds ps e t l

theorem Partial.offer_behind (p : Partial) (t : Token) (l : Ledger) :
    p.offer t (l.behind ds) = offerBehind ds (p.offer t l) := by
  obtain ⟨ps, phase⟩ := p
  cases phase with
  | operand => exact offerOperand_behind ds ps t l
  | firstArgument callee =>
    unfold Partial.offer
    dsimp only
    split
    · rfl
    · exact offerOperand_behind ds _ t l
  | nextArgument callee earlier =>
    unfold Partial.offer
    dsimp only
    split
    · rw [Ledger.report_behind]
      exact offerOperand_behind ds _ t _
    · exact offerOperand_behind ds _ t l
  | after e => exact offerAfter_behind ds ps e t l
  | property | superDot | superMethod =>
    unfold Partial.offer
    dsimp only
    split <;> rfl

/-! ## §2. Statements. -/

namespace Reader

variable (ss : Array Stmt)

/-- A reader behind some complete statements and some failures. -/
def behind (r : Reader) : Reader :=
  { r with program := ss ++ r.program, ledger := r.ledger.behind ds }

variable (r : Reader) (t : Token)

theorem report_behind (fault : SyntaxFault) :
    (r.behind ds ss).report t fault = (r.report t fault).behind ds ss := by
  unfold report behind
  dsimp only
  rw [Ledger.report_behind]

theorem fail_behind (fault : SyntaxFault) :
    (r.behind ds ss).fail t fault = (r.fail t fault).behind ds ss := by
  unfold fail
  rw [report_behind]
  rfl

theorem placeBeforeElse_behind (cs : List Context) :
    ∀ s, (r.behind ds ss).placeBeforeElse cs s = (r.placeBeforeElse cs s).behind ds ss := by
  induction cs with
  | nil => exact fun _ => rfl
  | cons c cs ih =>
    intro s
    cases c with
    | thenBranch | block | body => rfl
    | elseBranch | whileBody | forBody => exact ih _

theorem place_behind (cs : List Context) :
    ∀ s, (r.behind ds ss).place cs s = (r.place cs s).behind ds ss := by
  induction cs with
  | nil =>
    intro s
    simp [place, behind]
  | cons c cs ih =>
    intro s
    cases c with
    | block | body => rfl
    | thenBranch | elseBranch | whileBody | forBody => exact ih _

theorem finishFunction_behind (owner : Owner) (decl : FunctionDecl Stmt) :
    (r.behind ds ss).finishFunction owner decl = (r.finishFunction owner decl).behind ds ss := by
  cases owner <;> rfl

theorem finishVariable_behind (place : VariablePlace) (name : Token) (initializer : Option Expr) :
    (r.behind ds ss).finishVariable place name initializer
      = (r.finishVariable place name initializer).behind ds ss := by
  cases place <;> rfl

theorem endClause_behind (clause : Clause) (e : Expr) :
    (r.behind ds ss).endClause clause e t = (r.endClause clause e t).behind ds ss := by
  unfold endClause
  split <;> first
    | rfl
    | exact fail_behind ds ss r t _
    | exact finishVariable_behind ds ss r _ _ _

theorem offerExpression_behind (clause : Clause) (p : Partial) :
    (r.behind ds ss).offerExpression clause p t = (r.offerExpression clause p t).behind ds ss := by
  have hoffer : p.offer t (r.behind ds ss).ledger = offerBehind ds (p.offer t r.ledger) :=
    p.offer_behind ds t r.ledger
  unfold offerExpression
  rw [hoffer]
  generalize p.offer t r.ledger = x
  obtain ⟨offer, ledger⟩ := x
  cases offer with
  | taken p => rfl
  | whole e => exact endClause_behind ds ss { r with ledger } t clause e
  | refused fault => exact fail_behind ds ss { r with ledger } t fault

theorem offerStatement_behind :
    (r.behind ds ss).offerStatement t = (r.offerStatement t).behind ds ss := by
  unfold offerStatement
  split <;> first
    | rfl
    | exact offerExpression_behind ds ss r t .statement .empty

theorem offerDeclaration_behind :
    (r.behind ds ss).offerDeclaration t = (r.offerDeclaration t).behind ds ss := by
  obtain ⟨expect, contexts, program, ledger⟩ := r
  unfold offerDeclaration
  dsimp only [behind]
  split <;> first
    | rfl
    | exact finishFunction_behind ds ss ⟨_, _, program, ledger⟩ _ _
    | exact offerStatement_behind ds ss ⟨_, _, program, ledger⟩ t

theorem offerFunctionName_behind (owner : Owner) :
    (r.behind ds ss).offerFunctionName owner t = (r.offerFunctionName owner t).behind ds ss := by
  unfold offerFunctionName
  split
  · rfl
  · exact fail_behind ds ss r t _

theorem offerParameter_behind (owner : Owner) (name : Token) (params : Array Token) :
    (r.behind ds ss).offerParameter owner name params t
      = (r.offerParameter owner name params t).behind ds ss := by
  unfold offerParameter
  dsimp only
  rw [report_behind, ← apply_ite (behind ds ss)]
  split
  · rfl
  · exact fail_behind ds ss _ t _

/-- **A token does the same** behind what has been read. -/
theorem offer_behind : (r.behind ds ss).offer t = (r.offer t).behind ds ss := by
  obtain ⟨expect, contexts, program, ledger⟩ := r
  -- what is expected is the same on both sides, and so are the kinds that are looked at
  cases expect with
  | declaration => exact offerDeclaration_behind ds ss _ t
  | statement => exact offerStatement_behind ds ss _ t
  | finished s =>
    unfold offer behind
    dsimp only
    split
    · exact placeBeforeElse_behind ds ss ⟨_, contexts, program, ledger⟩ contexts s
    · have hplace := place_behind ds ss ⟨.finished s, contexts, program, ledger⟩ contexts s
      refine (congrArg (fun r => Reader.offerDeclaration r t) hplace).trans ?_
      exact offerDeclaration_behind ds ss _ t
  | expression clause p => exact offerExpression_behind ds ss _ t clause p
  | member head methods =>
    unfold offer behind
    dsimp only
    split
    · rfl
    · exact fail_behind ds ss ⟨_, contexts, program, ledger⟩ t _
    · exact offerFunctionName_behind ds ss ⟨_, contexts, program, ledger⟩ t _
  | functionName owner => exact offerFunctionName_behind ds ss _ t owner
  | nextParameter owner name params => exact offerParameter_behind ds ss _ t owner name params
  | recovery afterSemicolon =>
    unfold offer behind
    dsimp only
    split
    · exact offerDeclaration_behind ds ss ⟨_, contexts, program, ledger⟩ t
    · rfl
  | _ =>
    unfold offer behind
    dsimp only
    split <;> first
      | rfl
      | exact fail_behind ds ss ⟨_, contexts, program, ledger⟩ t _
      | exact offerExpression_behind ds ss ⟨_, contexts, program, ledger⟩ t _ .empty
      | exact offerParameter_behind ds ss ⟨_, contexts, program, ledger⟩ t _ _ _
      | exact finishVariable_behind ds ss ⟨_, contexts, program, ledger⟩ _ _ _

theorem offerEof_behind : (r.behind ds ss).offerEof t = (r.offerEof t).behind ds ss := by
  unfold offerEof
  dsimp only [behind]
  split
  · rfl
  · rfl
  · exact place_behind ds ss r _ _
  · exact offer_behind ds ss r t

theorem foldl_report_behind {α : Type} (fault : SyntaxFault) (xs : List α) (l : Ledger) :
    xs.foldl (fun l _ => l.report t fault) (l.behind ds)
      = (xs.foldl (fun l _ => l.report t fault) l).behind ds := by
  induction xs generalizing l with
  | nil => rfl
  | cons x xs ih =>
    rw [List.foldl_cons, List.foldl_cons, Ledger.report_behind]
    exact ih _

theorem finish_behind : (r.behind ds ss).finish t = (r.finish t).behind ds ss := by
  unfold finish
  rw [offerEof_behind]
  generalize r.offerEof t = r'
  dsimp only [behind]
  rw [foldl_report_behind]

/-- **All tokens do the same** behind what has been read. -/
theorem readAll_behind (ts : List Token) :
    (r.behind ds ss).readAll ts = (r.readAll ts).behind ds ss := by
  induction ts generalizing r with
  | nil => rfl
  | cons t ts ih =>
    rw [readAll, readAll]
    split
    · exact finish_behind ds ss r t
    · rw [offer_behind]
      exact ih _

/-- **Where a declaration can begin at the top, nothing is open**: what follows is read as a
program of its own, with the next free number. -/
theorem readAll_top (l : Ledger) (ts : List Token) :
    readAll ⟨.declaration, [], ss, l⟩ ts
      = ((start l.nextId).readAll ts).behind l.failures ss := by
  rw [← readAll_behind]
  simp [start, behind, Ledger.behind]

end Reader

end Lox.Parse
