/-
  Lox.Proofs.Parse.Ledger
  ───────────────────────
  **WHAT READING DOES TO ITS LEDGER.**

  Reading touches its ledger in two ways only: it gives out the next number, and it notes
  that a token cannot stand where it does.  What these two keep of a ledger, every token
  keeps, and so does a whole program (`Ledger.Stable.readAll`).

  Main result:
    * `program_failures_syntactic`: all failures of a program are failures of the
      grammar.
-/
import Lox.Parse.Program

namespace Lox.Parse

/-- What is kept when a number is given out and when a failure is noted. -/
structure Ledger.Stable (P : Ledger → Prop) : Prop where
  number {l : Ledger} (h : P l) (t : Token) : P (l.number t).2
  report {l : Ledger} (h : P l) (t : Token) (fault : SyntaxFault) : P (l.report t fault)

namespace Ledger.Stable

variable {P : Ledger → Prop} (hP : Stable P) {l : Ledger} (t : Token)

include hP

theorem report_if (h : P l) (fault : SyntaxFault) (c : Prop) [Decidable c] :
    P (if c then l.report t fault else l) := by
  split
  · exact hP.report h t fault
  · exact h

theorem foldl_report {α : Type} (fault : SyntaxFault) (xs : List α) (h : P l) :
    P (xs.foldl (fun l _ => l.report t fault) l) := by
  induction xs generalizing l with
  | nil => exact h
  | cons x xs ih => exact ih (hP.report h t fault)

/-! ## §1. Expressions. -/

theorem closeAll (h : P l) (ps : List Pending) (e : Expr) : P (closeAll ps e l).2.2 := by
  fun_induction Parse.closeAll ps e l with
  | case1 _ _ _ _ ih => exact ih h
  | case2 _ _ _ _ _ _ ih => exact ih h
  | case3 _ _ _ _ _ _ _ ih => exact ih h
  | case4 _ _ _ _ _ _ ih => exact ih (hP.report h _ .assignmentTarget)
  | case5 => exact h

theorem offerOperand (h : P l) (ps : List Pending) : P (offerOperand ps t l).2 := by
  unfold Parse.offerOperand
  split
  -- `this` and other names are numbered
  case h_7 => exact hP.number h t
  case h_8 => exact hP.number h t
  all_goals exact h

theorem offerEnd (h : P l) (ps : List Pending) (e : Expr) : P (offerEnd ps e t l).2 := by
  have hclosed := hP.closeAll h ps e
  unfold Parse.offerEnd
  generalize Parse.closeAll ps e l = x at hclosed
  obtain ⟨ps', e', l'⟩ := x
  cases ps' with
  | nil => exact hclosed
  | cons p rest =>
    cases p with
    | group | arguments =>
      dsimp only
      split <;> exact hclosed
    | _ => exact hclosed

theorem offerAfter (h : P l) (ps : List Pending) (e : Expr) : P (offerAfter ps e t l).2 := by
  unfold Parse.offerAfter
  split
  case h_5 => exact hP.offerEnd t h ps e
  all_goals exact h

theorem offer_partial (h : P l) (p : Partial) : P (p.offer t l).2 := by
  obtain ⟨ps, phase⟩ := p
  unfold Partial.offer
  cases phase with
  | operand => exact hP.offerOperand t h ps
  | firstArgument callee =>
    dsimp only
    split
    · exact h
    · exact hP.offerOperand t h _
  | nextArgument callee earlier => exact hP.offerOperand t (hP.report_if t h _ _) _
  | after e => exact hP.offerAfter t h ps e
  | property | superDot =>
    dsimp only
    split <;> exact h
  | superMethod keyword =>
    dsimp only
    split
    · exact hP.number h keyword
    · exact h

end Ledger.Stable

/-! ## §2. Statements. -/

namespace Reader

variable {r : Reader}

@[simp]
theorem place_ledger (cs : List Context) : ∀ (s : Stmt), (r.place cs s).ledger = r.ledger := by
  induction cs with
  | nil => exact fun s => rfl
  | cons c cs ih =>
    intro s
    cases c with
    | block | body => rfl
    | thenBranch | elseBranch | whileBody | forBody => exact ih _

@[simp]
theorem placeBeforeElse_ledger (cs : List Context) :
    ∀ (s : Stmt), (r.placeBeforeElse cs s).ledger = r.ledger := by
  induction cs with
  | nil => exact fun s => rfl
  | cons c cs ih =>
    intro s
    cases c with
    | block | body | thenBranch => rfl
    | elseBranch | whileBody | forBody => exact ih _

@[simp]
theorem finishVariable_ledger (place : VariablePlace) (name : Token) (initializer : Option Expr) :
    (r.finishVariable place name initializer).ledger = r.ledger := by
  cases place <;> rfl

@[simp]
theorem finishFunction_ledger (owner : Owner) (decl : FunctionDecl Stmt) :
    (r.finishFunction owner decl).ledger = r.ledger := by
  cases owner <;> rfl

end Reader

namespace Ledger.Stable

variable {P : Ledger → Prop} (hP : Stable P) {r : Reader} (h : P r.ledger) (t : Token)

include hP h

theorem fail (fault : SyntaxFault) : P (r.fail t fault).ledger :=
  hP.report h t fault

theorem endClause (clause : Clause) (e : Expr) : P (r.endClause clause e t).ledger := by
  unfold Reader.endClause
  split <;> first
    | exact h
    | exact hP.fail h t _
    | exact (Reader.finishVariable_ledger _ _ _).symm ▸ h

theorem offerExpression (clause : Clause) (p : Partial) :
    P (r.offerExpression clause p t).ledger := by
  have hoffer := hP.offer_partial t h p
  unfold Reader.offerExpression
  generalize p.offer t r.ledger = x at hoffer
  obtain ⟨offer, ledger⟩ := x
  cases offer with
  | taken p => exact hoffer
  | whole e => exact hP.endClause (r := { r with ledger }) hoffer t clause e
  | refused fault => exact hP.fail (r := { r with ledger }) hoffer t fault

theorem offerStatement : P (r.offerStatement t).ledger := by
  unfold Reader.offerStatement
  split <;> first
    | exact h
    | exact hP.offerExpression h t .statement .empty

theorem offerDeclaration : P (r.offerDeclaration t).ledger := by
  unfold Reader.offerDeclaration
  split <;> first
    | exact h
    | exact hP.offerStatement h t
    | exact (Reader.finishFunction_ledger _ _).symm ▸ h

theorem offerFunctionName (owner : Owner) : P (r.offerFunctionName owner t).ledger := by
  unfold Reader.offerFunctionName
  split
  · exact h
  · exact hP.fail h t _

theorem offerParameter (owner : Owner) (name : Token) (params : Array Token) :
    P (r.offerParameter owner name params t).ledger := by
  have hreport : P (if maxArity ≤ params.size then r.report t .tooManyParameters else r).ledger := by
    split
    · exact hP.report h t _
    · exact h
  unfold Reader.offerParameter
  dsimp only
  split
  · exact hreport
  · exact hP.fail hreport t _

/-- **A token keeps** what numbers and failures keep. -/
theorem offer : P (r.offer t).ledger := by
  unfold Reader.offer
  split
  case h_1 => exact hP.offerDeclaration h t
  case h_2 => exact hP.offerStatement h t
  case h_3 s _ =>
    have hplaced : P (r.place r.contexts s).ledger := by
      rw [Reader.place_ledger]
      exact h
    split
    · rw [Reader.placeBeforeElse_ledger]
      exact h
    · exact hP.offerDeclaration hplaced t
  case h_4 => exact hP.offerExpression h t _ _
  case h_10 => exact hP.offerFunctionName h t _
  case h_13 => exact hP.offerParameter h t _ _ _
  -- the rest look at the kind of the token: they go on, delegate or fail
  all_goals split
  all_goals first
    | exact h
    | exact hP.fail h t _
    | exact hP.number h t
    | exact hP.offerExpression h t _ _
    | exact hP.offerFunctionName h t _
    | exact hP.offerParameter h t _ _ _
    | exact hP.offerDeclaration h t
    | exact (Reader.finishVariable_ledger _ _ _).symm ▸ h

theorem offerEof : P (r.offerEof t).ledger := by
  unfold Reader.offerEof
  split
  · exact h
  · exact h
  · rw [Reader.place_ledger]
    exact h
  · exact hP.offer h t

theorem finish : P (r.finish t).ledger :=
  hP.foldl_report t .blockClose _ (hP.offerEof h t)

omit t in
/-- **All tokens keep** what numbers and failures keep. -/
theorem readAll (ts : List Token) : P (r.readAll ts).ledger := by
  induction ts generalizing r with
  | nil => exact h
  | cons t ts ih =>
    rw [Reader.readAll]
    split
    · exact hP.finish h t
    · exact ih (hP.offer h t)

end Ledger.Stable

/-! ## §3. Failures. -/

/-- All failures are failures of the grammar. -/
def Ledger.Syntactic (l : Ledger) : Prop :=
  ∀ d ∈ l.failures, ∃ offender fault, d = .syntactic offender fault

theorem Ledger.stable_syntactic : Ledger.Stable Ledger.Syntactic where
  number h _ := h
  report h t fault d hd := by
    rcases Array.mem_push.mp hd with hd | rfl
    · exact h d hd
    · exact ⟨t, fault, rfl⟩

/-- **The failures of a program are failures of the grammar.** -/
theorem program_failures_syntactic (firstId : Nat) (tokens : List Token) :
    ∀ d ∈ (program firstId tokens).failures, ∃ offender fault, d = .syntactic offender fault := by
  have hstart : (Reader.start firstId).ledger.Syntactic := by
    intro d hd
    exact absurd hd (Array.not_mem_empty d)
  intro d hd
  exact Ledger.stable_syntactic.readAll hstart tokens d (Array.mem_toList_iff.mp hd)

end Lox.Parse
