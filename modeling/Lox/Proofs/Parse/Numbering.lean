/-
  Lox.Proofs.Parse.Numbering
  ──────────────────────────
  **NO OCCURRENCE NUMBER IS USED TWICE.**

  Everything a reader holds is made of the occurrences it has numbered.  For
  each number, count how often it comes in what the reader holds, and add one
  while it is still to be given out.  No token makes this sum larger
  (`Reader.load_offer`), also where trees are dropped after a failure; at the
  start it is one from the first number on and nothing below.
-/
import Lox.Parse.Program
import Lox.Proofs.Syntax.Occurrences

namespace Lox.Parse

/-! ## §1. What a partial expression holds. -/

/-- The occurrences of a pending operator or bracket. -/
def Pending.occurrences : Pending → List Occurrence
  | .group => []
  | .arguments callee earlier => callee.occurrences ++ Expr.occurrencesAll earlier.toList
  | .assignment target _ => target.occurrences
  | .binary left _ _ => left.occurrences
  | .unary _ => []

/-- The occurrences of all that is pending. -/
def pendingOccurrences : List Pending → List Occurrence
  | [] => []
  | p :: rest => p.occurrences ++ pendingOccurrences rest

/-- The occurrences of what is expected next. -/
def Phase.occurrences : Phase → List Occurrence
  | .operand => []
  | .firstArgument callee => callee.occurrences
  | .nextArgument callee earlier => callee.occurrences ++ Expr.occurrencesAll earlier.toList
  | .after e => e.occurrences
  | .property object => object.occurrences
  | .superDot _ | .superMethod _ => []

/-- The occurrences of a partial expression. -/
def Partial.occurrences (p : Partial) : List Occurrence :=
  pendingOccurrences p.pending ++ p.phase.occurrences

/-- The occurrences of what has become of an expression. -/
def Offer.occurrences : Offer → List Occurrence
  | .taken p => p.occurrences
  | .whole e => e.occurrences
  | .refused _ => []

/-- One while a ledger can still give a number out. -/
def Ledger.spare (i : Nat) (l : Ledger) : Nat :=
  if l.nextId ≤ i then 1 else 0

@[simp]
theorem Ledger.spare_report (i : Nat) (l : Ledger) (t : Token) (fault : SyntaxFault) :
    (l.report t fault).spare i = l.spare i := rfl

/-- How often a number comes in some occurrences, and one more while it is
still to be given out. -/
def load (i : Nat) (os : List Occurrence) (l : Ledger) : Nat :=
  tally i os + l.spare i

/-- Giving out the next number and using it once leaves the sum as it is. -/
theorem load_number (i : Nat) (os : List Occurrence) (l : Ledger) (t : Token) :
    load i (os ++ [(l.number t).1]) (l.number t).2 = load i os l := by
  have hone : tally i [(l.number t).1] = if l.nextId = i then 1 else 0 := by
    unfold tally Ledger.number
    rw [List.map_singleton, List.count_singleton]
    simp only [beq_iff_eq]
  have hspare : (l.number t).2.spare i + (if l.nextId = i then 1 else 0) = l.spare i := by
    unfold Ledger.spare Ledger.number
    dsimp only
    split <;> split <;> split <;> omega
  unfold load
  rw [tally_append, hone, ← hspare]
  omega

section Expressions

attribute [local simp] Expr.occurrences Expr.occurrencesAll Pending.occurrences pendingOccurrences
  Phase.occurrences Partial.occurrences Offer.occurrences

variable (i : Nat)

theorem tally_joined (left right : Expr) (operator : Token) :
    tally i (joined left operator right).occurrences
      = tally i left.occurrences + tally i right.occurrences := by
  unfold joined
  split <;> simp

theorem tally_closeOperators (level : Nat) (ps : List Pending) (e : Expr) :
    tally i (pendingOccurrences (closeOperators level ps e).1)
        + tally i (closeOperators level ps e).2.occurrences
      = tally i (pendingOccurrences ps) + tally i e.occurrences := by
  fun_induction closeOperators level ps e with
  | case1 operator rest e ih =>
    rw [ih]
    simp
  | case2 left operator l rest e h ih =>
    rw [ih, tally_joined]
    simp
    omega
  | case3 => rfl
  | case4 => rfl

theorem load_closeAll (ps : List Pending) (e : Expr) (l : Ledger) :
    load i (pendingOccurrences (closeAll ps e l).1 ++ (closeAll ps e l).2.1.occurrences)
        (closeAll ps e l).2.2
      ≤ load i (pendingOccurrences ps ++ e.occurrences) l := by
  induction ps generalizing e l with
  | nil => exact Nat.le_refl _
  | cons p rest ih =>
    cases p with
    | group | arguments => exact Nat.le_refl _
    | unary operator =>
      refine Nat.le_trans (ih (.unary operator e) l) (Nat.le_of_eq ?_)
      simp [load]
    | binary left operator level =>
      refine Nat.le_trans (ih (joined left operator e) l) (Nat.le_of_eq ?_)
      simp [load, tally_joined]
      omega
    | assignment target equals =>
      unfold closeAll
      split
      · next e' h =>
        have hassigned : tally i e'.occurrences
            = tally i target.occurrences + tally i e.occurrences := by
          unfold assigned? at h
          split at h <;> cases h <;> simp <;> omega
        refine Nat.le_trans (ih e' l) (Nat.le_of_eq ?_)
        simp [load, hassigned]
        omega
      · -- the value is dropped
        refine Nat.le_trans (ih target _) ?_
        simp [load]
        omega

theorem load_offerOperand (ps : List Pending) (t : Token) (l : Ledger) :
    load i (offerOperand ps t l).1.occurrences (offerOperand ps t l).2
      ≤ load i (pendingOccurrences ps) l := by
  have hnumber := load_number i (pendingOccurrences ps) l t
  unfold offerOperand
  split
  case h_7 => exact Nat.le_of_eq hnumber
  case h_8 => exact Nat.le_of_eq hnumber
  all_goals
    simp [load]

theorem load_offerEnd (ps : List Pending) (e : Expr) (t : Token) (l : Ledger) :
    load i (offerEnd ps e t l).1.occurrences (offerEnd ps e t l).2
      ≤ load i (pendingOccurrences ps ++ e.occurrences) l := by
  have hall := load_closeAll i ps e l
  unfold offerEnd
  split
  · next heq =>
    rw [heq] at hall
    refine Nat.le_trans ?_ hall
    split <;> simp [load]
  · next heq =>
    rw [heq] at hall
    refine Nat.le_trans ?_ hall
    split <;> simp [load, Expr.occurrencesAll_append] <;> omega
  · next heq =>
    rw [heq] at hall
    refine Nat.le_trans ?_ hall
    simp [load]

theorem load_offerAfter (ps : List Pending) (e : Expr) (t : Token) (l : Ledger) :
    load i (offerAfter ps e t l).1.occurrences (offerAfter ps e t l).2
      ≤ load i (pendingOccurrences ps ++ e.occurrences) l := by
  unfold offerAfter
  split
  · simp [load]
  · simp [load]
  · have hclosed := tally_closeOperators i 0 ps e
    simp [load]
    omega
  · next level _ _ _ _ =>
    have hclosed := tally_closeOperators i level ps e
    simp [load]
    omega
  · exact load_offerEnd i ps e t l

/-- **One token** of an expression. -/
theorem Partial.load_offer (p : Partial) (t : Token) (l : Ledger) :
    load i (p.offer t l).1.occurrences (p.offer t l).2 ≤ load i p.occurrences l := by
  obtain ⟨ps, phase⟩ := p
  unfold Partial.offer
  cases phase with
  | operand =>
    refine Nat.le_trans (load_offerOperand i ps t l) ?_
    simp [load]
  | firstArgument callee =>
    dsimp only
    split
    · simp [load]
    · refine Nat.le_trans (load_offerOperand i _ t l) ?_
      simp [load]
      omega
  | nextArgument callee earlier =>
    refine Nat.le_trans (load_offerOperand i _ t _) ?_
    have hspare : Ledger.spare i
        (if maxArity ≤ earlier.size then l.report t .tooManyArguments else l) = l.spare i := by
      split <;> rfl
    simp [load, hspare]
    omega
  | after e => exact load_offerAfter i ps e t l
  | property object =>
    dsimp only
    split <;> simp [load]
  | superDot keyword =>
    dsimp only
    split <;> simp [load]
  | superMethod keyword =>
    have hnumber := load_number i (pendingOccurrences ps) l keyword
    dsimp only
    split
    · rw [Partial.occurrences, Phase.occurrences, List.append_nil]
      exact Nat.le_of_eq hnumber
    · simp [load]

end Expressions

/-! ## §2. What a reader holds. -/

/-- The occurrences of the head of a class. -/
def ClassHead.occurrences (head : ClassHead) : List Occurrence :=
  head.superclass.toList

/-- The occurrences of a class around a method. -/
def Owner.occurrences : Owner → List Occurrence
  | .function => []
  | .method head earlier => head.occurrences ++ Stmt.occurrencesMethods earlier.toList

/-- The occurrences of an open statement. -/
def Context.occurrences : Context → List Occurrence
  | .block earlier => Stmt.occurrencesAll earlier.toList
  | .body owner _ _ earlier => owner.occurrences ++ Stmt.occurrencesAll earlier.toList
  | .thenBranch condition => condition.occurrences
  | .elseBranch condition first => condition.occurrences ++ first.occurrences
  | .whileBody condition => condition.occurrences
  | .forBody initializer condition increment =>
      Stmt.occurrencesAll initializer.toList ++ (Expr.occurrences? condition
        ++ Expr.occurrences? increment)

/-- The occurrences of all open statements. -/
def contextOccurrences : List Context → List Occurrence
  | [] => []
  | c :: rest => c.occurrences ++ contextOccurrences rest

/-- The occurrences of what stands before an expression in its statement. -/
def Clause.occurrences : Clause → List Occurrence
  | .forCondition initializer => Stmt.occurrencesAll initializer.toList
  | .forIncrement initializer condition =>
      Stmt.occurrencesAll initializer.toList ++ Expr.occurrences? condition
  | _ => []

/-- The occurrences of what is expected next. -/
def Expect.occurrences : Expect → List Occurrence
  | .finished s => s.occurrences
  | .expression clause p => clause.occurrences ++ p.occurrences
  | .classBodyOpen head => head.occurrences
  | .member head methods => head.occurrences ++ Stmt.occurrencesMethods methods.toList
  | .functionName owner => owner.occurrences
  | .parametersOpen owner _ => owner.occurrences
  | .firstParameter owner _ => owner.occurrences
  | .nextParameter owner _ _ => owner.occurrences
  | .afterParameter owner _ _ => owner.occurrences
  | .functionBodyOpen owner _ _ => owner.occurrences
  | .forCondition initializer => Stmt.occurrencesAll initializer.toList
  | .forIncrement initializer condition =>
      Stmt.occurrencesAll initializer.toList ++ Expr.occurrences? condition
  | _ => []

namespace Reader

/-- The occurrences of the complete statements and the open ones. -/
def outerOccurrences (r : Reader) : List Occurrence :=
  contextOccurrences r.contexts ++ Stmt.occurrencesAll r.program.toList

/-- The occurrences of a reader. -/
def occurrences (r : Reader) : List Occurrence :=
  r.expect.occurrences ++ r.outerOccurrences

/-- How often a number comes in a reader, and one more while it is still to be
given out. -/
def load (i : Nat) (r : Reader) : Nat :=
  Parse.load i r.occurrences r.ledger

section Load

attribute [local simp] Expr.occurrences Expr.occurrences? Stmt.occurrences Stmt.occurrencesAll
  Stmt.occurrencesMethods pendingOccurrences Phase.occurrences Partial.occurrences
  ClassHead.occurrences Owner.occurrences Context.occurrences contextOccurrences
  Clause.occurrences Expect.occurrences

variable (i : Nat) (r : Reader) (t : Token)

/-- What a reader holds apart from what it expects. -/
def outerLoad (i : Nat) (r : Reader) : Nat :=
  Parse.load i r.outerOccurrences r.ledger

theorem load_eq : r.load i = tally i r.expect.occurrences + r.outerLoad i := by
  unfold load outerLoad Parse.load occurrences
  rw [tally_append]
  omega

@[simp]
theorem outerLoad_expecting (x : Expect) : (r.expecting x).outerLoad i = r.outerLoad i := rfl

@[simp]
theorem outerLoad_report (fault : SyntaxFault) : (r.report t fault).outerLoad i = r.outerLoad i :=
  rfl

theorem load_expecting (x : Expect) :
    (r.expecting x).load i = tally i x.occurrences + r.outerLoad i :=
  load_eq i (r.expecting x)

theorem load_opening (c : Context) (x : Expect) :
    (r.opening c x).load i = tally i x.occurrences + tally i c.occurrences + r.outerLoad i := by
  rw [load_eq]
  unfold opening outerLoad Parse.load outerOccurrences
  simp only [contextOccurrences, tally_append]
  omega

theorem tally_dropWhile (f : Context → Bool) (cs : List Context) :
    tally i (contextOccurrences (cs.dropWhile f)) ≤ tally i (contextOccurrences cs) := by
  induction cs with
  | nil => exact Nat.le_refl _
  | cons c cs ih =>
    rw [List.dropWhile_cons]
    split
    · simp only [contextOccurrences, tally_append]
      omega
    · exact Nat.le_refl _

/-- After a failure nothing is expected, and open statements may be dropped. -/
theorem load_fail (fault : SyntaxFault) : (r.fail t fault).load i ≤ r.outerLoad i := by
  have hdrop := tally_dropWhile i (!·.isBlock) r.contexts
  rw [load_eq]
  unfold fail report outerLoad Parse.load outerOccurrences
  simp only [Expect.occurrences, tally_nil, tally_append, Ledger.spare_report]
  omega

theorem load_place (cs : List Context) (s : Stmt) :
    (r.place cs s).load i
      ≤ tally i s.occurrences + tally i (contextOccurrences cs)
        + Parse.load i (Stmt.occurrencesAll r.program.toList) r.ledger := by
  induction cs generalizing s with
  | nil =>
    unfold place load Parse.load occurrences outerOccurrences
    simp [Stmt.occurrencesAll_append]
    omega
  | cons c cs ih =>
    cases c with
    | block earlier =>
      unfold place load Parse.load occurrences outerOccurrences
      simp [Stmt.occurrencesAll_append]
      omega
    | body owner name params earlier =>
      unfold place load Parse.load occurrences outerOccurrences
      simp [Stmt.occurrencesAll_append]
      omega
    | thenBranch condition =>
      refine Nat.le_trans (ih _) (Nat.le_of_eq ?_)
      simp
      omega
    | elseBranch condition thenBranch =>
      refine Nat.le_trans (ih _) (Nat.le_of_eq ?_)
      simp
      omega
    | whileBody condition =>
      refine Nat.le_trans (ih _) (Nat.le_of_eq ?_)
      simp
      omega
    | forBody initializer condition increment =>
      refine Nat.le_trans (ih _) (Nat.le_of_eq ?_)
      simp [tally_forLoop]
      omega

theorem load_placeBeforeElse (cs : List Context) (s : Stmt) (h : awaitsElse cs) :
    (r.placeBeforeElse cs s).load i
      ≤ tally i s.occurrences + tally i (contextOccurrences cs)
        + Parse.load i (Stmt.occurrencesAll r.program.toList) r.ledger := by
  induction cs generalizing s with
  | nil => cases h
  | cons c cs ih =>
    cases c with
    | block | body => cases h
    | thenBranch condition =>
      unfold placeBeforeElse load Parse.load occurrences outerOccurrences
      simp
      omega
    | elseBranch condition thenBranch =>
      refine Nat.le_trans (ih _ h) (Nat.le_of_eq ?_)
      simp
      omega
    | whileBody condition =>
      refine Nat.le_trans (ih _ h) (Nat.le_of_eq ?_)
      simp
      omega
    | forBody initializer condition increment =>
      refine Nat.le_trans (ih _ h) (Nat.le_of_eq ?_)
      simp [tally_forLoop]
      omega

theorem load_finishFunction (owner : Owner) (decl : FunctionDecl Stmt) :
    (r.finishFunction owner decl).load i
      = tally i owner.occurrences + tally i (Stmt.occurrencesFunction decl) + r.outerLoad i := by
  cases owner with
  | function =>
    refine (load_expecting i r _).trans ?_
    simp
  | method head earlier =>
    refine (load_expecting i r _).trans ?_
    simp [Stmt.occurrencesMethods_append]
    omega

theorem load_finishVariable (place : VariablePlace) (name : Token) (initializer : Option Expr) :
    (r.finishVariable place name initializer).load i
      = tally i (Expr.occurrences? initializer) + r.outerLoad i := by
  cases place with
  | declaration => exact load_expecting i r _
  | forClause =>
    refine (load_expecting i r _).trans ?_
    simp

theorem load_endClause (clause : Clause) (e : Expr) :
    (r.endClause clause e t).load i
      ≤ tally i clause.occurrences + tally i e.occurrences + r.outerLoad i := by
  have hfail : ∀ fault n, (r.fail t fault).load i ≤ n + r.outerLoad i := fun fault n =>
    Nat.le_trans (load_fail i r t fault) (Nat.le_add_left _ n)
  unfold endClause
  split
  -- the wrong token after each clause
  case h_2 | h_4 | h_6 | h_8 | h_10 | h_12 | h_14 | h_16 | h_18 => exact hfail _ _
  case h_1 | h_3 | h_7 | h_13 | h_15 =>
    rw [load_expecting]
    simp
  case h_5 =>
    rw [load_finishVariable]
    simp
  case h_9 | h_11 =>
    rw [load_opening]
    simp
  case h_17 =>
    rw [load_opening]
    simp
    omega

theorem load_offerExpression (clause : Clause) (p : Partial) :
    (r.offerExpression clause p t).load i
      ≤ tally i clause.occurrences + tally i p.occurrences + r.outerLoad i := by
  have hoffer := p.load_offer i t r.ledger
  unfold offerExpression
  split
  · next heq =>
    rw [heq] at hoffer
    unfold load outerLoad Parse.load occurrences outerOccurrences
    unfold Parse.load at hoffer
    simp only [Offer.occurrences, Expect.occurrences, tally_append] at hoffer ⊢
    omega
  · next e l heq =>
    rw [heq] at hoffer
    refine Nat.le_trans (load_endClause i { r with ledger := l } t clause e) ?_
    unfold outerLoad Parse.load outerOccurrences
    unfold Parse.load at hoffer
    simp only [Offer.occurrences, tally_append] at hoffer ⊢
    omega
  · next fault l heq =>
    rw [heq] at hoffer
    refine Nat.le_trans (load_fail i { r with ledger := l } t fault) ?_
    unfold outerLoad Parse.load outerOccurrences
    unfold Parse.load at hoffer
    simp only [Offer.occurrences, tally_nil, tally_append] at hoffer ⊢
    omega

/-! ### One token. -/

theorem load_offerStatement : (r.offerStatement t).load i ≤ r.outerLoad i := by
  unfold offerStatement
  split
  case h_7 =>
    refine Nat.le_trans (load_offerExpression i r t _ _) ?_
    simp [Partial.empty]
  case h_5 =>
    rw [load_opening]
    simp
  all_goals
    rw [load_expecting]
    simp [Partial.empty]

theorem load_offerDeclaration : (r.offerDeclaration t).load i ≤ r.outerLoad i := by
  unfold offerDeclaration
  split
  · next hcs =>
    unfold load outerLoad Parse.load occurrences outerOccurrences
    rw [hcs]
    simp only [Expect.occurrences, contextOccurrences, Context.occurrences, Stmt.occurrences,
      tally_append]
    omega
  · next hcs =>
    rw [load_finishFunction]
    unfold outerLoad Parse.load outerOccurrences
    rw [hcs]
    simp only [contextOccurrences, Context.occurrences, Stmt.occurrencesFunction, tally_append]
    omega
  · exact Nat.le_of_eq (load_expecting i r _ |>.trans (Nat.zero_add _))
  · exact Nat.le_of_eq (load_expecting i r _ |>.trans (Nat.zero_add _))
  · exact Nat.le_of_eq (load_expecting i r _ |>.trans (Nat.zero_add _))
  · exact load_offerStatement i r t

theorem load_offerFunctionName (owner : Owner) :
    (r.offerFunctionName owner t).load i ≤ tally i owner.occurrences + r.outerLoad i := by
  have hfail := load_fail i r t
  unfold offerFunctionName
  split
  · exact Nat.le_of_eq (load_expecting i r _)
  · exact Nat.le_trans (hfail _) (Nat.le_add_left _ _)

theorem load_offerParameter (owner : Owner) (name : Token) (params : Array Token) :
    (r.offerParameter owner name params t).load i ≤ tally i owner.occurrences + r.outerLoad i := by
  unfold offerParameter
  dsimp only
  split
  · rw [load_expecting]
    split <;> exact Nat.le_refl _
  · refine Nat.le_trans (load_fail i _ t _) ?_
    split <;> exact Nat.le_add_left _ _

/-- An expression that starts a clause holds nothing yet. -/
theorem load_offerFirst (clause : Clause) :
    (r.offerExpression clause .empty t).load i ≤ tally i clause.occurrences + r.outerLoad i :=
  load_offerExpression i r t clause .empty

theorem outer_of_place (cs : List Context) (s : Stmt) :
    (r.place cs s).outerLoad i ≤ (r.place cs s).load i := by
  rw [load_eq]
  exact Nat.le_add_left _ _

/-- **No token makes the sum larger.** -/
theorem load_offer : (r.offer t).load i ≤ r.load i := by
  have hfail : ∀ fault n, (r.fail t fault).load i ≤ n + r.outerLoad i := fun fault n =>
    Nat.le_trans (load_fail i r t fault) (Nat.le_add_left _ n)
  rw [load_eq i r]
  unfold offer
  cases hx : r.expect with
  | declaration => exact Nat.le_trans (load_offerDeclaration i r t) (Nat.le_add_left _ _)
  | statement => exact Nat.le_trans (load_offerStatement i r t) (Nat.le_add_left _ _)
  | finished s =>
    have houter : r.outerLoad i = tally i (contextOccurrences r.contexts)
        + Parse.load i (Stmt.occurrencesAll r.program.toList) r.ledger := by
      unfold outerLoad Parse.load outerOccurrences
      rw [tally_append]
      omega
    rw [houter]
    dsimp only
    split
    · next helse =>
      have hplaced := load_placeBeforeElse i r r.contexts s helse.2
      simp only [Expect.occurrences]
      omega
    · have hplaced := load_place i r r.contexts s
      have houter' := outer_of_place i r r.contexts s
      have hoffer := load_offerDeclaration i (r.place r.contexts s) t
      simp only [Expect.occurrences]
      omega
  | expression clause p =>
    have hoffer := load_offerExpression i r t clause p
    simp only [Expect.occurrences, tally_append]
    exact hoffer
  | superclassName name =>
    dsimp only
    split
    · -- the occurrence takes its number from the ones to come
      have hnumber := load_number i r.outerOccurrences r.ledger t
      unfold Parse.load at hnumber
      unfold load outerLoad Parse.load occurrences
      simp only [Expect.occurrences, ClassHead.occurrences, Option.toList_some, tally_append,
        tally_nil] at hnumber ⊢
      unfold outerOccurrences at hnumber ⊢
      simp only [tally_append] at hnumber ⊢
      omega
    · exact hfail _ _
  | member head methods =>
    dsimp only
    split
    · rw [load_expecting]
      simp
    · exact hfail _ _
    · exact load_offerFunctionName i r t (.method head methods)
  | functionName owner => exact load_offerFunctionName i r t owner
  | firstParameter owner name =>
    dsimp only
    split
    · exact Nat.le_of_eq (load_expecting i r _)
    · exact load_offerParameter i r t owner name #[]
  | nextParameter owner name params => exact load_offerParameter i r t owner name params
  | functionBodyOpen owner name params =>
    dsimp only
    split
    · rw [load_opening]
      simp
    · exact hfail _ _
  | variableValue place name =>
    dsimp only
    split
    · exact Nat.le_of_eq (load_expecting i r _)
    · exact Nat.le_of_eq (load_finishVariable i r place name none)
    · exact hfail _ _
  | forInitializer =>
    dsimp only
    split
    · exact Nat.le_of_eq (load_expecting i r _)
    · exact Nat.le_of_eq (load_expecting i r _)
    · exact load_offerFirst i r t .forInitializer
  | forCondition initializer =>
    dsimp only
    split
    · rw [load_expecting]
      simp
    · exact load_offerFirst i r t (.forCondition initializer)
  | forIncrement initializer condition =>
    dsimp only
    split
    · rw [load_opening]
      simp
    · exact load_offerFirst i r t (.forIncrement initializer condition)
  | returnValue keyword =>
    dsimp only
    split
    · exact Nat.le_of_eq (load_expecting i r _)
    · exact load_offerFirst i r t (.return keyword)
  | recovery afterSemicolon =>
    dsimp only
    split
    · exact Nat.le_trans (load_offerDeclaration i r t) (Nat.le_add_left _ _)
    · exact Nat.le_of_eq (load_expecting i r _)
  | classBodyOpen head =>
    dsimp only
    split
    · rw [load_expecting]
      simp
    · exact hfail _ _
  | superclass | afterParameter =>
    dsimp only
    split
    · exact Nat.le_of_eq (load_expecting i r _)
    · exact Nat.le_of_eq (load_expecting i r _)
    · exact hfail _ _
  | className | parametersOpen | variableName | ifOpen | whileOpen | forOpen =>
    dsimp only
    split
    · exact Nat.le_of_eq (load_expecting i r _)
    · exact hfail _ _

theorem load_offerEof : (r.offerEof t).load i ≤ r.load i := by
  unfold offerEof
  split
  · exact Nat.le_refl _
  · exact Nat.le_refl _
  · next s hx =>
    have hplaced := load_place i r r.contexts s
    unfold Parse.load at hplaced
    rw [load_eq i r, hx]
    unfold outerLoad Parse.load outerOccurrences
    simp only [Expect.occurrences, tally_append]
    omega
  · exact load_offer i r t

end Load

theorem spare_foldl_report {α : Type} (i : Nat) (t : Token) (fault : SyntaxFault) (xs : List α)
    (l : Ledger) : (xs.foldl (fun l _ => l.report t fault) l).spare i = l.spare i := by
  induction xs generalizing l with
  | nil => rfl
  | cons x xs ih => exact ih (l.report t fault)

/-- What is left of a reader at the end of its input. -/
theorem load_finish (i : Nat) (r : Reader) (eof : Token) :
    Parse.load i (Stmt.occurrencesAll (r.finish eof).program.toList) (r.finish eof).ledger
      ≤ r.load i := by
  refine Nat.le_trans ?_ (load_offerEof i r eof)
  rw [load_eq]
  unfold finish outerLoad Parse.load outerOccurrences
  dsimp only
  rw [spare_foldl_report, tally_append]
  omega

/-- What is left of a reader after any tokens. -/
theorem load_readAll (i : Nat) (r : Reader) (ts : List Token) :
    Parse.load i (Stmt.occurrencesAll (r.readAll ts).program.toList) (r.readAll ts).ledger
      ≤ r.load i := by
  induction ts generalizing r with
  | nil =>
    rw [load_eq]
    unfold readAll outerLoad Parse.load outerOccurrences
    rw [tally_append]
    omega
  | cons t ts ih =>
    unfold readAll
    split
    · exact load_finish i r t
    · exact Nat.le_trans (ih (r.offer t)) (load_offer i r t)

end Reader

/-! ## §3. Programs. -/

/-- Each number stands for what is left of the numbers from the first one on. -/
theorem load_program (firstId : Nat) (tokens : List Token) (i : Nat) :
    let p := program firstId tokens
    tally i (Stmt.occurrencesAll p.statements) + (if p.nextId ≤ i then 1 else 0)
      ≤ if firstId ≤ i then 1 else 0 := by
  intro p
  have hread := Reader.load_readAll i (.start firstId) tokens
  have hstart : (Reader.start firstId).load i = if firstId ≤ i then 1 else 0 := by
    rw [Reader.load_eq]
    exact (Nat.zero_add _).trans (Nat.zero_add _)
  rw [hstart] at hread
  exact hread

/-- Numbers go on from the first one. -/
theorem le_nextId (firstId : Nat) (tokens : List Token) :
    firstId ≤ (program firstId tokens).nextId := by
  have hload := load_program firstId tokens (program firstId tokens).nextId
  dsimp only at hload
  rw [if_pos (Nat.le_refl _)] at hload
  split at hload
  · assumption
  · omega

/-- **No number is used twice**, and all of them lie between the first number
and the next free one, also where failures made the reader drop trees. -/
theorem program_numbering (firstId : Nat) (tokens : List Token) :
    let p := program firstId tokens
    ((Stmt.occurrencesAll p.statements).map Occurrence.id).Nodup
      ∧ ∀ o ∈ Stmt.occurrencesAll p.statements, firstId ≤ o.id ∧ o.id < p.nextId := by
  intro p
  have hload : ∀ i, tally i (Stmt.occurrencesAll p.statements)
      + (if p.nextId ≤ i then 1 else 0) ≤ if firstId ≤ i then 1 else 0 :=
    load_program firstId tokens
  refine ⟨List.nodup_iff_count.mpr ?_, ?_⟩
  · intro i
    have hi := hload i
    unfold tally at hi
    split at hi <;> split at hi <;> omega
  · intro o ho
    have hi := hload o.id
    have hpos : 0 < tally o.id (Stmt.occurrencesAll p.statements) :=
      List.count_pos_iff.mpr (List.mem_map_of_mem ho)
    split at hi <;> split at hi <;> omega

end Lox.Parse
