/-
  Lox.Proofs.Parse.Relabel
  ────────────────────────
  **READING UNDER NEW LABELS, AFTER OTHER STATEMENTS.**

  Reading looks at the kinds of tokens and at nothing else of them, it numbers
  occurrences in a row, and it only ever adds to the statements that are
  complete.  So a reader that starts after some statements, with another
  number, and gets other tokens of the same kinds does what a reader that
  starts afresh does (`Reader.offer_carried`).
-/
import Lox.Proofs.Grammar.Acceptance
import Lox.Proofs.Syntax.Relabel

namespace Lox.Parse

variable (m : Relabel)

/-! ## §1. Expressions. -/

/-- A ledger under new labels. -/
def Ledger.relabel (l : Ledger) : Ledger :=
  ⟨m.id l.nextId, l.failures.map (Diagnostic.relabel m)⟩

@[simp]
theorem Ledger.relabel_report (l : Ledger) (t : Token) (fault : SyntaxFault) :
    (l.relabel m).report (t.relabel m) fault = (l.report t fault).relabel m := by
  simp [Ledger.relabel, Ledger.report, Diagnostic.relabel]

/-- The next number is the next number under new labels. -/
theorem Ledger.relabel_number {m : Relabel} (hm : m.Steady) (l : Ledger) (t : Token) :
    (l.relabel m).number (t.relabel m)
      = ((l.number t).1.relabel m, (l.number t).2.relabel m) := by
  simp [Ledger.number, Ledger.relabel, Occurrence.relabel, hm l.nextId]

/-- What is pending, under new labels. -/
def Pending.relabel : Pending → Pending
  | .group => .group
  | .arguments callee earlier => .arguments (callee.relabel m) (earlier.map (Expr.relabel m))
  | .assignment target equals => .assignment (target.relabel m) (equals.relabel m)
  | .binary left operator level => .binary (left.relabel m) (operator.relabel m) level
  | .unary operator => .unary (operator.relabel m)

/-- What is expected next, under new labels. -/
def Phase.relabel : Phase → Phase
  | .operand => .operand
  | .firstArgument callee => .firstArgument (callee.relabel m)
  | .nextArgument callee earlier => .nextArgument (callee.relabel m) (earlier.map (Expr.relabel m))
  | .after e => .after (e.relabel m)
  | .property object => .property (object.relabel m)
  | .superDot keyword => .superDot (keyword.relabel m)
  | .superMethod keyword => .superMethod (keyword.relabel m)

/-- A partial expression under new labels. -/
def Partial.relabel (p : Partial) : Partial :=
  ⟨p.pending.map (Pending.relabel m), p.phase.relabel m⟩

/-- What becomes of an expression, under new labels. -/
def Offer.relabel : Offer → Offer
  | .taken p => .taken (p.relabel m)
  | .whole e => .whole (e.relabel m)
  | .refused fault => .refused fault

theorem joined_relabel (left : Expr) (operator : Token) (right : Expr) :
    joined (left.relabel m) (operator.relabel m) (right.relabel m)
      = (joined left operator right).relabel m := by
  unfold joined
  rw [Token.relabel_kind]
  split <;> rw [Expr.relabel]

theorem assigned?_relabel (target value : Expr) :
    assigned? (target.relabel m) (value.relabel m) = (assigned? target value).map (Expr.relabel m) := by
  cases target <;> simp [Expr.relabel, assigned?]

theorem closeOperators_relabel (level : Nat) (ps : List Pending) (e : Expr) :
    closeOperators level (ps.map (Pending.relabel m)) (e.relabel m)
      = ((closeOperators level ps e).1.map (Pending.relabel m),
        (closeOperators level ps e).2.relabel m) := by
  induction ps generalizing e with
  | nil => rfl
  | cons p ps ih =>
    cases p with
    | unary operator =>
      have h := ih (.unary operator e)
      rw [Expr.relabel] at h
      exact h
    | binary left operator l =>
      rw [List.map_cons, Pending.relabel, closeOperators, closeOperators]
      by_cases hl : level ≤ l
      · rw [if_pos hl, if_pos hl, joined_relabel, ih]
      · rw [if_neg hl, if_neg hl]
        rfl
    | _ => rfl

theorem closeAll_relabel (ps : List Pending) (e : Expr) (l : Ledger) :
    closeAll (ps.map (Pending.relabel m)) (e.relabel m) (l.relabel m)
      = ((closeAll ps e l).1.map (Pending.relabel m), (closeAll ps e l).2.1.relabel m,
        (closeAll ps e l).2.2.relabel m) := by
  induction ps generalizing e l with
  | nil => rfl
  | cons p ps ih =>
    cases p with
    | unary operator =>
      have h := ih (.unary operator e) l
      rw [Expr.relabel] at h
      exact h
    | binary left operator level =>
      rw [List.map_cons, Pending.relabel, closeAll, closeAll, joined_relabel, ih]
    | assignment target equals =>
      rw [List.map_cons, Pending.relabel, closeAll, closeAll, assigned?_relabel]
      cases assigned? target e with
      | none => exact (congrArg _ (Ledger.relabel_report m l equals _)).trans (ih target _)
      | some e' => exact ih e' l
    | _ => rfl

/-! ## §2. Tokens for expressions. -/

/-- An offer and the ledger with it, under new labels. -/
def relabelOffer (x : Offer × Ledger) : Offer × Ledger :=
  (x.1.relabel m, x.2.relabel m)

theorem offerOperand_relabel (hm : m.Steady) (ps : List Pending) (t : Token) (l : Ledger) :
    offerOperand (ps.map (Pending.relabel m)) (t.relabel m) (l.relabel m)
      = relabelOffer m (offerOperand ps t l) := by
  unfold offerOperand
  rw [Token.relabel_kind, Ledger.relabel_number hm]
  split <;> simp [relabelOffer, Offer.relabel, Partial.relabel, Phase.relabel, Pending.relabel,
    Expr.relabel]

theorem offerEnd_relabel (ps : List Pending) (e : Expr) (t : Token) (l : Ledger) :
    offerEnd (ps.map (Pending.relabel m)) (e.relabel m) (t.relabel m) (l.relabel m)
      = relabelOffer m (offerEnd ps e t l) := by
  unfold offerEnd
  rw [closeAll_relabel, Token.relabel_kind]
  generalize closeAll ps e l = x
  obtain ⟨ps', e', l'⟩ := x
  cases ps' with
  | nil => rfl
  | cons p rest =>
    cases p with
    | group =>
      simp only [List.map_cons, Pending.relabel]
      split <;> simp [relabelOffer, Offer.relabel, Partial.relabel, Phase.relabel, Expr.relabel]
    | arguments callee earlier =>
      simp only [List.map_cons, Pending.relabel]
      split <;> simp [relabelOffer, Offer.relabel, Partial.relabel, Phase.relabel, Expr.relabel]
    | _ => rfl

theorem offerAfter_relabel (ps : List Pending) (e : Expr) (t : Token) (l : Ledger) :
    offerAfter (ps.map (Pending.relabel m)) (e.relabel m) (t.relabel m) (l.relabel m)
      = relabelOffer m (offerAfter ps e t l) := by
  unfold offerAfter
  rw [Token.relabel_kind]
  split
  · rfl
  · rfl
  · rw [closeOperators_relabel]
    rfl
  · rw [closeOperators_relabel]
    rfl
  · exact offerEnd_relabel m ps e t l

/-- **A partial expression does not look at lines.** -/
theorem Partial.offer_relabel (hm : m.Steady) (p : Partial) (t : Token) (l : Ledger) :
    (p.relabel m).offer (t.relabel m) (l.relabel m) = relabelOffer m (p.offer t l) := by
  obtain ⟨ps, phase⟩ := p
  unfold Partial.offer Partial.relabel
  rw [Token.relabel_kind]
  cases phase with
  | operand => exact offerOperand_relabel m hm ps t l
  | firstArgument callee =>
    simp only [Phase.relabel]
    split
    · simp [relabelOffer, Offer.relabel, Partial.relabel, Phase.relabel, Expr.relabel, Expr.relabelAll]
    · have h := offerOperand_relabel m hm (.arguments callee #[] :: ps) t l
      rw [List.map_cons, Pending.relabel, Array.map_empty] at h
      exact h
  | nextArgument callee earlier =>
    simp only [Phase.relabel, Array.size_map]
    by_cases h : maxArity ≤ earlier.size
    · rw [if_pos h, if_pos h, Ledger.relabel_report]
      exact offerOperand_relabel m hm (.arguments callee earlier :: ps) t _
    · rw [if_neg h, if_neg h]
      exact offerOperand_relabel m hm (.arguments callee earlier :: ps) t l
  | after e => exact offerAfter_relabel m ps e t l
  | property object =>
    simp only [Phase.relabel]
    split <;> simp [relabelOffer, Offer.relabel, Partial.relabel, Phase.relabel, Expr.relabel]
  | superDot keyword =>
    simp only [Phase.relabel]
    split <;> simp [relabelOffer, Offer.relabel, Partial.relabel, Phase.relabel]
  | superMethod keyword =>
    simp only [Phase.relabel, Ledger.relabel_number hm]
    split <;> simp [relabelOffer, Offer.relabel, Partial.relabel, Phase.relabel, Expr.relabel]

/-! ## §3. Statements. -/

/-- The head of a class under new labels. -/
def ClassHead.relabel (head : ClassHead) : ClassHead :=
  ⟨head.name.relabel m, head.superclass.map (Occurrence.relabel m)⟩

/-- Where a function is declared, under new labels. -/
def Owner.relabel : Owner → Owner
  | .function => .function
  | .method head earlier => .method (head.relabel m) (earlier.map (Stmt.relabelFunction m))

/-- An open statement under new labels. -/
def Context.relabel : Context → Context
  | .block earlier => .block (earlier.map (Stmt.relabel m))
  | .body owner name params earlier =>
      .body (owner.relabel m) (name.relabel m) (params.map (Token.relabel m))
        (earlier.map (Stmt.relabel m))
  | .thenBranch condition => .thenBranch (condition.relabel m)
  | .elseBranch condition branch => .elseBranch (condition.relabel m) (branch.relabel m)
  | .whileBody condition => .whileBody (condition.relabel m)
  | .forBody initializer condition increment =>
      .forBody (initializer.map (Stmt.relabel m)) (condition.map (Expr.relabel m))
        (increment.map (Expr.relabel m))

/-- What an expression is read for, under new labels. -/
def Clause.relabel : Clause → Clause
  | .statement => .statement
  | .print => .print
  | .variable place name => .variable place (name.relabel m)
  | .return keyword => .return (keyword.relabel m)
  | .ifCondition => .ifCondition
  | .whileCondition => .whileCondition
  | .forInitializer => .forInitializer
  | .forCondition initializer => .forCondition (initializer.map (Stmt.relabel m))
  | .forIncrement initializer condition =>
      .forIncrement (initializer.map (Stmt.relabel m)) (condition.map (Expr.relabel m))

/-- What is expected next, under new labels. -/
def Expect.relabel : Expect → Expect
  | .declaration => .declaration
  | .statement => .statement
  | .finished s => .finished (s.relabel m)
  | .expression clause p => .expression (clause.relabel m) (p.relabel m)
  | .className => .className
  | .superclass name => .superclass (name.relabel m)
  | .superclassName name => .superclassName (name.relabel m)
  | .classBodyOpen head => .classBodyOpen (head.relabel m)
  | .member head methods => .member (head.relabel m) (methods.map (Stmt.relabelFunction m))
  | .functionName owner => .functionName (owner.relabel m)
  | .parametersOpen owner name => .parametersOpen (owner.relabel m) (name.relabel m)
  | .firstParameter owner name => .firstParameter (owner.relabel m) (name.relabel m)
  | .nextParameter owner name params =>
      .nextParameter (owner.relabel m) (name.relabel m) (params.map (Token.relabel m))
  | .afterParameter owner name params =>
      .afterParameter (owner.relabel m) (name.relabel m) (params.map (Token.relabel m))
  | .functionBodyOpen owner name params =>
      .functionBodyOpen (owner.relabel m) (name.relabel m) (params.map (Token.relabel m))
  | .variableName place => .variableName place
  | .variableValue place name => .variableValue place (name.relabel m)
  | .ifOpen => .ifOpen
  | .whileOpen => .whileOpen
  | .forOpen => .forOpen
  | .forInitializer => .forInitializer
  | .forCondition initializer => .forCondition (initializer.map (Stmt.relabel m))
  | .forIncrement initializer condition =>
      .forIncrement (initializer.map (Stmt.relabel m)) (condition.map (Expr.relabel m))
  | .returnValue keyword => .returnValue (keyword.relabel m)
  | .recovery afterSemicolon => .recovery afterSemicolon

namespace Reader

variable (before : Array Stmt)

/-- A reader under new labels, after some complete statements. -/
def carried (r : Reader) : Reader where
  expect := r.expect.relabel m
  contexts := r.contexts.map (Context.relabel m)
  program := before ++ r.program.map (Stmt.relabel m)
  ledger := r.ledger.relabel m

theorem start_carried (n : Nat) :
    (start n).carried m before = ⟨.declaration, [], before, ⟨m.id n, #[]⟩⟩ := by
  simp [start, carried, Expect.relabel, Ledger.relabel]

theorem isBlock_relabel (c : Context) : (c.relabel m).isBlock = c.isBlock := by
  cases c <;> rfl

theorem fail_carried (r : Reader) (t : Token) (fault : SyntaxFault) :
    (r.carried m before).fail (t.relabel m) fault = (r.fail t fault).carried m before := by
  have hdrop : (r.contexts.map (Context.relabel m)).dropWhile (!·.isBlock)
      = (r.contexts.dropWhile (!·.isBlock)).map (Context.relabel m) := by
    rw [List.dropWhile_map]
    simp only [Function.comp_def, isBlock_relabel]
  unfold fail report carried
  dsimp only
  rw [hdrop, Ledger.relabel_report, Token.relabel_kind]
  rfl

theorem awaitsElse_relabel (cs : List Context) :
    awaitsElse (cs.map (Context.relabel m)) = awaitsElse cs := by
  induction cs with
  | nil => rfl
  | cons c cs ih =>
    cases c with
    | thenBranch | block | body => rfl
    | elseBranch | whileBody | forBody => exact ih

theorem placeBeforeElse_carried (r : Reader) (cs : List Context) (s : Stmt) :
    (r.carried m before).placeBeforeElse (cs.map (Context.relabel m)) (s.relabel m)
      = (r.placeBeforeElse cs s).carried m before := by
  induction cs generalizing s with
  | nil => rfl
  | cons c cs ih =>
    cases c with
    | thenBranch | block | body => rfl
    | elseBranch condition thenBranch =>
      have h := ih (.ifElse condition thenBranch (some s))
      rw [Stmt.relabel] at h
      exact h
    | whileBody condition =>
      have h := ih (.while condition s)
      rw [Stmt.relabel] at h
      exact h
    | forBody initializer condition increment =>
      have h := ih (.forLoop initializer condition increment s)
      rw [Stmt.relabel_forLoop] at h
      exact h

theorem place_carried (r : Reader) (cs : List Context) (s : Stmt) :
    (r.carried m before).place (cs.map (Context.relabel m)) (s.relabel m)
      = (r.place cs s).carried m before := by
  induction cs generalizing s with
  | nil =>
    unfold place carried
    simp [Expect.relabel]
  | cons c cs ih =>
    cases c with
    | block earlier =>
      simp [place, carried, Context.relabel, Expect.relabel]
    | body owner name params earlier =>
      simp [place, carried, Context.relabel, Expect.relabel]
    | thenBranch condition =>
      have h := ih (.ifElse condition s none)
      rw [Stmt.relabel] at h
      exact h
    | elseBranch condition thenBranch =>
      have h := ih (.ifElse condition thenBranch (some s))
      rw [Stmt.relabel] at h
      exact h
    | whileBody condition =>
      have h := ih (.while condition s)
      rw [Stmt.relabel] at h
      exact h
    | forBody initializer condition increment =>
      have h := ih (.forLoop initializer condition increment s)
      rw [Stmt.relabel_forLoop] at h
      exact h

theorem finishFunction_carried (r : Reader) (owner : Owner) (decl : FunctionDecl Stmt) :
    (r.carried m before).finishFunction (owner.relabel m) (Stmt.relabelFunction m decl)
      = (r.finishFunction owner decl).carried m before := by
  cases owner with
  | function => simp [Owner.relabel, finishFunction, expecting, carried, Expect.relabel, Stmt.relabel]
  | method head earlier =>
    simp [Owner.relabel, finishFunction, expecting, carried, Expect.relabel]

theorem finishVariable_carried (r : Reader) (place : VariablePlace) (name : Token)
    (initializer : Option Expr) :
    (r.carried m before).finishVariable place (name.relabel m) (initializer.map (Expr.relabel m))
      = (r.finishVariable place name initializer).carried m before := by
  cases place <;> simp [finishVariable, expecting, carried, Expect.relabel, Stmt.relabel]

/-! ## §4. Tokens for statements. -/

/-- What is wrong when an expression is not followed by what ends its clause. -/
def clauseFault : Clause → SyntaxFault
  | .statement | .forInitializer => .expressionEnd
  | .print => .printEnd
  | .variable _ _ => .variableEnd
  | .return _ => .returnEnd
  | .ifCondition => .ifClose
  | .whileCondition => .whileClose
  | .forCondition _ => .conditionEnd
  | .forIncrement _ _ => .forClose

theorem endClause_of_ne {r : Reader} {clause : Clause} {e : Expr} {t : Token}
    (ht : t.kind ≠ Grammar.stop clause) : r.endClause clause e t = r.fail t (clauseFault clause) := by
  unfold endClause
  split <;> first
    | rfl
    | next hk => exact absurd hk ht

theorem endClause_carried (r : Reader) (clause : Clause) (e : Expr) (t : Token) :
    (r.carried m before).endClause (clause.relabel m) (e.relabel m) (t.relabel m)
      = (r.endClause clause e t).carried m before := by
  have hstop : Grammar.stop (clause.relabel m) = Grammar.stop clause := by cases clause <;> rfl
  by_cases ht : t.kind = Grammar.stop clause
  · unfold endClause
    rw [Token.relabel_kind, ht]
    cases clause with
    | «variable» place name => exact finishVariable_carried m before r place name (some e)
    | _ => simp [Clause.relabel, Grammar.stop, expecting, opening, carried, Expect.relabel,
        Context.relabel, Stmt.relabel]
  · have hfault : clauseFault (clause.relabel m) = clauseFault clause := by cases clause <;> rfl
    have ht' : (t.relabel m).kind ≠ Grammar.stop (clause.relabel m) := by
      rw [Token.relabel_kind, hstop]
      exact ht
    rw [endClause_of_ne ht, endClause_of_ne ht', hfault]
    exact fail_carried m before r t _

theorem offerExpression_carried (hm : m.Steady) (r : Reader) (clause : Clause) (p : Partial)
    (t : Token) :
    (r.carried m before).offerExpression (clause.relabel m) (p.relabel m) (t.relabel m)
      = (r.offerExpression clause p t).carried m before := by
  have hoffer : (p.relabel m).offer (t.relabel m) (r.carried m before).ledger
      = relabelOffer m (p.offer t r.ledger) := p.offer_relabel m hm t r.ledger
  unfold offerExpression
  rw [hoffer]
  generalize p.offer t r.ledger = x
  obtain ⟨offer, ledger⟩ := x
  cases offer with
  | taken p => rfl
  | whole e => exact endClause_carried m before { r with ledger } clause e t
  | refused fault => exact fail_carried m before { r with ledger } t fault

theorem offerStatement_carried (hm : m.Steady) (r : Reader) (t : Token) :
    (r.carried m before).offerStatement (t.relabel m) = (r.offerStatement t).carried m before := by
  unfold offerStatement
  rw [Token.relabel_kind]
  split <;> first
    | rfl
    | exact offerExpression_carried m before hm r .statement .empty t
    | simp [opening, carried, Expect.relabel, Context.relabel]

/-- Where no block can end, what stands around a declaration does not matter. -/
theorem offerDeclaration_of_ne {r : Reader} {t : Token} (ht : t.kind ≠ .rightBrace) :
    r.offerDeclaration t = match t.kind with
      | .kwClass => r.expecting .className
      | .kwFun => r.expecting (.functionName .function)
      | .kwVar => r.expecting (.variableName .declaration)
      | _ => r.offerStatement t := by
  unfold offerDeclaration
  split
  · next hk _ => exact absurd hk ht
  · next hk _ => exact absurd hk ht
  · next hk => rw [hk]
  · next hk => rw [hk]
  · next hk => rw [hk]
  · next hclass hfun hvar _ _ =>
    split
    · next hk => exact (hclass hk).elim
    · next hk => exact (hfun hk).elim
    · next hk => exact (hvar hk).elim
    · rfl

theorem offerDeclaration_carried (hm : m.Steady) (r : Reader) (t : Token) :
    (r.carried m before).offerDeclaration (t.relabel m)
      = (r.offerDeclaration t).carried m before := by
  by_cases ht : t.kind = .rightBrace
  · have hstatement := offerStatement_carried m before hm r t
    obtain ⟨expect, contexts, program, ledger⟩ := r
    unfold offerDeclaration
    rw [Token.relabel_kind, ht]
    cases contexts with
    | nil => exact hstatement
    | cons c cs =>
      cases c with
      | block earlier =>
        simp [carried, Context.relabel, Expect.relabel, Stmt.relabel]
      | body owner name params earlier =>
        have h := finishFunction_carried m before ⟨expect, cs, program, ledger⟩ owner
          ⟨name, params.toList, earlier.toList⟩
        rw [Stmt.relabelFunction_eq, ← Array.toList_map, ← Array.toList_map] at h
        exact h
      | _ => exact hstatement
  · have ht' : (t.relabel m).kind ≠ .rightBrace := by
      rw [Token.relabel_kind]
      exact ht
    rw [offerDeclaration_of_ne ht, offerDeclaration_of_ne ht', Token.relabel_kind]
    split
    · rfl
    · rfl
    · rfl
    · exact offerStatement_carried m before hm r t

theorem kind_relabel (owner : Owner) : (owner.relabel m).kind = owner.kind := by
  cases owner <;> rfl

theorem offerFunctionName_carried (r : Reader) (owner : Owner) (t : Token) :
    (r.carried m before).offerFunctionName (owner.relabel m) (t.relabel m)
      = (r.offerFunctionName owner t).carried m before := by
  unfold offerFunctionName
  rw [Token.relabel_kind, kind_relabel]
  split
  · rfl
  · exact fail_carried m before r t _

theorem offerParameter_carried (r : Reader) (owner : Owner) (name : Token) (params : Array Token)
    (t : Token) :
    (r.carried m before).offerParameter (owner.relabel m) (name.relabel m)
        (params.map (Token.relabel m)) (t.relabel m)
      = (r.offerParameter owner name params t).carried m before := by
  have hreport : (if maxArity ≤ params.size
        then (r.carried m before).report (t.relabel m) .tooManyParameters else r.carried m before)
      = (if maxArity ≤ params.size then r.report t .tooManyParameters else r).carried m before := by
    split
    · unfold report carried
      dsimp only
      rw [Ledger.relabel_report]
    · rfl
  unfold offerParameter
  rw [Array.size_map, hreport, Token.relabel_kind]
  dsimp only
  split
  · simp [expecting, carried, Expect.relabel]
  · exact fail_carried m before _ t _

/-! ## §5. All tokens. -/

/-- **A reader does not look at lines, nor at the statements that are
complete.** -/
theorem offer_carried (hm : m.Steady) (r : Reader) (t : Token) :
    (r.carried m before).offer (t.relabel m) = (r.offer t).carried m before := by
  -- what the cases end in, said of the reader before it is taken apart
  have hfail := fail_carried m before r t
  have hexpression := fun clause => offerExpression_carried m before hm r clause .empty t
  have hdeclaration := offerDeclaration_carried m before hm r t
  have hname := fun owner => offerFunctionName_carried m before r owner t
  have hvariable := finishVariable_carried m before r
  obtain ⟨expect, contexts, program, ledger⟩ := r
  unfold offer
  rw [Token.relabel_kind]
  cases expect with
  | declaration => exact hdeclaration
  | statement => exact offerStatement_carried m before hm _ t
  | finished s =>
    have hawaits := awaitsElse_relabel m contexts
    by_cases h : t.kind = .kwElse ∧ awaitsElse contexts
    · have h' : t.kind = .kwElse ∧ awaitsElse (contexts.map (Context.relabel m)) :=
        ⟨h.1, hawaits.trans h.2⟩
      exact (if_pos h').trans ((placeBeforeElse_carried m before _ contexts s).trans
        (congrArg (carried m before) (if_pos h).symm))
    · have h' : ¬ (t.kind = .kwElse ∧ awaitsElse (contexts.map (Context.relabel m))) := by
        rw [hawaits]
        exact h
      refine (if_neg h').trans (Eq.trans ?_ (congrArg (carried m before) (if_neg h).symm))
      exact (congrArg (·.offerDeclaration (t.relabel m))
        (place_carried m before _ contexts s)).trans (offerDeclaration_carried m before hm _ t)
  | expression clause p => exact offerExpression_carried m before hm _ clause p t
  | member head methods =>
    dsimp only [carried, Expect.relabel]
    split
    · simp [expecting, ClassHead.relabel, Stmt.relabel]
    · exact hfail _
    · exact hname (.method head methods)
  | functionName owner => exact hname owner
  | firstParameter owner name =>
    dsimp only [carried, Expect.relabel]
    split
    · simp [expecting]
    · have h := offerParameter_carried m before
        ⟨.firstParameter owner name, contexts, program, ledger⟩ owner name #[] t
      rw [Array.map_empty] at h
      exact h
  | nextParameter owner name params => exact offerParameter_carried m before _ owner name params t
  | variableValue place name =>
    dsimp only [carried, Expect.relabel]
    split
    · rfl
    · exact hvariable place name none
    · exact hfail _
  | recovery afterSemicolon =>
    dsimp only [carried, Expect.relabel]
    split
    · exact hdeclaration
    · rfl
  | parametersOpen owner name =>
    dsimp only [carried, Expect.relabel]
    rw [kind_relabel]
    split
    · rfl
    · exact hfail _
  | functionBodyOpen owner name params =>
    dsimp only [carried, Expect.relabel]
    rw [kind_relabel]
    split
    · simp [opening, Context.relabel]
    · exact hfail _
  | superclass name =>
    dsimp only [carried, Expect.relabel]
    split
    · rfl
    · simp [expecting, ClassHead.relabel]
    · exact hfail _
  | superclassName name =>
    dsimp only [carried, Expect.relabel]
    rw [Ledger.relabel_number hm]
    split
    · rfl
    · exact hfail _
  | classBodyOpen head =>
    dsimp only [carried, Expect.relabel]
    split
    · simp [expecting]
    · exact hfail _
  | forInitializer =>
    dsimp only [carried, Expect.relabel]
    split
    · rfl
    · rfl
    · exact hexpression .forInitializer
  | forCondition initializer =>
    dsimp only [carried, Expect.relabel]
    split
    · rfl
    · exact hexpression (.forCondition initializer)
  | forIncrement initializer condition =>
    dsimp only [carried, Expect.relabel]
    split
    · rfl
    · exact hexpression (.forIncrement initializer condition)
  | returnValue keyword =>
    dsimp only [carried, Expect.relabel]
    split
    · simp [expecting, Stmt.relabel]
    · exact hexpression (.return keyword)
  | _ =>
    dsimp only [carried, Expect.relabel]
    split <;> first
      | rfl
      | exact hfail _

theorem offerEof_carried (hm : m.Steady) (r : Reader) (eof : Token) :
    (r.carried m before).offerEof (eof.relabel m) = (r.offerEof eof).carried m before := by
  have hoffer := offer_carried m before hm r eof
  obtain ⟨expect, contexts, program, ledger⟩ := r
  cases expect with
  | declaration | recovery => rfl
  | finished s => exact place_carried m before _ contexts s
  | _ => exact hoffer

theorem foldl_report_relabel {α β : Type} (xs : List α) (ys : List β) (h : xs.length = ys.length)
    (l : Ledger) (t : Token) (fault : SyntaxFault) :
    xs.foldl (fun l _ => l.report (t.relabel m) fault) (l.relabel m)
      = (ys.foldl (fun l _ => l.report t fault) l).relabel m := by
  induction xs generalizing ys l with
  | nil =>
    obtain rfl := List.eq_nil_of_length_eq_zero h.symm
    rfl
  | cons x xs ih =>
    obtain ⟨y, ys, rfl⟩ := List.exists_cons_of_length_eq_add_one h.symm
    rw [List.foldl_cons, List.foldl_cons, Ledger.relabel_report]
    exact ih ys (Nat.succ.inj h) _

theorem finish_carried (hm : m.Steady) (r : Reader) (eof : Token) :
    (r.carried m before).finish (eof.relabel m) = (r.finish eof).carried m before := by
  unfold finish
  rw [offerEof_carried m before hm]
  generalize r.offerEof eof = r'
  have hlength : ((r'.carried m before).contexts.filter Context.isBlock).length
      = (r'.contexts.filter Context.isBlock).length := by
    have hisBlock : Context.isBlock ∘ Context.relabel m = Context.isBlock :=
      funext (isBlock_relabel m)
    show ((r'.contexts.map (Context.relabel m)).filter Context.isBlock).length = _
    rw [List.filter_map, List.length_map, hisBlock]
  have hledger := foldl_report_relabel m _ _ hlength r'.ledger eof .blockClose
  dsimp only
  unfold carried at hledger ⊢
  rw [hledger]
  rfl

/-- **Tokens under new labels are read as the same statements under new labels.** -/
theorem readAll_carried (hm : m.Steady) (r : Reader) (ts : List Token) :
    (r.carried m before).readAll (ts.map (Token.relabel m)) = (r.readAll ts).carried m before := by
  induction ts generalizing r with
  | nil => rfl
  | cons t ts ih =>
    rw [List.map_cons, readAll, readAll, Token.relabel_kind]
    by_cases ht : t.kind = .eof
    · rw [if_pos ht, if_pos ht]
      exact finish_carried m before hm r t
    · rw [if_neg ht, if_neg ht, offer_carried m before hm]
      exact ih (r.offer t)

end Reader

/-- **Tokens under new labels are read as the same program under new labels**,
if numbers in a row stay in a row. -/
theorem program_relabel (hm : m.Steady) (n : Nat) (ts : List Token) :
    program (m.id n) (ts.map (Token.relabel m))
      = ⟨(program n ts).statements.map (Stmt.relabel m),
        (program n ts).failures.map (Diagnostic.relabel m), m.id (program n ts).nextId⟩ := by
  have hread := Reader.readAll_carried m #[] hm (.start n) ts
  rw [Reader.start_carried] at hread
  unfold program
  rw [show Reader.start (m.id n) = ⟨.declaration, [], #[], ⟨m.id n, #[]⟩⟩ from rfl, hread]
  simp [Reader.carried, Ledger.relabel]

/-- **Where the numbers start does not matter** for how tokens are read. -/
theorem program_add (n k : Nat) (ts : List Token) :
    program (n + k) ts
      = ⟨Stmt.relabelAll (.moved k) (program n ts).statements, (program n ts).failures,
        (program n ts).nextId + k⟩ := by
  have htokens : ts.map (Token.relabel (.moved k)) = ts := List.map_id ts
  have hfailures : ∀ ds : List Diagnostic, ds.map (Diagnostic.relabel (.moved k)) = ds := by
    intro ds
    rw [List.map_congr_left fun d _ => d.relabel_moved k, List.map_id']
  have hprogram := program_relabel (.moved k) (Relabel.steady_moved k) n ts
  rw [htokens, hfailures] at hprogram
  rw [Stmt.relabelAll_eq_map]
  exact hprogram

end Lox.Parse
