/-
  Lox.Proofs.Grammar.Program
  ──────────────────────────
  **WHAT A READER HAS READ IS DERIVED.**

  The tokens that a reader has been offered fall into the complete top-level
  declarations, the beginnings of the statements that are open around the
  place that is read, and the beginning of what is expected:

    • `Surrounds` — the tokens up to the innermost open statement,
    • `Begins`    — the tokens after that.

  As long as no failure is noted, offering a token keeps this (`ReadsUpTo.offer`),
  so a program that is read without a failure is derived from the grammar,
  and the tree that is read is the derived one (`derives_program`).
-/
import Lox.Proofs.Grammar.Expression

namespace Lox.Grammar

open Parse

/-! ## §1. The tokens of what is open. -/

/-- Whether declarations can stand directly inside the innermost context. -/
def declarable : List Context → Bool
  | [] => true
  | c :: _ => c.isBlock

/-- The tokens before the name of a function: the keyword of a function on
its own, or a class up to its next method. -/
inductive Owned : List Token → Owner → Prop where
  | function {keyword} : keyword.kind = .kwFun → Owned [keyword] .function
  | method {keyword name ws parent lbrace wm} {earlier : Array (FunctionDecl Stmt)} :
      keyword.kind = .kwClass → name.kind = .identifier → Superclass ws parent →
      lbrace.kind = .leftBrace → Functions wm earlier.toList →
      Owned (keyword :: name :: (ws ++ lbrace :: wm)) (.method ⟨name, parent⟩ earlier)

/-- The beginning of an `if` or a `while` up to its first inner statement. -/
inductive Headed (k : TokenKind) : List Token → Expr → Prop where
  | mk {keyword lparen w condition rparen} :
      keyword.kind = k → lparen.kind = .leftParen → Derives .expression w condition →
      rparen.kind = .rightParen → Headed k (keyword :: lparen :: (w ++ [rparen])) condition

/-- **The tokens up to the place that is read**, inside the open statements. -/
inductive Surrounds (program : List Stmt) : List Token → List Context → Prop where
  | top {w} : Declarations w program → Surrounds program w []
  | block {w cs lbrace wd} {earlier : Array Stmt} :
      Surrounds program w cs → lbrace.kind = .leftBrace → Declarations wd earlier.toList →
      Surrounds program (w ++ lbrace :: wd) (.block earlier :: cs)
  | body {w cs wo owner name wp lbrace wd} {params : Array Token} {earlier : Array Stmt} :
      Surrounds program w cs → declarable cs → Owned wo owner → name.kind = .identifier →
      ParameterList wp params.toList → lbrace.kind = .leftBrace →
      Declarations wd earlier.toList →
      Surrounds program (w ++ (wo ++ name :: (wp ++ lbrace :: wd)))
        (.body owner name params earlier :: cs)
  | thenBranch {w cs wc condition} :
      Surrounds program w cs → Headed .kwIf wc condition →
      Surrounds program (w ++ wc) (.thenBranch condition :: cs)
  | elseBranch {w cs wc condition wt thenBranch kwElse} :
      Surrounds program w cs → Headed .kwIf wc condition → Statement wt thenBranch →
      kwElse.kind = .kwElse →
      Surrounds program (w ++ (wc ++ (wt ++ [kwElse]))) (.elseBranch condition thenBranch :: cs)
  | whileBody {w cs wc condition} :
      Surrounds program w cs → Headed .kwWhile wc condition →
      Surrounds program (w ++ wc) (.whileBody condition :: cs)
  | forBody {w cs keyword lparen wi initializer wc condition semicolon wn increment rparen} :
      Surrounds program w cs → keyword.kind = .kwFor → lparen.kind = .leftParen →
      ForInitializer wi initializer → Optional wc condition → semicolon.kind = .semicolon →
      Optional wn increment → rparen.kind = .rightParen →
      Surrounds program
        (w ++ keyword :: lparen :: (wi ++ (wc ++ semicolon :: (wn ++ [rparen]))))
        (.forBody initializer condition increment :: cs)

/-! ## §2. The tokens of what is expected. -/

/-- The beginning of a variable up to its name; `d` tells whether a
declaration can stand here. -/
inductive VariableBegins (d : Bool) : List Token → VariablePlace → Prop where
  | declaration {keyword} : d → keyword.kind = .kwVar → VariableBegins d [keyword] .declaration
  | forClause {kwFor lparen keyword} :
      kwFor.kind = .kwFor → lparen.kind = .leftParen → keyword.kind = .kwVar →
      VariableBegins d [kwFor, lparen, keyword] .forClause

/-- The beginning of a statement up to an expression in it. -/
inductive ClauseBegins (d : Bool) : List Token → Clause → Prop where
  | statement : ClauseBegins d [] .statement
  | print {keyword} : keyword.kind = .kwPrint → ClauseBegins d [keyword] .print
  | variableValue {w place name equals} :
      VariableBegins d w place → name.kind = .identifier → equals.kind = .equal →
      ClauseBegins d (w ++ [name, equals]) (.variable place name)
  | returnValue {keyword} :
      keyword.kind = .kwReturn → ClauseBegins d [keyword] (.return keyword)
  | ifCondition {keyword lparen} :
      keyword.kind = .kwIf → lparen.kind = .leftParen →
      ClauseBegins d [keyword, lparen] .ifCondition
  | whileCondition {keyword lparen} :
      keyword.kind = .kwWhile → lparen.kind = .leftParen →
      ClauseBegins d [keyword, lparen] .whileCondition
  | forInitializer {keyword lparen} :
      keyword.kind = .kwFor → lparen.kind = .leftParen →
      ClauseBegins d [keyword, lparen] .forInitializer
  | forCondition {keyword lparen wi initializer} :
      keyword.kind = .kwFor → lparen.kind = .leftParen → ForInitializer wi initializer →
      ClauseBegins d (keyword :: lparen :: wi) (.forCondition initializer)
  | forIncrement {keyword lparen wi initializer wc condition semicolon} :
      keyword.kind = .kwFor → lparen.kind = .leftParen → ForInitializer wi initializer →
      Optional wc condition → semicolon.kind = .semicolon →
      ClauseBegins d (keyword :: lparen :: (wi ++ (wc ++ [semicolon])))
        (.forIncrement initializer condition)

/-- **The tokens after the surroundings**, up to what is expected next. -/
inductive Begins (d : Bool) : List Token → Expect → Prop where
  | declaration : d → Begins d [] .declaration
  | statement : Begins d [] .statement
  | finished {w s} : Statement w s ∨ d ∧ Declaration w s → Begins d w (.finished s)
  | expression {wc clause w p} :
      ClauseBegins d wc clause → Reads w p → Begins d (wc ++ w) (.expression clause p)
  | className {keyword} : d → keyword.kind = .kwClass → Begins d [keyword] .className
  | superclass {keyword name} :
      d → keyword.kind = .kwClass → name.kind = .identifier →
      Begins d [keyword, name] (.superclass name)
  | superclassName {keyword name less} :
      d → keyword.kind = .kwClass → name.kind = .identifier → less.kind = .less →
      Begins d [keyword, name, less] (.superclassName name)
  | classBodyOpen {keyword name ws parent} :
      d → keyword.kind = .kwClass → name.kind = .identifier → Superclass ws parent →
      Begins d (keyword :: name :: ws) (.classBodyOpen ⟨name, parent⟩)
  | member {w head methods} :
      d → Owned w (.method head methods) → Begins d w (.member head methods)
  | functionName {w owner} : d → Owned w owner → Begins d w (.functionName owner)
  | parametersOpen {w owner name} :
      d → Owned w owner → name.kind = .identifier →
      Begins d (w ++ [name]) (.parametersOpen owner name)
  | firstParameter {w owner name lparen} :
      d → Owned w owner → name.kind = .identifier → lparen.kind = .leftParen →
      Begins d (w ++ [name, lparen]) (.firstParameter owner name)
  | nextParameter {w owner name lparen wp comma} {params : Array Token} :
      d → Owned w owner → name.kind = .identifier → lparen.kind = .leftParen →
      Parameters wp params.toList → comma.kind = .comma →
      Begins d (w ++ name :: lparen :: (wp ++ [comma])) (.nextParameter owner name params)
  | afterParameter {w owner name lparen wp} {params : Array Token} :
      d → Owned w owner → name.kind = .identifier → lparen.kind = .leftParen →
      Parameters wp params.toList → params.size ≤ maxArity →
      Begins d (w ++ name :: lparen :: wp) (.afterParameter owner name params)
  | functionBodyOpen {w owner name wp} {params : Array Token} :
      d → Owned w owner → name.kind = .identifier → ParameterList wp params.toList →
      Begins d (w ++ name :: wp) (.functionBodyOpen owner name params)
  | variableName {w place} : VariableBegins d w place → Begins d w (.variableName place)
  | variableValue {w place name} :
      VariableBegins d w place → name.kind = .identifier →
      Begins d (w ++ [name]) (.variableValue place name)
  | ifOpen {keyword} : keyword.kind = .kwIf → Begins d [keyword] .ifOpen
  | whileOpen {keyword} : keyword.kind = .kwWhile → Begins d [keyword] .whileOpen
  | forOpen {keyword} : keyword.kind = .kwFor → Begins d [keyword] .forOpen
  | forInitializer {keyword lparen} :
      keyword.kind = .kwFor → lparen.kind = .leftParen →
      Begins d [keyword, lparen] .forInitializer
  | forCondition {keyword lparen wi initializer} :
      keyword.kind = .kwFor → lparen.kind = .leftParen → ForInitializer wi initializer →
      Begins d (keyword :: lparen :: wi) (.forCondition initializer)
  | forIncrement {keyword lparen wi initializer wc condition semicolon} :
      keyword.kind = .kwFor → lparen.kind = .leftParen → ForInitializer wi initializer →
      Optional wc condition → semicolon.kind = .semicolon →
      Begins d (keyword :: lparen :: (wi ++ (wc ++ [semicolon])))
        (.forIncrement initializer condition)
  | returnValue {keyword} :
      keyword.kind = .kwReturn → Begins d [keyword] (.returnValue keyword)

/-- **A reader has read these tokens.** -/
inductive ReadsUpTo : List Token → Reader → Prop where
  | mk {w w' r} :
      Surrounds r.program.toList w r.contexts → Begins (declarable r.contexts) w' r.expect →
      ReadsUpTo (w ++ w') r

theorem readsUpTo_start (firstId : Nat) : ReadsUpTo [] (Reader.start firstId) := by
  have hempty : Surrounds [] [] [] := .top .nil
  exact .mk (r := Reader.start firstId) hempty (.declaration rfl)

/-! ## §3. Placing a finished statement. -/

theorem Headed.ifStmt {wc wt : List Token} {condition : Expr} {s : Stmt}
    (h : Headed .kwIf wc condition) (hs : Statement wt s) :
    Statement (wc ++ wt) (.ifElse condition s none) := by
  cases h with
  | mk hk hl hc hr =>
    have hif := Statement.ifStmt hk hl hc hr hs
    simpa using hif

theorem Headed.ifElse {wc wt we : List Token} {condition : Expr} {s s' : Stmt} {kwElse : Token}
    (h : Headed .kwIf wc condition) (hs : Statement wt s) (he : kwElse.kind = .kwElse)
    (hs' : Statement we s') :
    Statement (wc ++ (wt ++ [kwElse]) ++ we) (.ifElse condition s (some s')) := by
  cases h with
  | mk hk hl hc hr =>
    have hif := Statement.ifElse hk hl hc hr hs he hs'
    simpa using hif

theorem Headed.whileStmt {wc wb : List Token} {condition : Expr} {s : Stmt}
    (h : Headed .kwWhile wc condition) (hs : Statement wb s) :
    Statement (wc ++ wb) (.while condition s) := by
  cases h with
  | mk hk hl hc hr =>
    have hwhile := Statement.whileStmt hk hl hc hr hs
    simpa using hwhile

/-- What can be finished where only a statement can stand. -/
theorem statement_of_finished {cs : List Context} {c : Context} {w : List Token} {s : Stmt}
    (h : Statement w s ∨ declarable (c :: cs) ∧ Declaration w s) (hc : c.isBlock = false) :
    Statement w s := by
  rcases h with h | ⟨hd, -⟩
  · exact h
  · rw [declarable, hc] at hd
    cases hd

theorem declaration_of_finished {cs : List Context} {w : List Token} {s : Stmt}
    (h : Statement w s ∨ declarable cs ∧ Declaration w s) : Declaration w s := by
  rcases h with h | h
  · exact .statement h
  · exact h.2

/-- **Placing a statement** that no `else` follows ends all statements around
it up to the innermost block. -/
theorem Surrounds.place {program : List Stmt} {w : List Token} {cs : List Context}
    (h : Surrounds program w cs) :
    ∀ {ws : List Token} {s : Stmt} (r : Reader), r.program.toList = program →
      (Statement ws s ∨ declarable cs ∧ Declaration ws s) →
      Surrounds (r.place cs s).program.toList (w ++ ws) (r.place cs s).contexts
        ∧ declarable (r.place cs s).contexts := by
  -- a block, a body or the program takes the statement; a branch or the body of a loop makes
  -- a larger statement of it, which is placed in turn
  induction h with
  | top hd =>
    intro ws s r hr hs
    refine ⟨.top ?_, rfl⟩
    show Declarations _ (r.program.push s).toList
    rw [Array.toList_push, hr]
    exact .snoc hd (declaration_of_finished hs)
  | block hcs hl hd =>
    intro ws s r hr hs
    refine ⟨?_, rfl⟩
    show Surrounds r.program.toList _ _
    rw [hr, List.append_assoc, List.cons_append]
    refine .block hcs hl ?_
    rw [Array.toList_push]
    exact .snoc hd (declaration_of_finished hs)
  | body hcs hplace ho hn hp hl hd =>
    intro ws s r hr hs
    refine ⟨?_, rfl⟩
    show Surrounds r.program.toList _ _
    rw [hr]
    simp only [List.append_assoc, List.cons_append]
    refine .body hcs hplace ho hn hp hl ?_
    rw [Array.toList_push]
    exact .snoc hd (declaration_of_finished hs)
  | thenBranch hcs hc ih =>
    intro ws s r hr hs
    rw [List.append_assoc]
    exact ih r hr (.inl (hc.ifStmt (statement_of_finished hs rfl)))
  | elseBranch hcs hc ht he ih =>
    intro ws s r hr hs
    rw [List.append_assoc]
    exact ih r hr (.inl (hc.ifElse ht he (statement_of_finished hs rfl)))
  | whileBody hcs hc ih =>
    intro ws s r hr hs
    rw [List.append_assoc]
    exact ih r hr (.inl (hc.whileStmt (statement_of_finished hs rfl)))
  | forBody hcs hk hl hi hc hsemi hn hr' ih =>
    intro ws s r hr hs
    have hfor := Statement.forStmt hk hl hi hc hsemi hn hr' (statement_of_finished hs rfl)
    have hplaced := ih r hr (.inl hfor)
    simpa [Reader.place] using hplaced

theorem not_declarable_of_awaitsElse {cs : List Context} (h : Reader.awaitsElse cs) :
    declarable cs = false := by
  cases cs with
  | nil => cases h
  | cons c cs =>
    cases c with
    | block | body => cases h
    | thenBranch | elseBranch | whileBody | forBody => rfl

/-- Placing a statement before its `else` ends the first branch of the
innermost `if` without a second one. -/
theorem Surrounds.placeBeforeElse {program : List Stmt} {w : List Token} {cs : List Context}
    (h : Surrounds program w cs) :
    ∀ {ws : List Token} {s : Stmt} {t : Token} (r : Reader), r.program.toList = program →
      Reader.awaitsElse cs → Statement ws s → t.kind = .kwElse →
      Surrounds (r.placeBeforeElse cs s).program.toList (w ++ (ws ++ [t]))
          (r.placeBeforeElse cs s).contexts
        ∧ (r.placeBeforeElse cs s).expect = .statement := by
  induction h with
  | top | block | body => exact fun _ _ hawaits => nomatch hawaits
  | thenBranch hcs hc _ =>
    intro ws s t r hr _ hs ht
    refine ⟨?_, rfl⟩
    show Surrounds r.program.toList _ _
    rw [hr, List.append_assoc]
    exact .elseBranch hcs hc hs ht
  | elseBranch hcs hc ht' he ih =>
    intro ws s t r hr hawaits hs ht
    have hplaced := ih r hr hawaits (hc.ifElse ht' he hs) ht
    simpa [Reader.placeBeforeElse] using hplaced
  | whileBody hcs hc ih =>
    intro ws s t r hr hawaits hs ht
    have hplaced := ih r hr hawaits (hc.whileStmt hs) ht
    simpa [Reader.placeBeforeElse] using hplaced
  | forBody hcs hk hl hi hc hsemi hn hr' ih =>
    intro ws s t r hr hawaits hs ht
    have hplaced := ih r hr hawaits (Statement.forStmt hk hl hi hc hsemi hn hr' hs) ht
    simpa [Reader.placeBeforeElse] using hplaced

/-! ## §4. Expressions inside statements. -/

section Steps

variable {r : Reader} {w v : List Token} {t : Token}

theorem ReadsUpTo.of {w' : List Token} (hs : Surrounds r.program.toList w r.contexts)
    (hb : Begins (declarable r.contexts) w' r.expect) (hv : v = w ++ w') : ReadsUpTo v r := by
  rw [hv]
  exact .mk hs hb

theorem not_clean_fail (r : Reader) (t : Token) (fault : SyntaxFault) :
    ¬ Clean (r.fail t fault).ledger :=
  not_clean_report r.ledger t fault

/-- The kind of the token that an expression in a statement ends before. -/
def stop : Clause → TokenKind
  | .ifCondition | .whileCondition | .forIncrement .. => .rightParen
  | _ => .semicolon

theorem stop_of_clean {clause : Clause} {e : Expr} (h : Clean (r.endClause clause e t).ledger) :
    t.kind = stop clause := by
  unfold Reader.endClause at h
  split at h
  all_goals first
    | assumption
    | exact absurd h (not_clean_fail _ _ _)

theorem endClause_ledger {clause : Clause} {e : Expr} (ht : t.kind = stop clause) :
    (r.endClause clause e t).ledger = r.ledger := by
  unfold Reader.endClause
  rw [ht]
  cases clause with
  | «variable» place => cases place <;> rfl
  | _ => rfl

/-- After an expression, the token that ends it ends the clause. -/
theorem readsUpTo_endClause {wc we : List Token} {clause : Clause} {e : Expr}
    (hs : Surrounds r.program.toList w r.contexts)
    (hc : ClauseBegins (declarable r.contexts) wc clause) (he : Derives .expression we e)
    (ht : t.kind = stop clause) :
    ReadsUpTo (w ++ (wc ++ (we ++ [t]))) (r.endClause clause e t) := by
  unfold Reader.endClause
  rw [ht]
  cases hc with
  | statement =>
    exact .of hs (.finished (.inl (.exprStmt (.mk he ht)))) (by simp)
  | print hk =>
    exact .of hs (.finished (.inl (.printStmt hk he ht))) (by simp)
  | variableValue hv hn hq =>
    cases hv with
    | declaration hd hk =>
      exact .of hs (.finished (.inr ⟨hd, .varDecl (.value hk hn hq he ht)⟩)) (by simp)
    | forClause hf hl hk =>
      exact .of hs (.forCondition hf hl (.var (.value hk hn hq he ht))) (by simp)
  | returnValue hk =>
    exact .of hs (.finished (.inl (.returnStmt hk (.some he) ht))) (by simp)
  | ifCondition hk hl =>
    exact .of (.thenBranch hs (.mk hk hl he ht)) .statement (by simp)
  | whileCondition hk hl =>
    exact .of (.whileBody hs (.mk hk hl he ht)) .statement (by simp)
  | forInitializer hk hl =>
    exact .of hs (.forCondition hk hl (.expression (.mk he ht))) (by simp)
  | forCondition hk hl hi =>
    exact .of hs (.forIncrement hk hl hi (.some he) ht) (by simp)
  | forIncrement hk hl hi hcond hsemi =>
    exact .of (.forBody hs hk hl hi hcond hsemi (.some he) ht) .statement (by simp)

theorem readsUpTo_offerExpression {wc wp : List Token} {clause : Clause} {p : Partial}
    (hs : Surrounds r.program.toList w r.contexts)
    (hc : ClauseBegins (declarable r.contexts) wc clause) (hp : Reads wp p)
    (hclean : Clean (r.offerExpression clause p t).ledger) :
    ReadsUpTo (w ++ (wc ++ (wp ++ [t]))) (r.offerExpression clause p t) := by
  have hread := hp.offer (l := r.ledger) t
  unfold Reader.offerExpression at hclean ⊢
  rcases hoffer : p.offer t r.ledger with ⟨offer, l⟩
  rw [hoffer] at hclean hread
  cases offer with
  | taken p' => exact .of hs (.expression hc (hread hclean)) rfl
  | whole e =>
    have ht := stop_of_clean hclean
    rw [endClause_ledger ht] at hclean
    exact readsUpTo_endClause hs hc (hread hclean) ht
  | refused fault => exact absurd hclean (not_clean_fail _ _ _)

/-! ## §5. One token. -/

theorem readsUpTo_offerStatement (hs : Surrounds r.program.toList w r.contexts)
    (hclean : Clean (r.offerStatement t).ledger) : ReadsUpTo (w ++ [t]) (r.offerStatement t) := by
  unfold Reader.offerStatement at hclean ⊢
  split at hclean
  · next hk => exact .of hs (.forOpen hk) rfl
  · next hk => exact .of hs (.ifOpen hk) rfl
  · next hk => exact .of hs (.whileOpen hk) rfl
  · next hk => exact .of hs (.returnValue hk) rfl
  · next hk => exact .of (.block hs hk .nil) (.declaration rfl) (by simp)
  · next hk => exact .of hs (.expression (.print hk) .empty) (by simp)
  · exact readsUpTo_offerExpression hs .statement .empty hclean

/-- A function that ends stands where its owner wants it. -/
theorem readsUpTo_finishFunction {wo wf : List Token} {owner : Owner} {decl : FunctionDecl Stmt}
    (hs : Surrounds r.program.toList w r.contexts) (hd : declarable r.contexts)
    (ho : Owned wo owner) (hf : Function wf decl) :
    ReadsUpTo (w ++ (wo ++ wf)) (r.finishFunction owner decl) := by
  cases ho with
  | function hk => exact .of hs (.finished (.inr ⟨hd, .funDecl hk hf⟩)) rfl
  | @method _ _ _ _ _ wm earlier hk hn hsuper hl hm =>
    have hmethods : Functions (wm ++ wf) (earlier.push decl).toList := by
      rw [Array.toList_push]
      exact .snoc hm hf
    exact .of hs (.member hd (.method hk hn hsuper hl hmethods)) (by simp)

theorem readsUpTo_offerDeclaration (hs : Surrounds r.program.toList w r.contexts)
    (hd : declarable r.contexts) (hclean : Clean (r.offerDeclaration t).ledger) :
    ReadsUpTo (w ++ [t]) (r.offerDeclaration t) := by
  unfold Reader.offerDeclaration at hclean ⊢
  split at hclean
  · next hk hcs =>
    rw [hcs] at hs
    cases hs with
    | block hs hl hdecls =>
      exact .of hs (.finished (.inl (.block (.mk hl hdecls hk)))) (by simp)
  · next hk hcs =>
    rw [hcs] at hs
    cases hs with
    | body hs hplace ho hn hp hl hdecls =>
      have hfunction := Function.mk hn hp (.mk hl hdecls hk)
      have hread := readsUpTo_finishFunction (r := { r with contexts := _ }) hs hplace ho hfunction
      simpa using hread
  · next hk => exact .of hs (.className hd hk) rfl
  · next hk => exact .of hs (.functionName hd (.function hk)) rfl
  · next hk => exact .of hs (.variableName (.declaration hd hk)) rfl
  · exact readsUpTo_offerStatement hs hclean

theorem readsUpTo_offerFunctionName {wo : List Token} {owner : Owner}
    (hs : Surrounds r.program.toList w r.contexts) (hd : declarable r.contexts)
    (ho : Owned wo owner) (hclean : Clean (r.offerFunctionName owner t).ledger) :
    ReadsUpTo (w ++ (wo ++ [t])) (r.offerFunctionName owner t) := by
  unfold Reader.offerFunctionName at hclean ⊢
  split at hclean
  · next hk => exact .of hs (.parametersOpen hd ho hk) rfl
  · exact absurd hclean (not_clean_fail _ _ _)

/-- The parameter before this one, and the comma, when there is one. -/
theorem readsUpTo_offerParameter {wo : List Token} {owner : Owner} {name lparen : Token}
    {params : Array Token} (wp : List Token) (hs : Surrounds r.program.toList w r.contexts)
    (hd : declarable r.contexts) (ho : Owned wo owner) (hn : name.kind = .identifier)
    (hl : lparen.kind = .leftParen)
    (hparams : t.kind = .identifier → Parameters (wp ++ [t]) (params.push t).toList)
    (hclean : Clean (r.offerParameter owner name params t).ledger) :
    ReadsUpTo (w ++ (wo ++ name :: lparen :: (wp ++ [t]))) (r.offerParameter owner name params t) := by
  unfold Reader.offerParameter at hclean ⊢
  by_cases hsize : maxArity ≤ params.size
  · -- one parameter too many is reported, and nothing takes the report back
    rw [if_pos hsize] at hclean
    dsimp only at hclean
    split at hclean
    · exact absurd hclean (not_clean_report _ _ _)
    · exact absurd hclean (not_clean_fail _ _ _)
  · rw [if_neg hsize] at hclean ⊢
    dsimp only at hclean ⊢
    split at hclean
    · next hk =>
      refine .of hs (.afterParameter hd ho hn hl (hparams hk) ?_) rfl
      rw [Array.size_push]
      omega
    · exact absurd hclean (not_clean_fail _ _ _)

/-- **One token** that is not refused: what was read before it and the token
are read after it. -/
theorem ReadsUpTo.offer (h : ReadsUpTo v r) (t : Token) (hclean : Clean (r.offer t).ledger) :
    ReadsUpTo (v ++ [t]) (r.offer t) := by
  obtain @⟨w, w', _, hs, hb⟩ := h
  rw [List.append_assoc]
  unfold Reader.offer at hclean ⊢
  generalize r.expect = expect at hb hclean ⊢
  -- one case for each part that can come next; a token that does not fit is a failure, which
  -- no clean ledger holds
  cases hb with
  | declaration hd => exact readsUpTo_offerDeclaration hs hd hclean
  | statement => exact readsUpTo_offerStatement hs hclean
  | @finished _ s hf =>
    dsimp only at hclean ⊢
    by_cases helse : t.kind = .kwElse ∧ Reader.awaitsElse r.contexts
    · -- a declaration is no branch, so what an `else` follows is a statement
      rw [if_pos helse] at hclean ⊢
      have hstatement : Statement w' s := by
        rcases hf with hf | ⟨hd, -⟩
        · exact hf
        · rw [not_declarable_of_awaitsElse helse.2] at hd
          cases hd
      obtain ⟨hplaced, hexpect⟩ := hs.placeBeforeElse r rfl helse.2 hstatement helse.1
      refine .of hplaced ?_ (List.append_nil _).symm
      rw [hexpect]
      exact .statement
    · rw [if_neg helse] at hclean ⊢
      obtain ⟨hplaced, hd⟩ := hs.place r rfl hf
      have hread := readsUpTo_offerDeclaration hplaced hd hclean
      simpa using hread
  | expression hc hp =>
    have hread := readsUpTo_offerExpression hs hc hp hclean
    simpa using hread
  | className hd hk =>
    dsimp only at hclean ⊢
    split at hclean
    · next hn => exact .of hs (.superclass hd hk hn) rfl
    · exact absurd hclean (not_clean_fail _ _ _)
  | superclass hd hk hn =>
    dsimp only at hclean ⊢
    split at hclean
    · next hless => exact .of hs (.superclassName hd hk hn hless) rfl
    · next hl =>
      exact .of hs (.member hd (.method hk hn .none hl .nil)) rfl
    · exact absurd hclean (not_clean_fail _ _ _)
  | superclassName hd hk hn hless =>
    dsimp only at hclean ⊢
    split at hclean
    · next hparent => exact .of hs (.classBodyOpen hd hk hn (.some _ hless hparent)) rfl
    · exact absurd hclean (not_clean_fail _ _ _)
  | classBodyOpen hd hk hn hsuper =>
    dsimp only at hclean ⊢
    split at hclean
    · next hl => exact .of hs (.member hd (.method hk hn hsuper hl .nil)) rfl
    · exact absurd hclean (not_clean_fail _ _ _)
  | member hd ho =>
    dsimp only at hclean ⊢
    split at hclean
    · next hr =>
      cases ho with
      | method hk hn hsuper hl hm =>
        exact .of hs (.finished (.inr ⟨hd, .classDecl hk hn hsuper hl hm hr⟩)) (by simp)
    · exact absurd hclean (not_clean_fail _ _ _)
    · exact readsUpTo_offerFunctionName hs hd ho hclean
  | functionName hd ho => exact readsUpTo_offerFunctionName hs hd ho hclean
  | parametersOpen hd ho hn =>
    dsimp only at hclean ⊢
    split at hclean
    · next hl => exact .of hs (.firstParameter hd ho hn hl) (by simp)
    · exact absurd hclean (not_clean_fail _ _ _)
  | firstParameter hd ho hn hl =>
    dsimp only at hclean ⊢
    split at hclean
    · next hr => exact .of hs (.functionBodyOpen hd ho hn (.empty hl hr)) (by simp)
    · have hread := readsUpTo_offerParameter [] hs hd ho hn hl .one hclean
      simpa using hread
  | @nextParameter wo owner name lparen wp comma params hd ho hn hl hp hcomma =>
    have hparams : t.kind = .identifier →
        Parameters (wp ++ [comma] ++ [t]) (params.push t).toList := by
      intro ht
      rw [Array.toList_push, List.append_assoc]
      exact .more hp hcomma ht
    have hread := readsUpTo_offerParameter _ hs hd ho hn hl hparams hclean
    simpa using hread
  | afterParameter hd ho hn hl hp hsize =>
    dsimp only at hclean ⊢
    split at hclean
    · next hcomma => exact .of hs (.nextParameter hd ho hn hl hp hcomma) (by simp)
    · next hr => exact .of hs (.functionBodyOpen hd ho hn (.some hl hp hsize hr)) (by simp)
    · exact absurd hclean (not_clean_fail _ _ _)
  | functionBodyOpen hd ho hn hp =>
    dsimp only at hclean ⊢
    split at hclean
    · next hl =>
      exact .of (.body hs hd ho hn hp hl .nil) (.declaration rfl) (by simp)
    · exact absurd hclean (not_clean_fail _ _ _)
  | variableName hv =>
    dsimp only at hclean ⊢
    split at hclean
    · next hn => exact .of hs (.variableValue hv hn) rfl
    · exact absurd hclean (not_clean_fail _ _ _)
  | variableValue hv hn =>
    dsimp only at hclean ⊢
    split at hclean
    · next hq => exact .of hs (.expression (.variableValue hv hn hq) .empty) (by simp)
    · next hsemi =>
      cases hv with
      | declaration hd hk =>
        exact .of hs (.finished (.inr ⟨hd, .varDecl (.empty hk hn hsemi)⟩)) (by simp)
      | forClause hf hl hk =>
        exact .of hs (.forCondition hf hl (.var (.empty hk hn hsemi))) (by simp)
    · exact absurd hclean (not_clean_fail _ _ _)
  | ifOpen hk =>
    dsimp only at hclean ⊢
    split at hclean
    · next hl => exact .of hs (.expression (.ifCondition hk hl) .empty) (by simp)
    · exact absurd hclean (not_clean_fail _ _ _)
  | whileOpen hk =>
    dsimp only at hclean ⊢
    split at hclean
    · next hl => exact .of hs (.expression (.whileCondition hk hl) .empty) (by simp)
    · exact absurd hclean (not_clean_fail _ _ _)
  | forOpen hk =>
    dsimp only at hclean ⊢
    split at hclean
    · next hl => exact .of hs (.forInitializer hk hl) rfl
    · exact absurd hclean (not_clean_fail _ _ _)
  | forInitializer hk hl =>
    dsimp only at hclean ⊢
    split at hclean
    · next hsemi => exact .of hs (.forCondition hk hl (.none hsemi)) rfl
    · next hv => exact .of hs (.variableName (.forClause hk hl hv)) rfl
    · exact readsUpTo_offerExpression hs (.forInitializer hk hl) .empty hclean
  | forCondition hk hl hi =>
    dsimp only at hclean ⊢
    split at hclean
    · next hsemi => exact .of hs (.forIncrement hk hl hi .none hsemi) (by simp)
    · exact readsUpTo_offerExpression hs (.forCondition hk hl hi) .empty hclean
  | forIncrement hk hl hi hcond hsemi =>
    dsimp only at hclean ⊢
    split at hclean
    · next hr => exact .of (.forBody hs hk hl hi hcond hsemi .none hr) .statement (by simp)
    · exact readsUpTo_offerExpression hs (.forIncrement hk hl hi hcond hsemi) .empty hclean
  | returnValue hk =>
    dsimp only at hclean ⊢
    split at hclean
    · next hsemi =>
      exact .of hs (.finished (.inl (.returnStmt hk .none hsemi))) (by simp)
    · exact readsUpTo_offerExpression hs (.returnValue hk) .empty hclean

end Steps

/-! ## §6. No failure is taken back. -/

theorem clean_of_offer_partial {p : Partial} {t : Token} {l : Ledger}
    (h : Clean (p.offer t l).2) : Clean l :=
  Classical.byContradiction fun hl => stable_not_clean.offer_partial t hl p h

theorem clean_of_readAll {r : Reader} {ts : List Token} (h : Clean (r.readAll ts).ledger) :
    Clean r.ledger :=
  Classical.byContradiction fun hr => stable_not_clean.readAll hr ts h

/-! ## §7. The end of the input. -/

/-- The end of the input is part of no expression. -/
theorem offer_eof {p p' : Partial} {t : Token} {l l' : Ledger} (ht : t.kind = .eof) :
    p.offer t l ≠ (.taken p', l') := by
  intro h
  unfold Partial.offer at h
  split at h
  · simp [Parse.offerOperand, ht] at h
  · simp [Parse.offerOperand, ht] at h
  · simp [Parse.offerOperand, ht] at h
  · rw [offerAfter_other (by simp [ht]) (by simp [ht]) (by simp [ht]) (by simp [ht, bindingLevel?]),
      Parse.offerEnd] at h
    split at h <;> simp [ht] at h
  all_goals simp [ht] at h

/-- Where something is expected, the end of the input is a failure. -/
theorem not_clean_offerExpression_eof {r : Reader} {clause : Clause} {p : Partial} {t : Token}
    (ht : t.kind = .eof) : ¬ Clean (r.offerExpression clause p t).ledger := by
  intro h
  unfold Reader.offerExpression at h
  split at h
  · next hoffer => exact offer_eof ht hoffer
  · have hstop := stop_of_clean h
    rw [ht] at hstop
    cases clause <;> cases hstop
  · exact not_clean_fail _ _ _ h

theorem clean_of_offerEof {r : Reader} {eof : Token} (ht : eof.kind = .eof)
    (h : Clean (r.offerEof eof).ledger) :
    r.expect = .declaration ∨ (∃ s, r.expect = .finished s) ∨ ∃ b, r.expect = .recovery b := by
  unfold Reader.offerEof at h
  split at h
  · next hx => exact .inl hx
  · next hx => exact .inr (.inr ⟨_, hx⟩)
  · next hx => exact .inr (.inl ⟨_, hx⟩)
  · next h1 h2 h3 =>
    exfalso
    unfold Reader.offer at h
    split at h
    case h_1 => exact h1 ‹_›
    case h_2 =>
      simp only [Reader.offerStatement, ht] at h
      exact not_clean_offerExpression_eof ht h
    case h_3 => exact h3 _ ‹_›
    case h_4 => exact not_clean_offerExpression_eof ht h
    case h_25 => exact h2 _ ‹_›
    -- the rest fail at this kind of token, or offer it to an expression
    all_goals
      simp only [ht, Reader.offerFunctionName, Reader.offerParameter] at h
      first
        | exact not_clean_fail _ _ _ h
        | exact not_clean_offerExpression_eof ht h

theorem clean_foldl_report {α : Type} {t : Token} {fault : SyntaxFault} {xs : List α} {l : Ledger}
    (h : Clean (xs.foldl (fun l _ => l.report t fault) l)) : xs = [] ∧ Clean l := by
  induction xs generalizing l with
  | nil => exact ⟨rfl, h⟩
  | cons x xs ih => exact absurd (ih h).2 (not_clean_report _ _ _)

/-- Where a declaration can stand and no block is open, nothing is open. -/
theorem eq_nil_of_declarable {cs : List Context} (hd : declarable cs)
    (hfilter : cs.filter Context.isBlock = []) : cs = [] := by
  cases cs with
  | nil => rfl
  | cons c cs =>
    have hblock : c.isBlock = true := hd
    rw [List.filter_cons_of_pos hblock] at hfilter
    cases hfilter

theorem Surrounds.declarations {program : List Stmt} {w : List Token}
    (h : Surrounds program w []) : Declarations w program := by
  cases h with
  | top hd => exact hd

theorem ReadsUpTo.finish {w : List Token} {r : Reader} {eof : Token} (h : ReadsUpTo w r)
    (ht : eof.kind = .eof) (hclean : Clean (r.finish eof).ledger) :
    Declarations w (r.finish eof).program.toList := by
  obtain ⟨hunclosed, heof⟩ := clean_foldl_report hclean
  obtain @⟨w, w', _, hs, hb⟩ := h
  show Declarations _ (r.offerEof eof).program.toList
  rcases clean_of_offerEof ht heof with hx | ⟨s, hx⟩ | ⟨b, hx⟩
  · rw [hx] at hb
    cases hb with
    | declaration hd =>
      have hr : r.offerEof eof = r := by rw [Reader.offerEof, hx]
      rw [hr] at hunclosed ⊢
      have hcs := eq_nil_of_declarable hd hunclosed
      rw [hcs] at hs
      rw [List.append_nil]
      exact hs.declarations
  · rw [hx] at hb
    cases hb with
    | finished hf =>
      have hr : r.offerEof eof = r.place r.contexts s := by rw [Reader.offerEof, hx]
      rw [hr] at hunclosed ⊢
      obtain ⟨hplaced, hd⟩ := hs.place r rfl hf
      have hcs := eq_nil_of_declarable hd hunclosed
      rw [hcs] at hplaced
      exact hplaced.declarations
  · rw [hx] at hb
    cases hb

/-! ## §8. Whole inputs. -/

/-- Tokens that are read from a reader on without a failure complete it. -/
theorem ReadsUpTo.readAll {ts w : List Token} {r : Reader} {eof : Token} (h : ReadsUpTo w r)
    (heof : eof.kind = .eof) (hts : ∀ t ∈ ts, t.kind ≠ .eof)
    (hclean : Clean (r.readAll (ts ++ [eof])).ledger) :
    Declarations (w ++ ts) (r.readAll (ts ++ [eof])).program.toList := by
  induction ts generalizing w r with
  | nil =>
    rw [List.nil_append, Reader.readAll, if_pos heof] at hclean ⊢
    rw [List.append_nil]
    exact h.finish heof hclean
  | cons t ts ih =>
    have ht : t.kind ≠ .eof := hts t List.mem_cons_self
    have hts' : ∀ t' ∈ ts, t'.kind ≠ .eof := fun t' ht' => hts t' (List.mem_cons_of_mem t ht')
    rw [List.cons_append, Reader.readAll, if_neg ht] at hclean ⊢
    have hread := ih (h.offer t (clean_of_readAll hclean)) hts' hclean
    rw [List.append_assoc] at hread
    exact hread

/-- **A program that is read without a failure is derived**, and its tree is
the one that was read. -/
theorem derives_program {firstId : Nat} {ts : List Token} {eof : Token} (heof : eof.kind = .eof)
    (hts : ∀ t ∈ ts, t.kind ≠ .eof) (h : (program firstId (ts ++ [eof])).failures = []) :
    Program (ts ++ [eof]) (program firstId (ts ++ [eof])).statements := by
  have hclean : Clean ((Reader.start firstId).readAll (ts ++ [eof])).ledger :=
    Array.toList_eq_nil_iff.mp h
  exact .mk ((readsUpTo_start firstId).readAll heof hts hclean) heof

theorem clean_of_loneExpressionFrom {ts : List Token} {p : Partial} {l : Ledger}
    (h : (loneExpressionFrom p l ts).failures = []) : Clean l := by
  induction ts generalizing p l with
  | nil => exact Array.toList_eq_nil_iff.mp h
  | cons t ts ih =>
    refine clean_of_offer_partial (p := p) (t := t) ?_
    unfold Parse.loneExpressionFrom at h
    split at h
    · next heq => rw [heq]; exact ih h
    · exact absurd (Array.toList_eq_nil_iff.mp h) (not_clean_report _ _ _)
    · next heq =>
      rw [heq]
      split at h
      · exact Array.toList_eq_nil_iff.mp h
      · exact absurd (Array.toList_eq_nil_iff.mp h) (not_clean_report _ _ _)

theorem Reads.loneExpression {ts w : List Token} {p : Partial} {l : Ledger} {eof : Token}
    (h : Reads w p) (heof : eof.kind = .eof) (hts : ∀ t ∈ ts, t.kind ≠ .eof)
    (hl : (loneExpressionFrom p l (ts ++ [eof])).failures = []) :
    ∃ e, (loneExpressionFrom p l (ts ++ [eof])).expression = some e
      ∧ Derives .expression (w ++ ts) e := by
  induction ts generalizing w p l with
  | nil =>
    have hread := h.offer (l := l) eof
    rw [List.nil_append, Parse.loneExpressionFrom] at hl ⊢
    rcases hoffer : p.offer eof l with ⟨offer, l'⟩
    rw [hoffer] at hl hread
    cases offer with
    | taken p' => exact absurd hoffer (offer_eof heof)
    | refused fault => exact absurd (Array.toList_eq_nil_iff.mp hl) (not_clean_report _ _ _)
    | whole e =>
      simp only [heof] at hl ⊢
      rw [List.append_nil]
      exact ⟨e, rfl, hread (Array.toList_eq_nil_iff.mp hl)⟩
  | cons t ts ih =>
    have hread := h.offer (l := l) t
    have ht : t.kind ≠ .eof := hts t List.mem_cons_self
    rw [List.cons_append, Parse.loneExpressionFrom] at hl ⊢
    rcases hoffer : p.offer t l with ⟨offer, l'⟩
    rw [hoffer] at hl hread
    cases offer with
    | taken p' =>
      have hwhole := ih (hread (clean_of_loneExpressionFrom hl))
        (fun t' ht' => hts t' (List.mem_cons_of_mem t ht')) hl
      rw [List.append_assoc] at hwhole
      exact hwhole
    | refused fault => exact absurd (Array.toList_eq_nil_iff.mp hl) (not_clean_report _ _ _)
    | whole e =>
      dsimp only at hl
      split at hl
      · next hk => exact absurd hk ht
      · exact absurd (Array.toList_eq_nil_iff.mp hl) (not_clean_report _ _ _)

/-- **A lone expression that is read without a failure is derived.** -/
theorem derives_loneExpression {firstId : Nat} {ts : List Token} {eof : Token}
    (heof : eof.kind = .eof) (hts : ∀ t ∈ ts, t.kind ≠ .eof)
    (h : (Parse.loneExpression firstId (ts ++ [eof])).failures = []) :
    ∃ e, (Parse.loneExpression firstId (ts ++ [eof])).expression = some e
      ∧ LoneExpression (ts ++ [eof]) e := by
  obtain ⟨e, he, hderives⟩ := Reads.empty.loneExpression heof hts h
  exact ⟨e, he, .mk hderives heof⟩

end Lox.Grammar
