/-
  Lox.Proofs.Descent.Totality
  ───────────────────────────
  **DESCENT IS TOTAL, AND YIELDS WHAT READING TOKEN BY TOKEN YIELDS.**

  A rule calls others at the same place only if they are nearer to taking a token
  (`Production.rank`), and behind a token it may call any.  So the number of calls that
  are open at one time is bounded by the tokens ahead (`need`), and each rule goes well
  by induction on it (`descend_goesWell`).

  Main results:
    * `descend_goesWell`: with calls enough, every rule agrees with the reader.
    * `descend_program`, `descend_lone`: so do a whole program and a lone expression.
    * `descend_total`: no token is asked for outside of the input, the cursor never goes
      back, every round of a loop takes a token or leaves it, and parsing ends.
-/
import Lox.Proofs.Descent.Progress
import Lox.Proofs.Descent.Declaration

namespace Lox.Descent

open Parse Grammar Descent.Parser

/-! ## §1. All rules. -/

/-- **What it means for a rule to go well**, each in front of what it can begin with. -/
def GoesWell (ts : List Token) : {α : Type} → Production α → State → Outcome α → Prop
  | _, .program earlier, s, o => YieldsProgram ts earlier s o
  | _, .wholeExpression, s, o => YieldsLone ts s o
  | _, .declaration, s, o => YieldsDeclaration ts s o
  | _, .skip, s, o => YieldsSkip ts s o
  | _, .attempt, s, o => YieldsAttempt ts s o
  | _, .classDeclaration, s, o => Yields ts .className .finished s o
  | _, .methods earlier, s, o => YieldsMethods ts earlier s o
  | _, .function kind, s, o => YieldsFunction ts kind s o
  | _, .parameters earlier, s, o => YieldsParameters ts earlier s o
  | _, .varDeclaration, s, o => ∀ place, Yields ts (.variableName place) (settled place) s o
  | _, .statement, s, o => Yields ts .statement .finished s o
  | _, .forStatement, s, o => Yields ts .forOpen .finished s o
  | _, .forInitializer, s, o => Yields ts .forInitializer .forCondition s o
  | _, .ifStatement, s, o => Yields ts .ifOpen .finished s o
  | _, .whileStatement, s, o => Yields ts .whileOpen .finished s o
  | _, .returnStatement, s, o => ∀ keyword, ts[s.current - 1]? = some keyword →
      Yields ts (.returnValue keyword) .finished s o
  | _, .printStatement, s, o => Yields ts (.expression .print .empty) .finished s o
  | _, .expressionStatement, s, o => ∀ place,
      Yields ts (.expression (expressionClause place) .empty) (settled place) s o
  | _, .block earlier, s, o => YieldsBlock ts earlier s o
  | _, .expression, s, o => Reads ts .operand 0 1 s o
  | _, .assignment, s, o => Reads ts .operand 0 1 s o
  | _, .binary l, s, o => Reads ts .operand l.rank 1 s o
  | _, .operators l left, s, o => Followed (l.rank + 1) (s.rest ts) →
      Reads ts (.after left) l.rank 0 s o
  | _, .unary, s, o => Reads ts .operand 7 1 s o
  | _, .call, s, o => Unprefixed (s.rest ts) → Reads ts .operand 7 1 s o
  | _, .calls e, s, o => Reads ts (.after e) 7 0 s o
  | _, .finishCall callee, s, o => Reads ts (.firstArgument callee) 8 1 s o
  | _, .arguments earlier, s, o => ReadsArguments ts earlier s o
  | _, .primary, s, o => Unprefixed (s.rest ts) → Reads ts .operand 8 1 s o

/-- **How far a rule is from taking a token**: the rules that it calls at the same place are
nearer. -/
@[simp]
def Production.rank : {α : Type} → Production α → Nat
  | _, .program _ | _, .block _ => 15
  | _, .declaration => 14
  | _, .attempt => 13
  | _, .statement | _, .methods _ | _, .forInitializer | _, .finishCall _ => 12
  | _, .wholeExpression | _, .expressionStatement | _, .printStatement | _, .returnStatement
  | _, .arguments _ => 11
  | _, .expression => 10
  | _, .assignment => 9
  | _, .binary l => 9 - l.rank
  | _, .unary => 2
  | _, .call => 1
  | _, .primary | _, .operators _ _ | _, .calls _ | _, .skip | _, .classDeclaration
  | _, .function _ | _, .parameters _ | _, .varDeclaration | _, .forStatement | _, .ifStatement
  | _, .whileStatement => 0

theorem Production.rank_le {α : Type} (p : Production α) : p.rank ≤ 15 := by
  cases p <;> simp only [rank] <;> omega

/-- How many calls a rule can need: every token ahead is taken by one of them, and at one
place there are only as many as there are ranks. -/
def need (ts : List Token) {α : Type} (p : Production α) (s : State) : Nat :=
  16 * (ts.length - s.current) + p.rank

variable {ts : List Token}

/-- The rules for operators go from level to level. -/
theorem goesWell_operand {l : Level} {s : State} {o : Outcome Expr}
    (h : GoesWell ts (.operand l) s o) : Reads ts .operand (l.rank + 1) 1 s o := by
  cases l <;> exact h

theorem rank_operand (l : Level) : (Production.operand l).rank < (Production.binary l).rank := by
  cases l <;> decide

/-- **Every rule goes well** with calls enough. -/
theorem descend_goesWell (fuel : Nat) : ∀ {α : Type} (p : Production α) (s : State),
    Ended ts s → need ts p s < fuel → GoesWell ts p s (descend fuel p ts s) := by
  -- on the calls that are left, of which a rule needs more than those it calls
  induction fuel with
  | zero =>
    intro α p s _ hneed
    exact absurd hneed (Nat.not_lt_zero _)
  | succ fuel ih =>
    intro α p s hs hneed
    unfold need at hneed
    -- what is called behind a token needs less, and so does what is nearer to one
    have later : ∀ {β : Type} (q : Production β) (s' : State), Reached ts (s.current + 1) s' →
        GoesWell ts q s' (descend fuel q ts s') := by
      intro β q s' hs'
      refine ih q s' hs'.ended ?_
      have hle := hs'.le
      have hlt := hs'.ended.lt
      have hrank := q.rank_le
      unfold need
      omega
    have onward : ∀ {β : Type} (q : Production β) (s' : State), Reached ts s.current s' →
        q.rank < p.rank → GoesWell ts q s' (descend fuel q ts s') := by
      intro β q s' hs' hrank
      refine ih q s' hs'.ended ?_
      have hle := hs'.le
      unfold need
      omega
    have here : ∀ {β : Type} (q : Production β), q.rank < p.rank →
        GoesWell ts q s (descend fuel q ts s) :=
      fun q hrank => onward q s hs.reached hrank
    cases p with
    | program earlier =>
      exact yields_program (here .declaration (by simp))
        fun earlier' => later (.program earlier')
    | wholeExpression => exact yields_lone (here .expression (by simp))
    | declaration =>
      exact yields_declaration (here .attempt (by simp))
        fun s' h => onward .skip s' h (by simp)
    | skip => exact yields_skip (later .skip)
    | attempt =>
      exact yields_attempt (later .classDeclaration) (later (.function .function))
        (fun s' h => later .varDeclaration s' h .declaration) (here .statement (by simp))
    | classDeclaration => exact yields_class (later (.methods #[]))
    | methods earlier =>
      exact yields_methods (here (.function .method) (by simp))
        fun earlier' => later (.methods earlier')
    | function kind => exact yields_function (later (.parameters #[])) (later (.block #[]))
    | parameters earlier => exact yields_parameters fun earlier' => later (.parameters earlier')
    | varDeclaration => exact fun place => yields_var place (later .expression)
    | statement =>
      exact yields_statement (later .forStatement) (later .ifStatement) (later .whileStatement)
        (fun s' keyword h => later .returnStatement s' h keyword) (later (.block #[]))
        (later .printStatement) (here .expressionStatement (by simp) .declaration)
    | forStatement =>
      exact yields_for (later .forInitializer) (later .expression) (later .statement)
    | forInitializer =>
      exact yields_forInitializer (fun s' h => later .varDeclaration s' h .forClause)
        (here .expressionStatement (by simp) .forClause)
    | ifStatement => exact yields_if (later .expression) (later .statement)
    | whileStatement => exact yields_while (later .expression) (later .statement)
    | returnStatement =>
      exact fun keyword hkeyword => yields_return hkeyword (here .expression (by simp))
    | printStatement => exact yields_print (here .expression (by simp))
    | expressionStatement =>
      exact fun place => yields_expressionStatement place (here .expression (by simp))
    | block earlier =>
      exact yields_block (here .declaration (by simp))
        fun earlier' => later (.block earlier')
    | expression => exact here .assignment (by simp)
    | assignment =>
      exact reads_assignment (here (.binary .logicOr) (by simp [Level.rank]))
        (later .assignment)
    | binary l =>
      exact reads_binary (goesWell_operand (here (.operand l) (rank_operand l)))
        fun left s' h => later (.operators l left) s' h
    | operators l left =>
      intro hfollowed
      exact reads_operators hs hfollowed (fun s' h => goesWell_operand (later (.operand l) s' h))
        fun left' s' h => later (.operators l left') s' h
    | unary => exact reads_unary hs (later .unary) (here .call (by simp))
    | call =>
      intro hunprefixed
      exact reads_call (here .primary (by simp) hunprefixed)
        fun e s' h => later (.calls e) s' h
    | calls e =>
      exact reads_calls hs (later (.finishCall e)) fun e' s' h => later (.calls e') s' h
    | finishCall callee => exact reads_finishCall hs (here (.arguments #[]) (by simp))
    | arguments earlier =>
      exact reads_arguments hs (fun s' h _ => onward .expression s' h (by simp))
        fun earlier' => later (.arguments earlier')
    | primary => exact fun hunprefixed => reads_primary hs hunprefixed (later .expression)

/-! ## §2. The whole input. -/

/-- The last token is an end of input. -/
def EndsInput (ts : List Token) : Prop :=
  ∃ eof, ts.getLast? = some eof ∧ eof.kind = .eof

theorem EndsInput.ended {s : State} (h : EndsInput ts) (hs : s.current < ts.length) :
    Ended ts s := by
  obtain ⟨eof, hlast, heof⟩ := h
  refine ⟨eof, ?_, heof⟩
  refine List.mem_of_getLast? ?_
  show (ts.drop s.current).getLast? = some eof
  rw [List.getLast?_drop, if_neg (by omega), hlast]

theorem EndsInput.start (h : EndsInput ts) (firstId : Nat) : Ended ts (.start firstId) := by
  refine h.ended ?_
  obtain ⟨eof, hlast, -⟩ := h
  exact List.length_pos_of_mem (List.mem_of_getLast? hlast)

/-- Calls enough for every rule. -/
theorem need_lt {fuel : Nat} (hfuel : 16 * (ts.length + 1) ≤ fuel) {α : Type} (p : Production α)
    (s : State) : need ts p s < fuel := by
  have hrank := p.rank_le
  unfold need
  omega

/-- **A program is read by descent as it is read token by token**, up to an end of input. -/
theorem descend_program {firstId fuel : Nat} (hts : EndsInput ts)
    (hfuel : 16 * (ts.length + 1) ≤ fuel) :
    ∃ stmts s, descend fuel (.program #[]) ts (.start firstId) = .done stmts s
      ∧ (∃ eof, ts[s.current]? = some eof ∧ eof.kind = .eof)
      ∧ Parse.program firstId ts
        = ⟨stmts.toList, s.ledger.failures.toList, s.ledger.nextId⟩ := by
  have hs := hts.start firstId
  have hmeets := descend_goesWell fuel (.program #[]) (.start firstId) hs (need_lt hfuel _ _)
    (Parse.program firstId ts) ⟨hs.reached, rfl⟩
  cases ho : descend fuel (.program #[]) ts (.start firstId) with
  | done stmts s =>
    rw [ho] at hmeets
    obtain ⟨hreached, hbefore, hX⟩ := hmeets
    obtain ⟨eof, w, hrest⟩ := hreached.ended.head
    exact ⟨stmts, s, rfl, ⟨eof, getElem?_of_rest hrest, hbefore.head hrest⟩, hX⟩
  | failed | outOfBounds | outOfFuel =>
    rw [ho] at hmeets
    exact hmeets.elim

/-- **So is a lone expression**, or both fail at the token under the cursor. -/
theorem descend_lone {firstId fuel : Nat} (hts : EndsInput ts)
    (hfuel : 16 * (ts.length + 1) ≤ fuel) :
    (∃ e s, descend fuel .wholeExpression ts (.start firstId) = .done e s
        ∧ Parse.loneExpression firstId ts
          = ⟨some e, s.ledger.failures.toList, s.ledger.nextId⟩)
      ∨ ∃ t fault s, descend fuel .wholeExpression ts (.start firstId) = .failed t fault s
        ∧ Parse.loneExpression firstId ts = .failed s.ledger t fault := by
  have hs := hts.start firstId
  have hmeets : YieldsLone ts (.start firstId) _ :=
    descend_goesWell fuel .wholeExpression (.start firstId) hs (need_lt hfuel _ _)
  unfold YieldsLone at hmeets
  cases ho : descend fuel .wholeExpression ts (.start firstId) with
  | done e s =>
    rw [ho] at hmeets
    exact .inl ⟨e, s, rfl, hmeets.2.2⟩
  | failed t fault s =>
    rw [ho] at hmeets
    exact .inr ⟨t, fault, s, rfl, hmeets.2.2⟩
  | outOfBounds | outOfFuel =>
    rw [ho] at hmeets
    exact hmeets.elim

/-- **Parsing is total** on every list of tokens that ends with an end of input.
Each rule, from each place and with any number of calls, asks for no token outside of
the list, and never moves the cursor back or out of the list.  Each round of the
loops over declarations and over methods takes at least a token, or leaves the loop.  With
a number of calls that depends on the length of the list alone, a program is read up to an
end of input and a lone expression is read or refused, with the results that reading token
by token has. -/
theorem descend_total (firstId : Nat) {ts : List Token} (hts : EndsInput ts) :
    (∀ (fuel : Nat) {α : Type} (p : Production α) (s : State), s.current < ts.length →
      match descend fuel p ts s with
      | .done _ s' => s.current ≤ s'.current ∧ s'.current < ts.length
      | .failed t _ s' => s.current ≤ s'.current ∧ ts[s'.current]? = some t
      | .outOfBounds => False
      | .outOfFuel => True)
    ∧ (∀ (fuel : Nat) (s : State), s.current < ts.length →
      (∀ earlier, Round s (.done earlier s) (descend fuel .declaration ts s)
          (fun stmt => descend fuel (.program (kept earlier stmt)) ts)
          (descend (fuel + 1) (.program earlier) ts s))
        ∧ (∀ earlier, Round s
          ((do let _ ← consume .rightBrace .blockClose; return earlier.toList :
            Parser (List Stmt)) ts s)
          (descend fuel .declaration ts s)
          (fun stmt => descend fuel (.block (kept earlier stmt)) ts)
          (descend (fuel + 1) (.block earlier) ts s))
        ∧ ∀ earlier, Round s (.done earlier s) (descend fuel (.function .method) ts s)
          (fun method => descend fuel (.methods (earlier.push method)) ts)
          (descend (fuel + 1) (.methods earlier) ts s))
    ∧ ∀ fuel, 16 * (ts.length + 1) ≤ fuel →
      (∃ stmts s, descend fuel (.program #[]) ts (.start firstId) = .done stmts s
        ∧ (∃ eof, ts[s.current]? = some eof ∧ eof.kind = .eof)
        ∧ Parse.program firstId ts
          = ⟨stmts.toList, s.ledger.failures.toList, s.ledger.nextId⟩)
      ∧ ((∃ e s, descend fuel .wholeExpression ts (.start firstId) = .done e s
          ∧ Parse.loneExpression firstId ts
            = ⟨some e, s.ledger.failures.toList, s.ledger.nextId⟩)
        ∨ ∃ t fault s, descend fuel .wholeExpression ts (.start firstId) = .failed t fault s
          ∧ Parse.loneExpression firstId ts = .failed s.ledger t fault) := by
  refine ⟨?_, ?_, ?_⟩
  · intro fuel α p s hlt
    have hsafe := descend_gains fuel p s (hts.ended hlt)
    cases ho : descend fuel p ts s with
    | done a s' =>
      rw [ho] at hsafe
      have hle : s.current + p.gain ≤ s'.current := hsafe.le
      exact ⟨by omega, hsafe.ended.lt⟩
    | failed t fault s' =>
      rw [ho] at hsafe
      exact ⟨hsafe.1.le, hsafe.2⟩
    | outOfBounds =>
      rw [ho] at hsafe
      exact hsafe
    | outOfFuel => trivial
  · intro fuel s hlt
    have hs := hts.ended hlt
    exact ⟨fun earlier => program_round fuel earlier hs, fun earlier => block_round fuel earlier hs,
      fun earlier => methods_round fuel earlier hs⟩
  · intro fuel hfuel
    exact ⟨descend_program hts hfuel, descend_lone hts hfuel⟩

/-- A brace that closes nothing is reported and passed. -/
theorem descend_total_brace :
    EndsInput [⟨.rightBrace, "\x7d", 1⟩, ⟨.eof, "", 1⟩]
      ∧ ∃ s, descend 48 (.program #[]) [⟨.rightBrace, "\x7d", 1⟩, ⟨.eof, "", 1⟩] (.start 0)
          = .done #[] s
        ∧ s.ledger.failures = #[.syntactic ⟨.rightBrace, "\x7d", 1⟩ .expression] := by
  have hts : EndsInput [⟨.rightBrace, "\x7d", 1⟩, ⟨.eof, "", 1⟩] := ⟨⟨.eof, "", 1⟩, rfl, rfl⟩
  refine ⟨hts, ?_⟩
  obtain ⟨stmts, s, hdone, -, hprogram⟩ :=
    ((descend_total 0 hts).2.2 48 (Nat.le_refl _)).1
  have hread : Parse.program 0 [⟨.rightBrace, "\x7d", 1⟩, ⟨.eof, "", 1⟩]
      = ⟨[], [.syntactic ⟨.rightBrace, "\x7d", 1⟩ .expression], 0⟩ := rfl
  rw [hread, Parse.Program.mk.injEq] at hprogram
  obtain ⟨hstmts, hfailures, -⟩ := hprogram
  refine ⟨s, ?_, ?_⟩
  · rw [hdone, Array.toList_eq_nil_iff.mp hstmts.symm]
  · exact (Array.toList_inj.mp hfailures).symm

end Lox.Descent
