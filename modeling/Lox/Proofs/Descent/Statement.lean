/-
  Lox.Proofs.Descent.Statement
  ────────────────────────────
  **STATEMENTS: DESCENT AND TOKEN BY TOKEN.**

  Where a rule of the statements begins, the reader expects something; where the rule
  ends, it expects something else, and the same statements are open around it.
  Between the two it yields the same at every place where the cursor looks at a token
  (`Onward`).  If the rule fails, the reader fails at the same token, whatever has
  been opened since (`Broken`).

  Main results:
    * `Yields`: a rule of the statements goes well, and agrees with the reader.
    * `meets_token`, `meets_clause`: a token that must come, and an expression with what
      ends it.
    * `yields_…`: each rule goes well, if the rules it calls do.
-/
import Lox.Proofs.Descent.Program

namespace Lox.Descent

open Parse Grammar Descent.Parser

/-! ## §1. What a rule does. -/

section Yields

variable (ts : List Token) (X : Program)

/-- The cursor has come at least so far, and a reader that expects this there yields the
same as before. -/
def Onward (x : Expect) (cs : List Context) (prog : Array Stmt) (j : Nat) (s : State) : Prop :=
  Reached ts j s ∧ X = read ⟨x, cs, prog, s.ledger⟩ (s.rest ts)

/-- A failure of the reader, too. -/
def Broken (cs : List Context) (prog : Array Stmt) (i : Nat) (t : Token) (fault : SyntaxFault)
    (s : State) : Prop :=
  Reached ts i s
    ∧ ∃ w, s.rest ts = t :: w ∧ X = failing ⟨.declaration, cs, prog, s.ledger⟩ t fault w

/-- Only tokens of some kinds can be under the cursor. -/
def Before (stops : TokenKind → Prop) (s : State) : Prop :=
  ∀ t ∈ (s.rest ts).head?, stops t.kind

end Yields

variable {ts : List Token} {X : Program} {x y : Expect} {cs cs' : List Context}
  {prog : Array Stmt} {i j : Nat} {s : State} {t : Token} {w : List Token}
  {run : {α : Type} → Production α → Parser α}

theorem before_of_rest {stops : TokenKind → Prop} (hrest : s.rest ts = t :: w)
    (h : stops t.kind) : Before ts stops s := by
  unfold Before
  rw [hrest]
  rintro _ ⟨⟩
  exact h

theorem Before.head {stops : TokenKind → Prop} (h : Before ts stops s)
    (hrest : s.rest ts = t :: w) : stops t.kind := by
  refine h t ?_
  rw [hrest]
  rfl

theorem Onward.mono (h : Onward ts X x cs prog j s) (hij : i ≤ j) : Onward ts X x cs prog i s :=
  ⟨h.1.mono hij, h.2⟩

theorem Broken.mono {fault : SyntaxFault} (h : Broken ts X cs prog j t fault s) (hij : i ≤ j) :
    Broken ts X cs prog i t fault s :=
  ⟨h.1.mono hij, h.2⟩

theorem Onward.head (h : Onward ts X x cs prog j s) : ∃ t w, s.rest ts = t :: w :=
  h.1.ended.head

/-- A token is taken. -/
theorem Onward.next (h : Onward ts X x cs prog j s) (hrest : s.rest ts = t :: w)
    (ht : t.kind ≠ .eof)
    (hoffer : Reader.offer ⟨x, cs, prog, s.ledger⟩ t = ⟨y, cs', prog, s.ledger⟩) :
    Onward ts X y cs' prog (s.current + 1) s.next := by
  refine ⟨⟨Nat.le_refl _, h.1.ended.next hrest ht⟩, ?_⟩
  rw [h.2, hrest, read_next ht, hoffer, rest_next hrest]
  rfl

/-- What is expected may be put in other words that mean the same for the next token. -/
theorem Onward.stay (h : Onward ts X x cs prog j s) (hrest : s.rest ts = t :: w) (hx : Busy x)
    (hy : Busy y)
    (hoffer : Reader.offer ⟨x, cs, prog, s.ledger⟩ t = Reader.offer ⟨y, cs, prog, s.ledger⟩ t) :
    Onward ts X y cs prog j s := by
  refine ⟨h.1, ?_⟩
  rw [h.2, hrest]
  exact read_congr hx hy hoffer

/-- A token is refused. -/
theorem Onward.broken {fault : SyntaxFault} (h : Onward ts X x cs prog j s)
    (hrest : s.rest ts = t :: w) (hx : Busy x) (hij : i ≤ j)
    (hoffer : Reader.offer ⟨x, cs, prog, s.ledger⟩ t
      = Reader.fail ⟨.declaration, cs, prog, s.ledger⟩ t fault) :
    Broken ts X cs prog i t fault s := by
  refine ⟨h.1.mono hij, w, hrest, ?_⟩
  rw [h.2, hrest]
  exact read_failing hx hoffer

/-- A failure inside of a statement that is no block is a failure of that statement. -/
theorem Broken.outside {c : Context} {fault : SyntaxFault} (hc : c.isBlock = false)
    (h : Broken ts X (c :: cs) prog i t fault s) : Broken ts X cs prog i t fault s := by
  obtain ⟨hreached, w, hrest, hX⟩ := h
  rw [failing_inside hc] at hX
  exact ⟨hreached, w, hrest, hX⟩

/-! ## §2. Tokens and expressions in a rule. -/

section Rules

variable {α β : Type} {good : β → State → Prop} {kind : TokenKind} {fault : SyntaxFault}

/-- A token that must come. -/
theorem meets_token (y : Expect) (cs' : List Context) {f : Token → Parser β}
    (h : Onward ts X x cs prog j s)
    (hrest : s.rest ts = t :: w) (hk : kind ≠ .eof) (hx : Busy x) (hij : i ≤ j)
    (hno : t.kind ≠ kind → Reader.offer ⟨x, cs, prog, s.ledger⟩ t
      = Reader.fail ⟨.declaration, cs, prog, s.ledger⟩ t fault)
    (hyes : t.kind = kind → Reader.offer ⟨x, cs, prog, s.ledger⟩ t = ⟨y, cs', prog, s.ledger⟩)
    (hf : t.kind = kind → Onward ts X y cs' prog (s.current + 1) s.next →
      (f t ts s.next).Meets good (Broken ts X cs prog i)) :
    ((consume kind fault >>= f) ts s).Meets good (Broken ts X cs prog i) := by
  refine meets_consume hk hrest ?_ ?_
  · intro ht
    exact hf ht (h.next hrest (ht ▸ hk) (hyes ht))
  · intro ht
    exact h.broken hrest hx hij (hno ht)

/-- An expression with nothing pending around it. -/
theorem Reads.whole {o : Outcome Expr} (h : Reads ts .operand 0 1 s o) (hi : i ≤ s.current) :
    o.Meets (Operand ts (feed .empty s.ledger (s.rest ts)) [] 0 (s.current + 1))
      (Refused ts (feed .empty s.ledger (s.rest ts)) i) :=
  h.meets rfl (Nat.le_refl 0) hi (Nat.le_refl _)

/-- **An expression and what ends its clause.** -/
theorem meets_clause (clause : Clause) (y : Expr → Expect) (opened : Expr → List Context)
    {f : Expr → Token → Parser β} (h : Onward ts X (.expression clause .empty) cs prog i s)
    (hexpression : Reads ts .operand 0 1 s (run .expression ts s))
    (hend : ∀ e t l, t.kind = stop clause →
      Reader.endClause ⟨.declaration, cs, prog, l⟩ clause e t = ⟨y e, opened e, prog, l⟩)
    (hf : ∀ e t s', Onward ts X (y e) (opened e) prog (s.current + 2) s' →
      (f e t ts s').Meets good (Broken ts X cs prog i)) :
    ((run .expression >>= fun e => consume (stop clause) (Reader.clauseFault clause) >>= f e)
      ts s).Meets good (Broken ts X cs prog i) := by
  refine meets_bind ((hexpression.whole h.1.le).imp (fun _ _ => id) ?_) ?_
  · -- the expression was refused at a token, and so is the statement
    rintro t fault s' ⟨hreached, w, hrest, hfeed⟩
    exact ⟨hreached, w, hrest, h.2.trans (read_refused hfeed)⟩
  · rintro e s' ⟨hreached, hfollowed, hfeed⟩
    -- the token behind the rule continues no expression, so the partial one is whole there
    obtain ⟨t, w, hrest⟩ := hreached.ended.head
    rw [hrest] at hfollowed hfeed
    rw [feed_whole hfollowed] at hfeed
    have hX := h.2.trans (read_whole hfeed)
    have hstop : stop clause ≠ .eof := by cases clause <;> simp [stop]
    refine meets_consume hstop hrest ?_ ?_
    · intro ht
      rw [if_pos ht, hend e t _ ht, ← rest_next hrest] at hX
      exact hf e t s'.next
        ⟨⟨Nat.succ_le_succ hreached.le, hreached.ended.next hrest (ht ▸ hstop)⟩, hX⟩
    · intro ht
      rw [if_neg ht] at hX
      have hle := h.1.le
      exact ⟨hreached.mono (by omega), w, hrest, hX⟩

/-- An expression that may be left out, and what ends its clause. -/
theorem meets_optionalClause (clause : Clause) (y : Option Expr → Expect)
    (opened : Option Expr → List Context) {f : Option Expr → Token → Parser β}
    (h : Onward ts X x cs prog i s) (hx : Busy x)
    (hexpression : Reads ts .operand 0 1 s (run .expression ts s))
    (hnone : ∀ t l, t.kind = stop clause →
      Reader.offer ⟨x, cs, prog, l⟩ t = ⟨y none, opened none, prog, l⟩)
    (hsome : ∀ t l, t.kind ≠ stop clause → Reader.offer ⟨x, cs, prog, l⟩ t
      = Reader.offer ⟨.expression clause .empty, cs, prog, l⟩ t)
    (hend : ∀ e t l, t.kind = stop clause → Reader.endClause ⟨.declaration, cs, prog, l⟩ clause e t
      = ⟨y (some e), opened (some e), prog, l⟩)
    (hf : ∀ e t s', Onward ts X (y e) (opened e) prog (s.current + 1) s' →
      (f e t ts s').Meets good (Broken ts X cs prog i)) :
    ((optionalBefore (stop clause) (run .expression) >>= fun e =>
      consume (stop clause) (Reader.clauseFault clause) >>= f e) ts s).Meets good
        (Broken ts X cs prog i) := by
  obtain ⟨t, w, hrest⟩ := h.head
  have hstop : stop clause ≠ .eof := by cases clause <;> simp [stop]
  refine meets_optionalBefore hstop hrest ?_ ?_
  · intro ht
    exact meets_token (y none) (opened none) h hrest hstop hx (Nat.le_refl _)
      (fun hne => absurd ht hne) (fun ht => hnone t _ ht) fun _ hend => hf none t _ hend
  · intro ht
    have hclause : Onward ts X (.expression clause .empty) cs prog i s :=
      h.stay hrest hx trivial (hsome t _ ht)
    refine meets_clause clause (fun e => y (some e)) (fun e => opened (some e)) hclause
      hexpression hend ?_
    intro e t s' hend
    exact hf (some e) t s' (hend.mono (Nat.le_succ _))

/-- **A rule of the statements goes well**: where this is expected, it takes at least a token
and leaves the reader with something else, and with the same open statements. -/
def Yields (ts : List Token) (x : Expect) (goal : α → Expect) (s : State) (o : Outcome α) : Prop :=
  ∀ cs prog X, Onward ts X x cs prog s.current s →
    o.Meets (fun a s' => Onward ts X (goal a) cs prog (s.current + 1) s')
      (Broken ts X cs prog s.current)

/-- A rule goes well everywhere from a place on. -/
def YieldsFrom (ts : List Token) (run : {α : Type} → Production α → Parser α) (i : Nat)
    (x : Expect) (goal : α → Expect) (p : Production α) : Prop :=
  ∀ s, Reached ts i s → Yields ts x goal s (run p ts s)

/-- A rule that is called. -/
theorem meets_yields {o : Outcome α} {goal : α → Expect} (hrule : Yields ts x goal s o)
    (h : Onward ts X x cs prog i s) :
    o.Meets (fun a s' => Onward ts X (goal a) cs prog (s.current + 1) s')
      (Broken ts X cs prog i) := by
  refine (hrule cs prog X ⟨h.1.ended.reached, h.2⟩).imp (fun _ _ => id) ?_
  intro t fault s' hbroken
  exact hbroken.mono h.1.le

/-- A rule that is called behind a token. -/
theorem meets_behind {goal : α → Expect} {p : Production α} (h : Onward ts X x cs prog s.current s)
    (hrest : s.rest ts = t :: w) (hrule : YieldsFrom ts run (s.current + 1) y goal p)
    (ht : t.kind ≠ .eof)
    (hoffer : Reader.offer ⟨x, cs, prog, s.ledger⟩ t = ⟨y, cs, prog, s.ledger⟩) :
    (run p ts s.next).Meets (fun a s' => Onward ts X (goal a) cs prog (s.current + 1) s')
      (Broken ts X cs prog s.current) := by
  have hnext := h.next hrest ht hoffer
  refine (meets_yields (hrule s.next hnext.1) (hnext.mono (Nat.le_succ _))).imp ?_ (fun _ _ _ => id)
  intro a s' hend
  exact hend.mono (Nat.le_succ _)

/-- A rule that is called inside of a statement that is no block. -/
theorem meets_inside {o : Outcome α} {goal : α → Expect} {c : Context} (hc : c.isBlock = false)
    (hrule : Yields ts x goal s o) (h : Onward ts X x (c :: cs) prog i s) :
    o.Meets (fun a s' => Onward ts X (goal a) (c :: cs) prog (s.current + 1) s')
      (Broken ts X cs prog i) :=
  (meets_yields hrule h).imp (fun _ _ => id) fun _ _ _ hbroken => hbroken.outside hc

/-- A statement that ends together with the one around it. -/
theorem Onward.enclosed {c : Context} {stmt : Stmt}
    (h : Onward ts X (.finished stmt) (c :: cs) prog j s)
    (hrest : s.rest ts = t :: w) (hc : c.isBlock = false)
    (helse : t.kind = .kwElse → Reader.awaitsElse [c] = false) :
    Onward ts X (.finished (Grammar.enclosed [c] stmt)) cs prog j s := by
  refine ⟨h.1, ?_⟩
  rw [h.2, hrest]
  exact read_enclosed hc helse

end Rules

/-! ## §3. Simple statements. -/

theorem yields_print (hexpression : Reads ts .operand 0 1 s (run .expression ts s)) :
    Yields ts (.expression .print .empty) .finished s (step run .printStatement ts s) := by
  intro cs prog X h
  refine meets_clause .print (fun e => .finished (.print e)) (fun _ => cs) h hexpression ?_ ?_
  · intro e t l ht
    simp [Reader.endClause, Reader.expecting, ht, stop]
  · intro e t s' hend
    exact hend.mono (Nat.le_succ _)

/-- What follows a statement, or a clause of a loop. -/
def settled : VariablePlace → Stmt → Expect
  | .declaration, stmt => .finished stmt
  | .forClause, stmt => .forCondition (some stmt)

/-- What an expression is read for that is a statement, or a clause of a loop. -/
def expressionClause : VariablePlace → Clause
  | .declaration => .statement
  | .forClause => .forInitializer

theorem yields_expressionStatement (place : VariablePlace)
    (hexpression : Reads ts .operand 0 1 s (run .expression ts s)) :
    Yields ts (.expression (expressionClause place) .empty) (settled place) s
      (step run .expressionStatement ts s) := by
  intro cs prog X h
  cases place with
  | declaration =>
    refine meets_clause .statement (fun e => .finished (.expression e)) (fun _ => cs) h
      hexpression ?_ ?_
    · intro e t l ht
      simp [Reader.endClause, Reader.expecting, ht, stop]
    · intro e t s' hend
      exact hend.mono (Nat.le_succ _)
  | forClause =>
    refine meets_clause .forInitializer (fun e => .forCondition (some (.expression e)))
      (fun _ => cs) h hexpression ?_ ?_
    · intro e t l ht
      simp [Reader.endClause, Reader.expecting, ht, stop]
    · intro e t s' hend
      exact hend.mono (Nat.le_succ _)

theorem yields_return {keyword : Token} (hkeyword : ts[s.current - 1]? = some keyword)
    (hexpression : Reads ts .operand 0 1 s (run .expression ts s)) :
    Yields ts (.returnValue keyword) .finished s (step run .returnStatement ts s) := by
  intro cs prog X h
  rw [step, bind_of_done (previous_eq hkeyword)]
  refine meets_optionalClause (.return keyword) (fun e => .finished (.return keyword e))
    (fun _ => cs) h trivial hexpression ?_ ?_ ?_ ?_
  · intro t l ht
    simp only [stop] at ht
    simp [Reader.offer, Reader.expecting, ht]
  · intro t l ht
    simp only [stop] at ht
    simp [Reader.offer]
    rfl
  · intro e t l ht
    simp [Reader.endClause, Reader.expecting, ht, stop]
  · intro e t s' hend
    exact hend

theorem yields_var (place : VariablePlace)
    (hexpression : ∀ s', Reached ts (s.current + 1) s' →
      Reads ts .operand 0 1 s' (run .expression ts s')) :
    Yields ts (.variableName place) (settled place) s (step run .varDeclaration ts s) := by
  intro cs prog X h
  obtain ⟨name, w, hrest⟩ := h.head
  refine meets_token (.variableValue place name) cs h hrest (by decide) trivial
    (Nat.le_refl _) ?_ ?_ ?_
  · intro ht
    simp [Reader.offer]
    rfl
  · intro ht
    simp [Reader.offer, Reader.expecting, ht]
  intro _ hname
  obtain ⟨t, w₁, hrest₁⟩ := hname.head
  refine meets_optionalAfter (by decide) hrest₁ ?_ ?_
  · -- the value
    intro ht
    have hclause : Onward ts X (.expression (.variable place name) .empty) cs prog
        (s.next.current + 1) s.next.next := by
      refine hname.next hrest₁ (by simp [ht]) ?_
      simp [Reader.offer, Reader.expecting, ht]
    have hle := hclause.1.le
    refine meets_clause (.variable place name) (fun e => settled place (.var name (some e)))
      (fun _ => cs) (hclause.mono (Nat.le_add_right s.current 2)) (hexpression _ ?_) ?_ ?_
    · exact hclause.1.mono (Nat.le_succ _)
    · intro e t l ht
      cases place <;> simp [Reader.endClause, Reader.finishVariable, Reader.expecting, ht, stop,
        settled]
    · intro e t s' hend
      refine hend.mono ?_
      show s.current + 1 ≤ s.current + 1 + 1 + 2
      omega
  · -- no value
    intro ht
    refine meets_token (settled place (.var name none)) cs hname hrest₁ (by decide) trivial
      (Nat.le_succ _) ?_ ?_ ?_
    · intro hne
      simp [Reader.offer]
      rfl
    · intro hsemicolon
      cases place <;> simp [Reader.offer, Reader.finishVariable, Reader.expecting, hsemicolon,
        settled]
    · intro _ hend
      exact hend.mono (Nat.le_succ _)

/-! ## §4. Statements with statements in them. -/

/-- What a statement does on a condition: the condition in parentheses, behind which the
statement is open. -/
theorem meets_condition {β : Type} {good : β → State → Prop} {fault : SyntaxFault}
    (clause : Clause) (opened : Expr → Context) {f : Expr → Parser β}
    (h : Onward ts X x cs prog s.current s) (hx : Busy x) (hstop : stop clause = .rightParen)
    (hexpression : ∀ s', Reached ts (s.current + 1) s' →
      Reads ts .operand 0 1 s' (run .expression ts s'))
    (hno : ∀ t, t.kind ≠ .leftParen → Reader.offer ⟨x, cs, prog, s.ledger⟩ t
      = Reader.fail ⟨.declaration, cs, prog, s.ledger⟩ t fault)
    (hyes : ∀ t, t.kind = .leftParen → Reader.offer ⟨x, cs, prog, s.ledger⟩ t
      = ⟨.expression clause .empty, cs, prog, s.ledger⟩)
    (hend : ∀ e t l, t.kind = stop clause → Reader.endClause ⟨.declaration, cs, prog, l⟩ clause e t
      = ⟨.statement, opened e :: cs, prog, l⟩)
    (hf : ∀ e s', Onward ts X .statement (opened e :: cs) prog (s.current + 1) s' →
      (f e ts s').Meets good (Broken ts X cs prog s.current)) :
    ((do
      let _ ← consume .leftParen fault
      let e ← run .expression
      let _ ← consume .rightParen (Reader.clauseFault clause)
      f e) ts s).Meets good (Broken ts X cs prog s.current) := by
  obtain ⟨t, w, hrest⟩ := h.head
  refine meets_token (.expression clause .empty) cs h hrest (by decide) hx (Nat.le_refl _)
    (hno t) (hyes t) ?_
  intro _ hopen
  rw [← hstop]
  refine meets_clause clause (fun _ => .statement) (fun e => opened e :: cs)
    (hopen.mono (Nat.le_succ _)) (hexpression _ hopen.1) hend ?_
  intro e _ s₁ hinside
  exact hf e s₁ (hinside.mono (Nat.le_add_right (s.current + 1) 2))

theorem yields_if
    (hexpression : ∀ s', Reached ts (s.current + 1) s' →
      Reads ts .operand 0 1 s' (run .expression ts s'))
    (hbranch : YieldsFrom ts run (s.current + 1) .statement .finished .statement) :
    Yields ts .ifOpen .finished s (step run .ifStatement ts s) := by
  intro cs prog X h
  refine meets_condition .ifCondition .thenBranch h trivial rfl hexpression ?_ ?_ ?_ ?_
  · intro t ht
    simp [Reader.offer]
    rfl
  · intro t ht
    simp [Reader.offer, Reader.expecting, ht]
  · intro e t l ht
    simp [Reader.endClause, Reader.opening, ht, stop]
  intro condition s₁ hthen
  have hle := hthen.1.le
  refine meets_bind (meets_inside rfl (hbranch s₁ hthen.1) (hthen.mono (Nat.le_succ _))) ?_
  -- the branch waits for one more token, and so does the reader
  intro thenBranch s₂ hfinished
  obtain ⟨t₂, w₂, hrest₂⟩ := hfinished.head
  refine meets_accept (by decide) hrest₂ ?_ ?_
  · intro ht
    have helse : Onward ts X .statement (.elseBranch condition thenBranch :: cs) prog
        (s₂.current + 1) s₂.next := by
      refine hfinished.next hrest₂ (by simp [ht]) ?_
      simp [Reader.offer, ht, Reader.awaitsElse, Reader.placeBeforeElse]
    have hle₂ := hfinished.1.le
    refine meets_bind (meets_inside rfl (hbranch s₂.next (helse.1.mono (by omega)))
      (helse.mono (i := s.current) (by omega))) ?_
    intro elseBranch s₃ hwhole
    obtain ⟨t₃, w₃, hrest₃⟩ := hwhole.head
    refine (hwhole.enclosed hrest₃ rfl fun _ => rfl).mono ?_
    show s.current + 1 ≤ s₂.current + 1 + 1
    omega
  · -- without an `else` the statement ends together with its branch
    intro ht
    exact (hfinished.enclosed hrest₂ rfl fun helse => absurd helse ht).mono (by omega)

theorem yields_while
    (hexpression : ∀ s', Reached ts (s.current + 1) s' →
      Reads ts .operand 0 1 s' (run .expression ts s'))
    (hbody : YieldsFrom ts run (s.current + 1) .statement .finished .statement) :
    Yields ts .whileOpen .finished s (step run .whileStatement ts s) := by
  intro cs prog X h
  refine meets_condition .whileCondition .whileBody h trivial rfl hexpression ?_ ?_ ?_ ?_
  · intro t ht
    simp [Reader.offer]
    rfl
  · intro t ht
    simp [Reader.offer, Reader.expecting, ht]
  · intro e t l ht
    simp [Reader.endClause, Reader.opening, ht, stop]
  intro condition s₁ hinside
  have hle := hinside.1.le
  refine meets_bind (meets_inside rfl (hbody s₁ hinside.1) (hinside.mono (Nat.le_succ _))) ?_
  -- the loop ends together with its body
  intro body s₂ hfinished
  obtain ⟨t₂, w₂, hrest₂⟩ := hfinished.head
  exact (hfinished.enclosed hrest₂ rfl fun _ => rfl).mono (by omega)

theorem yields_forInitializer
    (hvar : YieldsFrom ts run (s.current + 1) (.variableName .forClause) (settled .forClause)
      .varDeclaration)
    (hexpression : Yields ts (.expression .forInitializer .empty) (settled .forClause) s
      (run .expressionStatement ts s)) :
    Yields ts .forInitializer .forCondition s (step run .forInitializer ts s) := by
  intro cs prog X h
  obtain ⟨t, w, hrest⟩ := h.head
  refine meets_accept (by decide) hrest ?_ ?_
  · intro ht
    refine h.next hrest (by simp [ht]) ?_
    simp [Reader.offer, Reader.expecting, ht]
  intro hsemicolon
  refine meets_accept (by decide) hrest ?_ ?_
  · intro ht
    refine meets_bind (meets_behind h hrest hvar (by simp [ht]) ?_) (fun _ _ => id)
    simp [Reader.offer, Reader.expecting, ht]
  · intro hvar
    have hclause : Onward ts X (.expression .forInitializer .empty) cs prog s.current s := by
      refine h.stay hrest trivial trivial ?_
      simp [Reader.offer]
      rfl
    exact meets_bind (meets_yields hexpression hclause) fun _ _ hend => hend

theorem yields_for
    (hinitializer : YieldsFrom ts run (s.current + 1) .forInitializer .forCondition .forInitializer)
    (hexpression : ∀ s', Reached ts (s.current + 1) s' →
      Reads ts .operand 0 1 s' (run .expression ts s'))
    (hbody : YieldsFrom ts run (s.current + 1) .statement .finished .statement) :
    Yields ts .forOpen .finished s (step run .forStatement ts s) := by
  intro cs prog X h
  obtain ⟨t, w, hrest⟩ := h.head
  refine meets_token .forInitializer cs h hrest (by decide) trivial (Nat.le_refl _) ?_ ?_ ?_
  · intro ht
    simp [Reader.offer]
    rfl
  · intro ht
    simp [Reader.offer, Reader.expecting, ht]
  intro _ hopen
  refine meets_bind (meets_yields (hinitializer _ hopen.1) (hopen.mono (Nat.le_succ _))) ?_
  intro initializer s₁ hcondition
  have hle₁ : s.current + 2 ≤ s₁.current := hcondition.1.le
  refine meets_optionalClause (.forCondition initializer) (.forIncrement initializer)
    (fun _ => cs) (hcondition.mono (i := s.current) (Nat.le_add_right _ 2)) trivial
    (hexpression s₁ ⟨by omega, hcondition.1.ended⟩) ?_ ?_ ?_ ?_
  · intro t l ht
    simp only [stop] at ht
    simp [Reader.offer, Reader.expecting, ht]
  · intro t l ht
    simp only [stop] at ht
    simp [Reader.offer]
    rfl
  · intro e t l ht
    simp [Reader.endClause, Reader.expecting, ht, stop]
  intro condition _ s₂ hincrement
  have hle₂ := hincrement.1.le
  refine meets_optionalClause (.forIncrement initializer condition) (fun _ => .statement)
    (fun e => .forBody initializer condition e :: cs) (hincrement.mono (i := s.current) (by omega))
    trivial (hexpression s₂ ⟨by omega, hincrement.1.ended⟩) ?_ ?_ ?_ ?_
  · intro t l ht
    simp only [stop] at ht
    simp [Reader.offer, Reader.opening, ht]
  · intro t l ht
    simp only [stop] at ht
    simp [Reader.offer]
    rfl
  · intro e t l ht
    simp [Reader.endClause, Reader.opening, ht, stop]
  intro increment _ s₃ hinside
  have hle₃ := hinside.1.le
  refine meets_bind (meets_inside rfl (hbody s₃ ⟨by omega, hinside.1.ended⟩)
    (hinside.mono (i := s.current) (by omega))) ?_
  -- the loop ends together with its body
  intro body s₄ hfinished
  obtain ⟨t₄, w₄, hrest₄⟩ := hfinished.head
  exact (hfinished.enclosed hrest₄ rfl fun _ => rfl).mono (by omega)

end Lox.Descent
