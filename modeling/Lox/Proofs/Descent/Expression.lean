/-
  Lox.Proofs.Descent.Expression
  ─────────────────────────────
  **EXPRESSIONS: DESCENT AND TOKEN BY TOKEN.**

  A partial expression is fed the rest of the input until a token comes that it does
  not take (`feed`).  What a rule of the grammar does to the cursor, the partial
  expression does meanwhile to its stack.  A rule that begins in front of an
  operand leaves the partial expression behind that operand, with the same operators
  pending as before: those that the rule has read have been closed by the token
  behind it, which does not continue the rule (`Followed`).

  So no stack is followed through a rule.  It is enough that the end of the feeding
  does not change from one look at a token to the next: `feed_operator`,
  `feed_closed_binary` and the others say this for one token each.

  Main results:
    * `Reads`: a rule of the expressions goes well, and agrees with the feeding.
    * `reads_…`: each rule does, if the rules it calls do.
-/
import Lox.Proofs.Descent.Cursor
import Lox.Proofs.Grammar.Expression

namespace Lox.Descent

open Parse Grammar Descent.Parser

/-! ## §1. Feeding a partial expression. -/

/-- Where the feeding of an expression ends. -/
inductive Ending where
  /-- It is whole, and these tokens follow. -/
  | whole (e : Expr) (l : Ledger) (rest : List Token)
  /-- The first of these tokens cannot stand where it does. -/
  | refused (fault : SyntaxFault) (l : Ledger) (rest : List Token)
  /-- There are no tokens left. -/
  | starved

/-- **Feed tokens** to a partial expression, one after the other. -/
def feed (p : Partial) (l : Ledger) : List Token → Ending
  | [] => .starved
  | t :: rest =>
      match p.offer t l with
      | (.taken p, l) => feed p l rest
      | (.whole e, l) => .whole e l (t :: rest)
      | (.refused fault, l) => .refused fault l (t :: rest)

/-- A token that is taken. -/
theorem feed_taken {p p' : Partial} {l l' : Ledger} {t : Token} {w : List Token}
    (h : p.offer t l = (.taken p', l')) : feed p l (t :: w) = feed p' l' w := by
  rw [feed, h]

theorem feed_refused {p : Partial} {l l' : Ledger} {t : Token} {w : List Token}
    {fault : SyntaxFault} (h : p.offer t l = (.refused fault, l')) :
    feed p l (t :: w) = .refused fault l' (t :: w) := by
  rw [feed, h]

/-- Two partial expressions that do the same with the next token do the same with all of
them. -/
theorem feed_congr {p p' : Partial} {l l' : Ledger} {w : List Token}
    (h : ∀ t ∈ w.head?, p.offer t l = p'.offer t l') : feed p l w = feed p' l' w := by
  cases w with
  | nil => rfl
  | cons t w => rw [feed, feed, h t rfl]

/-- **The tokens that continue an expression of a level**: calls and properties those of
all levels up to the calls, operators those that bind as loosely, and the equals
sign whole expressions. -/
def continues (n : Nat) (k : TokenKind) : Bool :=
  match k with
  | .leftParen | .dot => n ≤ 7
  | .equal => n = 0
  | k =>
      match bindingLevel? k with
      | some m => n ≤ m
      | none => false

/-- No token that continues the level is next. -/
def Followed (n : Nat) (w : List Token) : Prop :=
  ∀ t ∈ w.head?, continues n t.kind = false

/-- A token does not continue a level if it is of none of the kinds that do. -/
theorem continues_eq_false_iff (n : Nat) (k : TokenKind) :
    continues n k = false ↔ (n ≤ 7 → k ≠ .leftParen ∧ k ≠ .dot) ∧ (n = 0 → k ≠ .equal)
      ∧ ∀ m, bindingLevel? k = some m → m < n := by
  cases k <;> simp [continues, bindingLevel?]

/-- What does not continue a level does not continue a tighter one. -/
theorem Followed.mono {m n : Nat} {w : List Token} (hmn : m ≤ n) (h : Followed m w) :
    Followed n w := by
  intro t ht
  obtain ⟨hcall, hequal, hlevel⟩ := (continues_eq_false_iff m t.kind).mp (h t ht)
  refine (continues_eq_false_iff n t.kind).mpr ⟨?_, ?_, ?_⟩
  · exact fun hn => hcall (by omega)
  · exact fun hn => hequal (by omega)
  · exact fun k hk => Nat.lt_of_lt_of_le (hlevel k hk) hmn

/-- Nothing continues what is tighter than a call. -/
theorem followed_eight (w : List Token) : Followed 8 w := by
  intro t _
  refine (continues_eq_false_iff 8 t.kind).mpr ⟨?_, ?_, ?_⟩
  · exact fun h => absurd h (by decide)
  · exact fun h => absurd h (by decide)
  · intro m hm
    obtain ⟨l, rfl, -⟩ := exists_level hm
    exact Nat.lt_of_le_of_lt l.rank_le (by decide)

/-! ## §2. What closing does. -/

/-- **A token that does not continue a level** sees no difference between pending
operators of the level and the expression that they close to. -/
theorem offerAfter_congr {n : Nat} {t : Token} {ps ps' : List Pending} {e e' : Expr}
    {l l' : Ledger} (hn : n ≤ 7) (ht : continues n t.kind = false) (hl : n ≠ 0 → l = l')
    (hops : ∀ m, m < n → closeOperators m ps e = closeOperators m ps' e')
    (hall : closeAll ps e l = closeAll ps' e' l') :
    offerAfter ps e t l = offerAfter ps' e' t l' := by
  obtain ⟨hcall, hequal, hlevel⟩ := (continues_eq_false_iff n t.kind).mp ht
  obtain ⟨hparen, hdot⟩ := hcall hn
  -- an operator closes those of tighter levels only, any other token closes all there is
  by_cases heq : t.kind = .equal
  · have hpos : n ≠ 0 := fun h0 => hequal h0 heq
    rw [offerAfter_equal heq, offerAfter_equal heq, hops 0 (Nat.pos_of_ne_zero hpos), hl hpos]
  · cases hm : bindingLevel? t.kind with
    | some m =>
      have hlt := hlevel m hm
      have hpos : n ≠ 0 := by omega
      rw [offerAfter_operator hm, offerAfter_operator hm, hops m hlt, hl hpos]
    | none =>
      rw [offerAfter_other hparen hdot heq hm, offerAfter_other hparen hdot heq hm]
      unfold offerEnd
      rw [hall]

section Feed

variable {ps : List Pending} {e left : Expr} {l : Ledger} {t : Token} {w : List Token}

theorem feed_closed_unary (h : Followed 7 w) :
    feed ⟨.unary t :: ps, .after e⟩ l w = feed ⟨ps, .after (.unary t e)⟩ l w := by
  refine feed_congr ?_
  intro t' ht'
  exact offerAfter_congr (Nat.le_refl 7) (h t' ht') (fun _ => rfl) (fun _ _ => rfl) rfl

theorem feed_closed_binary {level : Level} (ht : t.kind ∈ level.operators)
    (h : Followed (level.rank + 1) w) :
    feed ⟨.binary left t level.rank :: ps, .after e⟩ l w
      = feed ⟨ps, .after (level.node left t e)⟩ l w := by
  have hrank := level.rank_le
  refine feed_congr ?_
  intro t' ht'
  rw [← joined_eq_node ht]
  refine offerAfter_congr (by omega) (h t' ht') (fun _ => rfl) ?_ rfl
  intro m hm
  rw [closeOperators, if_pos (by omega)]

/-- The ledger and the tree behind an assignment. -/
def assignment (target : Expr) (equals : Token) (value : Expr) (l : Ledger) : Expr × Ledger :=
  match assigned? target value with
  | some e => (e, l)
  | none => (target, l.report equals .assignmentTarget)

theorem feed_closed_assignment {target value : Expr} (h : Followed 0 w) :
    feed ⟨.assignment target t :: ps, .after value⟩ l w
      = feed ⟨ps, .after (assignment target t value l).1⟩ (assignment target t value l).2 w := by
  refine feed_congr ?_
  intro t' ht'
  refine offerAfter_congr (Nat.zero_le 7) (h t' ht') (fun h0 => absurd rfl h0)
    (fun m hm => absurd hm (Nat.not_lt_zero m)) ?_
  rw [closeAll, assignment]
  cases assigned? target value <;> rfl

/-- An operator after an operand of its level. -/
theorem feed_operator {level : Level} (ht : t.kind ∈ level.operators)
    (ha : awaited ps ≤ level.rank) :
    feed ⟨ps, .after left⟩ l (t :: w) = feed ⟨.binary left t level.rank :: ps, .operand⟩ l w := by
  refine feed_taken ?_
  show offerAfter ps left t l = _
  rw [offerAfter_operator (bindingLevel?_of_mem ht), closeOperators_awaited level.rank_le ha]

theorem feed_equal (ht : t.kind = .equal) (ha : awaited ps = 0) :
    feed ⟨ps, .after e⟩ l (t :: w) = feed ⟨.assignment e t :: ps, .operand⟩ l w := by
  refine feed_taken ?_
  show offerAfter ps e t l = _
  rw [offerAfter_equal ht, closeOperators_awaited (Nat.zero_le 6) (Nat.le_of_eq ha)]

end Feed

/-! ## §3. The end of an expression. -/

section Ends

variable {ps : List Pending} {e callee : Expr} {earlier : Array Expr} {l : Ledger} {t : Token}
  {w : List Token}

/-- A token that does not continue an expression ends it. -/
theorem offer_followed (h : Followed 0 (t :: w)) :
    Partial.offer ⟨ps, .after e⟩ t l = offerEnd ps e t l := by
  obtain ⟨hcall, hequal, hlevel⟩ := (continues_eq_false_iff 0 t.kind).mp (h t rfl)
  obtain ⟨hparen, hdot⟩ := hcall (Nat.zero_le 7)
  have hnone : bindingLevel? t.kind = none := by
    cases hm : bindingLevel? t.kind with
    | none => rfl
    | some m => exact absurd (hlevel m hm) (Nat.not_lt_zero m)
  exact offerAfter_other hparen hdot (hequal rfl) hnone

/-- An expression that is all there is. -/
theorem feed_whole (h : Followed 0 (t :: w)) :
    feed ⟨[], .after e⟩ l (t :: w) = .whole e l (t :: w) := by
  rw [feed, offer_followed h]
  rfl

theorem feed_groupClose (h : Followed 0 (t :: w)) (ht : t.kind = .rightParen) :
    feed ⟨.group :: ps, .after e⟩ l (t :: w) = feed ⟨ps, .after (.grouping e)⟩ l w := by
  refine feed_taken ?_
  rw [offer_followed h]
  simp [offerEnd, closeAll, ht]

theorem feed_groupRefused (h : Followed 0 (t :: w)) (ht : t.kind ≠ .rightParen) :
    feed ⟨.group :: ps, .after e⟩ l (t :: w) = .refused .groupClose l (t :: w) := by
  refine feed_refused ?_
  rw [offer_followed h]
  simp [offerEnd, closeAll]

theorem feed_comma (h : Followed 0 (t :: w)) (ht : t.kind = .comma) :
    feed ⟨.arguments callee earlier :: ps, .after e⟩ l (t :: w)
      = feed ⟨ps, .nextArgument callee (earlier.push e)⟩ l w := by
  refine feed_taken ?_
  rw [offer_followed h]
  simp [offerEnd, closeAll, ht]

theorem feed_callEnd (h : Followed 0 (t :: w)) (ht : t.kind = .rightParen) :
    feed ⟨.arguments callee earlier :: ps, .after e⟩ l (t :: w)
      = feed ⟨ps, .after (.call callee t (earlier.push e).toList)⟩ l w := by
  refine feed_taken ?_
  rw [offer_followed h]
  simp [offerEnd, closeAll, ht]

theorem feed_callRefused (h : Followed 0 (t :: w)) (hcomma : t.kind ≠ .comma)
    (ht : t.kind ≠ .rightParen) :
    feed ⟨.arguments callee earlier :: ps, .after e⟩ l (t :: w)
      = .refused .argumentsClose l (t :: w) := by
  refine feed_refused ?_
  rw [offer_followed h]
  simp [offerEnd, closeAll]

/-- The first argument is read as any other one. -/
theorem feed_firstArgument (ht : t.kind ≠ .rightParen) :
    feed ⟨ps, .firstArgument callee⟩ l (t :: w)
      = feed ⟨ps, .nextArgument callee #[]⟩ l (t :: w) := by
  refine feed_congr ?_
  rintro _ ⟨⟩
  simp [Partial.offer, maxArity]

theorem feed_nextArgument :
    feed ⟨ps, .nextArgument callee earlier⟩ l (t :: w)
      = feed ⟨.arguments callee earlier :: ps, .operand⟩
          (limited earlier.size t .tooManyArguments l) (t :: w) := by
  refine feed_congr ?_
  rintro _ ⟨⟩
  rfl

end Ends

/-- Where an operator is expected that looser rules leave to a tighter one. -/
theorem followed_zero {t : Token} {w : List Token} (h : Followed 1 (t :: w))
    (ht : t.kind ≠ .equal) : Followed 0 (t :: w) := by
  obtain ⟨hcall, -, hlevel⟩ := (continues_eq_false_iff 1 t.kind).mp (h t rfl)
  rintro _ ⟨⟩
  refine (continues_eq_false_iff 0 t.kind).mpr ⟨fun _ => hcall (by decide), fun _ => ht, ?_⟩
  intro m hm
  -- no operator is looser than the first level
  obtain ⟨level, rfl, -⟩ := exists_level hm
  have hpos := level.rank_pos
  have hlt := hlevel level.rank hm
  omega

theorem Level.rank_injective {l l' : Level} (h : l.rank = l'.rank) : l = l' := by
  cases l <;> cases l' <;> first | rfl | cases h

theorem followed_level {level : Level} {t : Token} {w : List Token}
    (h : Followed (level.rank + 1) (t :: w)) (ht : t.kind ∉ level.operators) :
    Followed level.rank (t :: w) := by
  have hrank := level.rank_le
  have hpos := level.rank_pos
  obtain ⟨hcall, -, hlevel⟩ := (continues_eq_false_iff (level.rank + 1) t.kind).mp (h t rfl)
  rintro _ ⟨⟩
  refine (continues_eq_false_iff level.rank t.kind).mpr ⟨fun _ => hcall (by omega), ?_, ?_⟩
  · exact fun h0 => absurd h0 (by omega)
  · intro m hm
    obtain ⟨level', rfl, hmem⟩ := exists_level hm
    have hlt := hlevel level'.rank hm
    have hne : level'.rank ≠ level.rank := by
      intro heq
      rw [Level.rank_injective heq] at hmem
      exact ht hmem
    omega

/-! ## §4. What a rule does. -/

section Reads

variable (ts : List Token)

/-- A failure where the feeding ends, too. -/
def Refused (X : Ending) (i : Nat) (t : Token) (fault : SyntaxFault) (s : State) : Prop :=
  Reached ts i s ∧ ∃ w, s.rest ts = t :: w ∧ X = .refused fault s.ledger (t :: w)

/-- An operand of a level was read, behind which the feeding goes on. -/
def Operand (X : Ending) (ps : List Pending) (n j : Nat) (e : Expr) (s : State) : Prop :=
  Reached ts j s ∧ Followed n (s.rest ts) ∧ X = feed ⟨ps, .after e⟩ s.ledger (s.rest ts)

/-- **A rule of the expressions goes well**: from a place where this phase is reached, it
takes at least `k` tokens and leaves an operand of a level, whatever is pending that
waits for such an operand. -/
def Reads (phase : Phase) (n k : Nat) (s : State) (o : Outcome Expr) : Prop :=
  ∀ ps, awaited ps ≤ n → ∀ X, X = feed ⟨ps, phase⟩ s.ledger (s.rest ts) →
    o.Meets (Operand ts X ps n (s.current + k)) (Refused ts X s.current)

end Reads

variable {ts : List Token} {s : State} {run : {α : Type} → Production α → Parser α}

theorem Refused.mono {X : Ending} {i j : Nat} {t : Token} {fault : SyntaxFault} {s : State}
    (hij : i ≤ j) (h : Refused ts X j t fault s) : Refused ts X i t fault s :=
  ⟨h.1.mono hij, h.2⟩

/-- A rule that begins at a later place. -/
theorem Reads.meets {phase : Phase} {n k i j : Nat} {s' : State} {o : Outcome Expr}
    (h : Reads ts phase n k s' o) {ps : List Pending} {X : Ending}
    (hX : X = feed ⟨ps, phase⟩ s'.ledger (s'.rest ts)) (ha : awaited ps ≤ n) (hi : i ≤ s'.current)
    (hj : j ≤ s'.current + k) : o.Meets (Operand ts X ps n j) (Refused ts X i) := by
  refine (h ps ha X hX).imp ?_ ?_
  · intro e s₁ hoperand
    exact ⟨hoperand.1.mono hj, hoperand.2⟩
  · intro t fault s₁ hrefused
    exact hrefused.mono hi

/-! ## §5. Operators. -/

theorem reads_assignment (hbinary : Reads ts .operand 1 1 s (run (.binary .logicOr) ts s))
    (hself : ∀ s', Reached ts (s.current + 1) s' →
      Reads ts .operand 0 1 s' (run .assignment ts s')) :
    Reads ts .operand 0 1 s (step run .assignment ts s) := by
  intro ps ha X hX
  refine meets_bind (hbinary.meets hX (by omega) (Nat.le_refl _) (Nat.le_refl _)) ?_
  rintro target s₁ ⟨hreached, hfollowed, hX₁⟩
  obtain ⟨t, w, hrest⟩ := hreached.ended.head
  refine meets_accept (by decide) hrest ?_ ?_
  · -- the equals sign is pending while the value is read, and what follows the value closes it
    intro ht
    have hnext : Reached ts (s.current + 1) s₁.next :=
      ⟨Nat.le_succ_of_le hreached.le, hreached.ended.next hrest (by simp [ht])⟩
    have hX₂ : X = feed ⟨.assignment target t :: ps, .operand⟩ s₁.next.ledger
        (s₁.next.rest ts) := by
      rw [hX₁, hrest, feed_equal ht (Nat.le_zero.mp ha), rest_next hrest]
      rfl
    rw [bind_of_done (previous_next hrest)]
    have hle := hnext.le
    refine meets_bind ((hself s₁.next hnext).meets hX₂ (Nat.le_refl 0) (by omega)
      (Nat.le_succ_of_le hle)) ?_
    rintro value s₂ ⟨hreached₂, hfollowed₂, hX₃⟩
    rw [feed_closed_assignment hfollowed₂, assignment] at hX₃
    cases hassigned : assigned? target value with
    | some e =>
      rw [hassigned] at hX₃
      exact ⟨hreached₂, hfollowed₂, hX₃⟩
    | none =>
      rw [hassigned] at hX₃
      exact ⟨⟨hreached₂.le, hreached₂.ended.congr rfl⟩, hfollowed₂, hX₃⟩
  · intro ht
    rw [hrest] at hfollowed
    refine ⟨hreached, ?_, hX₁⟩
    rw [hrest]
    exact followed_zero hfollowed ht

theorem awaited_binary (left : Expr) (t : Token) (l : Level) (ps : List Pending) :
    awaited (.binary left t l.rank :: ps) ≤ l.rank + 1 :=
  Nat.le_refl _

theorem reads_binary {l : Level}
    (hoperand : Reads ts .operand (l.rank + 1) 1 s (run (.operand l) ts s))
    (hoperators : ∀ left s', Reached ts (s.current + 1) s' → Followed (l.rank + 1) (s'.rest ts) →
      Reads ts (.after left) l.rank 0 s' (run (.operators l left) ts s')) :
    Reads ts .operand l.rank 1 s (step run (.binary l) ts s) := by
  intro ps ha X hX
  refine meets_bind (hoperand.meets hX (by omega) (Nat.le_refl _) (Nat.le_refl _)) ?_
  rintro left s₁ ⟨hreached, hfollowed, hX₁⟩
  have hle := hreached.le
  exact (hoperators left s₁ hreached hfollowed).meets hX₁ ha (by omega) (by omega)

theorem operators_ne_eof (l : Level) : ∀ kind ∈ l.operators, kind ≠ .eof := by
  cases l <;> simp [Level.operators]

theorem reads_operators {l : Level} {left : Expr} (hs : Ended ts s)
    (hfollowed : Followed (l.rank + 1) (s.rest ts))
    (hoperand : ∀ s', Reached ts (s.current + 1) s' →
      Reads ts .operand (l.rank + 1) 1 s' (run (.operand l) ts s'))
    (hself : ∀ left' s', Reached ts (s.current + 1) s' → Followed (l.rank + 1) (s'.rest ts) →
      Reads ts (.after left') l.rank 0 s' (run (.operators l left') ts s')) :
    Reads ts (.after left) l.rank 0 s (step run (.operators l left) ts s) := by
  intro ps ha X hX
  obtain ⟨t, w, hrest⟩ := hs.head
  refine meets_acceptAny (operators_ne_eof l) hrest ?_ ?_
  · -- the operator waits for an operand of the next level; the token behind that closes it,
    -- so the loop goes on with what was pending before
    intro ht
    have hnext : Reached ts (s.current + 1) s.next :=
      ⟨Nat.le_refl _, hs.next hrest (operators_ne_eof l _ ht)⟩
    have hX₁ : X = feed ⟨.binary left t l.rank :: ps, .operand⟩ s.next.ledger
        (s.next.rest ts) := by
      rw [hX, hrest, feed_operator ht ha, rest_next hrest]
      rfl
    rw [bind_of_done (previous_next hrest)]
    refine meets_bind ((hoperand s.next hnext).meets hX₁
      (awaited_binary left t l ps) (Nat.le_succ _) (Nat.le_succ_of_le hnext.le)) ?_
    rintro right s₁ ⟨hreached, hfollowed₁, hX₂⟩
    rw [feed_closed_binary ht hfollowed₁] at hX₂
    have hle := hreached.le
    exact (hself _ s₁ hreached hfollowed₁).meets hX₂ ha (by omega) (by omega)
  · intro ht
    rw [hrest] at hfollowed
    refine ⟨hs.reached, ?_, hX⟩
    rw [hrest]
    exact followed_level hfollowed ht

/-- The tokens that stand before an operand. -/
def Unprefixed (w : List Token) : Prop :=
  ∀ t ∈ w.head?, t.kind ∉ [TokenKind.bang, .minus]

theorem reads_unary (hs : Ended ts s)
    (hself : ∀ s', Reached ts (s.current + 1) s' → Reads ts .operand 7 1 s' (run .unary ts s'))
    (hcall : Unprefixed (s.rest ts) → Reads ts .operand 7 1 s (run .call ts s)) :
    Reads ts .operand 7 1 s (step run .unary ts s) := by
  intro ps ha X hX
  obtain ⟨t, w, hrest⟩ := hs.head
  refine meets_acceptAny (by decide) hrest ?_ ?_
  · -- no operator binds as tightly as a prefix, so what follows its operand closes it
    intro ht
    have hnext : Reached ts (s.current + 1) s.next := by
      refine ⟨Nat.le_refl _, hs.next hrest ?_⟩
      rintro heof
      rw [heof] at ht
      exact absurd ht (by decide)
    have hX₁ : X = feed ⟨.unary t :: ps, .operand⟩ s.next.ledger (s.next.rest ts) := by
      have htaken : Partial.offer ⟨ps, .operand⟩ t s.ledger
          = (.taken ⟨.unary t :: ps, .operand⟩, s.ledger) := by
        show offerOperand ps t s.ledger = _
        unfold offerOperand
        simp only [List.mem_cons, List.not_mem_nil, or_false] at ht
        rcases ht with ht | ht <;> simp [ht]
      rw [hX, hrest, feed_taken htaken, rest_next hrest]
      rfl
    rw [bind_of_done (previous_next hrest)]
    refine meets_bind ((hself s.next hnext).meets hX₁ (Nat.le_refl 7) (Nat.le_succ _)
      (Nat.le_succ_of_le hnext.le)) ?_
    rintro e s₁ ⟨hreached, hfollowed, hX₂⟩
    rw [feed_closed_unary hfollowed] at hX₂
    exact ⟨hreached, hfollowed, hX₂⟩
  · intro ht
    refine (hcall ?_).meets hX ha (Nat.le_refl _) (Nat.le_refl _)
    rw [hrest]
    rintro _ ⟨⟩
    exact ht

/-! ## §6. Calls. -/

theorem reads_call (hprimary : Reads ts .operand 8 1 s (run .primary ts s))
    (hcalls : ∀ e s', Reached ts (s.current + 1) s' →
      Reads ts (.after e) 7 0 s' (run (.calls e) ts s')) :
    Reads ts .operand 7 1 s (step run .call ts s) := by
  intro ps ha X hX
  refine meets_bind (hprimary.meets hX (by omega) (Nat.le_refl _) (Nat.le_refl _)) ?_
  rintro e s₁ ⟨hreached, _, hX₁⟩
  have hle := hreached.le
  exact (hcalls e s₁ hreached).meets hX₁ ha (by omega) (by omega)

theorem reads_calls {e : Expr} (hs : Ended ts s)
    (hfinish : ∀ s', Reached ts (s.current + 1) s' →
      Reads ts (.firstArgument e) 8 1 s' (run (.finishCall e) ts s'))
    (hself : ∀ e' s', Reached ts (s.current + 1) s' →
      Reads ts (.after e') 7 0 s' (run (.calls e') ts s')) :
    Reads ts (.after e) 7 0 s (step run (.calls e) ts s) := by
  intro ps ha X hX
  obtain ⟨t, w, hrest⟩ := hs.head
  refine meets_accept (by decide) hrest ?_ ?_
  · intro ht
    have hnext : Reached ts (s.current + 1) s.next :=
      ⟨Nat.le_refl _, hs.next hrest (by simp [ht])⟩
    -- a call leaves the operators alone: its callee is the operand behind them
    have hX₁ : X = feed ⟨ps, .firstArgument e⟩ s.next.ledger (s.next.rest ts) := by
      rw [hX, hrest, feed_taken (p := ⟨ps, .after e⟩) (offerAfter_paren ht), rest_next hrest]
      rfl
    have hle := hnext.le
    refine meets_bind ((hfinish s.next hnext).meets hX₁ (by omega) (by omega) (Nat.le_refl _)) ?_
    rintro e' s₁ ⟨hreached, _, hX₂⟩
    have hle₁ := hreached.le
    exact (hself e' s₁ (hreached.mono (by omega))).meets hX₂ ha (by omega) (by omega)
  · intro hparen
    refine meets_accept (by decide) hrest ?_ ?_
    · intro ht
      have hnext : Reached ts (s.current + 1) s.next :=
        ⟨Nat.le_refl _, hs.next hrest (by simp [ht])⟩
      have hX₁ : X = feed ⟨ps, .property e⟩ s.next.ledger (s.next.rest ts) := by
        rw [hX, hrest, feed_taken (p := ⟨ps, .after e⟩) (offerAfter_dot ht), rest_next hrest]
        rfl
      obtain ⟨t', w', hrest'⟩ := hnext.ended.head
      rw [hrest'] at hX₁
      refine meets_consume (by decide) hrest' ?_ ?_
      · intro ht'
        have hnext' : Reached ts (s.current + 1) s.next.next :=
          ⟨Nat.le_succ_of_le hnext.le, hnext.ended.next hrest' (by simp [ht'])⟩
        have htaken : Partial.offer ⟨ps, .property e⟩ t' s.next.ledger
            = (.taken ⟨ps, .after (.get e t')⟩, s.next.ledger) := by
          simp [Partial.offer, ht']
        rw [feed_taken htaken, ← rest_next hrest'] at hX₁
        have hle := hnext'.le
        exact (hself _ s.next.next hnext').meets hX₁ ha (by omega) (by omega)
      · intro ht'
        have hrefused : Partial.offer ⟨ps, .property e⟩ t' s.next.ledger
            = (.refused .propertyName, s.next.ledger) := by
          simp [Partial.offer]
        rw [feed_refused hrefused] at hX₁
        exact ⟨hnext.mono (Nat.le_succ _), w', hrest', hX₁⟩
    · intro hdot
      refine ⟨hs.reached, ?_, hX⟩
      rw [hrest]
      rintro _ ⟨⟩
      refine (continues_eq_false_iff 7 t.kind).mpr ⟨fun _ => ⟨hparen, hdot⟩, ?_, ?_⟩
      · exact fun h0 => absurd h0 (by decide)
      · intro m hm
        obtain ⟨l, rfl, -⟩ := exists_level hm
        exact Nat.lt_succ_of_le l.rank_le

/-- Arguments were read, the last of which is still a partial expression. -/
def Listed (ts : List Token) (X : Ending) (callee : Expr) (ps : List Pending) (j : Nat)
    (arguments : Array Expr) (s : State) : Prop :=
  Reached ts j s ∧ ∃ earlier e t w, arguments = earlier.push e ∧ s.rest ts = t :: w
    ∧ t.kind ≠ .comma ∧ Followed 0 (t :: w)
    ∧ X = feed ⟨.arguments callee earlier :: ps, .after e⟩ s.ledger (t :: w)

/-- **The rule of arguments goes well**, behind some earlier ones. -/
def ReadsArguments (ts : List Token) (earlier : Array Expr) (s : State)
    (o : Outcome (Array Expr)) : Prop :=
  ∀ callee ps X, X = feed ⟨ps, .nextArgument callee earlier⟩ s.ledger (s.rest ts) →
    o.Meets (Listed ts X callee ps (s.current + 1)) (Refused ts X s.current)

theorem reads_arguments {earlier : Array Expr} (hs : Ended ts s)
    (hexpression : ∀ s', Reached ts s.current s' → s'.current = s.current →
      Reads ts .operand 0 1 s' (run .expression ts s'))
    (hself : ∀ earlier' s', Reached ts (s.current + 1) s' →
      ReadsArguments ts earlier' s' (run (.arguments earlier') ts s')) :
    ReadsArguments ts earlier s (step run (.arguments earlier) ts s) := by
  intro callee ps X hX
  obtain ⟨t, w, hrest⟩ := hs.head
  -- both sides check the size of the list at the first token of the next argument
  let s₀ : State := { s with ledger := limited earlier.size t .tooManyArguments s.ledger }
  have hX₀ : X = feed ⟨.arguments callee earlier :: ps, .operand⟩ s₀.ledger (s₀.rest ts) := by
    show X = feed _ _ (s.rest ts)
    rw [hX, hrest, feed_nextArgument]
  have hreached₀ : Reached ts s.current s₀ := ⟨Nat.le_refl _, hs.congr rfl⟩
  show ((limit earlier.size .tooManyArguments >>= _) ts s).Meets _ _
  rw [bind_of_done (limit_eq hrest)]
  refine meets_bind ((hexpression s₀ hreached₀ rfl).meets hX₀ (Nat.le_refl 0) (Nat.le_refl _)
    (Nat.le_refl _)) ?_
  rintro e s₁ ⟨hreached, hfollowed, hX₁⟩
  obtain ⟨t₁, w₁, hrest₁⟩ := hreached.ended.head
  rw [hrest₁] at hfollowed hX₁
  refine meets_accept (by decide) hrest₁ ?_ ?_
  · intro ht
    have hnext : Reached ts (s.current + 1) s₁.next :=
      ⟨Nat.le_succ_of_le hreached.le, hreached.ended.next hrest₁ (by simp [ht])⟩
    rw [feed_comma hfollowed ht, ← rest_next hrest₁] at hX₁
    have hle := hnext.le
    refine (hself (earlier.push e) s₁.next hnext callee ps X hX₁).imp ?_ ?_
    · intro arguments s₂ hlisted
      exact ⟨hlisted.1.mono (by omega), hlisted.2⟩
    · intro t₂ fault s₂ hrefused
      exact hrefused.mono (by omega)
  · intro ht
    exact ⟨hreached, earlier, e, t₁, w₁, rfl, hrest₁, ht, hfollowed, hX₁⟩

theorem reads_finishCall {callee : Expr} (hs : Ended ts s)
    (harguments : ReadsArguments ts #[] s (run (.arguments #[]) ts s)) :
    Reads ts (.firstArgument callee) 8 1 s (step run (.finishCall callee) ts s) := by
  intro ps ha X hX
  obtain ⟨t, w, hrest⟩ := hs.head
  rw [hrest] at hX
  refine meets_listBefore (by decide) hrest ?_ ?_
  · intro ht
    refine meets_consume (by decide) hrest ?_ (fun hne => absurd ht hne)
    intro _
    have htaken : Partial.offer ⟨ps, .firstArgument callee⟩ t s.ledger
        = (.taken ⟨ps, .after (.call callee t [])⟩, s.ledger) := by
      simp [Partial.offer, ht]
    rw [feed_taken htaken, ← rest_next hrest] at hX
    exact ⟨⟨Nat.le_refl _, hs.next hrest (by simp [ht])⟩, followed_eight _, hX⟩
  · intro ht
    rw [feed_firstArgument ht, ← hrest] at hX
    -- the last argument is still open behind the arguments; the parenthesis closes it
    refine meets_bind (harguments callee ps X hX) ?_
    rintro arguments s₁ ⟨hreached, earlier, e, t₁, w₁, hlist, hrest₁, hcomma, hfollowed, hX₁⟩
    refine meets_consume (by decide) hrest₁ ?_ ?_
    · intro ht₁
      rw [feed_callEnd hfollowed ht₁, ← hlist, ← rest_next hrest₁] at hX₁
      exact ⟨⟨Nat.le_succ_of_le hreached.le, hreached.ended.next hrest₁ (by simp [ht₁])⟩,
        followed_eight _, hX₁⟩
    · intro ht₁
      rw [feed_callRefused hfollowed hcomma ht₁] at hX₁
      exact ⟨hreached.mono (Nat.le_succ _), w₁, hrest₁, hX₁⟩

/-! ## §7. Operands. -/

/-- A token that is an operand by itself. -/
theorem reads_atom {t : Token} {w : List Token} {e : Expr} {l : Ledger} (hs : Ended ts s)
    (hrest : s.rest ts = t :: w) (ht : t.kind ≠ .eof)
    (hoffer : ∀ ps, offerOperand ps t s.ledger = (.taken ⟨ps, .after e⟩, l)) :
    Reads ts .operand 8 1 s (.done e ⟨s.current + 1, l⟩) := by
  intro ps ha X hX
  rw [hrest, feed_taken (p := ⟨ps, .operand⟩) (hoffer ps), ← rest_next hrest] at hX
  exact ⟨⟨Nat.le_refl _, (hs.next hrest ht).congr rfl⟩, followed_eight _, hX⟩

/-- A token that no operand starts with. -/
theorem reads_none {t : Token} {w : List Token} (hs : Ended ts s) (hrest : s.rest ts = t :: w)
    (hoffer : ∀ ps, offerOperand ps t s.ledger = (.refused .expression, s.ledger)) :
    Reads ts .operand 8 1 s (.failed t .expression s) := by
  intro ps ha X hX
  rw [hrest, feed_refused (p := ⟨ps, .operand⟩) (hoffer ps)] at hX
  exact ⟨hs.reached, w, hrest, hX⟩

/-- `super`, a dot and the name of a method. -/
theorem reads_super {t : Token} {w : List Token} (hs : Ended ts s) (hrest : s.rest ts = t :: w)
    (ht : t.kind = .kwSuper) :
    Reads ts .operand 8 1 s ((do
      let keyword ← advance
      let _ ← consume .dot .superDot
      let method ← consume .identifier .superMethodName
      return .super (← number keyword) method : Parser Expr) ts s) := by
  intro ps ha X hX
  have hne : t.kind ≠ .eof := by simp [ht]
  have htaken : Partial.offer ⟨ps, .operand⟩ t s.ledger = (.taken ⟨ps, .superDot t⟩, s.ledger) := by
    simp [Partial.offer, offerOperand, ht]
  rw [hrest, feed_taken htaken, ← rest_next hrest] at hX
  rw [bind_of_done (advance_eq hrest hne)]
  have hended := hs.next hrest hne
  obtain ⟨dot, w₁, hrest₁⟩ := hended.head
  rw [hrest₁] at hX
  refine meets_consume (by decide) hrest₁ ?_ ?_
  · intro hdot
    have htaken₁ : Partial.offer ⟨ps, .superDot t⟩ dot s.ledger
        = (.taken ⟨ps, .superMethod t⟩, s.ledger) := by
      simp [Partial.offer, hdot]
    rw [feed_taken htaken₁, ← rest_next hrest₁] at hX
    have hended₁ := hended.next hrest₁ (by simp [hdot])
    obtain ⟨name, w₂, hrest₂⟩ := hended₁.head
    rw [hrest₂] at hX
    refine meets_consume (by decide) hrest₂ ?_ ?_
    · intro hname
      have htaken₂ : Partial.offer ⟨ps, .superMethod t⟩ name s.ledger
          = (.taken ⟨ps, .after (.super (s.ledger.number t).1 name)⟩, (s.ledger.number t).2) := by
        simp [Partial.offer, hname]
      rw [feed_taken htaken₂, ← rest_next hrest₂] at hX
      refine ⟨⟨?_, (hended₁.next hrest₂ (by simp [hname])).congr rfl⟩, followed_eight _, hX⟩
      show s.current + 1 ≤ s.current + 1 + 1 + 1
      omega
    · intro hname
      have hrefused : Partial.offer ⟨ps, .superMethod t⟩ name s.ledger
          = (.refused .superMethodName, s.ledger) := by
        simp [Partial.offer]
      rw [feed_refused hrefused] at hX
      refine ⟨⟨?_, hended₁⟩, w₂, hrest₂, hX⟩
      show s.current ≤ s.current + 1 + 1
      omega
  · intro hdot
    have hrefused : Partial.offer ⟨ps, .superDot t⟩ dot s.ledger
        = (.refused .superDot, s.ledger) := by
      simp [Partial.offer]
    rw [feed_refused hrefused] at hX
    exact ⟨⟨Nat.le_succ _, hended⟩, w₁, hrest₁, hX⟩

/-- An expression in parentheses. -/
theorem reads_grouping {t : Token} {w : List Token} (hs : Ended ts s) (hrest : s.rest ts = t :: w)
    (ht : t.kind = .leftParen)
    (hexpression : ∀ s', Reached ts (s.current + 1) s' →
      Reads ts .operand 0 1 s' (run .expression ts s')) :
    Reads ts .operand 8 1 s ((do
      let _ ← advance
      let e ← run .expression
      let _ ← consume .rightParen .groupClose
      return .grouping e : Parser Expr) ts s) := by
  intro ps ha X hX
  have hne : t.kind ≠ .eof := by simp [ht]
  have htaken : Partial.offer ⟨ps, .operand⟩ t s.ledger
      = (.taken ⟨.group :: ps, .operand⟩, s.ledger) := by
    simp [Partial.offer, offerOperand, ht]
  rw [hrest, feed_taken htaken, ← rest_next hrest] at hX
  rw [bind_of_done (advance_eq hrest hne)]
  have hnext : Reached ts (s.current + 1) s.next := ⟨Nat.le_refl _, hs.next hrest hne⟩
  -- a group waits for a whole expression, whatever is pending outside of it
  refine meets_bind ((hexpression s.next hnext).meets hX (Nat.le_refl 0) (Nat.le_succ _)
    (Nat.le_succ_of_le hnext.le)) ?_
  rintro e s₁ ⟨hreached, hfollowed, hX₁⟩
  obtain ⟨t₁, w₁, hrest₁⟩ := hreached.ended.head
  rw [hrest₁] at hfollowed hX₁
  refine meets_consume (by decide) hrest₁ ?_ ?_
  · intro ht₁
    rw [feed_groupClose hfollowed ht₁, ← rest_next hrest₁] at hX₁
    exact ⟨⟨Nat.le_succ_of_le hreached.le, hreached.ended.next hrest₁ (by simp [ht₁])⟩,
      followed_eight _, hX₁⟩
  · intro ht₁
    rw [feed_groupRefused hfollowed ht₁] at hX₁
    exact ⟨hreached.mono (Nat.le_succ _), w₁, hrest₁, hX₁⟩

theorem reads_primary (hs : Ended ts s) (hunprefixed : Unprefixed (s.rest ts))
    (hexpression : ∀ s', Reached ts (s.current + 1) s' →
      Reads ts .operand 0 1 s' (run .expression ts s')) :
    Reads ts .operand 8 1 s (step run .primary ts s) := by
  obtain ⟨t, w, hrest⟩ := hs.head
  rw [hrest] at hunprefixed
  have hprefix := hunprefixed t rfl
  rw [step, bind_of_done (peek_eq hrest)]
  cases hk : t.kind with
  | kwFalse | kwTrue | kwNil | number | string | kwThis | identifier =>
    -- a literal or a name is an operand by itself
    show Reads ts .operand 8 1 s ((advance >>= _) ts s)
    rw [bind_of_done (advance_eq hrest (by simp [hk]))]
    exact reads_atom hs hrest (by simp [hk]) fun ps => by simp [offerOperand, hk, State.next]
  | kwSuper => exact reads_super hs hrest hk
  | leftParen => exact reads_grouping hs hrest hk hexpression
  | bang | minus => exact absurd hprefix (by simp [hk])
  | _ => exact reads_none hs hrest fun ps => by simp [offerOperand, hk]

end Lox.Descent
