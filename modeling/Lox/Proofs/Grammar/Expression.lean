/-
  Lox.Proofs.Grammar.Expression
  ─────────────────────────────
  **READING AN EXPRESSION IS DERIVING IT.**

  The tokens that a partial expression has taken fall into the ones of its
  pending operators and brackets, and the ones of its last operand.  Two
  facts about pending operators carry both directions:

    • `Opens`  — the tokens before each of them form an operand of its level,
                 and the levels rise up to the innermost bracket,
    • `Closes` — the pending operators that reading an expression leaves
                 behind can be closed without a failure.

  `Reads.offer` keeps `Reads` (so what is read is derived), and `Derives.taken`
  reads every derivation (so what is derived is read, as its tree up to the
  numbers of occurrences).
-/
import Lox.Proofs.Grammar.Basic
import Lox.Proofs.Parse.Ledger
import Lox.Proofs.Syntax.Relabel

namespace Lox.Grammar

open Parse

/-! ## §1. Levels as numbers. -/

/-- The place of a level among the binding levels of operators. -/
def Level.rank : Level → Nat
  | .logicOr => 1
  | .logicAnd => 2
  | .equality => 3
  | .comparison => 4
  | .term => 5
  | .factor => 6

/-- The kinds of expression from the loosest to the tightest. -/
def Nonterminal.ofRank : Nat → Nonterminal
  | 0 => .expression
  | 1 => .binary .logicOr
  | 2 => .binary .logicAnd
  | 3 => .binary .equality
  | 4 => .binary .comparison
  | 5 => .binary .term
  | 6 => .binary .factor
  | 7 => .unary
  | 8 => .call
  | _ => .primary

theorem Level.rank_pos (l : Level) : 1 ≤ l.rank := by
  cases l <;> simp [rank]

theorem Level.rank_le (l : Level) : l.rank ≤ 6 := by
  cases l <;> simp [rank]

@[simp]
theorem ofRank_rank (l : Level) : Nonterminal.ofRank l.rank = .binary l := by
  cases l <;> rfl

@[simp]
theorem ofRank_rank_succ (l : Level) : Nonterminal.ofRank (l.rank + 1) = l.operand := by
  cases l <;> rfl

/-- What binds tighter can stand for what binds looser. -/
theorem Derives.looser {w : List Token} {e : Expr} {m n : Nat} (hmn : m ≤ n)
    (h : Derives (.ofRank n) w e) : Derives (.ofRank m) w e := by
  induction n with
  | zero =>
    have hm : m = 0 := by omega
    exact hm ▸ h
  | succ n ih =>
    rcases Nat.lt_or_ge n m with hlt | hge
    · have hm : m = n + 1 := by omega
      exact hm ▸ h
    · refine ih hge ?_
      match n, h with
      | 0, h => exact .expression (.logic h)
      | 1, h | 2, h | 3, h | 4, h | 5, h => exact .operand h
      | 6, h => exact .operand h
      | 7, h => exact .noUnary h
      | 8, h => exact .primary h
      | _ + 9, h => exact h

/-- The levels of the reader are those of the grammar. -/
theorem exists_level {k : TokenKind} {n : Nat} (h : bindingLevel? k = some n) :
    ∃ l : Level, l.rank = n ∧ k ∈ l.operators := by
  cases k <;> simp only [bindingLevel?, Option.some.injEq, reduceCtorEq] at h <;> subst h
  case kwOr => exact ⟨.logicOr, rfl, by simp [Level.operators]⟩
  case kwAnd => exact ⟨.logicAnd, rfl, by simp [Level.operators]⟩
  case bangEqual | equalEqual => exact ⟨.equality, rfl, by simp [Level.operators]⟩
  case greater | greaterEqual | less | lessEqual =>
    exact ⟨.comparison, rfl, by simp [Level.operators]⟩
  case minus | plus => exact ⟨.term, rfl, by simp [Level.operators]⟩
  case slash | star => exact ⟨.factor, rfl, by simp [Level.operators]⟩

theorem bindingLevel?_of_mem {l : Level} {k : TokenKind} (h : k ∈ l.operators) :
    bindingLevel? k = some l.rank := by
  cases l <;> simp only [Level.operators, List.mem_cons, List.not_mem_nil, or_false] at h <;>
    rcases h with rfl | rfl | rfl | rfl <;> rfl

theorem joined_eq_node {l : Level} {t : Token} (h : t.kind ∈ l.operators) (left right : Expr) :
    joined left t right = l.node left t right := by
  cases l <;> simp only [Level.operators, List.mem_cons, List.not_mem_nil, or_false] at h
  case logicOr | logicAnd => simp [joined, Level.node, h]
  case equality | term | factor => rcases h with h | h <;> simp [joined, Level.node, h]
  case comparison => rcases h with h | h | h | h <;> simp [joined, Level.node, h]

/-! ## §2. What can be assigned to. -/

/-- An operator joins no target, so a target is one of its operands. -/
theorem Derives.target_operand {l : Level} {w : List Token} {e e' value : Expr}
    (h : Derives (.binary l) w e) (ha : assigned? e value = some e') : Derives l.operand w e := by
  cases h with
  | operand h => exact h
  | chain => cases l <;> cases ha

/-- A target is read without any operator around it. -/
theorem Derives.target_call {w : List Token} {e e' value : Expr}
    (h : Derives (.binary .logicOr) w e) (ha : assigned? e value = some e') :
    Derives .call w e := by
  have hu : Derives .unary w e :=
    (((((h.target_operand ha).target_operand ha).target_operand ha).target_operand ha).target_operand
      ha).target_operand ha
  cases hu with
  | unary => cases ha
  | noUnary h => exact h

/-- An assignment to what can be assigned to is derived. -/
theorem derives_assigned {wt w : List Token} {target value e : Expr} {equals : Token}
    (ht : Derives (.binary .logicOr) wt target) (heq : equals.kind = .equal)
    (hv : Derives .assignment w value) (h : assigned? target value = some e) :
    Derives .assignment (wt ++ equals :: w) e := by
  have hcall := ht.target_call h
  unfold assigned? at h
  split at h
  · next o =>
    cases hcall with
    | primary hp =>
      cases hp with
      | name _ hk =>
        cases h
        exact .assign _ hk heq hv
  · next object name =>
    cases hcall with
    | primary hp => cases hp
    | get ho hd hn =>
      cases h
      have hset := Derives.set ho hd hn heq hv
      simpa using hset
  · cases h

/-! ## §3. Ledgers without failures. -/

/-- No failure has been noted. -/
def Clean (l : Ledger) : Prop :=
  l.failures = #[]

theorem not_clean_report (l : Ledger) (t : Token) (fault : SyntaxFault) :
    ¬ Clean (l.report t fault) := by
  simp [Clean, Ledger.report]

/-- No failure is taken back. -/
theorem stable_not_clean : Ledger.Stable fun l => ¬ Clean l where
  number h _ := h
  report _ t fault := not_clean_report _ t fault

theorem clean_of_closeAll {ps : List Pending} {e : Expr} {l : Ledger}
    (h : Clean (closeAll ps e l).2.2) : Clean l :=
  Classical.byContradiction fun hl => stable_not_clean.closeAll hl ps e h

/-! ## §4. What is pending. -/

/-- The lowest level of an operand that can follow what is pending. -/
def awaited : List Pending → Nat
  | .binary _ _ l :: _ => l + 1
  | .unary _ :: _ => 7
  | _ => 0

/-- Whether an innermost bracket, or nothing, is pending. -/
def bracketed : List Pending → Bool
  | [] | .group :: _ | .arguments .. :: _ => true
  | _ => false

/-- **Tokens after which this is pending.**  What stands before an operator is
an operand of its level, and up to the innermost bracket the levels rise. -/
inductive Opens : List Token → List Pending → Prop where
  | nil : Opens [] []
  | group {w ps t} : Opens w ps → t.kind = .leftParen → Opens (w ++ [t]) (.group :: ps)
  | first {w ps wc callee t} :
      Opens w ps → Derives .call wc callee → t.kind = .leftParen →
      Opens (w ++ (wc ++ [t])) (.arguments callee #[] :: ps)
  | next {w ps wc callee t wa comma} {earlier : Array Expr} :
      Opens w ps → Derives .call wc callee → t.kind = .leftParen → Arguments wa earlier.toList →
      comma.kind = .comma → earlier.size < maxArity →
      Opens (w ++ (wc ++ t :: (wa ++ [comma]))) (.arguments callee earlier :: ps)
  | assignment {w ps wt target t} :
      Opens w ps → awaited ps = 0 → Derives (.binary .logicOr) wt target → t.kind = .equal →
      Opens (w ++ (wt ++ [t])) (.assignment target t :: ps)
  | binary {w ps wl left t} (l : Level) :
      Opens w ps → awaited ps ≤ l.rank → Derives (.binary l) wl left → t.kind ∈ l.operators →
      Opens (w ++ (wl ++ [t])) (.binary left t l.rank :: ps)
  | unary {w ps t} :
      Opens w ps → t.kind = .bang ∨ t.kind = .minus → Opens (w ++ [t]) (.unary t :: ps)

theorem Opens.awaited_le {w : List Token} {ps : List Pending} (h : Opens w ps) :
    awaited ps ≤ 7 := by
  cases h with
  | binary l => exact Nat.succ_le_succ l.rank_le
  | _ => simp [awaited]

/-- No level of an operator is below `or`. -/
theorem Opens.awaited_eq_zero {w : List Token} {ps : List Pending} (h : Opens w ps)
    (ha : awaited ps ≤ 1) : awaited ps = 0 := by
  cases h with
  | binary l =>
    have hpos := l.rank_pos
    have hle : l.rank + 1 ≤ 1 := ha
    omega
  | unary =>
    have hle : 7 ≤ 1 := ha
    omega
  | _ => rfl

/-- Closing operators turns the tokens of the closed ones into tokens of the
operand, which then has the level they were closed for. -/
theorem Opens.closeOperators {w : List Token} {ps : List Pending} (h : Opens w ps) :
    ∀ {wo : List Token} {e : Expr} {n : Nat} (level : Nat), awaited ps ≤ n → level ≤ n →
      level ≤ 6 → Derives (.ofRank n) wo e →
      ∃ w' wo', w ++ wo = w' ++ wo' ∧ Opens w' (closeOperators level ps e).1
        ∧ awaited (closeOperators level ps e).1 ≤ level
        ∧ Derives (.ofRank level) wo' (closeOperators level ps e).2 := by
  induction h with
  | @binary w ps wl left t l hps hle hleft hop ih =>
    intro wo e n level ha hn h6 he
    unfold Parse.closeOperators
    by_cases hl : level ≤ l.rank
    · -- the operator is closed: its operands and it form one operand of its level
      rw [if_pos hl]
      have hright : Derives l.operand wo e := by
        rw [← ofRank_rank_succ]
        exact he.looser ha
      have hnode : Derives (.ofRank l.rank) (wl ++ t :: wo) (joined left t e) := by
        rw [ofRank_rank, joined_eq_node hop]
        exact .chain hleft hop hright
      obtain ⟨w', wo', heq, hrest⟩ := ih level hle hl h6 hnode
      refine ⟨w', wo', ?_, hrest⟩
      rw [← heq]
      simp
    · rw [if_neg hl]
      refine ⟨_, wo, rfl, .binary l hps hle hleft hop, ?_, he.looser hn⟩
      show l.rank + 1 ≤ level
      omega
  | @unary w ps t hps hop ih =>
    intro wo e n level ha hn h6 he
    have hunary : Derives (.ofRank 7) (t :: wo) (.unary t e) := .unary hop (he.looser ha)
    obtain ⟨w', wo', heq, hrest⟩ := ih level hps.awaited_le (by omega) h6 hunary
    refine ⟨w', wo', ?_, hrest⟩
    rw [← heq]
    simp
  | nil => exact fun _ _ hn _ he => ⟨_, _, rfl, .nil, Nat.zero_le _, he.looser hn⟩
  | group hps ht =>
    exact fun _ _ hn _ he => ⟨_, _, rfl, .group hps ht, Nat.zero_le _, he.looser hn⟩
  | first hps hc ht =>
    exact fun _ _ hn _ he => ⟨_, _, rfl, .first hps hc ht, Nat.zero_le _, he.looser hn⟩
  | next hps hc ht hargs hcomma hsize =>
    exact fun _ _ hn _ he =>
      ⟨_, _, rfl, .next hps hc ht hargs hcomma hsize, Nat.zero_le _, he.looser hn⟩
  | assignment hps ha ht heq =>
    exact fun _ _ hn _ he => ⟨_, _, rfl, .assignment hps ha ht heq, Nat.zero_le _, he.looser hn⟩

/-- No operator is looser than `or`, so closing all is closing down to it. -/
theorem Opens.closeOperators_zero {w : List Token} {ps : List Pending} (h : Opens w ps) :
    ∀ e, Parse.closeOperators 0 ps e = Parse.closeOperators 1 ps e := by
  induction h with
  | binary l _ _ _ _ ih =>
    intro e
    have hpos := l.rank_pos
    simp only [Parse.closeOperators, Nat.zero_le, if_true, hpos]
    exact ih _
  | unary _ _ ih => exact fun e => ih _
  | _ => exact fun e => rfl

/-- Closing everything up to a bracket derives what is closed as one
expression, if no assignment to something else is among it. -/
theorem Opens.closeAll {w : List Token} {ps : List Pending} (h : Opens w ps) :
    ∀ {wo : List Token} {e : Expr} {n : Nat} {l : Ledger}, awaited ps ≤ n →
      Derives (.ofRank n) wo e → Clean (closeAll ps e l).2.2 →
      ∃ w' wo', w ++ wo = w' ++ wo' ∧ Opens w' (closeAll ps e l).1
        ∧ bracketed (closeAll ps e l).1 ∧ Derives .expression wo' (closeAll ps e l).2.1 := by
  induction h with
  | @binary w ps wl left t l hps hle hleft hop ih =>
    intro wo e n led ha he hclean
    have hright : Derives l.operand wo e := by
      rw [← ofRank_rank_succ]
      exact he.looser ha
    have hnode : Derives (.ofRank l.rank) (wl ++ t :: wo) (joined left t e) := by
      rw [ofRank_rank, joined_eq_node hop]
      exact .chain hleft hop hright
    obtain ⟨w', wo', heq, hrest⟩ := ih hle hnode hclean
    refine ⟨w', wo', ?_, hrest⟩
    rw [← heq]
    simp
  | @unary w ps t hps hop ih =>
    intro wo e n led ha he hclean
    have hunary : Derives (.ofRank 7) (t :: wo) (.unary t e) := .unary hop (he.looser ha)
    obtain ⟨w', wo', heq, hrest⟩ := ih hps.awaited_le hunary hclean
    refine ⟨w', wo', ?_, hrest⟩
    rw [← heq]
    simp
  | @assignment w ps wt target t hps ha0 ht heq ih =>
    intro wo e n led ha he hclean
    have hvalue : Derives .assignment wo e := by
      have hexpr : Derives (.ofRank 0) wo e := he.looser (Nat.zero_le n)
      cases hexpr with
      | expression h => exact h
    unfold Parse.closeAll at hclean ⊢
    cases hassigned : assigned? target e with
    | none =>
      -- the failure that is noted here is never taken back
      rw [hassigned] at hclean
      exact absurd (clean_of_closeAll hclean) (not_clean_report _ _ _)
    | some e' =>
      rw [hassigned] at hclean
      have hall : Derives (.ofRank 0) (wt ++ t :: wo) e' :=
        .expression (derives_assigned ht heq hvalue hassigned)
      obtain ⟨w', wo', happ, hrest⟩ := ih (Nat.le_of_eq ha0) hall hclean
      refine ⟨w', wo', ?_, hrest⟩
      rw [← happ]
      simp
  | nil => exact fun _ he _ => ⟨_, _, rfl, .nil, rfl, he.looser (Nat.zero_le _)⟩
  | group hps ht =>
    exact fun _ he _ => ⟨_, _, rfl, .group hps ht, rfl, he.looser (Nat.zero_le _)⟩
  | first hps hc ht =>
    exact fun _ he _ => ⟨_, _, rfl, .first hps hc ht, rfl, he.looser (Nat.zero_le _)⟩
  | next hps hc ht hargs hcomma hsize =>
    exact fun _ he _ =>
      ⟨_, _, rfl, .next hps hc ht hargs hcomma hsize, rfl, he.looser (Nat.zero_le _)⟩

/-! ## §5. The cases of a token after an operand. -/

section After

variable {ps : List Pending} {e : Expr} {t : Token} {l : Ledger}

theorem offerAfter_paren (hk : t.kind = .leftParen) :
    offerAfter ps e t l = (.taken ⟨ps, .firstArgument e⟩, l) := by
  simp [offerAfter, hk]

theorem offerAfter_dot (hk : t.kind = .dot) :
    offerAfter ps e t l = (.taken ⟨ps, .property e⟩, l) := by
  simp [offerAfter, hk]

theorem offerAfter_equal (hk : t.kind = .equal) :
    offerAfter ps e t l
      = (.taken ⟨.assignment (closeOperators 0 ps e).2 t :: (closeOperators 0 ps e).1, .operand⟩,
          l) := by
  simp [offerAfter, hk]

theorem offerAfter_operator {n : Nat} (hn : bindingLevel? t.kind = some n) :
    offerAfter ps e t l
      = (.taken ⟨.binary (closeOperators n ps e).2 t n :: (closeOperators n ps e).1, .operand⟩,
          l) := by
  cases hk : t.kind <;> rw [hk] at hn <;> cases hn <;> simp [offerAfter, hk, bindingLevel?]

theorem offerAfter_other (hp : t.kind ≠ .leftParen) (hd : t.kind ≠ .dot) (he : t.kind ≠ .equal)
    (hn : bindingLevel? t.kind = none) : offerAfter ps e t l = offerEnd ps e t l := by
  unfold offerAfter
  split
  · next hk => exact absurd hk hp
  · next hk => exact absurd hk hd
  · next hk => exact absurd hk he
  · next heq _ _ _ => rw [hn] at heq; cases heq
  · rfl

end After

/-! ## §6. What is read is derived. -/

/-- Tokens that a partial expression has taken. -/
inductive Reads : List Token → Partial → Prop where
  | operand {w ps} : Opens w ps → Reads w ⟨ps, .operand⟩
  | firstArgument {w ps wc callee t} :
      Opens w ps → Derives .call wc callee → t.kind = .leftParen →
      Reads (w ++ (wc ++ [t])) ⟨ps, .firstArgument callee⟩
  | nextArgument {w ps wc callee t wa comma} {earlier : Array Expr} :
      Opens w ps → Derives .call wc callee → t.kind = .leftParen → Arguments wa earlier.toList →
      comma.kind = .comma →
      Reads (w ++ (wc ++ t :: (wa ++ [comma]))) ⟨ps, .nextArgument callee earlier⟩
  | after {w ps wo e} : Opens w ps → Derives .call wo e → Reads (w ++ wo) ⟨ps, .after e⟩
  | property {w ps wo e dot} :
      Opens w ps → Derives .call wo e → dot.kind = .dot →
      Reads (w ++ (wo ++ [dot])) ⟨ps, .property e⟩
  | superDot {w ps keyword} :
      Opens w ps → keyword.kind = .kwSuper → Reads (w ++ [keyword]) ⟨ps, .superDot keyword⟩
  | superMethod {w ps keyword dot} :
      Opens w ps → keyword.kind = .kwSuper → dot.kind = .dot →
      Reads (w ++ [keyword, dot]) ⟨ps, .superMethod keyword⟩

theorem Reads.empty : Reads [] .empty := .operand .nil

/-- What an offer says about the tokens before it and the token offered. -/
def OfferReads (w : List Token) (t : Token) : Offer → Prop
  | .taken p => Reads (w ++ [t]) p
  | .whole e => Derives .expression w e
  | .refused _ => True

theorem Opens.offerOperand {w : List Token} {ps : List Pending} (h : Opens w ps) (t : Token)
    (l : Ledger) : OfferReads w t (offerOperand ps t l).1 := by
  have atom : ∀ {e}, Derives .primary [t] e → Reads (w ++ [t]) ⟨ps, .after e⟩ :=
    fun he => .after h (.primary he)
  unfold Parse.offerOperand
  split
  · next hk => exact atom (.false hk)
  · next hk => exact atom (.true hk)
  · next hk => exact atom (.nil hk)
  · next hk => exact atom (.number hk)
  · next hk => exact atom (.string hk)
  · next hk => exact .superDot h hk
  · next hk => exact atom (.this _ hk)
  · next hk => exact atom (.name _ hk)
  · next hk => exact .operand (.group h hk)
  · next hk => exact .operand (.unary h (.inl hk))
  · next hk => exact .operand (.unary h (.inr hk))
  · trivial

/-- Noting too many arguments is a failure, so there are few enough. -/
theorem size_lt_of_clean {earlier : Array Expr} {t : Token} {l : Ledger}
    (h : Clean (if maxArity ≤ earlier.size then l.report t .tooManyArguments else l)) :
    earlier.size < maxArity := by
  split at h
  · exact absurd h (not_clean_report _ _ _)
  · omega

theorem clean_of_offerOperand {ps : List Pending} {t : Token} {l : Ledger}
    (h : Clean (offerOperand ps t l).2) : Clean l :=
  Classical.byContradiction fun hl => stable_not_clean.offerOperand t hl ps h

/-- An argument that is complete joins the ones before it. -/
theorem Opens.pushArgument {w wo : List Token} {ps : List Pending} {callee e : Expr}
    {earlier : Array Expr} (h : Opens w (.arguments callee earlier :: ps))
    (he : Derives .expression wo e) :
    ∃ w' wc t wa, w ++ wo = w' ++ (wc ++ t :: wa) ∧ Opens w' ps ∧ Derives .call wc callee
      ∧ t.kind = .leftParen ∧ Arguments wa (earlier.push e).toList
      ∧ (earlier.push e).toList.length ≤ maxArity := by
  cases h with
  | first hps hc ht =>
    refine ⟨_, _, _, _, ?_, hps, hc, ht, .one he, Nat.le_add_left 1 254⟩
    simp
  | @next w ps wc callee t wa comma earlier hps hc ht hargs hcomma hsize =>
    refine ⟨w, wc, t, wa ++ comma :: wo, ?_, hps, hc, ht, ?_, ?_⟩
    · simp
    · rw [Array.toList_push]
      exact .more hargs hcomma he
    · rw [Array.toList_push, List.length_append, Array.length_toList]
      exact hsize

theorem Opens.offerEnd {w wo : List Token} {ps : List Pending} {e : Expr} {l : Ledger}
    (h : Opens w ps) (he : Derives .call wo e) (t : Token) (hclean : Clean (offerEnd ps e t l).2) :
    OfferReads (w ++ wo) t (offerEnd ps e t l).1 := by
  have hle : awaited ps ≤ 8 := Nat.le_succ_of_le h.awaited_le
  unfold Parse.offerEnd at hclean ⊢
  rcases hall : Parse.closeAll ps e l with ⟨ps', e', l'⟩
  have hclosed : Clean l' → ∃ w' wo', w ++ wo = w' ++ wo' ∧ Opens w' ps' ∧ bracketed ps'
      ∧ Derives .expression wo' e' := by
    intro hl
    have hspec := h.closeAll (l := l) hle he (by rw [hall]; exact hl)
    rw [hall] at hspec
    exact hspec
  rw [hall] at hclean
  split at hclean
  · -- a parenthesis is open
    next heq =>
    cases heq
    split at hclean
    · next hk =>
      obtain ⟨w', wo', happ, hopen, -, hexpr⟩ := hclosed hclean
      cases hopen with
      | @group w ps lparen hps hl =>
        have hread := Reads.after hps (.primary (.group hl hexpr hk))
        rw [happ]
        simpa [OfferReads, hk] using hread
    · trivial
  · -- the arguments of a call are open
    next heq =>
    cases heq
    split at hclean
    · next hk =>
      obtain ⟨w', wo', happ, hopen, -, hexpr⟩ := hclosed hclean
      obtain ⟨v, wc, lparen, wa, happ', hv, hc, hl, hargs, -⟩ := hopen.pushArgument hexpr
      have hread := Reads.nextArgument hv hc hl hargs hk
      rw [happ, happ']
      simpa [OfferReads, hk] using hread
    · next hk =>
      obtain ⟨w', wo', happ, hopen, -, hexpr⟩ := hclosed hclean
      obtain ⟨v, wc, lparen, wa, happ', hv, hc, hl, hargs, hlen⟩ := hopen.pushArgument hexpr
      have hread := Reads.after hv (.call hc hl hargs hlen hk)
      rw [happ, happ']
      simpa [OfferReads, hk] using hread
    · trivial
  · -- nothing is open
    next hgroup harguments heq =>
    cases heq
    obtain ⟨w', wo', happ, hopen, hbracketed, hexpr⟩ := hclosed hclean
    cases hopen with
    | nil =>
      rw [happ]
      exact hexpr
    | group => exact (hgroup _ rfl).elim
    | first | next => exact (harguments _ _ _ rfl).elim
    | assignment | binary | unary => cases hbracketed

theorem Opens.offerAfter {w wo : List Token} {ps : List Pending} {e : Expr} {l : Ledger}
    (h : Opens w ps) (he : Derives .call wo e) (t : Token)
    (hclean : Clean (offerAfter ps e t l).2) : OfferReads (w ++ wo) t (offerAfter ps e t l).1 := by
  have hle : awaited ps ≤ 8 := Nat.le_succ_of_le h.awaited_le
  by_cases hp : t.kind = .leftParen
  · have hread := Reads.firstArgument h he hp
    rw [offerAfter_paren hp]
    simpa [OfferReads] using hread
  by_cases hd : t.kind = .dot
  · have hread := Reads.property h he hd
    rw [offerAfter_dot hd]
    simpa [OfferReads] using hread
  by_cases hq : t.kind = .equal
  · -- an assignment closes every operator, because none is looser than `or`
    obtain ⟨w', wo', happ, hopen, ha, htarget⟩ :=
      h.closeOperators 1 hle (by omega) (by omega) he
    rw [← h.closeOperators_zero e] at hopen ha htarget
    have hread := Reads.operand (.assignment hopen (hopen.awaited_eq_zero ha) htarget hq)
    rw [offerAfter_equal hq, happ]
    simpa [OfferReads] using hread
  cases hn : bindingLevel? t.kind with
  | some n =>
    obtain ⟨l, rfl, hop⟩ := exists_level hn
    have h6 := l.rank_le
    obtain ⟨w', wo', happ, hopen, ha, hleft⟩ :=
      h.closeOperators l.rank hle (by omega) h6 he
    rw [ofRank_rank] at hleft
    have hread := Reads.operand (.binary l hopen ha hleft hop)
    rw [offerAfter_operator hn, happ]
    simpa [OfferReads] using hread
  | none =>
    rw [offerAfter_other hp hd hq hn] at hclean ⊢
    exact h.offerEnd he t hclean

/-- **One token**: what was read before it and the token are read after it. -/
theorem Reads.offer {w : List Token} {p : Partial} {l : Ledger} (h : Reads w p) (t : Token)
    (hclean : Clean (p.offer t l).2) : OfferReads w t (p.offer t l).1 := by
  cases h with
  | operand hps => exact hps.offerOperand t l
  | @firstArgument w ps wc callee lparen hps hc hl =>
    unfold Partial.offer
    dsimp only
    split
    · next hk =>
      have hread := Reads.after hps (.callEmpty hc hl hk)
      simpa [OfferReads] using hread
    · exact (Opens.first hps hc hl).offerOperand t l
  | nextArgument hps hc hl hargs hcomma =>
    have hsize := size_lt_of_clean (clean_of_offerOperand hclean)
    exact (Opens.next hps hc hl hargs hcomma hsize).offerOperand t _
  | after hps he => exact hps.offerAfter he t hclean
  | @property w ps wo e dot hps he hd =>
    unfold Partial.offer
    dsimp only
    split
    · next hk =>
      have hread := Reads.after hps (.get he hd hk)
      simpa [OfferReads] using hread
    · trivial
  | @superDot w ps keyword hps hkw =>
    unfold Partial.offer
    dsimp only
    split
    · next hk =>
      have hread := Reads.superMethod hps hkw hk
      simpa [OfferReads] using hread
    · trivial
  | @superMethod w ps keyword dot hps hkw hd =>
    unfold Partial.offer
    dsimp only
    split
    · next hk =>
      have hread := Reads.after hps (.primary (.super l.nextId hkw hd hk))
      simpa [OfferReads, Ledger.number] using hread
    · trivial

/-! ## §7. What is derived is read. -/

/-- The place of a kind of expression among the binding levels. -/
def Nonterminal.rank : Nonterminal → Nat
  | .expression | .assignment => 0
  | .binary l => l.rank
  | .unary => 7
  | .call | .primary => 8

@[simp]
theorem Level.rank_operand (l : Level) : l.operand.rank = l.rank + 1 := by
  cases l <;> rfl

/-- **Tokens that an expression takes** one by one, without a failure. -/
inductive Takes : Partial → Ledger → List Token → Partial → Ledger → Prop where
  | nil {p l} : Takes p l [] p l
  | cons {p l t p' l' w p'' l''} :
      p.offer t l = (.taken p', l') → l'.failures = l.failures → Takes p' l' w p'' l'' →
      Takes p l (t :: w) p'' l''

theorem Takes.append {p p' p'' : Partial} {l l' l'' : Ledger} {w w' : List Token}
    (h : Takes p l w p' l') (h' : Takes p' l' w' p'' l'') : Takes p l (w ++ w') p'' l'' := by
  induction h with
  | nil => exact h'
  | cons hoffer hl _ ih => exact .cons hoffer hl (ih h')

theorem Takes.snoc {p p' p'' : Partial} {l l' l'' : Ledger} {w : List Token} {t : Token}
    (h : Takes p l w p' l') (hoffer : p'.offer t l' = (.taken p'', l''))
    (hl : l''.failures = l'.failures) : Takes p l (w ++ [t]) p'' l'' :=
  h.append (.cons hoffer hl .nil)

theorem Takes.failures_eq {p p' : Partial} {l l' : Ledger} {w : List Token}
    (h : Takes p l w p' l') : l'.failures = l.failures := by
  induction h with
  | nil => rfl
  | cons _ hl _ ih => exact ih.trans hl

/-- What a level leaves pending: operators that bind as tightly, and
assignments to what can be assigned to. -/
def Closes (n : Nat) : Pending → Prop
  | .unary _ => True
  | .binary _ _ l => n ≤ l
  | .assignment target _ => n = 0 ∧ ∀ value, ∃ e, assigned? target value = some e
  | .group | .arguments .. => False

theorem Closes.looser {m n : Nat} {q : Pending} (hmn : m ≤ n) (h : Closes n q) : Closes m q := by
  cases q with
  | binary _ _ l => exact Nat.le_trans hmn h
  | assignment => exact ⟨by have h0 := h.1; omega, h.2⟩
  | unary => trivial
  | group | arguments => exact h

/-- What an expression becomes when the operators and assignments that it left
pending are closed. -/
def wrapped : List Pending → Expr → Expr
  | .unary operator :: rest, e => wrapped rest (.unary operator e)
  | .binary left operator _ :: rest, e => wrapped rest (joined left operator e)
  | .assignment target _ :: rest, e => wrapped rest ((assigned? target e).getD target)
  | _, e => e

theorem wrapped_append {extra : List Pending} {n : Nat} (h : ∀ q ∈ extra, Closes n q)
    (qs : List Pending) : ∀ e, wrapped (extra ++ qs) e = wrapped qs (wrapped extra e) := by
  induction extra with
  | nil =>
    intro e
    rfl
  | cons q extra ih =>
    intro e
    have hq := h q List.mem_cons_self
    have hextra := ih fun q' hq' => h q' (List.mem_cons_of_mem _ hq')
    cases q with
    | unary | binary | assignment => exact hextra _
    | group | arguments => exact hq.elim

theorem closeAll_append {extra : List Pending} {n : Nat} (h : ∀ q ∈ extra, Closes n q)
    (ps : List Pending) (l : Ledger) (hps : bracketed ps) :
    ∀ e, closeAll (extra ++ ps) e l = (ps, wrapped extra e, l) := by
  induction extra with
  | nil =>
    intro e
    match ps, hps with
    | [], _ | .group :: _, _ | .arguments .. :: _, _ => rfl
  | cons q extra ih =>
    intro e
    have hq := h q List.mem_cons_self
    have hextra := ih fun q' hq' => h q' (List.mem_cons_of_mem _ hq')
    cases q with
    | unary operator => exact hextra (.unary operator e)
    | binary left operator l' => exact hextra (joined left operator e)
    | assignment target equals =>
      obtain ⟨e', he'⟩ := hq.2 e
      rw [List.cons_append, Parse.closeAll, wrapped, he']
      exact hextra e'
    | group | arguments => exact hq.elim

theorem closeOperators_awaited {ps : List Pending} {n : Nat} (hn : n ≤ 6) (ha : awaited ps ≤ n)
    (e : Expr) : closeOperators n ps e = (ps, e) := by
  match ps, ha with
  | [], _ | .group :: _, _ | .arguments .. :: _, _ | .assignment .. :: _, _ => rfl
  | .unary _ :: _, ha =>
    have h7 : 7 ≤ n := ha
    omega
  | .binary left operator l :: rest, ha =>
    have hl : l + 1 ≤ n := ha
    rw [Parse.closeOperators, if_neg (by omega)]

theorem closeOperators_append {extra ps : List Pending} {n : Nat} (hpos : 1 ≤ n) (hn : n ≤ 6)
    (h : ∀ q ∈ extra, Closes n q) (ha : awaited ps ≤ n) :
    ∀ e, closeOperators n (extra ++ ps) e = (ps, wrapped extra e) := by
  induction extra with
  | nil => exact fun e => closeOperators_awaited hn ha e
  | cons q extra ih =>
    intro e
    have hq := h q List.mem_cons_self
    have hextra := ih fun q' hq' => h q' (List.mem_cons_of_mem _ hq')
    cases q with
    | unary operator => exact hextra (.unary operator e)
    | binary left operator l =>
      have hl : n ≤ l := hq
      rw [List.cons_append, Parse.closeOperators, if_pos hl]
      exact hextra (joined left operator e)
    | assignment =>
      have h0 := hq.1
      omega
    | group | arguments => exact hq.elim

/-- The tokens that continue no operand. -/
def endsOperand : TokenKind → Bool
  | .leftParen | .dot | .equal => false
  | k => (bindingLevel? k).isNone

section Ends

variable {extra : List Pending} {t : Token} {n : Nat} (ps : List Pending) (e : Expr) (l : Ledger)

/-- A token that ends an expression closes what the expression left pending. -/
theorem offer_end (extra : List Pending) (ht : endsOperand t.kind) :
    Partial.offer ⟨extra ++ ps, .after e⟩ t l = offerEnd (extra ++ ps) e t l := by
  show offerAfter (extra ++ ps) e t l = offerEnd (extra ++ ps) e t l
  unfold endsOperand at ht
  split at ht
  · cases ht
  · cases ht
  · cases ht
  · next hp hd hq => exact offerAfter_other hp hd hq (Option.isNone_iff_eq_none.mp ht)

theorem offer_group (h : ∀ q ∈ extra, Closes n q) (hk : t.kind = .rightParen) :
    Partial.offer ⟨extra ++ .group :: ps, .after e⟩ t l
      = (.taken ⟨ps, .after (.grouping (wrapped extra e))⟩, l) := by
  have hall := closeAll_append h (.group :: ps) l rfl e
  rw [offer_end _ e l extra (by rw [hk]; rfl), offerEnd, hall]
  simp [hk]

theorem offer_comma (callee : Expr) (earlier : Array Expr) (h : ∀ q ∈ extra, Closes n q)
    (hk : t.kind = .comma) :
    Partial.offer ⟨extra ++ .arguments callee earlier :: ps, .after e⟩ t l
      = (.taken ⟨ps, .nextArgument callee (earlier.push (wrapped extra e))⟩, l) := by
  have hall := closeAll_append h (.arguments callee earlier :: ps) l rfl e
  rw [offer_end _ e l extra (by rw [hk]; rfl), offerEnd, hall]
  simp [hk]

theorem offer_callEnd (callee : Expr) (earlier : Array Expr) (h : ∀ q ∈ extra, Closes n q)
    (hk : t.kind = .rightParen) :
    Partial.offer ⟨extra ++ .arguments callee earlier :: ps, .after e⟩ t l
      = (.taken ⟨ps, .after (.call callee t (earlier.push (wrapped extra e)).toList)⟩, l) := by
  have hall := closeAll_append h (.arguments callee earlier :: ps) l rfl e
  rw [offer_end _ e l extra (by rw [hk]; rfl), offerEnd, hall]
  simp [hk]

/-- After a whole expression, a token that continues none ends it. -/
theorem offer_whole (h : ∀ q ∈ extra, Closes n q) (ht : endsOperand t.kind) :
    Partial.offer ⟨extra, .after e⟩ t l = (.whole (wrapped extra e), l) := by
  have hall := closeAll_append h [] l rfl e
  have hoffer := offer_end [] e l extra ht
  rw [List.append_nil] at hall hoffer
  rw [hoffer, offerEnd, hall]

end Ends

/-- What reading an expression of a kind does, whatever was pending before: it
is taken, and with what it left pending it is this tree, up to numbers. -/
def TakenAt (nt : Nonterminal) (w : List Token) (tree : Expr) : Prop :=
  ∀ ps l, awaited ps ≤ nt.rank → ∃ extra e l', Takes ⟨ps, .operand⟩ l w ⟨extra ++ ps, .after e⟩ l'
    ∧ (∀ q ∈ extra, Closes nt.rank q) ∧ (nt.rank = 8 → extra = [])
    ∧ (wrapped extra e).Alike tree

/-- A token that is an operand alone is taken. -/
theorem takenAt_atom {t : Token} {tree : Expr} (h : ∀ ps l, ∃ e l', offerOperand ps t l
    = (.taken ⟨ps, .after e⟩, l') ∧ l'.failures = l.failures ∧ e.Alike tree) :
    TakenAt .primary [t] tree := by
  intro ps l _
  obtain ⟨e, l', hoffer, hl, htree⟩ := h ps l
  exact ⟨[], e, l', .cons hoffer hl .nil, by simp, fun _ => rfl, htree⟩

/-- An expression that binds tighter is read where a looser one is expected. -/
theorem TakenAt.looser {nt nt' : Nonterminal} {w : List Token} {tree : Expr}
    (h : TakenAt nt' w tree) (hrank : nt.rank ≤ nt'.rank) (h8 : nt.rank = 8 → nt'.rank = 8) :
    TakenAt nt w tree := by
  intro ps l ha
  obtain ⟨extra, e, l', htakes, hcloses, hnil, htree⟩ := h ps l (Nat.le_trans ha hrank)
  exact ⟨extra, e, l', htakes, fun q hq => (hcloses q hq).looser hrank, fun h => hnil (h8 h), htree⟩

/-- Reading from an open argument list is reading from the bracket. -/
theorem Takes.firstArgument {callee : Expr} {ps : List Pending} {l l' : Ledger} {t : Token}
    {w : List Token} {p : Partial}
    (h : Takes ⟨.arguments callee #[] :: ps, .operand⟩ l (t :: w) p l') :
    Takes ⟨ps, .firstArgument callee⟩ l (t :: w) p l' := by
  cases h with
  | cons hoffer hl hrest =>
    refine .cons ?_ hl hrest
    have hk : t.kind ≠ .rightParen := by
      intro hk
      have hrefused : Partial.offer ⟨.arguments callee #[] :: ps, .operand⟩ t l
          = (.refused .expression, l) := by
        simp [Partial.offer, offerOperand, hk]
      rw [hrefused] at hoffer
      cases hoffer
    rw [← hoffer]
    unfold Partial.offer
    dsimp only
    split
    · next hk' => exact absurd hk' hk
    · rfl

/-- Reading from a comma is reading from the bracket, with room left. -/
theorem Takes.nextArgument {callee : Expr} {earlier : Array Expr} {ps : List Pending}
    {l l' : Ledger} {w : List Token} {p : Partial}
    (h : Takes ⟨.arguments callee earlier :: ps, .operand⟩ l w p l') (hw : w ≠ [])
    (hsize : earlier.size < maxArity) : Takes ⟨ps, .nextArgument callee earlier⟩ l w p l' := by
  cases h with
  | nil => exact absurd rfl hw
  | cons hoffer hl hrest =>
    refine .cons ?_ hl hrest
    rw [← hoffer]
    unfold Partial.offer
    dsimp only
    rw [if_neg (by omega)]

/-! ## §8. Every rule is read. -/

section Rules

variable {w w' wa : List Token} {t t' t'' : Token} {tree tree' callee : Expr} {trees : List Expr}

theorem TakenAt.unary (ht : t.kind = .bang ∨ t.kind = .minus) (h : TakenAt .unary w tree) :
    TakenAt .unary (t :: w) (.unary t tree) := by
  intro ps l _
  obtain ⟨extra, e, l', htakes, hcloses, -, htree⟩ := h (.unary t :: ps) l (Nat.le_refl 7)
  have hoffer : Partial.offer ⟨ps, .operand⟩ t l = (.taken ⟨.unary t :: ps, .operand⟩, l) := by
    rcases ht with ht | ht <;> simp [Partial.offer, offerOperand, ht]
  refine ⟨extra ++ [.unary t], e, l', .cons hoffer rfl ?_, ?_, (fun h8 => nomatch h8), ?_⟩
  · rw [List.append_assoc]
    exact htakes
  · intro q hq
    rcases List.mem_append.mp hq with hq | hq
    · exact hcloses q hq
    · rw [List.mem_singleton.mp hq]
      trivial
  · rw [wrapped_append hcloses]
    exact htree.unary t

/-- A chain of operators is the same tree if its operands are. -/
theorem alike_node (level : Level) (t : Token) {left left' right right' : Expr}
    (hleft : left.Alike left') (hright : right.Alike right') :
    (level.node left t right).Alike (level.node left' t right') := by
  cases level with
  | logicOr | logicAnd => exact hleft.logical t hright
  | equality | comparison | term | factor => exact hleft.binary t hright

/-- An operator closes what its left operand left pending, and no more. -/
theorem TakenAt.chain {level : Level} (hleft : TakenAt (.binary level) w tree)
    (hop : t.kind ∈ level.operators) (hright : TakenAt level.operand w' tree') :
    TakenAt (.binary level) (w ++ t :: w') (level.node tree t tree') := by
  intro ps l ha
  have hlevel := bindingLevel?_of_mem hop
  have hle := level.rank_le
  obtain ⟨extra, e, l₁, htakes, hcloses, -, htree⟩ := hleft ps l ha
  have hclosed := closeOperators_append level.rank_pos hle hcloses ha e
  have hoffer : Partial.offer ⟨extra ++ ps, .after e⟩ t l₁
      = (.taken ⟨.binary (wrapped extra e) t level.rank :: ps, .operand⟩, l₁) := by
    show offerAfter (extra ++ ps) e t l₁ = _
    rw [offerAfter_operator hlevel, hclosed]
  obtain ⟨extra', e', l₂, htakes', hcloses', -, htree'⟩ :=
    hright (.binary (wrapped extra e) t level.rank :: ps) l₁
      (by rw [level.rank_operand]; exact Nat.le_refl _)
  refine ⟨extra' ++ [.binary (wrapped extra e) t level.rank], e', l₂, ?_, ?_, ?_, ?_⟩
  · rw [List.append_assoc]
    exact htakes.append (.cons hoffer rfl htakes')
  · intro q hq
    rcases List.mem_append.mp hq with hq | hq
    · exact (hcloses' q hq).looser (by rw [level.rank_operand]; exact Nat.le_succ _)
    · rw [List.mem_singleton.mp hq]
      exact Nat.le_refl _
  · intro h8
    have h8' : level.rank = 8 := h8
    omega
  · rw [wrapped_append hcloses']
    show (joined (wrapped extra e) t (wrapped extra' e')).Alike _
    rw [joined_eq_node hop]
    exact alike_node level t htree htree'

/-- After a target, an equals sign starts the value that is assigned to it. -/
theorem TakenAt.value {ps : List Pending} {target : Expr} {l l' : Ledger} {whole : Expr}
    (htakes : Takes ⟨ps, .operand⟩ l w ⟨ps, .after target⟩ l') (ha : awaited ps ≤ 0)
    (htarget : ∀ value, ∃ e, assigned? target value = some e ∧ (value.Alike tree → e.Alike whole))
    (ht : t.kind = .equal) (hvalue : TakenAt .assignment w' tree) :
    ∃ extra e l'', Takes ⟨ps, .operand⟩ l (w ++ t :: w') ⟨extra ++ ps, .after e⟩ l''
      ∧ (∀ q ∈ extra, Closes 0 q) ∧ (0 = 8 → extra = []) ∧ (wrapped extra e).Alike whole := by
  have hoffer : Partial.offer ⟨ps, .after target⟩ t l'
      = (.taken ⟨.assignment target t :: ps, .operand⟩, l') := by
    show offerAfter ps target t l' = _
    rw [offerAfter_equal ht, closeOperators_awaited (Nat.zero_le 6) ha]
  obtain ⟨extra, e, l'', htakes', hcloses, -, htree⟩ :=
    hvalue (.assignment target t :: ps) l' (Nat.le_refl 0)
  obtain ⟨e', hassigned, hwhole⟩ := htarget (wrapped extra e)
  refine ⟨extra ++ [.assignment target t], e, l'', ?_, ?_, (fun h8 => nomatch h8), ?_⟩
  · rw [List.append_assoc]
    exact htakes.append (.cons hoffer rfl htakes')
  · intro q hq
    rcases List.mem_append.mp hq with hq | hq
    · exact hcloses q hq
    · rw [List.mem_singleton.mp hq]
      exact ⟨rfl, fun value => (htarget value).imp fun _ h => h.1⟩
  · rw [wrapped_append hcloses]
    show ((assigned? target (wrapped extra e)).getD target).Alike whole
    rw [hassigned]
    exact hwhole htree

theorem takenAt_name (id : Nat) (ht : t.kind = .identifier) :
    TakenAt .primary [t] (.variable ⟨id, t⟩) :=
  takenAt_atom fun _ l => ⟨.variable (l.number t).1, (l.number t).2, by simp [offerOperand, ht], rfl,
    .variable _ id t⟩

theorem takenAt_this (id : Nat) (ht : t.kind = .kwThis) : TakenAt .primary [t] (.this ⟨id, t⟩) :=
  takenAt_atom fun _ l => ⟨.this (l.number t).1, (l.number t).2, by simp [offerOperand, ht], rfl,
    .this _ id t⟩

theorem TakenAt.assign (id : Nat) (ht : t.kind = .identifier) (ht' : t'.kind = .equal)
    (hvalue : TakenAt .assignment w tree) :
    TakenAt .assignment (t :: t' :: w) (.assign ⟨id, t⟩ tree) := by
  intro ps l ha
  have hname : Partial.offer ⟨ps, .operand⟩ t l
      = (.taken ⟨ps, .after (.variable (l.number t).1)⟩, (l.number t).2) := by
    simp [Partial.offer, offerOperand, ht]
  refine TakenAt.value (.cons hname rfl .nil) ha ?_ ht' hvalue
  intro value
  exact ⟨_, rfl, fun h => h.assign _ id t⟩

theorem TakenAt.get (h : TakenAt .call w tree) (ht : t.kind = .dot) (ht' : t'.kind = .identifier)
    (ps : List Pending) (l : Ledger) (ha : awaited ps ≤ 8) :
    ∃ object l', Takes ⟨ps, .operand⟩ l (w ++ [t, t']) ⟨ps, .after (.get object t')⟩ l'
      ∧ object.Alike tree := by
  obtain ⟨extra, e, l', htakes, -, hnil, htree⟩ := h ps l ha
  cases hnil rfl
  have hdot : Partial.offer ⟨ps, .after e⟩ t l' = (.taken ⟨ps, .property e⟩, l') :=
    offerAfter_dot ht
  have hname : Partial.offer ⟨ps, .property e⟩ t' l' = (.taken ⟨ps, .after (.get e t')⟩, l') := by
    simp [Partial.offer, ht']
  exact ⟨e, l', htakes.append (.cons hdot rfl (.cons hname rfl .nil)), htree⟩

theorem TakenAt.set (h : TakenAt .call w tree) (ht : t.kind = .dot) (ht' : t'.kind = .identifier)
    (ht'' : t''.kind = .equal) (hvalue : TakenAt .assignment w' tree') :
    TakenAt .assignment (w ++ t :: t' :: t'' :: w') (.set tree t' tree') := by
  intro ps l ha
  obtain ⟨object, l', htakes, hobject⟩ := h.get ht ht' ps l (Nat.le_trans ha (Nat.zero_le 8))
  have hset := TakenAt.value htakes ha
    (fun value => ⟨_, rfl, fun (hvalue : value.Alike tree') => hobject.set t' hvalue⟩) ht'' hvalue
  rw [List.append_assoc] at hset
  exact hset

theorem TakenAt.callEmpty (h : TakenAt .call w tree) (ht : t.kind = .leftParen)
    (ht' : t'.kind = .rightParen) : TakenAt .call (w ++ [t, t']) (.call tree t' []) := by
  intro ps l ha
  obtain ⟨extra, e, l', htakes, -, hnil, htree⟩ := h ps l ha
  cases hnil rfl
  have hparen : Partial.offer ⟨ps, .after e⟩ t l' = (.taken ⟨ps, .firstArgument e⟩, l') :=
    offerAfter_paren ht
  have hclose : Partial.offer ⟨ps, .firstArgument e⟩ t' l'
      = (.taken ⟨ps, .after (.call e t' [])⟩, l') := by
    simp [Partial.offer, ht']
  exact ⟨[], _, l', htakes.append (.cons hparen rfl (.cons hclose rfl .nil)), by simp, fun _ => rfl,
    htree.call t' rfl⟩

theorem TakenAt.group (ht : t.kind = .leftParen) (h : TakenAt .expression w tree)
    (ht' : t'.kind = .rightParen) : TakenAt .primary (t :: (w ++ [t'])) (.grouping tree) := by
  intro ps l _
  have hopen : Partial.offer ⟨ps, .operand⟩ t l = (.taken ⟨.group :: ps, .operand⟩, l) := by
    simp [Partial.offer, offerOperand, ht]
  obtain ⟨extra, e, l', htakes, hcloses, -, htree⟩ := h (.group :: ps) l (Nat.le_refl 0)
  have hclose := offer_group ps e l' hcloses ht'
  exact ⟨[], _, l', .cons hopen rfl (htakes.snoc hclose rfl), by simp, fun _ => rfl, htree.grouping⟩

theorem takenAt_super (id : Nat) (ht : t.kind = .kwSuper) (ht' : t'.kind = .dot)
    (ht'' : t''.kind = .identifier) : TakenAt .primary [t, t', t''] (.super ⟨id, t⟩ t'') := by
  intro ps l _
  have hkeyword : Partial.offer ⟨ps, .operand⟩ t l = (.taken ⟨ps, .superDot t⟩, l) := by
    simp [Partial.offer, offerOperand, ht]
  have hdot : Partial.offer ⟨ps, .superDot t⟩ t' l = (.taken ⟨ps, .superMethod t⟩, l) := by
    simp [Partial.offer, ht']
  have hmethod : Partial.offer ⟨ps, .superMethod t⟩ t'' l
      = (.taken ⟨ps, .after (.super (l.number t).1 t'')⟩, (l.number t).2) := by
    simp [Partial.offer, ht'']
  exact ⟨[], _, _, .cons hkeyword rfl (.cons hdot rfl (.cons hmethod rfl .nil)), by simp,
    fun _ => rfl, .super _ id t t''⟩

/-- What reading arguments does: the last one is still open. -/
def ArgumentsTaken (w : List Token) (trees : List Expr) : Prop :=
  ∀ callee ps l, ∃ extra e earlier l', Takes ⟨ps, .firstArgument callee⟩ l w
    ⟨extra ++ .arguments callee earlier :: ps, .after e⟩ l'
    ∧ (∀ q ∈ extra, Closes 0 q) ∧ Expr.AlikeAll (earlier.push (wrapped extra e)).toList trees

theorem Takes.ne_nil {ps : List Pending} {p : Partial} {l l' : Ledger} {e : Expr}
    (h : Takes ⟨ps, .operand⟩ l w p l') (hp : p.phase = .after e) : w ≠ [] := by
  rintro rfl
  cases h
  cases hp

theorem ArgumentsTaken.one (h : TakenAt .expression w tree) : ArgumentsTaken w [tree] := by
  intro callee ps l
  obtain ⟨extra, e, l', htakes, hcloses, -, htree⟩ :=
    h (.arguments callee #[] :: ps) l (Nat.le_refl 0)
  cases w with
  | nil => exact absurd rfl (htakes.ne_nil rfl)
  | cons t w =>
    exact ⟨extra, e, #[], l', htakes.firstArgument, hcloses, congrArg (fun e => [e]) htree⟩

/-- An argument after a comma is read like a first one, while there are not
too many. -/
theorem ArgumentsTaken.more (h : ArgumentsTaken w trees) (hn : trees.length < maxArity)
    (ht : t.kind = .comma) (h' : TakenAt .expression w' tree) :
    ArgumentsTaken (w ++ t :: w') (trees ++ [tree]) := by
  intro callee ps l
  obtain ⟨extra, e, earlier, l', htakes, hcloses, htrees⟩ := h callee ps l
  have hcomma := offer_comma ps e l' callee earlier hcloses ht
  obtain ⟨extra', e', l'', htakes', hcloses', -, htree⟩ :=
    h' (.arguments callee (earlier.push (wrapped extra e)) :: ps) l' (Nat.le_refl 0)
  have hsize : (earlier.push (wrapped extra e)).size < maxArity := by
    rw [← Array.length_toList, htrees.length_eq]
    exact hn
  refine ⟨extra', e', earlier.push (wrapped extra e), l'', htakes.append (.cons hcomma rfl ?_),
    hcloses', ?_⟩
  · exact htakes'.nextArgument (htakes'.ne_nil rfl) hsize
  · rw [Array.toList_push]
    exact htrees.snoc htree

theorem TakenAt.call (h : TakenAt .call w tree) (ht : t.kind = .leftParen)
    (ha : ArgumentsTaken wa trees) (ht' : t'.kind = .rightParen) :
    TakenAt .call (w ++ t :: (wa ++ [t'])) (.call tree t' trees) := by
  intro ps l hps
  obtain ⟨extra, e, l', htakes, -, hnil, htree⟩ := h ps l hps
  cases hnil rfl
  have hparen : Partial.offer ⟨ps, .after e⟩ t l' = (.taken ⟨ps, .firstArgument e⟩, l') :=
    offerAfter_paren ht
  obtain ⟨extra', e', earlier, l'', htakes', hcloses, htrees⟩ := ha e ps l'
  have hclose := offer_callEnd ps e' l'' e earlier hcloses ht'
  exact ⟨[], _, l'', htakes.append (.cons hparen rfl (htakes'.snoc hclose rfl)), by simp,
    fun _ => rfl, htree.call t' htrees⟩

end Rules

mutual

/-- **Every expression is read**, as its tree. -/
theorem Derives.taken : ∀ {nt : Nonterminal} {w : List Token} {e : Expr}, Derives nt w e →
    TakenAt nt w e
  | _, _, _, .expression h => h.taken.looser (Nat.le_refl 0) (fun h8 => nomatch h8)
  | _, _, _, .assign id hname heq hvalue => .assign id hname heq hvalue.taken
  | _, _, _, .set hobject hdot hname heq hvalue =>
    .set hobject.taken hdot hname heq hvalue.taken
  | _, _, _, .logic h => h.taken.looser (Nat.zero_le 1) (fun h8 => nomatch h8)
  | _, _, _, @Derives.operand l _ _ h => by
    refine h.taken.looser ?_ ?_
    · rw [l.rank_operand]
      exact Nat.le_succ _
    · intro h8
      have hle := l.rank_le
      have h8' : l.rank = 8 := h8
      omega
  | _, _, _, .chain hleft hop hright => .chain hleft.taken hop hright.taken
  | _, _, _, .unary hop h => .unary hop h.taken
  | _, _, _, .noUnary h => h.taken.looser (Nat.le_succ 7) (fun h8 => nomatch h8)
  | _, _, _, .primary h => h.taken.looser (Nat.le_refl 8) (fun h8 => h8)
  | _, _, _, .callEmpty hcallee hl hr => .callEmpty hcallee.taken hl hr
  | _, _, _, .call hcallee hl hargs hlen hr => .call hcallee.taken hl (hargs.taken hlen) hr
  | _, _, _, .get hobject hdot hname => by
    intro ps l ha
    obtain ⟨object, l', htakes, hobject'⟩ := hobject.taken.get hdot hname ps l ha
    exact ⟨[], _, l', htakes, by simp, fun _ => rfl, hobject'.get _⟩
  | _, _, _, .number hk =>
    takenAt_atom fun _ l => ⟨_, l, by simp [offerOperand, hk], rfl, .refl _⟩
  | _, _, _, .string hk =>
    takenAt_atom fun _ l => ⟨_, l, by simp [offerOperand, hk], rfl, .refl _⟩
  | _, _, _, .true hk =>
    takenAt_atom fun _ l => ⟨_, l, by simp [offerOperand, hk], rfl, .refl _⟩
  | _, _, _, .false hk =>
    takenAt_atom fun _ l => ⟨_, l, by simp [offerOperand, hk], rfl, .refl _⟩
  | _, _, _, .nil hk =>
    takenAt_atom fun _ l => ⟨_, l, by simp [offerOperand, hk], rfl, .refl _⟩
  | _, _, _, .this id hk => takenAt_this id hk
  | _, _, _, .name id hk => takenAt_name id hk
  | _, _, _, .group hl h hr => .group hl h.taken hr
  | _, _, _, .super id hk hdot hmethod => takenAt_super id hk hdot hmethod

theorem Arguments.taken : ∀ {w : List Token} {es : List Expr}, Arguments w es →
    es.length ≤ maxArity → ArgumentsTaken w es
  | _, _, .one h, _ => .one h.taken
  | _, _, @Arguments.more _ es _ _ _ hargs hcomma h, hlen => by
    rw [List.length_append] at hlen
    have hlt : es.length < maxArity := hlen
    exact (hargs.taken (Nat.le_of_lt hlt)).more hlt hcomma h.taken

end

end Lox.Grammar
