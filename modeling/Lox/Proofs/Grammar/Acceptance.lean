/-
  Lox.Proofs.Grammar.Acceptance
  ─────────────────────────────
  **WHAT IS DERIVED IS READ, AND NOTHING ELSE.**

  Every derivation is read without a failure: by induction on it, from any
  place where its kind of phrase is expected, the reader takes its tokens and
  stands behind it.  The rules leave open which `if` an `else` belongs to; the
  reader always takes the innermost one, and that one lies inside the phrase
  that is read, so reading never gets stuck at an `else`.  Where every `else`
  of the tree belongs to the innermost `if`, what is read is the tree, up to
  the numbers of occurrences.

  Together with the other direction: an input is read without a failure if
  and only if it is derived (`accepts_iff_derives`).
-/
import Lox.Proofs.Grammar.Program

namespace Lox.Stmt

/-! ## §1. Which `if` an `else` belongs to. -/

/-- Whether a statement ends in an `if` without an `else`. -/
def endsOpen : Stmt → Bool
  | .ifElse _ _ none => true
  | .ifElse _ _ (some elseBranch) => elseBranch.endsOpen
  | .while _ body => body.endsOpen
  | _ => false

mutual

/-- **Every `else` belongs to the innermost `if` before it**: no branch with an
`else` behind it ends in an `if` without one. -/
def ElseInnermost : Stmt → Prop
  | .ifElse _ thenBranch none => thenBranch.ElseInnermost
  | .ifElse _ thenBranch (some elseBranch) =>
      thenBranch.ElseInnermost ∧ thenBranch.endsOpen = false ∧ elseBranch.ElseInnermost
  | .while _ body => body.ElseInnermost
  | .block body => ElseInnermostAll body
  | .function decl => ElseInnermostFunction decl
  | .class _ _ methods => ElseInnermostMethods methods
  | .expression _ | .print _ | .var _ _ | .return _ _ => True

/-- Every `else` of some statements belongs to the innermost `if`. -/
def ElseInnermostAll : List Stmt → Prop
  | [] => True
  | s :: rest => s.ElseInnermost ∧ ElseInnermostAll rest

/-- Every `else` of a function belongs to the innermost `if`. -/
def ElseInnermostFunction : FunctionDecl Stmt → Prop
  | ⟨_, _, body⟩ => ElseInnermostAll body

/-- Every `else` of some methods belongs to the innermost `if`. -/
def ElseInnermostMethods : List (FunctionDecl Stmt) → Prop
  | [] => True
  | m :: rest => ElseInnermostFunction m ∧ ElseInnermostMethods rest

end

theorem elseInnermostAll_append (ss ss' : List Stmt) :
    ElseInnermostAll (ss ++ ss') ↔ ElseInnermostAll ss ∧ ElseInnermostAll ss' := by
  induction ss with
  | nil => simp [ElseInnermostAll]
  | cons s rest ih => simp [ElseInnermostAll, ih, and_assoc]

theorem elseInnermostMethods_append (ms ms' : List (FunctionDecl Stmt)) :
    ElseInnermostMethods (ms ++ ms') ↔ ElseInnermostMethods ms ∧ ElseInnermostMethods ms' := by
  induction ms with
  | nil => simp [ElseInnermostMethods]
  | cons m rest ih => simp [ElseInnermostMethods, ih, and_assoc]

end Lox.Stmt

namespace Lox.Grammar

open Parse

/-! ## §2. Expressions inside statements. -/

/-- The tokens that an expression can start with. -/
def startsOperand : TokenKind → Bool
  | .kwFalse | .kwTrue | .kwNil | .number _ | .string _ | .kwSuper | .kwThis | .identifier
  | .leftParen | .bang | .minus => true
  | _ => false

theorem startsOperand_of_taken {ps : List Pending} {t : Token} {l l' : Ledger} {p : Partial}
    (h : offerOperand ps t l = (.taken p, l')) : startsOperand t.kind := by
  unfold offerOperand at h
  split at h
  all_goals first
    | (next hk => rw [hk]; rfl)
    | cases h

theorem endsOperand_stop (clause : Clause) : endsOperand (stop clause) := by
  cases clause <;> rfl

/-- Tokens that an expression takes are taken inside a statement. -/
theorem Takes.foldl_offer {p p' : Partial} {l l' : Ledger} {w : List Token}
    (h : Takes p l w p' l') (r : Reader) (clause : Clause) :
    w.foldl Reader.offer { r with expect := .expression clause p, ledger := l }
      = { r with expect := .expression clause p', ledger := l' } := by
  induction h with
  | nil => rfl
  | cons hoffer _ _ ih =>
    rw [List.foldl_cons, ← ih]
    congr 1
    show Reader.offerExpression _ clause _ _ = _
    rw [Reader.offerExpression, hoffer]

/-- The same open and complete statements and the same failures: reading has
changed nothing else than what is expected. -/
structure Beside (r r' : Reader) : Prop where
  contexts : r'.contexts = r.contexts
  program : r'.program = r.program
  failures : r'.ledger.failures = r.ledger.failures

/-- **An expression is read in any clause**, up to the token that ends it. -/
theorem Derives.read {w : List Token} {e : Expr} (h : Derives .expression w e) :
    ∃ t w', w = t :: w' ∧ startsOperand t.kind ∧
      ∀ (r : Reader) (clause : Clause) (t' : Token), t'.kind = stop clause →
        ∃ e' r', Beside r r' ∧ e'.Alike e
          ∧ (w' ++ [t']).foldl Reader.offer (r.offerExpression clause .empty t)
            = r'.endClause clause e' t' := by
  have htaken := fun l => h.taken [] l (Nat.le_refl 0)
  cases w with
  | nil =>
    obtain ⟨_, _, _, htakes, -⟩ := htaken ⟨0, #[]⟩
    exact absurd rfl (htakes.ne_nil rfl)
  | cons t w =>
    refine ⟨t, w, rfl, ?_, ?_⟩
    · obtain ⟨_, _, _, htakes, -⟩ := htaken ⟨0, #[]⟩
      cases htakes with
      | cons hoffer => exact startsOperand_of_taken hoffer
    · intro r clause t' ht'
      obtain ⟨extra, e₁, l', htakes, hcloses, -, htree⟩ := htaken r.ledger
      have hfailures := htakes.failures_eq
      rw [List.append_nil] at htakes
      cases htakes with
      | @cons _ _ _ p₁ l₁ _ _ _ hoffer _ hrest =>
        have hend : endsOperand t'.kind := by
          rw [ht']
          exact endsOperand_stop clause
        have hwhole := offer_whole e₁ l' hcloses hend
        have hfirst : r.offerExpression clause .empty t
            = { r with expect := .expression clause p₁, ledger := l₁ } := by
          unfold Reader.offerExpression Partial.empty
          rw [hoffer]
        refine ⟨wrapped extra e₁,
          { r with expect := .expression clause ⟨extra, .after e₁⟩, ledger := l' },
          ⟨rfl, rfl, hfailures⟩, htree, ?_⟩
        rw [List.foldl_append, hfirst, hrest.foldl_offer r clause]
        show Reader.offerExpression _ clause _ t' = _
        unfold Reader.offerExpression
        rw [hwhole]

/-- An expression can start a clause here. -/
def Awaits (r : Reader) (clause : Clause) : Prop :=
  ∀ t, startsOperand t.kind → r.offer t = r.offerExpression clause .empty t

theorem awaits_expecting {r : Reader} {clause : Clause}
    (h : r.expect = .expression clause .empty) : Awaits r clause := by
  intro t _
  unfold Reader.offer
  rw [h]

/-- The expression that can stand where it may also be left out. -/
def clauseAt : Expect → Option Clause
  | .forInitializer => some .forInitializer
  | .forCondition initializer => some (.forCondition initializer)
  | .forIncrement initializer condition => some (.forIncrement initializer condition)
  | .returnValue keyword => some (.return keyword)
  | _ => none

theorem awaits_clauseAt {r : Reader} {clause : Clause} (h : clauseAt r.expect = some clause) :
    Awaits r clause := by
  intro t ht
  unfold Reader.offer
  generalize r.expect = x at h ⊢
  unfold clauseAt at h
  split at h
  all_goals cases h
  -- a token that an expression starts with ends no clause
  all_goals
    dsimp only
    split
    all_goals first
      | rfl
      | (next hk => rw [hk] at ht; cases ht)

theorem Awaits.read {r : Reader} {clause : Clause} {w : List Token} {e : Expr} {t : Token}
    (hr : Awaits r clause) (h : Derives .expression w e) (ht : t.kind = stop clause) :
    ∃ e' r', Beside r r' ∧ e'.Alike e
      ∧ (w ++ [t]).foldl Reader.offer r = r'.endClause clause e' t := by
  obtain ⟨t₁, w', rfl, hstart, hread⟩ := h.read
  obtain ⟨e', r', hbeside, htree, hfold⟩ := hread r clause t ht
  refine ⟨e', r', hbeside, htree, ?_⟩
  rw [List.cons_append, List.foldl_cons, hr t₁ hstart]
  exact hfold

/-- Tokens without a loop of three clauses. -/
def ForFree (w : List Token) : Prop :=
  ∀ t ∈ w, t.kind ≠ .kwFor

theorem forFree_append {w w' : List Token} : ForFree (w ++ w') ↔ ForFree w ∧ ForFree w' := by
  unfold ForFree
  simp only [List.mem_append, or_imp, forall_and]

theorem forFree_cons {t : Token} {w : List Token} :
    ForFree (t :: w) ↔ t.kind ≠ .kwFor ∧ ForFree w := by
  unfold ForFree
  simp only [List.mem_cons, forall_eq_or_imp]

/-! ## §3. Behind a statement. -/

/-- A statement inside the open statements that end with it. -/
def enclosed : List Context → Stmt → Stmt
  | .thenBranch condition :: rest, s => enclosed rest (.ifElse condition s none)
  | .elseBranch condition thenBranch :: rest, s =>
      enclosed rest (.ifElse condition thenBranch (some s))
  | .whileBody condition :: rest, s => enclosed rest (.while condition s)
  | .forBody initializer condition increment :: rest, s =>
      enclosed rest (.forLoop initializer condition increment s)
  | _, s => s

theorem enclosed_append {extra : List Context} (h : ∀ c ∈ extra, c.isBlock = false)
    (cs : List Context) : ∀ s, enclosed (extra ++ cs) s = enclosed cs (enclosed extra s) := by
  induction extra with
  | nil =>
    intro s
    rfl
  | cons c extra ih =>
    intro s
    have hrest := ih fun c' hc' => h c' (List.mem_cons_of_mem c hc')
    cases c with
    | block | body => exact nomatch h _ List.mem_cons_self
    | thenBranch | elseBranch | whileBody | forBody => exact hrest _

theorem awaitsElse_of_append {extra cs : List Context} (h : ∀ c ∈ extra, c.isBlock = false)
    (hextra : Reader.awaitsElse extra = false) (hcs : Reader.awaitsElse cs = false) :
    Reader.awaitsElse (extra ++ cs) = false := by
  induction extra with
  | nil => exact hcs
  | cons c extra ih =>
    have hrest := ih fun c' hc' => h c' (List.mem_cons_of_mem c hc')
    cases c with
    | block | body => exact nomatch h _ List.mem_cons_self
    | thenBranch => cases hextra
    | elseBranch | whileBody | forBody => exact hrest hextra

/-- A statement is finished that was begun at the reader `r₀`: no block is open
since, nothing has failed, and under a condition it is this tree. -/
structure Completes (r₀ : Reader) (tree : Stmt) (plain : Prop) (r : Reader) : Prop where
  finished : ∃ extra s, r.expect = .finished s ∧ r.contexts = extra ++ r₀.contexts
    ∧ (∀ c ∈ extra, c.isBlock = false)
    ∧ (plain → (enclosed extra s).Alike tree
      ∧ (tree.endsOpen = false → Reader.awaitsElse extra = false))
  failures : r.ledger.failures = r₀.ledger.failures
  program : r.program = r₀.program

theorem completes_finished {r r' : Reader} {s tree : Stmt} {plain : Prop} (h : Beside r r')
    (htree : plain → s.Alike tree) : Completes r tree plain (r'.expecting (.finished s)) :=
  ⟨⟨[], s, rfl, h.contexts, by simp, fun hplain => ⟨htree hplain, fun _ => rfl⟩⟩, h.failures,
    h.program⟩

/-- A statement inside others that are no blocks finishes them too. -/
theorem Completes.under {r₀ r₁ r : Reader} {tree tree' : Stmt} {plain plain' : Prop}
    (h : Completes r₁ tree' plain' r) (inner : List Context)
    (hcontexts : r₁.contexts = inner ++ r₀.contexts) (hinner : ∀ c ∈ inner, c.isBlock = false)
    (hfailures : r₁.ledger.failures = r₀.ledger.failures) (hprogram : r₁.program = r₀.program)
    (htree : plain → plain' ∧ (∀ s, s.Alike tree' → (enclosed inner s).Alike tree)
      ∧ (tree.endsOpen = false → tree'.endsOpen = false ∧ Reader.awaitsElse inner = false)) :
    Completes r₀ tree plain r := by
  obtain ⟨⟨extra, s, hs, hextra, hblocks, hread⟩, hfailures', hprogram'⟩ := h
  refine ⟨⟨extra ++ inner, s, hs, ?_, ?_, ?_⟩, hfailures'.trans hfailures, hprogram'.trans hprogram⟩
  · rw [hextra, hcontexts, List.append_assoc]
  · intro c hc
    rcases List.mem_append.mp hc with hc | hc
    · exact hblocks c hc
    · exact hinner c hc
  · intro hplain
    obtain ⟨hplain', hwhole, hopen⟩ := htree hplain
    obtain ⟨halike, hclosed⟩ := hread hplain'
    rw [enclosed_append hblocks]
    refine ⟨hwhole _ halike, ?_⟩
    intro hends
    obtain ⟨hends', hawaits⟩ := hopen hends
    exact awaitsElse_of_append hblocks (hclosed hends') hawaits

/-- The tokens that only a statement can start with. -/
def startsStatement : TokenKind → Bool
  | .rightBrace | .kwClass | .kwFun | .kwVar | .kwElse => false
  | _ => true

/-- These tokens are read where a statement is expected; as this tree, if they
hold no loop of three clauses and no `else` is ambiguous. -/
def StatementRead (w : List Token) (tree : Stmt) : Prop :=
  ∃ t w', w = t :: w' ∧ startsStatement t.kind ∧ ∀ r : Reader,
    Completes r tree (ForFree w ∧ tree.ElseInnermost) (w'.foldl Reader.offer (r.offerStatement t))

theorem StatementRead.of_expect {w : List Token} {tree : Stmt} (h : StatementRead w tree)
    {r : Reader} (hr : r.expect = .statement) :
    Completes r tree (ForFree w ∧ tree.ElseInnermost) (w.foldl Reader.offer r) := by
  obtain ⟨t, w', rfl, -, hread⟩ := h
  rw [List.foldl_cons, Reader.offer, hr]
  exact hread r

/-- A statement is read inside an open one that is no block. -/
theorem StatementRead.opening {w : List Token} {tree whole : Stmt} (h : StatementRead w tree)
    {r r' : Reader} {c : Context} {plain : Prop} (hbeside : Beside r r') (hc : c.isBlock = false)
    (htree : plain → (ForFree w ∧ tree.ElseInnermost)
      ∧ (∀ s, s.Alike tree → (enclosed [c] s).Alike whole)
      ∧ (whole.endsOpen = false → tree.endsOpen = false ∧ Reader.awaitsElse [c] = false)) :
    Completes r whole plain (w.foldl Reader.offer (r'.opening c .statement)) := by
  refine (h.of_expect (r := r'.opening c .statement) rfl).under [c] ?_ ?_ hbeside.failures
    hbeside.program htree
  · rw [← hbeside.contexts]
    rfl
  · intro c' hc'
    rw [List.mem_singleton.mp hc']
    exact hc

section Simple

variable {w : List Token} {keyword semicolon : Token} {e : Expr}

theorem statementRead_expression {s : Stmt} (h : ExprStmt w s) : StatementRead w s := by
  obtain @⟨w, e, semicolon, h, hs⟩ := h
  obtain ⟨t, w', rfl, hstart, hread⟩ := h.read
  refine ⟨t, w' ++ [semicolon], rfl, ?_, ?_⟩
  · cases hk : t.kind <;> rw [hk] at hstart <;> first | rfl | cases hstart
  · intro r
    have hfirst : r.offerStatement t = r.offerExpression .statement .empty t := by
      unfold Reader.offerStatement
      split
      all_goals first
        | rfl
        | (next hk => rw [hk] at hstart; cases hstart)
    obtain ⟨e', r', hbeside, htree, hfold⟩ := hread r .statement semicolon hs
    rw [hfirst, hfold, Reader.endClause.eq_def, hs]
    exact completes_finished hbeside fun _ => .expression htree

theorem statementRead_print (hk : keyword.kind = .kwPrint) (h : Derives .expression w e)
    (hs : semicolon.kind = .semicolon) :
    StatementRead (keyword :: (w ++ [semicolon])) (.print e) := by
  refine ⟨keyword, _, rfl, by rw [hk]; rfl, ?_⟩
  intro r
  have hfirst : r.offerStatement keyword = r.expecting (.expression .print .empty) := by
    rw [Reader.offerStatement, hk]
  obtain ⟨e', r', hbeside, htree, hfold⟩ :=
    (awaits_expecting rfl : Awaits (r.expecting _) .print).read h hs
  rw [hfirst, hfold, Reader.endClause.eq_def, hs]
  exact completes_finished ⟨hbeside.contexts, hbeside.program, hbeside.failures⟩
    fun _ => .print htree

theorem statementRead_return {value : Option Expr} (hk : keyword.kind = .kwReturn)
    (h : Optional w value) (hs : semicolon.kind = .semicolon) :
    StatementRead (keyword :: (w ++ [semicolon])) (.return keyword value) := by
  refine ⟨keyword, _, rfl, by rw [hk]; rfl, ?_⟩
  intro r
  have hfirst : r.offerStatement keyword = r.expecting (.returnValue keyword) := by
    rw [Reader.offerStatement, hk]
  rw [hfirst]
  cases h with
  | none =>
    have hsecond : (r.expecting (.returnValue keyword)).offer semicolon
        = r.expecting (.finished (.return keyword none)) := by
      rw [Reader.offer.eq_def]
      simp only [Reader.expecting, hs]
    rw [List.nil_append, List.foldl_cons, hsecond]
    exact completes_finished ⟨rfl, rfl, rfl⟩ fun _ => rfl
  | some h =>
    obtain ⟨e', r', hbeside, htree, hfold⟩ :=
      (awaits_clauseAt rfl : Awaits (r.expecting (.returnValue keyword)) _).read h hs
    rw [hfold, Reader.endClause.eq_def, hs]
    exact completes_finished ⟨hbeside.contexts, hbeside.program, hbeside.failures⟩
      fun _ => .return keyword htree

end Simple

/-! ## §4. Statements with statements inside. -/

section Compound

variable {w wt we wi wc wn : List Token} {keyword lparen rparen semicolon kwElse : Token} {e : Expr}
  {tree tree' : Stmt}

/-- A condition in parentheses, after a keyword that wants one. -/
theorem head_read {x : Expect} (clause : Clause) {inside : Expr → Context}
    (hopen : ∀ r : Reader, (r.expecting x).offer lparen = r.expecting (.expression clause .empty))
    (hend : ∀ (r : Reader) c, r.endClause clause c rparen = r.opening (inside c) .statement)
    (h : Derives .expression w e) (hr : rparen.kind = stop clause) (r : Reader) :
    ∃ c r', Beside r r' ∧ c.Alike e
      ∧ (lparen :: (w ++ [rparen])).foldl Reader.offer (r.expecting x)
        = r'.opening (inside c) .statement := by
  obtain ⟨c, r', hbeside, htree, hfold⟩ :=
    (awaits_expecting rfl : Awaits (r.expecting _) clause).read h hr
  refine ⟨c, r', ⟨hbeside.contexts, hbeside.program, hbeside.failures⟩, htree, ?_⟩
  rw [List.foldl_cons, hopen, hfold, hend]

theorem ifHead_read (hl : lparen.kind = .leftParen) (h : Derives .expression w e)
    (hr : rparen.kind = .rightParen) (r : Reader) :
    ∃ c r', Beside r r' ∧ c.Alike e
      ∧ (lparen :: (w ++ [rparen])).foldl Reader.offer (r.expecting .ifOpen)
        = r'.opening (.thenBranch c) .statement := by
  refine head_read .ifCondition ?_ ?_ h hr r
  · intro r
    rw [Reader.offer.eq_def]
    simp only [Reader.expecting, hl]
  · intro r c
    rw [Reader.endClause.eq_def, hr]

theorem whileHead_read (hl : lparen.kind = .leftParen) (h : Derives .expression w e)
    (hr : rparen.kind = .rightParen) (r : Reader) :
    ∃ c r', Beside r r' ∧ c.Alike e
      ∧ (lparen :: (w ++ [rparen])).foldl Reader.offer (r.expecting .whileOpen)
        = r'.opening (.whileBody c) .statement := by
  refine head_read .whileCondition ?_ ?_ h hr r
  · intro r
    rw [Reader.offer.eq_def]
    simp only [Reader.expecting, hl]
  · intro r c
    rw [Reader.endClause.eq_def, hr]

/-- The tokens after a head in parentheses have no loop of three clauses if
all of them have none. -/
theorem ForFree.afterHead (h : ForFree (keyword :: lparen :: (w ++ rparen :: wt))) : ForFree wt :=
  (forFree_cons.mp (forFree_append.mp (forFree_cons.mp (forFree_cons.mp h).2).2).2).2

theorem statementRead_while (hk : keyword.kind = .kwWhile) (hl : lparen.kind = .leftParen)
    (h : Derives .expression w e) (hr : rparen.kind = .rightParen) (hbody : StatementRead wt tree) :
    StatementRead (keyword :: lparen :: (w ++ rparen :: wt)) (.while e tree) := by
  refine ⟨keyword, _, rfl, by rw [hk]; rfl, ?_⟩
  intro r
  have hfirst : r.offerStatement keyword = r.expecting .whileOpen := by
    rw [Reader.offerStatement, hk]
  obtain ⟨c, r', hbeside, hc, hfold⟩ := whileHead_read hl h hr r
  have hsplit : lparen :: (w ++ rparen :: wt) = lparen :: (w ++ [rparen]) ++ wt := by simp
  rw [hfirst, hsplit, List.foldl_append, hfold]
  refine hbody.opening hbeside rfl ?_
  rintro ⟨hfor, helse⟩
  rw [Stmt.ElseInnermost] at helse
  rw [← hsplit] at hfor
  refine ⟨⟨hfor.afterHead, helse⟩, fun s hs => .while hc hs, ?_⟩
  intro hends
  rw [Stmt.endsOpen] at hends
  exact ⟨hends, rfl⟩

theorem statementRead_if (hk : keyword.kind = .kwIf) (hl : lparen.kind = .leftParen)
    (h : Derives .expression w e) (hr : rparen.kind = .rightParen) (hthen : StatementRead wt tree) :
    StatementRead (keyword :: lparen :: (w ++ rparen :: wt)) (.ifElse e tree none) := by
  refine ⟨keyword, _, rfl, by rw [hk]; rfl, ?_⟩
  intro r
  have hfirst : r.offerStatement keyword = r.expecting .ifOpen := by
    rw [Reader.offerStatement, hk]
  obtain ⟨c, r', hbeside, hc, hfold⟩ := ifHead_read hl h hr r
  have hsplit : lparen :: (w ++ rparen :: wt) = lparen :: (w ++ [rparen]) ++ wt := by simp
  rw [hfirst, hsplit, List.foldl_append, hfold]
  refine hthen.opening hbeside rfl ?_
  rintro ⟨hfor, helse⟩
  rw [Stmt.ElseInnermost] at helse
  rw [← hsplit] at hfor
  refine ⟨⟨hfor.afterHead, helse⟩, fun s hs => .ifThen hc hs, ?_⟩
  intro hends
  rw [Stmt.endsOpen] at hends
  cases hends

theorem awaitsElse_append {extra cs : List Context} {c : Expr}
    (hextra : ∀ c' ∈ extra, c'.isBlock = false) :
    Reader.awaitsElse (extra ++ .thenBranch c :: cs) := by
  induction extra with
  | nil => rfl
  | cons c' extra ih =>
    have hrest := ih fun c'' hc'' => hextra c'' (List.mem_cons_of_mem c' hc'')
    cases c' with
    | block | body => exact nomatch hextra _ List.mem_cons_self
    | thenBranch => rfl
    | elseBranch | whileBody | forBody => exact hrest

/-- An `else` goes to the innermost `if`, whatever that is; if no `if` was left
without one since, it goes to this one. -/
theorem placeBeforeElse_append {extra : List Context} (c : Expr) (cs : List Context) (r : Reader)
    (hextra : ∀ c' ∈ extra, c'.isBlock = false) :
    ∀ s, ∃ inner, r.placeBeforeElse (extra ++ .thenBranch c :: cs) s
        = { r with expect := .statement, contexts := inner ++ cs }
      ∧ (∀ c' ∈ inner, c'.isBlock = false)
      ∧ (Reader.awaitsElse extra = false → inner = [.elseBranch c (enclosed extra s)]) := by
  induction extra with
  | nil => exact fun s => ⟨[.elseBranch c s], rfl, by simp [Context.isBlock], fun _ => rfl⟩
  | cons c' extra ih =>
    intro s
    have hextra' : ∀ c'' ∈ extra, c''.isBlock = false :=
      fun c'' hc'' => hextra c'' (List.mem_cons_of_mem c' hc'')
    cases c' with
    | block | body => exact nomatch hextra _ List.mem_cons_self
    | thenBranch c' =>
      refine ⟨.elseBranch c' s :: (extra ++ [.thenBranch c]), ?_, ?_, nofun⟩
      · simp [Reader.placeBeforeElse]
      · intro c'' hc''
        rcases List.mem_cons.mp hc'' with rfl | hc''
        · rfl
        rcases List.mem_append.mp hc'' with hc'' | hc''
        · exact hextra' c'' hc''
        · rw [List.mem_singleton.mp hc'']
          rfl
    | elseBranch | whileBody | forBody => exact ih hextra' _

theorem statementRead_ifElse (hk : keyword.kind = .kwIf) (hl : lparen.kind = .leftParen)
    (h : Derives .expression w e) (hr : rparen.kind = .rightParen) (hthen : StatementRead wt tree)
    (hk' : kwElse.kind = .kwElse) (helse : StatementRead we tree') :
    StatementRead (keyword :: lparen :: (w ++ rparen :: (wt ++ kwElse :: we)))
      (.ifElse e tree (some tree')) := by
  refine ⟨keyword, _, rfl, by rw [hk]; rfl, ?_⟩
  intro r
  have hfirst : r.offerStatement keyword = r.expecting .ifOpen := by
    rw [Reader.offerStatement, hk]
  obtain ⟨c, r', hbeside, hc, hfold⟩ := ifHead_read hl h hr r
  have hsplit : lparen :: (w ++ rparen :: (wt ++ kwElse :: we))
      = lparen :: (w ++ [rparen]) ++ (wt ++ kwElse :: we) := by simp
  rw [hfirst, hsplit, List.foldl_append, hfold, List.foldl_append, List.foldl_cons]
  -- the first branch leaves this `if` open, so some `if` takes the `else`
  obtain ⟨⟨extra, s, hs, hextra, hblocks, hread⟩, hfailures, hprogram⟩ :=
    hthen.of_expect (r := r'.opening (.thenBranch c) .statement) rfl
  generalize wt.foldl Reader.offer (r'.opening (.thenBranch c) .statement) = r₁
    at hs hextra hfailures hprogram ⊢
  have hcontexts : r₁.contexts = extra ++ .thenBranch c :: r.contexts := by
    rw [hextra, ← hbeside.contexts]
    rfl
  obtain ⟨inner, hplaced, hinner, hthis⟩ := placeBeforeElse_append c r.contexts r₁ hblocks s
  have hoffer : r₁.offer kwElse = { r₁ with expect := .statement, contexts := inner ++ r.contexts } := by
    rw [Reader.offer.eq_def, hs]
    simp only [hk', hcontexts, awaitsElse_append hblocks, and_self, if_true]
    exact hplaced
  rw [hoffer]
  refine (helse.of_expect (r := { r₁ with expect := .statement, contexts := inner ++ r.contexts })
    rfl).under inner rfl hinner (hfailures.trans hbeside.failures) (hprogram.trans hbeside.program) ?_
  rintro ⟨hfor, hinnermost⟩
  rw [Stmt.ElseInnermost] at hinnermost
  rw [← hsplit] at hfor
  obtain ⟨hforThen, hforElse⟩ := forFree_append.mp hfor.afterHead
  obtain ⟨halike, hclosed⟩ := hread ⟨hforThen, hinnermost.1⟩
  -- the first branch does not end in an open `if`, so it is this one
  rw [hthis (hclosed hinnermost.2.1)]
  refine ⟨⟨(forFree_cons.mp hforElse).2, hinnermost.2.2⟩, fun s hs => .ifElse hc halike hs, ?_⟩
  intro hends
  rw [Stmt.endsOpen] at hends
  exact ⟨hends, rfl⟩

/-- A variable is read up to its end, wherever it is declared. -/
theorem variable_read {name : Token} {w' : List Token} {place : VariablePlace} {s : Stmt}
    (h : VarDecl (keyword :: name :: w') s) {r : Reader} (hr : r.expect = .variableName place) :
    ∃ v r', Beside r r' ∧ (Stmt.var name v).Alike s
      ∧ (name :: w').foldl Reader.offer r = r'.finishVariable place name v := by
  have hfirst : name.kind = .identifier → r.offer name = r.expecting (.variableValue place name) := by
    intro hn
    rw [Reader.offer.eq_def, hr]
    simp only [hn]
  cases h with
  | empty hk hn hs =>
    refine ⟨none, r.expecting (.variableValue place name), ⟨rfl, rfl, rfl⟩, rfl, ?_⟩
    rw [List.foldl_cons, hfirst hn, List.foldl_cons, List.foldl_nil, Reader.offer.eq_def]
    simp only [Reader.expecting, hs]
  | @value _ _ equals w e semicolon hk hn hq he hs =>
    have hequals : (r.expecting (.variableValue place name)).offer equals
        = r.expecting (.expression (.variable place name) .empty) := by
      rw [Reader.offer.eq_def]
      simp only [Reader.expecting, hq]
    obtain ⟨e', r', hbeside, htree, hfold⟩ :=
      (awaits_expecting rfl : Awaits (r.expecting _) (.variable place name)).read he hs
    refine ⟨some e', r', ⟨hbeside.contexts, hbeside.program, hbeside.failures⟩, .var name htree, ?_⟩
    rw [List.foldl_cons, hfirst hn, List.foldl_cons, hequals, hfold, Reader.endClause.eq_def, hs]

theorem VarDecl.exists_name {w : List Token} {s : Stmt} (h : VarDecl w s) :
    ∃ keyword name w', w = keyword :: name :: w' ∧ keyword.kind = .kwVar := by
  cases h with
  | empty hk => exact ⟨_, _, _, rfl, hk⟩
  | value hk => exact ⟨_, _, _, rfl, hk⟩

theorem forInitializer_read {initializer : Option Stmt} (h : ForInitializer wi initializer)
    {r : Reader} (hr : r.expect = .forInitializer) :
    ∃ i r', Beside r r' ∧ wi.foldl Reader.offer r = r'.expecting (.forCondition i) := by
  cases h with
  | var h =>
    obtain ⟨kwVar, name, w', rfl, hk⟩ := h.exists_name
    have hfirst : r.offer kwVar = r.expecting (.variableName .forClause) := by
      rw [Reader.offer.eq_def, hr]
      simp only [hk]
    obtain ⟨v, r', hbeside, -, hfold⟩ := variable_read (r := r.expecting _) h rfl
    rw [List.foldl_cons, hfirst, hfold]
    exact ⟨_, r', ⟨hbeside.contexts, hbeside.program, hbeside.failures⟩, rfl⟩
  | expression h =>
    cases h with
    | mk he hs =>
      have hawaits : Awaits r .forInitializer := awaits_clauseAt (by rw [hr]; rfl)
      obtain ⟨e', r', hbeside, -, hfold⟩ := hawaits.read he hs
      rw [hfold, Reader.endClause.eq_def, hs]
      exact ⟨_, r', hbeside, rfl⟩
  | none hs =>
    refine ⟨none, r, ⟨rfl, rfl, rfl⟩, ?_⟩
    rw [List.foldl_cons, List.foldl_nil, Reader.offer.eq_def, hr]
    simp only [hs]

theorem forCondition_read {i : Option Stmt} {condition : Option Expr} (h : Optional wc condition)
    (hs : semicolon.kind = .semicolon) (r : Reader) :
    ∃ c r', Beside r r' ∧ (wc ++ [semicolon]).foldl Reader.offer (r.expecting (.forCondition i))
      = r'.expecting (.forIncrement i c) := by
  cases h with
  | none =>
    refine ⟨none, r, ⟨rfl, rfl, rfl⟩, ?_⟩
    rw [List.nil_append, List.foldl_cons, List.foldl_nil, Reader.offer.eq_def]
    simp only [Reader.expecting, hs]
  | some he =>
    have hawaits : Awaits (r.expecting (.forCondition i)) (.forCondition i) := awaits_clauseAt rfl
    obtain ⟨e', r', hbeside, -, hfold⟩ := hawaits.read he hs
    rw [hfold, Reader.endClause.eq_def, hs]
    exact ⟨some e', r', ⟨hbeside.contexts, hbeside.program, hbeside.failures⟩, rfl⟩

theorem forIncrement_read {i : Option Stmt} {c increment : Option Expr} (h : Optional wn increment)
    (hr : rparen.kind = .rightParen) (r : Reader) :
    ∃ n r', Beside r r' ∧ (wn ++ [rparen]).foldl Reader.offer (r.expecting (.forIncrement i c))
      = r'.opening (.forBody i c n) .statement := by
  cases h with
  | none =>
    refine ⟨none, r, ⟨rfl, rfl, rfl⟩, ?_⟩
    rw [List.nil_append, List.foldl_cons, List.foldl_nil, Reader.offer.eq_def]
    simp only [Reader.expecting, Reader.opening, hr]
  | some he =>
    have hawaits : Awaits (r.expecting (.forIncrement i c)) (.forIncrement i c) :=
      awaits_clauseAt rfl
    obtain ⟨e', r', hbeside, -, hfold⟩ := hawaits.read he hr
    rw [hfold, Reader.endClause.eq_def, hr]
    exact ⟨some e', r', ⟨hbeside.contexts, hbeside.program, hbeside.failures⟩, rfl⟩

theorem statementRead_for {initializer : Option Stmt} {condition increment : Option Expr}
    (hk : keyword.kind = .kwFor) (hl : lparen.kind = .leftParen)
    (hi : ForInitializer wi initializer) (hc : Optional wc condition)
    (hs : semicolon.kind = .semicolon) (hn : Optional wn increment)
    (hr : rparen.kind = .rightParen) (hbody : StatementRead wt tree) (whole : Stmt) :
    StatementRead (keyword :: lparen :: (wi ++ (wc ++ semicolon :: (wn ++ rparen :: wt)))) whole := by
  refine ⟨keyword, _, rfl, by rw [hk]; rfl, ?_⟩
  intro r
  have hfirst : r.offerStatement keyword = r.expecting .forOpen := by
    rw [Reader.offerStatement, hk]
  have hparen : (r.expecting .forOpen).offer lparen = r.expecting .forInitializer := by
    rw [Reader.offer.eq_def]
    simp only [Reader.expecting, hl]
  obtain ⟨i, r₁, hbeside₁, hfold₁⟩ := forInitializer_read hi (r := r.expecting .forInitializer) rfl
  obtain ⟨c, r₂, hbeside₂, hfold₂⟩ := forCondition_read (i := i) hc hs r₁
  obtain ⟨n, r₃, hbeside₃, hfold₃⟩ := forIncrement_read (i := i) (c := c) hn hr r₂
  have hsplit : lparen :: (wi ++ (wc ++ semicolon :: (wn ++ rparen :: wt)))
      = lparen :: (wi ++ ((wc ++ [semicolon]) ++ ((wn ++ [rparen]) ++ wt))) := by simp
  rw [hfirst, hsplit, List.foldl_cons, hparen, List.foldl_append, hfold₁, List.foldl_append, hfold₂,
    List.foldl_append, hfold₃]
  refine hbody.opening ⟨?_, ?_, ?_⟩ rfl ?_
  · rw [hbeside₃.contexts, hbeside₂.contexts, hbeside₁.contexts]
    rfl
  · rw [hbeside₃.program, hbeside₂.program, hbeside₁.program]
    rfl
  · rw [hbeside₃.failures, hbeside₂.failures, hbeside₁.failures]
    rfl
  · rintro ⟨hfor, -⟩
    exact absurd hk (hfor keyword List.mem_cons_self)

end Compound

/-! ## §5. Between declarations. -/

/-- A declaration can follow, or the end of the block around it. -/
def Settled (r : Reader) : Prop :=
  match r.expect with
  | .declaration => declarable r.contexts
  | .finished _ => True
  | _ => False

/-- Put a finished statement where it belongs. -/
def settle (r : Reader) : Reader :=
  match r.expect with
  | .finished s => r.place r.contexts s
  | _ => r

/-- The complete statements of the innermost block, or of the program. -/
def listed (r : Reader) : List Stmt :=
  match r.contexts with
  | .block earlier :: _ | .body _ _ _ earlier :: _ => earlier.toList
  | _ => r.program.toList

/-- Contexts that differ in the complete statements of the innermost block
alone. -/
inductive SameTop : List Context → List Context → Prop where
  | nil : SameTop [] []
  | block {a b cs} : SameTop (.block a :: cs) (.block b :: cs)
  | body {owner name params a b cs} :
      SameTop (.body owner name params a :: cs) (.body owner name params b :: cs)

theorem SameTop.refl {cs : List Context} (h : declarable cs) : SameTop cs cs := by
  cases cs with
  | nil => exact .nil
  | cons c cs =>
    cases c with
    | block => exact .block
    | body => exact .body
    | thenBranch | elseBranch | whileBody | forBody => cases h

theorem SameTop.trans {cs cs' cs'' : List Context} (h : SameTop cs cs') (h' : SameTop cs' cs'') :
    SameTop cs cs'' := by
  cases h with
  | nil => exact h'
  | block =>
    cases h' with
    | block => exact .block
  | body =>
    cases h' with
    | body => exact .body

theorem SameTop.ne_nil {cs cs' : List Context} (h : SameTop cs cs') (hcs : cs ≠ []) : cs' ≠ [] := by
  cases h with
  | nil => exact hcs
  | block | body => exact List.cons_ne_nil _ _

theorem place_declarable (r : Reader) (cs : List Context) :
    ∀ s, declarable (r.place cs s).contexts := by
  induction cs with
  | nil => exact fun s => rfl
  | cons c cs ih =>
    intro s
    cases c with
    | block | body => rfl
    | thenBranch | elseBranch | whileBody | forBody => exact ih _

/-- A finished statement is placed with the open ones that end with it. -/
theorem place_append (r : Reader) {extra : List Context} (cs : List Context)
    (hextra : ∀ c ∈ extra, c.isBlock = false) :
    ∀ s, r.place (extra ++ cs) s = r.place cs (enclosed extra s) := by
  induction extra with
  | nil =>
    intro s
    rfl
  | cons c extra ih =>
    intro s
    have hrest := ih fun c' hc' => hextra c' (List.mem_cons_of_mem c hc')
    cases c with
    | block | body => exact nomatch hextra _ List.mem_cons_self
    | thenBranch | elseBranch | whileBody | forBody => exact hrest _

/-- Placing a statement adds it to the innermost block, and leaves everything
as it is outside. -/
theorem place_listed (r : Reader) (s : Stmt) (h : declarable r.contexts) :
    SameTop r.contexts (r.place r.contexts s).contexts
      ∧ listed (r.place r.contexts s) = listed r ++ [s]
      ∧ (r.contexts ≠ [] → (r.place r.contexts s).program = r.program) := by
  obtain ⟨expect, contexts, program, ledger⟩ := r
  cases contexts with
  | nil => exact ⟨.nil, Array.toList_push, fun hne => absurd rfl hne⟩
  | cons c cs =>
    cases c with
    | block => exact ⟨.block, Array.toList_push, fun _ => rfl⟩
    | body => exact ⟨.body, Array.toList_push, fun _ => rfl⟩
    | thenBranch | elseBranch | whileBody | forBody => cases h

theorem settle_declarable {r : Reader} (h : Settled r) : declarable (settle r).contexts := by
  unfold Settled at h
  unfold settle
  split
  · exact place_declarable r _ _
  · next hx =>
    split at h
    · exact h
    · next s hs => exact absurd hs (hx s)
    · cases h

@[simp]
theorem settle_ledger (r : Reader) : (settle r).ledger = r.ledger := by
  unfold settle
  split
  · exact Reader.place_ledger _ _
  · rfl

/-- What follows a finished statement and is no `else` is a declaration. -/
theorem offer_settled {r : Reader} {t : Token} (h : Settled r) (ht : t.kind ≠ .kwElse) :
    r.offer t = (settle r).offerDeclaration t := by
  unfold Settled at h
  unfold settle Reader.offer
  split at h
  · next hx => rw [hx]
  · next s hx =>
    rw [hx]
    dsimp only
    rw [if_neg (fun h => ht h.1)]
  · cases h

/-- Behind these statements: they were added to the innermost block, under a
condition as these trees, and nothing else has changed. -/
structure Lists (r₀ : Reader) (trees : List Stmt) (plain : Prop) (r : Reader) : Prop where
  settled : Settled r
  same : SameTop r₀.contexts (settle r).contexts
  failures : (settle r).ledger.failures = r₀.ledger.failures
  program : r₀.contexts ≠ [] → (settle r).program = r₀.program
  listed : plain → Stmt.AlikeAll (listed (settle r)) (listed r₀ ++ trees)

theorem Completes.lists {r₀ r : Reader} {tree : Stmt} {plain : Prop}
    (h : Completes r₀ tree plain r) (hcs : declarable r₀.contexts) : Lists r₀ [tree] plain r := by
  obtain ⟨⟨extra, s, hs, hextra, hblocks, hread⟩, hfailures, hprogram⟩ := h
  obtain ⟨expect, contexts, program, ledger⟩ := r
  obtain rfl : contexts = extra ++ r₀.contexts := hextra
  obtain rfl : program = r₀.program := hprogram
  have hsettle : settle ⟨expect, extra ++ r₀.contexts, r₀.program, ledger⟩
      = Reader.place ⟨expect, r₀.contexts, r₀.program, ledger⟩ r₀.contexts (enclosed extra s) := by
    rw [settle, hs]
    dsimp only
    rw [place_append _ _ hblocks]
    -- where a statement is placed does not depend on the contexts of the reader
    generalize enclosed extra s = whole
    cases hcontexts : r₀.contexts with
    | nil => rfl
    | cons c cs =>
      rw [hcontexts] at hcs
      cases c with
      | block | body => rfl
      | thenBranch | elseBranch | whileBody | forBody => cases hcs
  obtain ⟨hsame, hlisted, hkept⟩ :=
    place_listed ⟨expect, r₀.contexts, r₀.program, ledger⟩ (enclosed extra s) hcs
  refine ⟨?_, ?_, ?_, ?_, ?_⟩
  · rw [Settled, hs]
    trivial
  · rw [hsettle]
    exact hsame
  · rw [settle_ledger]
    exact hfailures
  · rw [hsettle]
    exact hkept
  · intro hplain
    rw [hsettle, hlisted]
    exact .append rfl (hread hplain).1.singleton

/-! ## §6. Functions and declarations. -/

/-- These tokens are read where a declaration is expected. -/
def DeclarationRead (w : List Token) (tree : Stmt) : Prop :=
  ∃ t w', w = t :: w' ∧ t.kind ≠ .kwElse ∧ ∀ r : Reader, declarable r.contexts →
    Completes r tree (ForFree w ∧ tree.ElseInnermost)
      (w'.foldl Reader.offer (r.offerDeclaration t))

/-- These tokens are read where declarations can follow. -/
def DeclarationsRead (w : List Token) (trees : List Stmt) : Prop :=
  ∀ r : Reader, Settled r →
    Lists (settle r) trees (ForFree w ∧ Stmt.ElseInnermostAll trees) (w.foldl Reader.offer r)

/-- Declarations in braces. -/
def BlockRead (w : List Token) (trees : List Stmt) : Prop :=
  ∃ lbrace v rbrace, w = lbrace :: (v ++ [rbrace]) ∧ lbrace.kind = .leftBrace
    ∧ DeclarationsRead v trees ∧ rbrace.kind = .rightBrace

/-- These tokens are read where a function is expected. -/
def FunctionRead (w : List Token) (tree : FunctionDecl Stmt) : Prop :=
  ∃ t w', w = t :: w' ∧ t.kind = .identifier ∧ ∀ (r : Reader) (owner : Owner),
    ∃ decl r', Beside r r'
      ∧ (ForFree w ∧ Stmt.ElseInnermostFunction tree → Stmt.AlikeFunction decl tree)
      ∧ w'.foldl Reader.offer (r.offerFunctionName owner t) = r'.finishFunction owner decl

/-- These tokens are read where methods can follow. -/
def FunctionsRead (w : List Token) (trees : List (FunctionDecl Stmt)) : Prop :=
  ∀ (r : Reader) (head : ClassHead),
    ∃ methods r', Beside r r'
      ∧ (ForFree w ∧ Stmt.ElseInnermostMethods trees → Stmt.AlikeMethods methods.toList trees)
      ∧ w.foldl Reader.offer (r.expecting (.member head #[]))
        = r'.expecting (.member head methods)

section Declarations

variable {w w' ws wp wb : List Token} {keyword name lbrace rbrace : Token} {tree : Stmt}
  {trees : List Stmt} {decl : FunctionDecl Stmt} {decls : List (FunctionDecl Stmt)}

theorem StatementRead.declaration (h : StatementRead w tree) : DeclarationRead w tree := by
  obtain ⟨t, w', rfl, hstart, hread⟩ := h
  refine ⟨t, w', rfl, ?_, ?_⟩
  · intro hk
    rw [hk] at hstart
    cases hstart
  · intro r _
    have hfirst : r.offerDeclaration t = r.offerStatement t := by
      unfold Reader.offerDeclaration
      split
      all_goals first
        | rfl
        | (next hk _ => rw [hk] at hstart; cases hstart)
        | (next hk => rw [hk] at hstart; cases hstart)
    rw [hfirst]
    exact hread r

theorem declarationRead_var {s : Stmt} (h : VarDecl w s) : DeclarationRead w s := by
  obtain ⟨keyword, name, w', rfl, hk⟩ := h.exists_name
  refine ⟨keyword, name :: w', rfl, by rw [hk]; decide, ?_⟩
  intro r _
  have hfirst : r.offerDeclaration keyword = r.expecting (.variableName .declaration) := by
    rw [Reader.offerDeclaration.eq_def, hk]
  obtain ⟨v, r', hbeside, htree, hfold⟩ :=
    variable_read (r := r.expecting (.variableName .declaration)) h rfl
  rw [hfirst, hfold]
  exact completes_finished ⟨hbeside.contexts, hbeside.program, hbeside.failures⟩ fun _ => htree

theorem DeclarationsRead.nil : DeclarationsRead [] [] := by
  intro r h
  refine ⟨h, .refl (settle_declarable h), rfl, fun _ => rfl, fun _ => ?_⟩
  rw [List.append_nil]
  rfl

theorem DeclarationsRead.snoc (h : DeclarationsRead w trees) (h' : DeclarationRead w' tree) :
    DeclarationsRead (w ++ w') (trees ++ [tree]) := by
  intro r hr
  obtain ⟨hsettled, hsame, hfailures, hprogram, hlisted⟩ := h r hr
  obtain ⟨t, v, rfl, ht, hread⟩ := h'
  have hdeclarable := settle_declarable hsettled
  obtain ⟨hsettled', hsame', hfailures', hprogram', hlisted'⟩ :=
    (hread _ hdeclarable).lists hdeclarable
  rw [List.foldl_append, List.foldl_cons, offer_settled hsettled ht]
  refine ⟨hsettled', hsame.trans hsame', hfailures'.trans hfailures, ?_, ?_⟩
  · intro hne
    rw [hprogram' (hsame.ne_nil hne), hprogram hne]
  · rintro ⟨hfor, helse⟩
    obtain ⟨hfor₁, hfor₂⟩ := forFree_append.mp hfor
    obtain ⟨helse₁, helse₂⟩ := (Stmt.elseInnermostAll_append _ _).mp helse
    have hfirst := hlisted ⟨hfor₁, helse₁⟩
    have hsecond := hlisted' ⟨hfor₂, helse₂.1⟩
    rw [← List.append_assoc]
    exact hsecond.trans (hfirst.append (.refl [tree]))

theorem statementRead_block (h : BlockRead w trees) : StatementRead w (.block trees) := by
  obtain ⟨lbrace, w, rbrace, rfl, hl, h, hr⟩ := h
  refine ⟨lbrace, _, rfl, by rw [hl]; rfl, ?_⟩
  intro r
  have hfirst : r.offerStatement lbrace = r.opening (.block #[]) .declaration := by
    rw [Reader.offerStatement, hl]
  obtain ⟨hsettled, hsame, hfailures, hprogram, hlisted⟩ :=
    h (r.opening (.block #[]) .declaration) rfl
  rw [hfirst, List.foldl_append, List.foldl_cons, List.foldl_nil,
    offer_settled hsettled (by rw [hr]; decide)]
  generalize w.foldl Reader.offer (r.opening (.block #[]) .declaration) = r₁
    at hsettled hsame hfailures hprogram hlisted ⊢
  replace hprogram := hprogram (List.cons_ne_nil _ _)
  generalize settle r₁ = r₂ at hsame hfailures hprogram hlisted ⊢
  obtain ⟨expect, contexts, program, ledger⟩ := r₂
  rw [Reader.offerDeclaration.eq_def, hr]
  -- the innermost block is still the one that was opened
  cases hsame with
  | block =>
    refine ⟨⟨[], _, rfl, rfl, by simp, ?_⟩, hfailures, hprogram⟩
    rintro ⟨hfor, helse⟩
    rw [Stmt.ElseInnermost] at helse
    have hforBody : ForFree w := (forFree_append.mp (forFree_cons.mp hfor).2).1
    exact ⟨.block (hlisted ⟨hforBody, helse⟩), fun _ => rfl⟩

theorem parameters_read {params : List Token} (h : Parameters wp params) (owner : Owner)
    (r : Reader) (hlen : params.length ≤ maxArity) :
    wp.foldl Reader.offer (r.expecting (.firstParameter owner name))
      = r.expecting (.afterParameter owner name params.toArray) := by
  induction h with
  | @one t ht =>
    have hsize : ¬ maxArity ≤ (#[] : Array Token).size := by decide
    rw [List.foldl_cons, List.foldl_nil, Reader.offer.eq_def]
    simp only [Reader.expecting, Reader.offerParameter, ht, if_neg hsize]
    rfl
  | @more w params comma t _ hcomma ht ih =>
    rw [List.length_append, List.length_singleton] at hlen
    have hsize : ¬ maxArity ≤ params.toArray.size := by
      rw [List.size_toArray]
      omega
    have hoffer : (r.expecting (.afterParameter owner name params.toArray)).offer comma
        = r.expecting (.nextParameter owner name params.toArray) := by
      rw [Reader.offer.eq_def]
      simp only [Reader.expecting, hcomma]
    rw [List.foldl_append, ih (by omega), List.foldl_cons, hoffer, List.foldl_cons, List.foldl_nil,
      Reader.offer.eq_def]
    simp only [Reader.expecting, Reader.offerParameter, ht, if_neg hsize, List.push_toArray]

theorem parameterList_read {params : List Token} (h : ParameterList wp params) (owner : Owner)
    (r : Reader) :
    wp.foldl Reader.offer (r.expecting (.parametersOpen owner name))
      = r.expecting (.functionBodyOpen owner name params.toArray) := by
  have hopen : ∀ lparen : Token, lparen.kind = .leftParen →
      (r.expecting (.parametersOpen owner name)).offer lparen
        = r.expecting (.firstParameter owner name) := by
    intro lparen hl
    rw [Reader.offer.eq_def]
    simp only [Reader.expecting, hl]
  cases h with
  | empty hl hr =>
    rw [List.foldl_cons, hopen _ hl, List.foldl_cons, List.foldl_nil, Reader.offer.eq_def]
    simp only [Reader.expecting, hr]
  | some hl hparams hlen hr =>
    rw [List.foldl_cons, hopen _ hl, List.foldl_append, parameters_read hparams owner r hlen,
      List.foldl_cons, List.foldl_nil, Reader.offer.eq_def]
    simp only [Reader.expecting, hr]

theorem functionRead {params : List Token} (hn : name.kind = .identifier)
    (hp : ParameterList wp params) (h : BlockRead wb trees) :
    FunctionRead (name :: (wp ++ wb)) ⟨name, params, trees⟩ := by
  obtain ⟨lbrace, w, rbrace, rfl, hl, h, hr⟩ := h
  refine ⟨name, _, rfl, hn, ?_⟩
  intro r owner
  have hfirst : r.offerFunctionName owner name = r.expecting (.parametersOpen owner name) := by
    rw [Reader.offerFunctionName, hn]
  have hopen : (r.expecting (.functionBodyOpen owner name params.toArray)).offer lbrace
      = r.opening (.body owner name params.toArray #[]) .declaration := by
    rw [Reader.offer.eq_def]
    simp only [Reader.expecting, Reader.opening, hl]
  obtain ⟨hsettled, hsame, hfailures, hprogram, hlisted⟩ :=
    h (r.opening (.body owner name params.toArray #[]) .declaration) rfl
  rw [hfirst, List.foldl_append, parameterList_read hp, List.foldl_cons, hopen, List.foldl_append,
    List.foldl_cons, List.foldl_nil, offer_settled hsettled (by rw [hr]; decide)]
  generalize w.foldl Reader.offer (r.opening (.body owner name params.toArray #[]) .declaration) = r₁
    at hsettled hsame hfailures hprogram hlisted ⊢
  replace hprogram := hprogram (List.cons_ne_nil _ _)
  generalize settle r₁ = r₂ at hsame hfailures hprogram hlisted ⊢
  obtain ⟨expect, contexts, program, ledger⟩ := r₂
  rw [Reader.offerDeclaration.eq_def, hr]
  cases hsame with
  | body =>
    refine ⟨_, ⟨expect, r.contexts, program, ledger⟩, ⟨rfl, hprogram, hfailures⟩, ?_, rfl⟩
    rintro ⟨hfor, helse⟩
    rw [Stmt.ElseInnermostFunction] at helse
    have hforBody : ForFree w :=
      (forFree_append.mp (forFree_cons.mp (forFree_append.mp (forFree_cons.mp hfor).2).2).2).1
    rw [List.toList_toArray]
    exact .mk name params (hlisted ⟨hforBody, helse⟩)

theorem declarationRead_function (hk : keyword.kind = .kwFun) (h : FunctionRead w decl) :
    DeclarationRead (keyword :: w) (.function decl) := by
  obtain ⟨t, w', rfl, ht, hread⟩ := h
  refine ⟨keyword, t :: w', rfl, by rw [hk]; decide, ?_⟩
  intro r _
  have hfirst : r.offerDeclaration keyword = r.expecting (.functionName .function) := by
    rw [Reader.offerDeclaration.eq_def, hk]
  obtain ⟨decl', r', hbeside, htree, hfold⟩ :=
    hread (r.expecting (.functionName .function)) .function
  rw [hfirst, List.foldl_cons, Reader.offer.eq_def]
  simp only [Reader.expecting] at hfold ⊢
  rw [hfold]
  refine completes_finished ⟨hbeside.contexts, hbeside.program, hbeside.failures⟩ ?_
  rintro ⟨hfor, helse⟩
  rw [Stmt.ElseInnermost] at helse
  exact .function (htree ⟨(forFree_cons.mp hfor).2, helse⟩)

theorem FunctionsRead.nil : FunctionsRead [] [] :=
  fun r _ => ⟨#[], r, ⟨rfl, rfl, rfl⟩, fun _ => rfl, rfl⟩

theorem FunctionsRead.snoc (h : FunctionsRead w decls) (h' : FunctionRead w' decl) :
    FunctionsRead (w ++ w') (decls ++ [decl]) := by
  intro r head
  obtain ⟨methods, r₁, hbeside₁, htrees, hfold₁⟩ := h r head
  obtain ⟨t, v, rfl, ht, hread⟩ := h'
  obtain ⟨decl', r₂, hbeside₂, htree, hfold₂⟩ :=
    hread (r₁.expecting (.member head methods)) (.method head methods)
  refine ⟨methods.push decl', r₂, ⟨?_, ?_, ?_⟩, ?_, ?_⟩
  · exact hbeside₂.contexts.trans hbeside₁.contexts
  · exact hbeside₂.program.trans hbeside₁.program
  · exact hbeside₂.failures.trans hbeside₁.failures
  · rintro ⟨hfor, helse⟩
    obtain ⟨hfor₁, hfor₂⟩ := forFree_append.mp hfor
    obtain ⟨helse₁, helse₂⟩ := (Stmt.elseInnermostMethods_append _ _).mp helse
    rw [Array.toList_push]
    exact (htrees ⟨hfor₁, helse₁⟩).snoc (htree ⟨hfor₂, helse₂.1⟩)
  · have hfirst : (r₁.expecting (.member head methods)).offer t
        = (r₁.expecting (.member head methods)).offerFunctionName (.method head methods) t := by
      rw [Reader.offer.eq_def]
      simp only [Reader.expecting, ht]
    rw [List.foldl_append, hfold₁, List.foldl_cons, hfirst, hfold₂]
    rfl

/-- The head of a class is read up to its methods. -/
theorem classHead_read {parent : Option Occurrence} (hn : name.kind = .identifier)
    (hs : Superclass ws parent) (hl : lbrace.kind = .leftBrace) (r : Reader) :
    ∃ parent' r', Beside r r' ∧ parent'.map Occurrence.name = parent.map Occurrence.name
      ∧ (name :: (ws ++ [lbrace])).foldl Reader.offer (r.expecting .className)
        = r'.expecting (.member ⟨name, parent'⟩ #[]) := by
  have hname : (r.expecting .className).offer name = r.expecting (.superclass name) := by
    rw [Reader.offer.eq_def]
    simp only [Reader.expecting, hn]
  rw [List.foldl_cons, hname]
  cases hs with
  | none =>
    refine ⟨none, r, ⟨rfl, rfl, rfl⟩, rfl, ?_⟩
    rw [List.nil_append, List.foldl_cons, List.foldl_nil, Reader.offer.eq_def]
    simp only [Reader.expecting, hl]
  | @some less parent _ hless hparent =>
    have hoffer : (r.expecting (.superclass name)).offer less = r.expecting (.superclassName name) := by
      rw [Reader.offer.eq_def]
      simp only [Reader.expecting, hless]
    have hoffer' : (r.expecting (.superclassName name)).offer parent
        = { r with
            expect := .classBodyOpen ⟨name, some (r.ledger.number parent).1⟩
            ledger := (r.ledger.number parent).2 } := by
      rw [Reader.offer.eq_def]
      simp only [Reader.expecting, hparent]
    refine ⟨some (r.ledger.number parent).1, { r with ledger := (r.ledger.number parent).2 },
      ⟨rfl, rfl, rfl⟩, rfl, ?_⟩
    rw [List.cons_append, List.cons_append, List.foldl_cons, hoffer, List.foldl_cons, hoffer',
      List.nil_append, List.foldl_cons, List.foldl_nil, Reader.offer.eq_def]
    simp only [hl]
    rfl

theorem declarationRead_class {parent : Option Occurrence} (hk : keyword.kind = .kwClass)
    (hn : name.kind = .identifier) (hs : Superclass ws parent) (hl : lbrace.kind = .leftBrace)
    (h : FunctionsRead w decls) (hr : rbrace.kind = .rightBrace) :
    DeclarationRead (keyword :: name :: (ws ++ lbrace :: (w ++ [rbrace])))
      (.class name parent decls) := by
  refine ⟨keyword, _, rfl, by rw [hk]; decide, ?_⟩
  intro r _
  have hfirst : r.offerDeclaration keyword = r.expecting .className := by
    rw [Reader.offerDeclaration.eq_def, hk]
  obtain ⟨parent', r₁, hbeside₁, hparent, hfold₁⟩ := classHead_read hn hs hl r
  obtain ⟨methods, r₂, hbeside₂, htrees, hfold₂⟩ := h r₁ ⟨name, parent'⟩
  have hclose : (r₂.expecting (.member ⟨name, parent'⟩ methods)).offer rbrace
      = r₂.expecting (.finished (.class name parent' methods.toList)) := by
    rw [Reader.offer.eq_def]
    simp only [Reader.expecting, hr]
  have hsplit : name :: (ws ++ lbrace :: (w ++ [rbrace]))
      = name :: (ws ++ [lbrace]) ++ (w ++ [rbrace]) := by simp
  rw [hfirst, hsplit, List.foldl_append, hfold₁, List.foldl_append, hfold₂, List.foldl_cons,
    List.foldl_nil, hclose]
  refine completes_finished ⟨?_, ?_, ?_⟩ ?_
  · exact hbeside₂.contexts.trans hbeside₁.contexts
  · exact hbeside₂.program.trans hbeside₁.program
  · exact hbeside₂.failures.trans hbeside₁.failures
  · rintro ⟨hfor, helse⟩
    rw [Stmt.ElseInnermost] at helse
    have hforBody : ForFree w := (forFree_append.mp (forFree_append.mp (forFree_cons.mp hfor).2).2).1
    exact .class name hparent (htrees ⟨hforBody, helse⟩)

end Declarations

/-! ## §7. Every derivation is read. -/

mutual

theorem Declaration.read : ∀ {w : List Token} {s : Stmt}, Declaration w s → DeclarationRead w s
  | _, _, .classDecl hk hn hs hl hm hr => declarationRead_class hk hn hs hl hm.read hr
  | _, _, .funDecl hk h => declarationRead_function hk h.read
  | _, _, .varDecl h => declarationRead_var h
  | _, _, .statement h => h.read.declaration

theorem Declarations.read : ∀ {w : List Token} {ss : List Stmt}, Declarations w ss →
    DeclarationsRead w ss
  | _, _, .nil => .nil
  | _, _, .snoc h h' => h.read.snoc h'.read

theorem Block.read : ∀ {w : List Token} {ss : List Stmt}, Block w ss → BlockRead w ss
  | _, _, .mk hl h hr => ⟨_, _, _, rfl, hl, h.read, hr⟩

theorem Function.read : ∀ {w : List Token} {d : FunctionDecl Stmt}, Function w d → FunctionRead w d
  | _, _, .mk hn hp h => functionRead hn hp h.read

theorem Functions.read : ∀ {w : List Token} {ds : List (FunctionDecl Stmt)}, Functions w ds →
    FunctionsRead w ds
  | _, _, .nil => .nil
  | _, _, .snoc h h' => h.read.snoc h'.read

/-- **Every statement is read**, whatever its `else`s belong to. -/
theorem Statement.read : ∀ {w : List Token} {s : Stmt}, Statement w s → StatementRead w s
  | _, _, .exprStmt h => statementRead_expression h
  | _, _, .forStmt hk hl hi hc hs hn hr hbody =>
    statementRead_for hk hl hi hc hs hn hr hbody.read _
  | _, _, .ifStmt hk hl hc hr hthen => statementRead_if hk hl hc hr hthen.read
  | _, _, .ifElse hk hl hc hr hthen hk' helse =>
    statementRead_ifElse hk hl hc hr hthen.read hk' helse.read
  | _, _, .printStmt hk he hs => statementRead_print hk he hs
  | _, _, .returnStmt hk hv hs => statementRead_return hk hv hs
  | _, _, .whileStmt hk hl hc hr hbody => statementRead_while hk hl hc hr hbody.read
  | _, _, .block h => statementRead_block h.read

end

/-- Before the end of the input every token is offered. -/
theorem readAll_append (r : Reader) {ts : List Token} (rest : List Token)
    (hts : ∀ t ∈ ts, t.kind ≠ .eof) :
    r.readAll (ts ++ rest) = (ts.foldl Reader.offer r).readAll rest := by
  induction ts generalizing r with
  | nil => rfl
  | cons t ts ih =>
    rw [List.cons_append, Reader.readAll, if_neg (hts t List.mem_cons_self), List.foldl_cons]
    exact ih (r.offer t) fun t' ht' => hts t' (List.mem_cons_of_mem t ht')

/-- At the end of the input a reader finishes. -/
theorem readAll_eof (r : Reader) {eof : Token} (rest : List Token) (heof : eof.kind = .eof) :
    r.readAll (eof :: rest) = r.finish eof := by
  rw [Reader.readAll, if_pos heof]

theorem offerEof_settled {r : Reader} {eof : Token} (h : Settled r) : r.offerEof eof = settle r := by
  unfold Settled at h
  unfold Reader.offerEof settle
  split at h
  · next hx => rw [hx]
  · next hx => rw [hx]
  · cases h

/-- Where a declaration can follow and nothing is open, the input can end. -/
theorem finish_settled {r : Reader} {eof : Token} (h : Settled r)
    (hcs : SameTop [] (settle r).contexts) : r.finish eof = settle r := by
  unfold Reader.finish
  rw [offerEof_settled h]
  generalize hr : settle r = r' at hcs ⊢
  obtain ⟨expect, contexts, program, ledger⟩ := r'
  dsimp only at hcs
  cases hcs with
  | nil => rfl

/-- Declarations are read up to the end of the input. -/
theorem Declarations.readAll {ts : List Token} {ss : List Stmt} (h : Declarations ts ss)
    {eof : Token} (heof : eof.kind = .eof) (hts : ∀ t ∈ ts, t.kind ≠ .eof) (firstId : Nat) :
    Lists (.start firstId) ss (ForFree ts ∧ Stmt.ElseInnermostAll ss)
        (ts.foldl Reader.offer (.start firstId))
      ∧ (Reader.start firstId).readAll (ts ++ [eof])
        = settle (ts.foldl Reader.offer (.start firstId)) := by
  have hlists := h.read (Reader.start firstId) rfl
  refine ⟨hlists, ?_⟩
  rw [readAll_append _ _ hts, readAll_eof _ _ heof]
  exact finish_settled hlists.settled hlists.same

theorem Declarations.accepted {ts : List Token} {ss : List Stmt} (h : Declarations ts ss)
    {eof : Token} (heof : eof.kind = .eof) (hts : ∀ t ∈ ts, t.kind ≠ .eof) (firstId : Nat) :
    (program firstId (ts ++ [eof])).failures = [] := by
  obtain ⟨hlists, hread⟩ := h.readAll heof hts firstId
  show ((Reader.start firstId).readAll (ts ++ [eof])).ledger.failures.toList = []
  rw [hread, hlists.failures]
  rfl

/-- **What is read is the tree of the derivation**, up to numbers, if every
`else` of the tree belongs to the innermost `if`. -/
theorem Declarations.statements_alike {ts : List Token} {ss : List Stmt} (h : Declarations ts ss)
    {eof : Token} (heof : eof.kind = .eof) (hts : ∀ t ∈ ts, t.kind ≠ .eof) (firstId : Nat)
    (hfor : ForFree ts) (helse : Stmt.ElseInnermostAll ss) :
    Stmt.AlikeAll (program firstId (ts ++ [eof])).statements ss := by
  obtain ⟨hlists, hread⟩ := h.readAll heof hts firstId
  have hsame := hlists.same
  have hlisted := hlists.listed ⟨hfor, helse⟩
  show Stmt.AlikeAll ((Reader.start firstId).readAll (ts ++ [eof])).program.toList ss
  rw [hread]
  generalize settle (ts.foldl Reader.offer (.start firstId)) = r at hsame hlisted ⊢
  obtain ⟨expect, contexts, statements, ledger⟩ := r
  -- at the end of the input no block is open
  cases hsame with
  | nil => exact hlisted

theorem Takes.loneExpressionFrom {w rest : List Token} {p p' : Partial} {l l' : Ledger}
    (h : Takes p l w p' l') :
    loneExpressionFrom p l (w ++ rest) = loneExpressionFrom p' l' rest := by
  induction h with
  | nil => rfl
  | cons hoffer _ _ ih =>
    rw [List.cons_append, Parse.loneExpressionFrom, hoffer]
    exact ih

theorem Derives.accepted {ts : List Token} {e : Expr} (h : Derives .expression ts e) {eof : Token}
    (heof : eof.kind = .eof) (firstId : Nat) :
    (loneExpression firstId (ts ++ [eof])).failures = [] := by
  obtain ⟨extra, e', l', htakes, hcloses, -⟩ := h.taken [] ⟨firstId, #[]⟩ (Nat.le_refl 0)
  have hfailures := htakes.failures_eq
  rw [List.append_nil] at htakes
  have hwhole := offer_whole (t := eof) e' l' hcloses (by rw [heof]; rfl)
  show (Parse.loneExpressionFrom ⟨[], .operand⟩ ⟨firstId, #[]⟩ (ts ++ [eof])).failures = []
  rw [htakes.loneExpressionFrom, Parse.loneExpressionFrom, hwhole]
  simp only [heof]
  rw [hfailures]

/-! ## §8. Exactly the grammar. -/

/-- The derivation of an input is one of the tokens before its end. -/
theorem declarations_of_program {ts : List Token} {eof : Token} {ss : List Stmt}
    (h : Program (ts ++ [eof]) ss) : Declarations ts ss := by
  generalize hv : ts ++ [eof] = v at h
  cases h with
  | mk hd _ =>
    have hts := List.append_inj_left' hv rfl
    rw [hts]
    exact hd

theorem derives_of_loneExpression {ts : List Token} {eof : Token} {e : Expr}
    (h : LoneExpression (ts ++ [eof]) e) : Derives .expression ts e := by
  generalize hv : ts ++ [eof] = v at h
  cases h with
  | mk hd _ =>
    have hts := List.append_inj_left' hv rfl
    rw [hts]
    exact hd

/-- **Reading accepts exactly the grammar.**  Tokens that end in their only
end of input are read as a program without a failure if and only if they are
derived as one, and likewise as a lone expression. -/
theorem accepts_iff_derives (firstId : Nat) (ts : List Token) (eof : Token)
    (heof : eof.kind = .eof) (hts : ∀ t ∈ ts, t.kind ≠ .eof) :
    ((Parse.program firstId (ts ++ [eof])).failures = [] ↔ ∃ ss, Program (ts ++ [eof]) ss)
      ∧ ((Parse.loneExpression firstId (ts ++ [eof])).failures = []
          ↔ ∃ e, LoneExpression (ts ++ [eof]) e) := by
  refine ⟨⟨?_, ?_⟩, ⟨?_, ?_⟩⟩
  · intro h
    exact ⟨_, derives_program heof hts h⟩
  · rintro ⟨ss, h⟩
    exact (declarations_of_program h).accepted heof hts firstId
  · intro h
    obtain ⟨e, -, he⟩ := derives_loneExpression heof hts h
    exact ⟨e, he⟩
  · rintro ⟨e, h⟩
    exact (derives_of_loneExpression h).accepted heof firstId

/-- `print nil;` is a program, and `print;` is none. -/
theorem accepts_iff_derives_print :
    (∃ ss, Program ([⟨.kwPrint, "print", 1⟩, ⟨.kwNil, "nil", 1⟩, ⟨.semicolon, ";", 1⟩]
        ++ [⟨.eof, "", 1⟩]) ss)
      ∧ ¬ ∃ ss, Program ([⟨.kwPrint, "print", 1⟩, ⟨.semicolon, ";", 1⟩] ++ [⟨.eof, "", 1⟩]) ss := by
  refine ⟨(accepts_iff_derives 0 _ _ rfl (by decide)).1.mp rfl, ?_⟩
  intro h
  exact List.cons_ne_nil _ _ ((accepts_iff_derives 0 _ _ rfl (by decide)).1.mpr h)

end Lox.Grammar
