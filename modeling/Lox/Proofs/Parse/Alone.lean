/-
  Lox.Proofs.Parse.Alone
  ──────────────────────
  **AN EXPRESSION ALONE AND IN A STATEMENT.**

  A text can be read as one expression, or as a program.  The two readings
  differ in what they do at the end of an expression, and in nothing before
  it: an expression that ends before the end of the input ends in the same
  way before a semicolon.  So the tree of an expression is also the tree of
  what a `print` statement prints.

  The scope analysis has nothing to say about such a statement at the top
  level, unless the expression mentions `this` or `super`: where no scope is
  open there is no distance to note.

  Main results:
    * `Source.program_print`: the program that prints an expression has the
      tree of the expression, with the same numbers.
    * `Grammar.resolve_print`: the scope analysis of that program finds and
      notes nothing.
-/
import Lox.Proofs.Grammar.Acceptance
import Lox.Proofs.Resolve.Sequel
import Lox.Proofs.Token.Joined
import Lox.Source

namespace Lox

open Parse Grammar

/-! ## §1. The end of an expression. -/

namespace Grammar

/-- What an operand needs is never a whole expression. -/
theorem offerOperand_ne_whole (ps : List Pending) (t : Token) (l l' : Ledger) (e : Expr) :
    offerOperand ps t l ≠ (.whole e, l') := by
  unfold offerOperand
  split <;> exact fun h => nomatch h

theorem offerEnd_whole {ps : List Pending} {e e' : Expr} {t : Token} {l l' : Ledger}
    (h : offerEnd ps e t l = (.whole e', l')) (t' : Token) :
    offerEnd ps e t' l = (.whole e', l') := by
  unfold offerEnd at h ⊢
  split at h
  · split at h <;> cases h
  · split at h <;> cases h
  · exact h

/-- **An expression that is whole before one token** is whole before every
token that can end an operand. -/
theorem offer_whole_congr {p : Partial} {e : Expr} {t t' : Token} {l l' : Ledger}
    (h : p.offer t l = (.whole e, l')) (ht : endsOperand t'.kind) :
    p.offer t' l = (.whole e, l') := by
  obtain ⟨ps, phase⟩ := p
  cases phase with
  | after e₀ =>
    have hend : offerEnd ps e₀ t l = (.whole e, l') := by
      change offerAfter ps e₀ t l = _ at h
      unfold offerAfter at h
      split at h
      case h_5 => exact h
      all_goals cases h
    have hother := offer_end ps e₀ l [] ht
    rw [List.nil_append] at hother
    rw [hother]
    exact offerEnd_whole hend t'
  | operand => exact absurd h (offerOperand_ne_whole _ _ _ _ _)
  | nextArgument => exact absurd h (offerOperand_ne_whole _ _ _ _ _)
  | firstArgument =>
    unfold Partial.offer at h
    dsimp only at h
    split at h
    · cases h
    · exact absurd h (offerOperand_ne_whole _ _ _ _ _)
  | property | superDot | superMethod =>
    unfold Partial.offer at h
    dsimp only at h
    split at h <;> cases h

/-! ## §2. The same tree. -/

/-- **A lone expression takes all its tokens**, and is whole at the end of the
input. -/
theorem takes_of_loneExpression {ts : List Token} {eof : Token} (heof : eof.kind = .eof)
    (hts : ∀ t ∈ ts, t.kind ≠ .eof) {p : Partial} {l : Ledger} {e : Expr}
    (he : (loneExpressionFrom p l (ts ++ [eof])).expression = some e)
    (hfailures : (loneExpressionFrom p l (ts ++ [eof])).failures = []) :
    ∃ p' l' l'', Takes p l ts p' l' ∧ p'.offer eof l' = (.whole e, l'') ∧ Clean l'' := by
  induction ts generalizing p l with
  | nil =>
    rw [List.nil_append, Parse.loneExpressionFrom] at he hfailures
    rcases hoffer : p.offer eof l with ⟨offer, l'⟩
    rw [hoffer] at he hfailures
    cases offer with
    | taken p' => cases he
    | refused fault => cases he
    | whole e' =>
      simp only [heof] at he hfailures
      cases he
      exact ⟨p, l, l', .nil, hoffer, Array.toList_eq_nil_iff.mp hfailures⟩
  | cons t ts ih =>
    have hl : Clean l := clean_of_loneExpressionFrom hfailures
    rw [List.cons_append, Parse.loneExpressionFrom] at he hfailures
    rcases hoffer : p.offer t l with ⟨offer, l'⟩
    rw [hoffer] at he hfailures
    cases offer with
    | taken p' =>
      have hl' : Clean l' := clean_of_loneExpressionFrom hfailures
      obtain ⟨p'', l'', l₃, htakes, hwhole, hclean⟩ :=
        ih (fun t' ht' => hts t' (List.mem_cons_of_mem t ht')) he hfailures
      exact ⟨p'', l'', l₃, .cons hoffer (hl'.trans hl.symm) htakes, hwhole, hclean⟩
    | refused fault => cases he
    | whole e' =>
      dsimp only at he
      split at he
      · next hk => exact absurd hk (hts t List.mem_cons_self)
      · cases he

/-- **The tokens of an expression, printed**: the same tree, the same numbers,
and no failure. -/
theorem print_of_loneExpression {ts : List Token} {keyword semicolon eof eof' : Token} {e : Expr}
    (hkeyword : keyword.kind = .kwPrint) (hsemicolon : semicolon.kind = .semicolon)
    (heof : eof.kind = .eof) (heof' : eof'.kind = .eof) (hts : ∀ t ∈ ts, t.kind ≠ .eof)
    (firstId : Nat) (he : (loneExpression firstId (ts ++ [eof])).expression = some e)
    (hfailures : (loneExpression firstId (ts ++ [eof])).failures = []) :
    (Parse.program firstId (keyword :: ts ++ [semicolon, eof'])).statements = [.print e]
      ∧ (Parse.program firstId (keyword :: ts ++ [semicolon, eof'])).failures = [] := by
  obtain ⟨p, l, l', htakes, hwhole, hclean⟩ := takes_of_loneExpression heof hts he hfailures
  have hsemi : p.offer semicolon l = (.whole e, l') :=
    offer_whole_congr hwhole (by rw [hsemicolon]; rfl)
  have hstart : (Reader.start firstId).offer keyword
      = { Reader.start firstId with expect := .expression .print .empty } := by
    simp only [Reader.offer, Reader.start, Reader.offerDeclaration, Reader.offerStatement,
      hkeyword, Reader.expecting]
  have hread : (keyword :: ts ++ [semicolon]).foldl Reader.offer (.start firstId)
      = { Reader.start firstId with expect := .finished (.print e), ledger := l' } := by
    rw [List.cons_append, List.foldl_cons, List.foldl_append, hstart]
    have hfold := htakes.foldl_offer (Reader.start firstId) .print
    change ts.foldl Reader.offer { Reader.start firstId with expect := .expression .print .empty } = _
      at hfold
    rw [hfold]
    show Reader.offerExpression _ .print p semicolon = _
    rw [Reader.offerExpression]
    dsimp only
    rw [hsemi]
    simp only [Reader.endClause, hsemicolon, Reader.expecting]
  have hnone : ∀ t ∈ keyword :: ts ++ [semicolon], t.kind ≠ .eof := by
    intro t ht
    rw [List.mem_append, List.mem_cons, List.mem_singleton] at ht
    rcases ht with (rfl | ht) | rfl
    · simp [hkeyword]
    · exact hts t ht
    · simp [hsemicolon]
  have hall : (Reader.start firstId).readAll (keyword :: ts ++ [semicolon, eof'])
      = { Reader.start firstId with program := #[.print e], ledger := l' } := by
    have hlist : keyword :: ts ++ [semicolon, eof'] = (keyword :: ts ++ [semicolon]) ++ [eof'] := by
      rw [List.append_assoc]
      rfl
    rw [hlist, readAll_append _ _ hnone, readAll_eof _ _ heof', hread]
    rfl
  unfold Parse.program
  rw [hall]
  exact ⟨rfl, congrArg Array.toList hclean⟩

/-! ## §3. Nothing to resolve. -/

/-- A walk at the top level: no scope is open, and no global waits for its
value. -/
structure TopLevel (w : Resolve.Walk) : Prop where
  scopes : w.scopes = []
  globals : ∀ name, w.globals.get? name ≠ some false

theorem TopLevel.locate {w : Resolve.Walk} (h : TopLevel w) (o : Occurrence) : w.locate o = w := by
  unfold Resolve.Walk.locate
  rw [h.scopes]
  rfl

theorem TopLevel.use {w : Resolve.Walk} (h : TopLevel w) (o : Occurrence) : w.use o = w := by
  have hchecked : w.checkInitialized o.name = w := by
    unfold Resolve.Walk.checkInitialized
    rw [h.scopes]
    dsimp only
    rw [Resolve.Walk.reportIf, if_neg]
    exact fun hname => h.globals o.name.lexeme (beq_iff_eq.mp hname)
  rw [Resolve.Walk.use, hchecked]
  exact h.locate o

theorem exprs_append (role : Resolve.ClassRole) (w : Resolve.Walk) (es es' : List Expr) :
    w.exprs role (es ++ es') = (w.exprs role es).exprs role es' := by
  induction es generalizing w with
  | nil => rfl
  | cons e es ih => exact ih _

theorem expr_node (role : Resolve.ClassRole) (w : Resolve.Walk) (level : Level) (left right : Expr)
    (operator : Token) :
    w.expr role (level.node left operator right) = (w.expr role left).expr role right := by
  cases level <;> rfl

/-- Tokens without `this` and `super`. -/
def Selfless (ts : List Token) : Prop :=
  ∀ t ∈ ts, t.kind ≠ .kwThis ∧ t.kind ≠ .kwSuper

theorem selfless_append {w w' : List Token} : Selfless (w ++ w') ↔ Selfless w ∧ Selfless w' :=
  List.forall_mem_append

theorem selfless_cons {t : Token} {w : List Token} :
    Selfless (t :: w) ↔ (t.kind ≠ .kwThis ∧ t.kind ≠ .kwSuper) ∧ Selfless w :=
  List.forall_mem_cons

mutual

/-- **Nothing is resolved at the top level**, and nothing is wrong there, in an
expression without `this` and `super`. -/
theorem Derives.walk {w : Resolve.Walk} (hw : TopLevel w) (role : Resolve.ClassRole) :
    ∀ {nt : Nonterminal} {ts : List Token} {e : Expr}, Derives nt ts e → Selfless ts →
      w.expr role e = w
  | _, _, _, .expression h, hts => h.walk hw role hts
  | _, _, _, .assign id _ _ h, hts => by
    rw [Resolve.Walk.expr, h.walk hw role (selfless_cons.mp (selfless_cons.mp hts).2).2]
    exact hw.locate _
  | _, _, _, .set ho _ _ _ h, hts => by
    obtain ⟨hobject, hrest⟩ := selfless_append.mp hts
    have hvalue := (selfless_cons.mp (selfless_cons.mp (selfless_cons.mp hrest).2).2).2
    rw [Resolve.Walk.expr, h.walk hw role hvalue]
    exact ho.walk hw role hobject
  | _, _, _, .logic h, hts => h.walk hw role hts
  | _, _, _, .operand h, hts => h.walk hw role hts
  | _, _, _, .chain hl _ hr, hts => by
    obtain ⟨hleft, hrest⟩ := selfless_append.mp hts
    rw [expr_node, hl.walk hw role hleft]
    exact hr.walk hw role (selfless_cons.mp hrest).2
  | _, _, _, .unary _ h, hts => h.walk hw role (selfless_cons.mp hts).2
  | _, _, _, .noUnary h, hts => h.walk hw role hts
  | _, _, _, .primary h, hts => h.walk hw role hts
  | _, _, _, .callEmpty h _ _, hts => h.walk hw role (selfless_append.mp hts).1
  | _, _, _, .call h _ ha _ _, hts => by
    obtain ⟨hcallee, hrest⟩ := selfless_append.mp hts
    have harguments := (selfless_append.mp (selfless_cons.mp hrest).2).1
    rw [Resolve.Walk.expr, h.walk hw role hcallee]
    exact ha.walk hw role harguments
  | _, _, _, .get h _ _, hts => h.walk hw role (selfless_append.mp hts).1
  | _, _, _, .number _, _ | _, _, _, .string _, _ | _, _, _, .true _, _ | _, _, _, .false _, _
  | _, _, _, .nil _, _ => rfl
  | _, _, _, .this _ hk, hts => absurd hk (selfless_cons.mp hts).1.1
  | _, _, _, .name _ _, _ => hw.use _
  | _, _, _, .group _ h _, hts =>
    h.walk hw role (selfless_append.mp (selfless_cons.mp hts).2).1
  | _, _, _, .super _ hk _ _, hts => absurd hk (selfless_cons.mp hts).1.2

theorem Arguments.walk {w : Resolve.Walk} (hw : TopLevel w) (role : Resolve.ClassRole) :
    ∀ {ts : List Token} {es : List Expr}, Arguments ts es → Selfless ts → w.exprs role es = w
  | _, _, .one h, hts => h.walk hw role hts
  | _, _, .more hs _ h, hts => by
    obtain ⟨hearlier, hrest⟩ := selfless_append.mp hts
    rw [exprs_append, hs.walk hw role hearlier]
    exact h.walk hw role (selfless_cons.mp hrest).2

end

/-- **A `print` statement at the top level has nothing to resolve.** -/
theorem resolve_print {ts : List Token} {e : Expr} (h : Derives .expression ts e)
    (hts : Selfless ts) (globals : List String) :
    Resolve.program globals [.print e] = ⟨[], []⟩ := by
  have hstart : TopLevel ⟨[], globals.map (·, true), #[], #[]⟩ :=
    ⟨rfl, Resolve.get?_map_true globals⟩
  have hwalk := h.walk hstart Resolve.Surroundings.topLevel.classRole hts
  unfold Resolve.program
  dsimp only
  rw [Resolve.Walk.stmts, Resolve.Walk.stmt, hwalk]
  rfl

end Grammar

/-! ## §4. Texts. -/

namespace Source

/-- The text of a statement that prints an expression.  The line end stands
after a comment that the expression may end with. -/
def printing (source : String) : String :=
  "print " ++ source ++ "\n;"

/-- A text that is one expression, without a failure. -/
structure IsExpression (source : String) (e : Expr) : Prop where
  tree : (expression source).expression = some e
  failures : (expression source).failures = []

variable {source : String} {e : Expr}

theorem IsExpression.derives (h : IsExpression source e) :
    ∃ ts eof, (Scanned.ofSource source).tokens = ts ++ [eof] ∧ Derives .expression ts e := by
  obtain ⟨ts, eof, htokens, heof, hts, -⟩ := tokens_of_source source
  obtain ⟨-, hparsed⟩ := List.append_eq_nil_iff.mp h.failures
  have htree := h.tree
  change (loneExpression 0 (Scanned.ofSource source).tokens).expression = some e at htree
  change (loneExpression 0 (Scanned.ofSource source).tokens).failures = [] at hparsed
  rw [htokens] at htree hparsed
  obtain ⟨e', he', hderives⟩ := derives_loneExpression heof hts hparsed
  obtain rfl : e = e' := Option.some.inj (htree.symm.trans he')
  exact ⟨ts, eof, htokens, derives_of_loneExpression hderives⟩

/-- The tokens of a printed expression are the keyword, those of the
expression on their lines, and a semicolon. -/
theorem tokens_printing (h : (Scanned.ofSource source).failures = []) :
    ∃ ts eof semicolon eof', (Scanned.ofSource source).tokens = ts ++ [eof] ∧ eof.kind = .eof
      ∧ (∀ t ∈ ts, t.kind ≠ .eof) ∧ semicolon.kind = .semicolon ∧ eof'.kind = .eof
      ∧ (Scanned.ofSource (printing source)).tokens
        = ⟨.kwPrint, "print", 1⟩ :: ts ++ [semicolon, eof']
      ∧ (Scanned.ofSource (printing source)).failures = [] := by
  have hlexeme : Lexeme .kwPrint "print".toList :=
    @Lexeme.word 'p' ['r', 'i', 'n', 't'] (by decide) (List.all_eq_true.mp (by decide))
  obtain ⟨htokens, hfailures⟩ := ofSource_lexeme hlexeme (by simp) source
  have hsecond : (Scanned.ofSource ";").failures = [] := by decide +kernel
  have hsemicolon : (Scanned.ofSource ";").tokens = [⟨.semicolon, ";", 1⟩, ⟨.eof, "", 1⟩] := by
    decide +kernel
  obtain ⟨ts', eof, k, hfirst, heof, hts', hall, hnone⟩ :=
    ofSource_newline ("print" ++ " " ++ source) ";" (hfailures.trans h) hsecond
  have htext : "print" ++ " " ++ source ++ "\n" ++ ";" = printing source := by
    rw [String.append_assoc]
    rfl
  rw [htext] at hall hnone
  rw [htokens] at hfirst
  cases ts' with
  | nil =>
    -- the keyword is not the end of the input
    obtain ⟨rfl, -⟩ := List.cons.inj hfirst
    cases heof
  | cons keyword ts =>
    obtain ⟨hkeyword, hsource⟩ := List.cons.inj hfirst
    refine ⟨ts, eof, Token.reline (· + k) ⟨.semicolon, ";", 1⟩, Token.reline (· + k) ⟨.eof, "", 1⟩,
      hsource, heof, ?_, rfl, rfl, ?_, hnone⟩
    · exact fun t ht => hts' t (List.mem_cons_of_mem keyword ht)
    · rw [hall, hsemicolon, ← hkeyword]
      rfl

/-- **A printed expression has the tree of the expression.** -/
theorem program_print (h : IsExpression source e) :
    (Source.program 0 (printing source)).statements = [.print e]
      ∧ (Source.program 0 (printing source)).failures = [] := by
  obtain ⟨hscanned, hparsed⟩ := List.append_eq_nil_iff.mp h.failures
  obtain ⟨ts, eof, semicolon, eof', htokens, heof, hts, hsemicolon, heof', hall, hnone⟩ :=
    tokens_printing hscanned
  have htree := h.tree
  change (loneExpression 0 (Scanned.ofSource source).tokens).expression = some e at htree
  change (loneExpression 0 (Scanned.ofSource source).tokens).failures = [] at hparsed
  rw [htokens] at htree hparsed
  have hkeyword : Token.kind ⟨.kwPrint, "print", 1⟩ = .kwPrint := rfl
  obtain ⟨hstatements, hfailures⟩ :=
    print_of_loneExpression hkeyword hsemicolon heof heof' hts 0 htree hparsed
  unfold Source.program
  dsimp only
  rw [hall, hnone]
  exact ⟨hstatements, hfailures⟩

end Source

end Lox
