/-
  Lox.Proofs.Grammar.Outlines
  ───────────────────────────
  **AN OUTLINE DETERMINES ITS PROGRAM.**

  Scanned tokens are legible if none of them is a string or an infinite
  number.  A program that is read from such tokens without a failure is found
  again from its outline, up to what an outline does not show: the lines of
  tokens and the numbers of occurrences (`outlines_determine`).
-/
import Lox.Proofs.Syntax.Reread
import Lox.Proofs.Token.Scan
import Lox.Source
import Mathlib.Data.Set.Function

namespace Lox

/-! ## §1. Scanned tokens. -/

/-- A token that is no string and no infinite number. -/
structure Token.Outlinable (t : Token) : Prop where
  string : ∀ s, t.kind ≠ .string s
  finite : ∀ x, t.kind = .number x → ∀ negative, Decimal.Binary64.ofFloat x ≠ .infinity negative

/-- A number in a text is plain, unless it is infinite. -/
theorem plain_of_lexeme {x : Float} {cs : List Char} (h : Lexeme (.number x) cs)
    (hx : Decimal.Binary64.ofFloat x ≠ .infinity false) : Decimal.Plain x := by
  generalize hkind : TokenKind.number x = kind at h
  cases h with
  | symbol hmem =>
    have hall : ∀ p ∈ symbols, ∀ y, p.2 ≠ .number y := by simp [symbols]
    exact absurd hkind.symm (hall _ hmem x)
  | @word c cs _ _ =>
    have hall : ∀ p ∈ TokenKind.keywords, ∀ y, p.2 ≠ .number y := by simp [TokenKind.keywords]
    unfold TokenKind.ofWord at hkind
    cases hlookup : TokenKind.keywords.lookup (String.ofList (c :: cs)) with
    | none =>
      rw [hlookup] at hkind
      cases hkind
    | some k =>
      rw [hlookup] at hkind
      exact absurd hkind.symm (hall _ (mem_of_lookup hlookup) x)
  | string => cases hkind
  | whole =>
    obtain rfl := TokenKind.number.inj hkind
    exact Decimal.toFloat_plain hx
  | fraction =>
    obtain rfl := TokenKind.number.inj hkind
    exact Decimal.toFloat_plain hx

theorem Token.Outlinable.legible {t : Token} (h : t.Outlinable)
    (hlexeme : Lexeme t.kind t.lexeme.toList) : t.Legible := by
  obtain ⟨kind, lexeme, line⟩ := t
  refine ⟨?_, hlexeme⟩
  cases kind with
  | string s => exact h.string s rfl
  | number x => exact plain_of_lexeme hlexeme (h.finite x rfl false)
  | _ => trivial

/-- **The tokens of a text are legible**, all but the end of the input. -/
theorem legible_of_source {source : String}
    (h : ∀ t ∈ (Scanned.ofSource source).tokens, t.Outlinable) :
    ∃ ts eof, (Scanned.ofSource source).tokens = ts ++ [eof] ∧ eof.kind = .eof
      ∧ (∀ t ∈ ts, t.kind ≠ .eof) ∧ AllLegible ts := by
  rw [ofSource_tokens] at h ⊢
  have hpiece : ∀ t ∈ (itemsOf 1 (pieces source.toList)).filterMap Item.token?,
      .token t.kind t.lexeme.toList ∈ pieces source.toList :=
    fun t ht => piece_of_item (Item.mem_filterMap_token.mp ht)
  refine ⟨_, _, rfl, rfl, fun t ht => (pieces_spelled _ _ (hpiece t ht)).1, fun t ht => ?_⟩
  exact (h t (List.mem_append_left _ ht)).legible (lexeme_of_mem_pieces (hpiece t ht))

/-! ## §2. Programs. -/

/-- The tree of a program that is read without a failure. -/
theorem legible_of_program {source : String} {n : Nat}
    (htokens : ∀ t ∈ (Scanned.ofSource source).tokens, t.Outlinable)
    (h : (Parse.program n (Scanned.ofSource source).tokens).failures = []) :
    Stmt.ShapedAll (Parse.program n (Scanned.ofSource source).tokens).statements
      ∧ LegibleAll
        (Stmt.flattenAll (Parse.program n (Scanned.ofSource source).tokens).statements) := by
  obtain ⟨ts, eof, hts, heof, hnone, hlegible⟩ := legible_of_source htokens
  rw [hts] at h ⊢
  exact (Grammar.declarations_of_program (Grammar.derives_program heof hnone h)).legible hlegible

/-- Outlines are texts of lists that can be read. -/
theorem nestAll_of_outlines : ∀ {ss ss' : List Stmt}, Stmt.ShapedAll ss →
    LegibleAll (Stmt.flattenAll ss) → Stmt.ShapedAll ss' → LegibleAll (Stmt.flattenAll ss') →
    ss.map Stmt.outline = ss'.map Stmt.outline → Stmt.nestAll ss = Stmt.nestAll ss'
  | [], [], _, _, _, _, _ => rfl
  | s :: ss, s' :: ss', hs, hm, hs', hm', h => by
    rw [Stmt.flattenAll, legibleAll_append] at hm hm'
    obtain ⟨hfirst, hrest⟩ := List.cons.inj h
    rw [← Stmt.text_nest, ← Stmt.text_nest] at hfirst
    have hnest := Nest.text_injective (Stmt.readable_nest s hs.1 hm.1)
      (Stmt.readable_nest s' hs'.1 hm'.1) hfirst
    rw [Stmt.nestAll, Stmt.nestAll, hnest, nestAll_of_outlines hs.2 hm.2 hs'.2 hm'.2 hrest]

/-- **An outline determines its program.**  If neither of two texts has a string
or an infinite number, both are read without a failure of the grammar, and
their programs have the same outlines, then they are the same program, up to
the lines of tokens and the numbers of occurrences. -/
theorem outlines_determine {source source' : String} {n n' : Nat}
    (htokens : ∀ t ∈ (Scanned.ofSource source).tokens, t.Outlinable)
    (htokens' : ∀ t ∈ (Scanned.ofSource source').tokens, t.Outlinable)
    (h : (Parse.program n (Scanned.ofSource source).tokens).failures = [])
    (h' : (Parse.program n' (Scanned.ofSource source').tokens).failures = [])
    (houtlines : (Parse.program n (Scanned.ofSource source).tokens).statements.map Stmt.outline
      = (Parse.program n' (Scanned.ofSource source').tokens).statements.map Stmt.outline) :
    Stmt.relabelAll .bare (Parse.program n (Scanned.ofSource source).tokens).statements
      = Stmt.relabelAll .bare (Parse.program n' (Scanned.ofSource source').tokens).statements := by
  obtain ⟨hshaped, hmarks⟩ := legible_of_program htokens h
  obtain ⟨hshaped', hmarks'⟩ := legible_of_program htokens' h'
  have hnests := nestAll_of_outlines hshaped hmarks hshaped' hmarks' houtlines
  -- numerals can be read, since no two numbers share one
  have hinjective : Set.InjOn Literal.numberLayout.render {x | Decimal.Plain x} :=
    fun x hx y hy hxy => render_injective hx hy hxy
  have hnumber : ReadsNumerals
      (Function.invFunOn Literal.numberLayout.render {x | Decimal.Plain x}) :=
    fun x hx => hinjective.leftInvOn_invFunOn hx
  rw [← Stmt.map_stmt_nest hnumber _ hshaped hmarks, hnests,
    Stmt.map_stmt_nest hnumber _ hshaped' hmarks']

/-- Whether a token is outlinable, as far as it is computed. -/
def Token.isOutlinable (t : Token) : Bool :=
  match t.kind with
  | .string _ => false
  | .number x =>
      match Decimal.Binary64.ofFloat x with
      | .infinity _ => false
      | _ => true
  | _ => true

theorem Token.outlinable_of_isOutlinable {t : Token} (h : t.isOutlinable = true) :
    t.Outlinable := by
  unfold isOutlinable at h
  constructor
  · intro s hs
    rw [hs] at h
    cases h
  · intro x hx negative hinfinite
    rw [hx] at h
    dsimp only at h
    rw [hinfinite] at h
    cases h

/-- A number with a zero more, and everything on another line. -/
theorem outlines_determine_respaced :
    let source := "fun f(a) \x7b if (a) return; else a.b = -a - 1.50; \x7d"
    let source' := "fun f(a)\n\x7b if (a) return; else a.b = -a - 1.5; \x7d"
    (∀ t ∈ (Scanned.ofSource source).tokens, t.Outlinable)
      ∧ (∀ t ∈ (Scanned.ofSource source').tokens, t.Outlinable)
      ∧ (Parse.program 0 (Scanned.ofSource source).tokens).failures = []
      ∧ (Parse.program 7 (Scanned.ofSource source').tokens).failures = []
      ∧ (Parse.program 0 (Scanned.ofSource source).tokens).statements.map Stmt.outline
        = (Parse.program 7 (Scanned.ofSource source').tokens).statements.map Stmt.outline
      ∧ Stmt.relabelAll .bare (Parse.program 0 (Scanned.ofSource source).tokens).statements
        = Stmt.relabelAll .bare (Parse.program 7 (Scanned.ofSource source').tokens).statements := by
  intro source source'
  have hall : ((Scanned.ofSource source).tokens.all Token.isOutlinable) = true := by
    decide +kernel
  have hall' : ((Scanned.ofSource source').tokens.all Token.isOutlinable) = true := by
    decide +kernel
  have htokens : ∀ t ∈ (Scanned.ofSource source).tokens, t.Outlinable :=
    fun t ht => Token.outlinable_of_isOutlinable (List.all_eq_true.mp hall t ht)
  have htokens' : ∀ t ∈ (Scanned.ofSource source').tokens, t.Outlinable :=
    fun t ht => Token.outlinable_of_isOutlinable (List.all_eq_true.mp hall' t ht)
  have h : (Parse.program 0 (Scanned.ofSource source).tokens).failures = [] := by decide +kernel
  have h' : (Parse.program 7 (Scanned.ofSource source').tokens).failures = [] := by
    decide +kernel
  have houtlines : (Parse.program 0 (Scanned.ofSource source).tokens).statements.map Stmt.outline
      = (Parse.program 7 (Scanned.ofSource source').tokens).statements.map Stmt.outline := by
    decide +kernel
  exact ⟨htokens, htokens', h, h', houtlines, outlines_determine htokens htokens' h h' houtlines⟩

end Lox
