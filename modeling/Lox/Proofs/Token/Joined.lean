/-
  Lox.Proofs.Token.Joined
  ───────────────────────
  **TEXTS PUT TOGETHER.**

  A text is often made of parts: of lines that came one after another, or of
  lexemes that are written out again.  Where a line ends, and between two
  lexemes with a blank between them, a scanner is where it would be at the
  start of a text: the last piece before the seam is whole, and the blank is
  no part of it.

  Main results:
    * `scan_lines_joined`: a text after a line end is scanned as if it stood
      alone, further down.
    * `ofSource_lexeme`: a lexeme and a blank in front of a text are one token more.
    * `scan_spaced`: the lexemes of a text, written with single blanks between
      them, are its tokens again.
-/
import Lox.Proofs.Token.Lines

namespace Lox

/-! ## §1. Line after line. -/

theorem not_unterminated_of_scan {source : String}
    (h : ∀ line, Item.failure (.lexical line .unterminated) ∉ scan source) :
    ∀ p ∈ pieces source.toList, ∀ chars, p ≠ .unterminated chars := by
  rintro p hp chars rfl
  obtain ⟨line, hline⟩ := failure_of_unterminated 1 hp
  refine h line ?_
  rw [scan_eq]
  exact List.mem_append_left _ hline

/-- **Scanning goes line by line.**  If no string of the first text is left open, the
first text, a line end and the second one yield what the first one yields up to its end,
then what the second one yields, with one line more for each line end before it. -/
theorem scan_lines_joined (first second : String)
    (h : ∀ line, Item.failure (.lexical line .unterminated) ∉ scan first) :
    ∃ items, scan first = items ++ [.token ⟨.eof, "", 1 + first.toList.count '\n'⟩]
      ∧ (∀ t, .token t ∈ items → t.kind ≠ .eof)
      ∧ scan (first ++ "\n" ++ second)
        = items ++ (scan second).map (Item.reline (· + (1 + first.toList.count '\n'))) := by
  have htiles : Tiles (pieces first.toList) first.toList := tiles_iff_pieces.mpr rfl
  have hline : lineAfter 1 (pieces first.toList) = 1 + first.toList.count '\n' :=
    lineAfter_lineIn htiles []
  refine ⟨itemsOf 1 (pieces first.toList), ?_, ?_, ?_⟩
  · rw [scan_eq, hline]
  · exact fun t ht => (itemsOf_spelled (pieces_spelled first.toList) 1 t ht).1
  · rw [scan_newline (not_unterminated_of_scan h), hline]

/-- A number before a point, and half of an operator at the end of a comment: neither goes
on in the next line. -/
theorem scan_lines_joined_seam :
    (∀ line, Item.failure (.lexical line .unterminated) ∉ scan "1.\n!// \"")
      ∧ ∃ items, scan "1.\n!// \"" = items ++ [.token ⟨.eof, "", 2⟩]
        ∧ (∀ t, .token t ∈ items → t.kind ≠ .eof)
        ∧ scan ("1.\n!// \"" ++ "\n" ++ "= 5") = items ++ (scan "= 5").map (Item.reline (· + 2)) := by
  have h : ∀ line, Item.failure (.lexical line .unterminated) ∉ scan "1.\n!// \"" := by
    have hfailures : (scan "1.\n!// \"").filterMap Item.failure? = [] := by decide +kernel
    intro line hline
    rw [← Item.mem_filterMap_failure, hfailures] at hline
    cases hline
  exact ⟨h, scan_lines_joined _ "= 5" h⟩

/-! ## §2. Lexemes with blanks between them. -/

/-- A lexeme before a blank, or at the end, is the first piece. -/
theorem pieces_lexeme {kind : TokenKind} {lexeme rest : List Char} (h : Lexeme kind lexeme)
    (hrest : ∀ c ∈ rest.head?, c ∈ blanks) :
    pieces (lexeme ++ rest) = .token kind lexeme :: pieces rest := by
  obtain ⟨c, cs, rfl, hcut⟩ := h.cut_before hrest
  rw [List.cons_append, pieces_cons, hcut]

theorem pieces_blank {c : Char} (h : c ∈ blanks) (rest : List Char) :
    pieces (c :: rest) = .blank c :: pieces rest := by
  rw [pieces_cons, cut_blank h]

theorem blank_head (rest : List Char) : ∀ c ∈ (' ' :: rest).head?, c ∈ blanks := by
  rintro c ⟨⟩
  decide

/-- **A lexeme in front of a text**, with a blank between them, is one token more. -/
theorem ofSource_lexeme {kind : TokenKind} {lexeme : String} (h : Lexeme kind lexeme.toList)
    (hline : '\n' ∉ lexeme.toList) (source : String) :
    (Scanned.ofSource (lexeme ++ " " ++ source)).tokens
        = ⟨kind, lexeme, 1⟩ :: (Scanned.ofSource source).tokens
      ∧ (Scanned.ofSource (lexeme ++ " " ++ source)).failures
        = (Scanned.ofSource source).failures := by
  have hpieces : pieces (lexeme ++ " " ++ source).toList
      = .token kind lexeme.toList :: .blank ' ' :: pieces source.toList := by
    rw [String.toList_append, String.toList_append, List.append_assoc]
    show pieces (lexeme.toList ++ ' ' :: source.toList) = _
    rw [pieces_lexeme h (blank_head _), pieces_blank (by decide)]
  -- no line ends before the text
  have hnewlines : 1 + (Piece.token kind lexeme.toList).newlines = 1 :=
    congrArg (1 + ·) (Piece.newlines_token hline)
  have hitems : itemsOf 1 (pieces (lexeme ++ " " ++ source).toList)
      = .token ⟨kind, lexeme, 1⟩ :: itemsOf 1 (pieces source.toList) := by
    rw [hpieces, itemsOf, hnewlines, Piece.item?, String.ofList_toList]
    rfl
  have hafter : lineAfter 1 (pieces (lexeme ++ " " ++ source).toList)
      = lineAfter 1 (pieces source.toList) := by
    rw [hpieces, lineAfter, hnewlines]
    rfl
  constructor
  · rw [ofSource_tokens, ofSource_tokens, hitems, hafter]
    rfl
  · rw [ofSource_failures, ofSource_failures, hitems]
    rfl

/-- What a token is apart from its line: its kind, with the value, and its spelling. -/
def Token.unplaced (t : Token) : TokenKind × String :=
  (t.kind, t.lexeme)

/-- The lexemes of tokens, with a blank between each two. -/
def spaced (ts : List Token) : String :=
  " ".intercalate (ts.map Token.lexeme)

/-- A lexeme in front of others has a blank behind it. -/
theorem spaced_cons (t : Token) {ts : List Token} (h : ts ≠ []) :
    (spaced (t :: ts)).toList = t.lexeme.toList ++ ' ' :: (spaced ts).toList := by
  cases ts with
  | nil => exact absurd rfl h
  | cons t' ts =>
    unfold spaced
    rw [String.toList_intercalate, String.toList_intercalate, List.map_cons, List.map_cons,
      List.map_cons, List.map_cons, List.intercalate_cons_cons, List.append_assoc]
    rfl

/-- A last lexeme that is empty leaves a blank behind the others. -/
theorem spaced_concat_empty {ts : List Token} {t : Token} (h : t.lexeme = "") (hts : ts ≠ []) :
    (spaced (ts ++ [t])).toList = (spaced ts).toList ++ [' '] := by
  induction ts with
  | nil => exact absurd rfl hts
  | cons t' ts ih =>
    rw [List.cons_append, spaced_cons t' (List.concat_ne_nil t ts)]
    cases ts with
    | nil =>
      have hlast : (spaced [t]).toList = t.lexeme.toList := rfl
      have hfirst : (spaced [t']).toList = t'.lexeme.toList := rfl
      rw [List.nil_append, hlast, hfirst, h]
      rfl
    | cons t'' ts =>
      rw [ih (List.cons_ne_nil t'' ts), spaced_cons t' (List.cons_ne_nil t'' ts),
        List.append_assoc, List.cons_append]

/-- Pieces that yield these tokens, wherever they start, and no failure. -/
def Yields (ps : List Piece) (ts : List Token) : Prop :=
  ∀ line, ∃ ts' : List Token, itemsOf line ps = ts'.map .token
    ∧ ts'.map Token.unplaced = ts.map Token.unplaced

theorem Yields.blank {ps : List Piece} {ts : List Token} (h : Yields ps ts) (c : Char) :
    Yields (.blank c :: ps) ts :=
  fun line => h (line + (Piece.blank c).newlines)

theorem Yields.token {ps : List Piece} {ts : List Token} (h : Yields ps ts) (t : Token) :
    Yields (.token t.kind t.lexeme.toList :: ps) (t :: ts) := by
  intro line
  obtain ⟨ts', hitems, hunplaced⟩ :=
    h (line + (Piece.token t.kind t.lexeme.toList).newlines)
  refine ⟨⟨t.kind, t.lexeme, line⟩ :: ts', ?_, ?_⟩
  · rw [itemsOf, hitems, Piece.item?, String.ofList_toList]
    rfl
  · rw [List.map_cons, List.map_cons, hunplaced]
    rfl

/-- The lexemes of tokens before a text that yields nothing. -/
theorem yields_spaced {ts : List Token} (h : ∀ t ∈ ts, Lexeme t.kind t.lexeme.toList)
    {rest : List Char} (hrest : ∀ c ∈ rest.head?, c ∈ blanks) (hnone : Yields (pieces rest) []) :
    Yields (pieces ((spaced ts).toList ++ rest)) ts := by
  induction ts with
  | nil => exact hnone
  | cons t ts ih =>
    have ht : Lexeme t.kind t.lexeme.toList := h t List.mem_cons_self
    have hih := ih fun t' ht' => h t' (List.mem_cons_of_mem t ht')
    cases ts with
    | nil =>
      have htext : (spaced [t]).toList = t.lexeme.toList := rfl
      rw [htext, pieces_lexeme ht hrest]
      exact hnone.token t
    | cons t' ts =>
      rw [spaced_cons t (List.cons_ne_nil t' ts), List.append_assoc, List.cons_append,
        pieces_lexeme ht (blank_head _), pieces_blank (by decide)]
      exact (hih.blank ' ').token t

/-- A text whose pieces yield tokens has these and the end of the input. -/
theorem scan_of_yields {text : String} {ts : List Token} {eof : Token}
    (heof : eof.unplaced = (.eof, "")) (h : Yields (pieces text.toList) ts) :
    ∃ again : List Token, scan text = again.map .token
      ∧ again.map Token.unplaced = (ts ++ [eof]).map Token.unplaced := by
  obtain ⟨ts', hitems, hunplaced⟩ := h 1
  refine ⟨ts' ++ [⟨.eof, "", lineAfter 1 (pieces text.toList)⟩], ?_, ?_⟩
  · rw [scan_eq, hitems, List.map_append]
    rfl
  · rw [List.map_append, List.map_append, hunplaced, List.map_singleton, List.map_singleton, heof]
    rfl

/-- **Lexemes with blanks between them are tokens again.**  If the lexemes of the tokens of
a text are joined with single blanks, with or without the empty one of the end of the
input, scanning finds no error, and the tokens have the kinds, values and lexemes they
had. -/
theorem scan_spaced (source : String) :
    ∃ ts eof, (Scanned.ofSource source).tokens = ts ++ [eof]
      ∧ eof.unplaced = (.eof, "") ∧ (∀ t ∈ ts, t.kind ≠ .eof)
      ∧ ∀ text, text = spaced ts ∨ text = spaced (ts ++ [eof]) →
        ∃ again : List Token, scan text = again.map .token
          ∧ again.map Token.unplaced = (ts ++ [eof]).map Token.unplaced := by
  generalize heof : (⟨.eof, "", lineAfter 1 (pieces source.toList)⟩ : Token) = eof
  generalize hts : (itemsOf 1 (pieces source.toList)).filterMap Item.token? = ts
  have hunplaced : eof.unplaced = (.eof, "") := by
    rw [← heof]
    rfl
  have hpiece : ∀ t ∈ ts, .token t.kind t.lexeme.toList ∈ pieces source.toList := by
    rw [← hts]
    exact fun t ht => piece_of_item (Item.mem_filterMap_token.mp ht)
  have hlexeme : ∀ t ∈ ts, Lexeme t.kind t.lexeme.toList := fun t ht =>
    lexeme_of_mem_pieces (hpiece t ht)
  have hend : ∀ c ∈ ([] : List Char).head?, c ∈ blanks := nofun
  have hnil : Yields (pieces []) [] := by
    rw [pieces, piecesFrom]
    exact fun _ => ⟨[], rfl, rfl⟩
  have hblank : Yields (pieces [' ']) [] := by
    rw [pieces_blank (by decide)]
    exact hnil.blank ' '
  have hjoined : Yields (pieces (spaced ts).toList) ts := by
    have hyields := yields_spaced hlexeme hend hnil
    rw [List.append_nil] at hyields
    exact hyields
  refine ⟨ts, eof, ?_, hunplaced, ?_, ?_⟩
  · rw [ofSource_tokens, heof, hts]
  · exact fun t ht => (pieces_spelled _ _ (hpiece t ht)).1
  · rintro text (rfl | rfl)
    · exact scan_of_yields hunplaced hjoined
    · refine scan_of_yields hunplaced ?_
      have hempty : eof.lexeme = "" := congrArg Prod.snd hunplaced
      by_cases hnone : ts = []
      · rw [hnone] at hjoined ⊢
        have htext : (spaced [eof]).toList = eof.lexeme.toList := rfl
        rw [List.nil_append, htext, hempty]
        exact hjoined
      · rw [spaced_concat_empty hempty hnone]
        exact yields_spaced hlexeme (blank_head []) hblank

end Lox
