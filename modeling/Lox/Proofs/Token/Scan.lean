/-
  Lox.Proofs.Token.Scan
  ─────────────────────
  **WHAT SCANNING YIELDS.**

  Three facts about the tokens of a text: the end of the input is the last of
  them and no other, the words `this` and `super` are keywords and nothing
  else is spelled like them, and a text that follows another one on a new
  line is scanned as if it stood alone, on later lines.
-/
import Lox.Proofs.Parse.Shape
import Lox.Proofs.Syntax.Lines

namespace Lox

/-! ## §1. Pieces. -/

theorem piecesFrom_eq (done : List Piece) (text : List Char) :
    piecesFrom done text = done.reverse ++ pieces text := by
  induction h : text.length using Nat.strongRecOn generalizing done text with
  | ind n ih =>
    subst h
    cases text with
    | nil => simp [pieces, piecesFrom]
    | cons c cs =>
      have hlt := cut_rest_length c cs
      unfold pieces
      rw [piecesFrom, piecesFrom, ih _ hlt _ _ rfl, ih _ hlt [_] _ rfl]
      simp

/-- The pieces of a text are its first piece and those of the rest. -/
theorem pieces_cons (c : Char) (cs : List Char) :
    pieces (c :: cs) = (cut c cs).1 :: pieces (cut c cs).2 := by
  rw [pieces, piecesFrom, piecesFrom_eq]
  rfl

/-! ## §2. Items. -/

theorem Item.mem_filterMap_token {t : Token} {items : List Item} :
    t ∈ items.filterMap Item.token? ↔ .token t ∈ items := by
  rw [List.mem_filterMap]
  constructor
  · rintro ⟨item, hitem, htoken⟩
    cases item with
    | token => cases htoken; exact hitem
    | failure => cases htoken
  · exact fun h => ⟨_, h, rfl⟩

theorem Item.mem_filterMap_failure {d : Diagnostic} {items : List Item} :
    d ∈ items.filterMap Item.failure? ↔ .failure d ∈ items := by
  rw [List.mem_filterMap]
  constructor
  · rintro ⟨item, hitem, hfailure⟩
    cases item with
    | token => cases hfailure
    | failure => cases hfailure; exact hitem
  · exact fun h => ⟨_, h, rfl⟩

/-- The items of pieces, without the end of the input. -/
def itemsOf (line : Nat) : List Piece → List Item
  | [] => []
  | p :: rest => (p.item? line).toList ++ itemsOf (line + p.newlines) rest

/-- The line after some pieces. -/
def lineAfter (line : Nat) : List Piece → Nat
  | [] => line
  | p :: rest => lineAfter (line + p.newlines) rest

theorem itemsFrom_eq (done : Array Item) (line : Nat) (ps : List Piece) :
    (itemsFrom done line ps).toList
      = done.toList ++ (itemsOf line ps ++ [.token ⟨.eof, "", lineAfter line ps⟩]) := by
  induction ps generalizing done line with
  | nil => simp [itemsFrom, itemsOf, lineAfter]
  | cons p rest ih =>
    unfold itemsFrom itemsOf lineAfter
    cases hitem : p.item? line with
    | none => simp [ih]
    | some item => simp [ih]

theorem scan_eq (source : String) :
    scan source = itemsOf 1 (pieces source.toList)
      ++ [.token ⟨.eof, "", lineAfter 1 (pieces source.toList)⟩] := by
  rw [scan, itemsFrom_eq]
  rfl

theorem ofSource_tokens (source : String) :
    (Scanned.ofSource source).tokens
      = (itemsOf 1 (pieces source.toList)).filterMap Item.token?
        ++ [⟨.eof, "", lineAfter 1 (pieces source.toList)⟩] := by
  show (scan source).filterMap Item.token? = _
  rw [scan_eq, List.filterMap_append]
  rfl

/-- The end of the input is no failure. -/
theorem ofSource_failures (source : String) :
    (Scanned.ofSource source).failures
      = (itemsOf 1 (pieces source.toList)).filterMap Item.failure? := by
  show (scan source).filterMap Item.failure? = _
  rw [scan_eq, List.filterMap_append]
  exact List.append_nil _

theorem itemsOf_append (line : Nat) (ps ps' : List Piece) :
    itemsOf line (ps ++ ps') = itemsOf line ps ++ itemsOf (lineAfter line ps) ps' := by
  induction ps generalizing line with
  | nil => rfl
  | cons p ps ih => simp [itemsOf, lineAfter, ih]

theorem lineAfter_append (line : Nat) (ps ps' : List Piece) :
    lineAfter line (ps ++ ps') = lineAfter (lineAfter line ps) ps' := by
  induction ps generalizing line with
  | nil => rfl
  | cons p ps ih => exact ih _

/-- A token comes from a piece with its kind and spelling. -/
theorem piece_of_item {line : Nat} {ps : List Piece} {t : Token} (h : .token t ∈ itemsOf line ps) :
    .token t.kind t.lexeme.toList ∈ ps := by
  induction ps generalizing line with
  | nil => cases h
  | cons p ps ih =>
    rcases List.mem_append.mp h with h | h
    · cases p with
      | token kind lexeme =>
        simp only [Piece.item?, Option.toList_some, List.mem_singleton, Item.token.injEq] at h
        rw [h, String.toList_ofList]
        exact List.mem_cons_self
      | blank | comment | stray | unterminated => simp [Piece.item?] at h
    · exact List.mem_cons_of_mem p (ih h)

/-! ## §3. Spelling. -/

/-- A piece whose kind fits its spelling. -/
def Piece.Spelled : Piece → Prop
  | .token kind lexeme => kind ≠ .eof ∧ ∀ line, Token.Spelled ⟨kind, String.ofList lexeme, line⟩
  | _ => True

/-- What is found in a table is in it. -/
theorem mem_of_lookup {α β : Type} [BEq α] [LawfulBEq α] {entries : List (α × β)} {a : α} {b : β}
    (h : entries.lookup a = some b) : (a, b) ∈ entries := by
  obtain ⟨before, after, rfl, -⟩ := List.lookup_eq_some_iff.mp h
  exact List.mem_append_right before List.mem_cons_self

theorem TokenKind.ofWord_spelled (word : String) (line : Nat) :
    TokenKind.ofWord word ≠ .eof ∧ Token.Spelled ⟨.ofWord word, word, line⟩ := by
  unfold TokenKind.ofWord
  cases hlookup : TokenKind.keywords.lookup word with
  | none =>
    rw [List.lookup_eq_none_iff] at hlookup
    have hthis := hlookup ("this", .kwThis) (by decide)
    have hsuper := hlookup ("super", .kwSuper) (by decide)
    refine ⟨by simp, ?_, by simp, by simp⟩
    exact fun _ => ⟨by simpa using hthis, by simpa using hsuper⟩
  | some kind =>
    have hall : ∀ p ∈ TokenKind.keywords, p.2 ≠ .eof ∧ p.2 ≠ .identifier
        ∧ (p.2 = .kwThis → p.1 = "this") ∧ (p.2 = .kwSuper → p.1 = "super") := by
      simp [TokenKind.keywords]
    obtain ⟨heof, hidentifier, hthis, hsuper⟩ := hall _ (mem_of_lookup hlookup)
    exact ⟨heof, fun hk => absurd hk hidentifier, hthis, hsuper⟩

/-- A kind that no word has fits any spelling. -/
theorem Token.spelled_of_kind {t : Token} (hi : t.kind ≠ .identifier) (ht : t.kind ≠ .kwThis)
    (hs : t.kind ≠ .kwSuper) : t.Spelled :=
  ⟨fun h => absurd h hi, fun h => absurd h ht, fun h => absurd h hs⟩

theorem punctuation_spelled {c : Char} {kind : TokenKind} (h : punctuation? c = some kind) :
    kind ≠ .eof ∧ kind ≠ .identifier ∧ kind ≠ .kwThis ∧ kind ≠ .kwSuper := by
  have hall : ∀ p ∈ [('(', TokenKind.leftParen), (')', .rightParen), ('{', .leftBrace),
      ('}', .rightBrace), (',', .comma), ('.', .dot), ('-', .minus), ('+', .plus),
      (';', .semicolon), ('*', .star)],
      p.2 ≠ .eof ∧ p.2 ≠ .identifier ∧ p.2 ≠ .kwThis ∧ p.2 ≠ .kwSuper := by
    simp
  exact hall _ (mem_of_lookup h)

theorem operator_spelled {c : Char} {alone withEqual : TokenKind}
    (h : operator? c = some (alone, withEqual)) :
    (alone ≠ .eof ∧ alone ≠ .identifier ∧ alone ≠ .kwThis ∧ alone ≠ .kwSuper)
      ∧ withEqual ≠ .eof ∧ withEqual ≠ .identifier ∧ withEqual ≠ .kwThis
      ∧ withEqual ≠ .kwSuper := by
  have hall : ∀ p ∈ [('!', TokenKind.bang, TokenKind.bangEqual), ('=', .equal, .equalEqual),
      ('<', .less, .lessEqual), ('>', .greater, .greaterEqual)],
      (p.2.1 ≠ .eof ∧ p.2.1 ≠ .identifier ∧ p.2.1 ≠ .kwThis ∧ p.2.1 ≠ .kwSuper)
        ∧ p.2.2 ≠ .eof ∧ p.2.2 ≠ .identifier ∧ p.2.2 ≠ .kwThis ∧ p.2.2 ≠ .kwSuper := by
    simp
  exact hall _ (mem_of_lookup h)

theorem Piece.spelled_of_kind {kind : TokenKind} {lexeme : List Char}
    (h : kind ≠ .eof ∧ kind ≠ .identifier ∧ kind ≠ .kwThis ∧ kind ≠ .kwSuper) :
    (Piece.token kind lexeme).Spelled :=
  ⟨h.1, fun _ => Token.spelled_of_kind h.2.1 h.2.2.1 h.2.2.2⟩

theorem cut_spelled (c : Char) (cs : List Char) : (cut c cs).1.Spelled := by
  unfold cut
  split
  · next kind h => exact Piece.spelled_of_kind (punctuation_spelled h)
  · next h =>
    unfold cutOperator
    split
    · exact Piece.spelled_of_kind (operator_spelled h).2
    · exact Piece.spelled_of_kind (operator_spelled h).1
  · split
    · trivial
    · split
      · unfold cutSlash
        split
        · trivial
        · exact Piece.spelled_of_kind (by simp)
      · split
        · unfold cutString
          split
          · trivial
          · exact Piece.spelled_of_kind (by simp)
        · split
          · unfold cutNumber
            split
            · split
              · exact Piece.spelled_of_kind (by simp [numberKind])
              · exact Piece.spelled_of_kind (by simp [numberKind])
            · exact Piece.spelled_of_kind (by simp [numberKind])
          · split
            · exact ⟨(TokenKind.ofWord_spelled _ 0).1, fun line =>
                (TokenKind.ofWord_spelled _ line).2⟩
            · trivial

/-- What holds of every first piece holds of all pieces. -/
theorem forall_mem_pieces {P : Piece → Prop} (h : ∀ c cs, P (cut c cs).1) (text : List Char) :
    ∀ p ∈ pieces text, P p := by
  induction hn : text.length using Nat.strongRecOn generalizing text with
  | ind n ih =>
    subst hn
    cases text with
    | nil => simp [pieces, piecesFrom]
    | cons c cs =>
      rw [pieces_cons]
      intro p hp
      rcases List.mem_cons.mp hp with rfl | hp
      · exact h c cs
      · exact ih _ (cut_rest_length c cs) _ rfl p hp

theorem pieces_spelled (text : List Char) : ∀ p ∈ pieces text, p.Spelled :=
  forall_mem_pieces cut_spelled text

theorem itemsOf_spelled {ps : List Piece} (h : ∀ p ∈ ps, p.Spelled) :
    ∀ line t, Item.token t ∈ itemsOf line ps → t.kind ≠ .eof ∧ t.Spelled := by
  intro line t ht
  obtain ⟨heof, hspelled⟩ := h _ (piece_of_item ht)
  have hline := hspelled t.line
  rw [String.ofList_toList] at hline
  exact ⟨heof, hline⟩

/-- **The tokens of a text**: the end of the input is the last of them and no
other, and every one is spelled as its kind wants. -/
theorem tokens_of_source (source : String) :
    ∃ ts eof, (Scanned.ofSource source).tokens = ts ++ [eof] ∧ eof.kind = .eof
      ∧ (∀ t ∈ ts, t.kind ≠ .eof) ∧ Grammar.AllSpelled ts := by
  have hspelled := itemsOf_spelled (pieces_spelled source.toList) 1
  refine ⟨(itemsOf 1 (pieces source.toList)).filterMap Item.token?,
    ⟨.eof, "", lineAfter 1 (pieces source.toList)⟩, ofSource_tokens source, rfl, ?_, ?_⟩
  · exact fun t ht => (hspelled t (Item.mem_filterMap_token.mp ht)).1
  · exact fun t ht => (hspelled t (Item.mem_filterMap_token.mp ht)).2

/-! ## §4. One text after another. -/

theorem takeWhile_stop {p : Char → Bool} {c : Char} (hc : p c = false) (cs rest : List Char) :
    (cs ++ c :: rest).takeWhile p = cs.takeWhile p := by
  induction cs with
  | nil => simp [hc]
  | cons x cs ih => simp [List.takeWhile_cons, ih]

theorem dropWhile_stop {p : Char → Bool} {c : Char} (hc : p c = false) (cs rest : List Char) :
    (cs ++ c :: rest).dropWhile p = cs.dropWhile p ++ c :: rest := by
  induction cs with
  | nil => simp [hc]
  | cons x cs ih =>
    rw [List.cons_append, List.dropWhile_cons, List.dropWhile_cons, ih]
    split <;> rfl

section Newline

variable (c : Char) (cs rest : List Char)

theorem cutNumber_newline :
    cutNumber c (cs ++ '\n' :: rest)
      = ((cutNumber c cs).1, (cutNumber c cs).2 ++ '\n' :: rest) := by
  have hdigit : isDigit '\n' = false := by decide
  unfold cutNumber
  rw [takeWhile_stop hdigit, dropWhile_stop hdigit]
  cases hdrop : cs.dropWhile isDigit with
  | nil => simp
  | cons x xs =>
    cases xs with
    | nil =>
      by_cases hx : x = '.'
      · simp [hx, hdigit]
      · simp [hx]
    | cons d ds =>
      by_cases hx : x = '.'
      · subst hx
        simp only [List.cons_append]
        split
        · rw [takeWhile_stop hdigit, dropWhile_stop hdigit]
        · rfl
      · simp [hx]

theorem cutWord_newline :
    cutWord c (cs ++ '\n' :: rest) = ((cutWord c cs).1, (cutWord c cs).2 ++ '\n' :: rest) := by
  have hword : inWord '\n' = false := by decide
  unfold cutWord
  rw [takeWhile_stop hword, dropWhile_stop hword]

theorem cutSlash_newline :
    cutSlash (cs ++ '\n' :: rest) = ((cutSlash cs).1, (cutSlash cs).2 ++ '\n' :: rest) := by
  have htake := takeWhile_stop (p := (· != '\n')) (c := '\n') rfl
  have hdrop := dropWhile_stop (p := (· != '\n')) (c := '\n') rfl
  unfold cutSlash
  cases cs with
  | nil => rfl
  | cons x xs =>
    by_cases hx : x = '/'
    · subst hx
      simp only [List.cons_append]
      rw [htake, hdrop]
    · simp [hx]

theorem cutOperator_newline (alone withEqual : TokenKind) :
    cutOperator c alone withEqual (cs ++ '\n' :: rest)
      = ((cutOperator c alone withEqual cs).1,
          (cutOperator c alone withEqual cs).2 ++ '\n' :: rest) := by
  unfold cutOperator
  cases cs with
  | nil => rfl
  | cons x xs =>
    by_cases hx : x = '='
    · subst hx
      rfl
    · simp [hx]

/-- A string that ends before the new line is cut off as before. -/
theorem cutString_newline (h : ∀ chars, (cutString cs).1 ≠ .unterminated chars) :
    cutString (cs ++ '\n' :: rest) = ((cutString cs).1, (cutString cs).2 ++ '\n' :: rest) := by
  have hsplit : cs.takeWhile (· != '"') ++ cs.dropWhile (· != '"') = cs :=
    List.takeWhile_append_dropWhile
  have hhead := List.head?_dropWhile_not (· != '"') cs
  unfold cutString at h ⊢
  cases hdrop : cs.dropWhile (· != '"') with
  | nil =>
    rw [hdrop] at h
    exact absurd rfl (h _)
  | cons quote xs =>
    rw [hdrop] at hhead hsplit
    have hquote : (quote != '"') = false := by simpa using hhead
    have hall : ∀ x ∈ cs.takeWhile (· != '"'), (x != '"') = true := fun x hx =>
      List.all_eq_true.mp List.all_takeWhile x hx
    have htext : cs ++ '\n' :: rest
        = cs.takeWhile (· != '"') ++ quote :: (xs ++ '\n' :: rest) := by
      rw [← List.cons_append, ← List.append_assoc, hsplit]
    have htake : (cs ++ '\n' :: rest).takeWhile (· != '"') = cs.takeWhile (· != '"') := by
      rw [htext, List.takeWhile_append_of_pos hall, List.takeWhile_cons, hquote]
      simp
    have hdropAll : (cs ++ '\n' :: rest).dropWhile (· != '"') = quote :: (xs ++ '\n' :: rest) := by
      rw [htext, List.dropWhile_append_of_pos hall, List.dropWhile_cons, hquote]
      simp
    rw [htake, hdropAll]

theorem cut_newline (h : ∀ chars, (cut c cs).1 ≠ .unterminated chars) :
    cut c (cs ++ '\n' :: rest) = ((cut c cs).1, (cut c cs).2 ++ '\n' :: rest) := by
  unfold cut at h ⊢
  split
  · rfl
  · exact cutOperator_newline c cs rest _ _
  · split
    · rfl
    · split
      · exact cutSlash_newline cs rest
      · split
        · refine cutString_newline cs rest ?_
          simp_all
        · split
          · exact cutNumber_newline c cs rest
          · split
            · exact cutWord_newline c cs rest
            · rfl

end Newline

/-- **A text after a new line is cut as if it stood alone.** -/
theorem pieces_newline (text rest : List Char)
    (h : ∀ p ∈ pieces text, ∀ chars, p ≠ .unterminated chars) :
    pieces (text ++ '\n' :: rest) = pieces text ++ .blank '\n' :: pieces rest := by
  induction hn : text.length using Nat.strongRecOn generalizing text with
  | ind n ih =>
    subst hn
    cases text with
    | nil =>
      have hcut : cut '\n' rest = (.blank '\n', rest) := rfl
      rw [List.nil_append, pieces_cons, hcut]
      simp [pieces, piecesFrom]
    | cons c cs =>
      rw [pieces_cons] at h
      have hfirst := cut_newline c cs rest (h _ List.mem_cons_self)
      rw [List.cons_append, pieces_cons, hfirst, pieces_cons, List.cons_append]
      congr 1
      exact ih _ (cut_rest_length c cs) _ (fun p hp => h p (List.mem_cons_of_mem _ hp)) rfl

/-! ## §5. On later lines. -/

/-- An item on another line. -/
def Item.reline (f : Nat → Nat) : Item → Item
  | .token t => .token (t.reline f)
  | .failure d => .failure (d.reline f)

/-- Pieces that start further down yield the same items further down. -/
theorem itemsOf_add (line k : Nat) (ps : List Piece) :
    itemsOf (line + k) ps = (itemsOf line ps).map (Item.reline (· + k)) := by
  induction ps generalizing line with
  | nil => rfl
  | cons p ps ih =>
    have hitem : (p.item? (line + k)).toList
        = (p.item? line).toList.map (Item.reline (· + k)) := by
      cases p with
      | token | blank | comment | stray => rfl
      | unterminated chars =>
        simp [Piece.item?, Item.reline, Diagnostic.reline, Nat.add_right_comm]
    rw [itemsOf, itemsOf, List.map_append, ← ih, hitem, Nat.add_right_comm]

theorem lineAfter_add (line k : Nat) (ps : List Piece) :
    lineAfter (line + k) ps = lineAfter line ps + k := by
  induction ps generalizing line with
  | nil => rfl
  | cons p ps ih =>
    rw [lineAfter, lineAfter, ← ih, Nat.add_right_comm]

/-- A string that never ends is reported. -/
theorem failure_of_unterminated (line : Nat) {ps : List Piece} {chars : List Char}
    (h : .unterminated chars ∈ ps) :
    ∃ line', Item.failure (.lexical line' .unterminated) ∈ itemsOf line ps := by
  induction ps generalizing line with
  | nil => cases h
  | cons p ps ih =>
    rw [itemsOf]
    rcases List.mem_cons.mp h with rfl | h
    · exact ⟨_, List.mem_append_left _ List.mem_cons_self⟩
    · obtain ⟨line', hline'⟩ := ih (line + p.newlines) h
      exact ⟨line', List.mem_append_right _ hline'⟩

/-- A text without lexical failures has no string that never ends. -/
theorem not_unterminated_of_failures {line : Nat} {ps : List Piece}
    (h : (itemsOf line ps).filterMap Item.failure? = []) :
    ∀ p ∈ ps, ∀ chars, p ≠ .unterminated chars := by
  rintro p hp chars rfl
  obtain ⟨line', hline'⟩ := failure_of_unterminated line hp
  rw [← Item.mem_filterMap_failure, h] at hline'
  cases hline'

/-- **A text on a new line after another one** yields what it yields alone, further
down, if no string of the first one runs on into it. -/
theorem scan_newline {first second : String}
    (h : ∀ p ∈ pieces first.toList, ∀ chars, p ≠ .unterminated chars) :
    scan (first ++ "\n" ++ second) = itemsOf 1 (pieces first.toList)
      ++ (scan second).map (Item.reline (· + lineAfter 1 (pieces first.toList))) := by
  have hpieces : pieces (first ++ "\n" ++ second).toList
      = pieces first.toList ++ .blank '\n' :: pieces second.toList := by
    rw [String.toList_append, String.toList_append, List.append_assoc]
    exact pieces_newline _ _ h
  -- the second text starts one line below the last line of the first
  have hblank : ∀ line, itemsOf line (.blank '\n' :: pieces second.toList)
      = itemsOf (1 + line) (pieces second.toList) := fun line => by
    rw [itemsOf, Nat.add_comm 1]
    rfl
  have hline : ∀ line, lineAfter line (.blank '\n' :: pieces second.toList)
      = lineAfter (1 + line) (pieces second.toList) := fun line => by
    rw [lineAfter, Nat.add_comm 1]
    rfl
  rw [scan_eq, scan_eq, hpieces, itemsOf_append, lineAfter_append, hblank, hline, itemsOf_add,
    lineAfter_add, List.append_assoc, List.map_append]
  rfl

/-- The tokens and failures of a text on a new line after another one. -/
theorem ofSource_newline (first second : String)
    (h : (Scanned.ofSource first).failures = [])
    (h' : (Scanned.ofSource second).failures = []) :
    ∃ ts eof k, (Scanned.ofSource first).tokens = ts ++ [eof] ∧ eof.kind = .eof
      ∧ (∀ t ∈ ts, t.kind ≠ .eof)
      ∧ (Scanned.ofSource (first ++ "\n" ++ second)).tokens
        = ts ++ (Scanned.ofSource second).tokens.map (Token.reline (· + k))
      ∧ (Scanned.ofSource (first ++ "\n" ++ second)).failures = [] := by
  have hitems := (ofSource_failures first).symm.trans h
  have hscan : scan (first ++ "\n" ++ second) = itemsOf 1 (pieces first.toList)
      ++ (scan second).map (Item.reline (· + lineAfter 1 (pieces first.toList))) :=
    scan_newline (not_unterminated_of_failures hitems)
  obtain ⟨ts, eof, htokens, heof, hts, -⟩ := tokens_of_source first
  have hfirst : (itemsOf 1 (pieces first.toList)).filterMap Item.token? = ts := by
    rw [ofSource_tokens] at htokens
    exact List.append_inj_left' htokens rfl
  have htoken : Item.token? ∘ Item.reline (· + lineAfter 1 (pieces first.toList))
      = Option.map (Token.reline (· + lineAfter 1 (pieces first.toList))) ∘ Item.token? := by
    funext item
    cases item <;> rfl
  have hfailure : Item.failure? ∘ Item.reline (· + lineAfter 1 (pieces first.toList))
      = Option.map (Diagnostic.reline (· + lineAfter 1 (pieces first.toList)))
        ∘ Item.failure? := by
    funext item
    cases item <;> rfl
  refine ⟨ts, eof, lineAfter 1 (pieces first.toList), htokens, heof, hts, ?_, ?_⟩
  · show (scan _).filterMap Item.token? = _ ++ ((scan second).filterMap Item.token?).map _
    rw [hscan, List.filterMap_append, hfirst, List.filterMap_map, htoken, List.map_filterMap]
    rfl
  · change (scan second).filterMap Item.failure? = [] at h'
    show (scan _).filterMap Item.failure? = _
    rw [hscan, List.filterMap_append, hitems, List.filterMap_map, hfailure, List.nil_append]
    have hmap := congrArg (List.map (Diagnostic.reline (· + lineAfter 1 (pieces first.toList)))) h'
    rw [List.map_filterMap] at hmap
    exact hmap

end Lox
