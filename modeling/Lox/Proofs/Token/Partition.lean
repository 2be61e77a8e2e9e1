/-
  Lox.Proofs.Token.Partition
  ──────────────────────────
  **SCANNING CUTS A TEXT INTO LEXEMES.**

  What the tokens of the language look like is said here without a scanner: a
  lexeme is a symbol of a table, a word, a string or a number, and each has one
  kind (`Lexeme`).  The pieces of a text are then determined by what they may
  be beside the text after them (`Piece.Stands`): a token is the longest
  lexeme that the text starts with, a comment runs to the end of its line, and
  a character by itself is a failure only where no lexeme starts.

  Main results:
    * `Piece.Stands.newlines`: the line ends in a piece are those that are counted in it.
    * `stands_cut`, `Piece.Stands.cut`: what may stand in front of a text is what is cut off.
    * `tiles_iff_pieces`: there is one way to cut a text so, and the scanner
      finds it.
-/
import Lox.Proofs.Token.Respell

namespace Lox

/-! ## §1. Lexemes. -/

/-- The symbols and their kinds. -/
def symbols : List (List Char × TokenKind) :=
  [(['('], .leftParen), ([')'], .rightParen), (['{'], .leftBrace), (['}'], .rightBrace),
   ([','], .comma), (['.'], .dot), (['-'], .minus), (['+'], .plus), ([';'], .semicolon),
   (['*'], .star), (['/'], .slash), (['!'], .bang), (['!', '='], .bangEqual), (['='], .equal),
   (['=', '='], .equalEqual), (['<'], .less), (['<', '='], .lessEqual), (['>'], .greater),
   (['>', '='], .greaterEqual)]

/-- **The spellings of tokens and their kinds.** -/
inductive Lexeme : TokenKind → List Char → Prop
  | symbol {kind lexeme} (h : (lexeme, kind) ∈ symbols) : Lexeme kind lexeme
  /-- A keyword or an identifier. -/
  | word {c cs} (hc : startsWord c) (hcs : ∀ x ∈ cs, inWord x) :
      Lexeme (.ofWord (String.ofList (c :: cs))) (c :: cs)
  /-- A string; its value is what stands between the quotes. -/
  | string {contents} (h : '"' ∉ contents) :
      Lexeme (.string (String.ofList contents)) ('"' :: contents ++ ['"'])
  /-- A number without a point. -/
  | whole {d digits} (hd : isDigit d) (hdigits : ∀ x ∈ digits, isDigit x) :
      Lexeme (numberKind (d :: digits) []) (d :: digits)
  /-- A number with digits on both sides of its point. -/
  | fraction {d digits e fraction} (hd : isDigit d) (hdigits : ∀ x ∈ digits, isDigit x)
      (he : isDigit e) (hfraction : ∀ x ∈ fraction, isDigit x) :
      Lexeme (numberKind (d :: digits) (e :: fraction)) (d :: digits ++ '.' :: e :: fraction)

/-- The blanks, line ends included. -/
def blanks : List Char := [' ', '\r', '\t', '\n']

/-- **What a piece may be before the rest of the text.** -/
inductive Piece.Stands : Piece → List Char → Prop
  /-- The longest lexeme there is, and no comment. -/
  | token {kind lexeme rest} (h : Lexeme kind lexeme)
      (hlongest : ∀ kind' lexeme', Lexeme kind' lexeme' → lexeme' <+: lexeme ++ rest →
        lexeme'.length ≤ lexeme.length)
      (hcomment : ¬ ['/', '/'] <+: lexeme ++ rest) : Stands (.token kind lexeme) rest
  | blank {c rest} (h : c ∈ blanks) : Stands (.blank c) rest
  /-- Two slashes and the rest of their line. -/
  | comment {body rest} (hbody : '\n' ∉ body) (hrest : ∀ c ∈ rest.head?, c = '\n') :
      Stands (.comment ('/' :: '/' :: body)) rest
  /-- One character with which nothing starts. -/
  | stray {c rest} (h : ∀ kind lexeme, Lexeme kind lexeme → ¬ lexeme <+: c :: rest)
      (hblank : c ∉ blanks) (hquote : c ≠ '"') : Stands (.stray c) rest
  /-- A quote that no other one follows, and all the text after it. -/
  | unterminated {body} (h : '"' ∉ body) : Stands (.unterminated ('"' :: body)) []

/-- **Pieces that a text consists of**, each as it may stand there. -/
inductive Tiles : List Piece → List Char → Prop
  | nil : Tiles [] []
  | cons {p ps rest} (hp : p.Stands rest) (hps : Tiles ps rest) : Tiles (p :: ps) (p.chars ++ rest)

/-! ## §2. Cutting a lexeme. -/

theorem stops_nil (p : Char → Bool) : Stops p [] :=
  fun _ hc => nomatch hc

theorem bne_of_notMem {c : Char} {cs : List Char} (h : c ∉ cs) : ∀ x ∈ cs, (x != c) = true :=
  fun _ hx => bne_iff_ne.mpr fun heq => h (heq ▸ hx)

theorem notMem_of_bne {c : Char} {cs : List Char} (h : ∀ x ∈ cs, (x != c) = true) : c ∉ cs :=
  fun hc => bne_iff_ne.mp (h c hc) rfl

theorem ne_of_isDigit {c d : Char} (h : isDigit c) (hd : isDigit d = false) : c ≠ d := by
  rintro rfl
  rw [h] at hd
  cases hd

/-- Nothing but a number starts with a digit. -/
theorem cut_of_isDigit {c : Char} (h : isDigit c) (cs : List Char) : cut c cs = cutNumber c cs := by
  have hlookup : ∀ {α : Type} {entries : List (Char × α)},
      (∀ p ∈ entries, isDigit p.1 = false) → entries.lookup c = none := by
    intro α entries hentries
    rw [List.lookup_eq_none_iff]
    exact fun p hp => bne_iff_ne.mpr (ne_of_isDigit h (hentries p hp))
  have hpunctuation : punctuation? c = none :=
    hlookup (by simp only [List.forall_mem_cons]; decide)
  have hoperator : operator? c = none :=
    hlookup (by simp only [List.forall_mem_cons]; decide)
  have hblank : isBlank c = false := by
    simp [isBlank, ne_of_isDigit h (d := ' ') rfl, ne_of_isDigit h (d := '\r') rfl,
      ne_of_isDigit h (d := '\t') rfl, ne_of_isDigit h (d := '\n') rfl]
  unfold cut
  rw [hpunctuation, hoperator]
  dsimp only
  rw [hblank, if_neg Bool.false_ne_true, if_neg (ne_of_isDigit h rfl),
    if_neg (ne_of_isDigit h rfl), if_pos h]

/-- A string that ends. -/
theorem cutString_contents {contents : List Char} (h : '"' ∉ contents) (rest : List Char) :
    cutString (contents ++ '"' :: rest)
      = (.token (.string (String.ofList contents)) ('"' :: contents ++ ['"']), rest) := by
  have hstops : Stops (· != '"') ('"' :: rest) := by
    rintro x ⟨⟩
    rfl
  unfold cutString
  rw [takeWhile_stops (bne_of_notMem h) hstops, dropWhile_stops (bne_of_notMem h) hstops]

/-- A comment. -/
theorem cut_comment {body rest : List Char} (hbody : '\n' ∉ body)
    (hrest : ∀ c ∈ rest.head?, c = '\n') :
    cut '/' ('/' :: (body ++ rest)) = (.comment ('/' :: '/' :: body), rest) := by
  have hstops : Stops (· != '\n') rest := by
    intro c hc
    rw [hrest c hc]
    rfl
  show cutSlash ('/' :: (body ++ rest)) = _
  rw [cutSlash, takeWhile_stops (bne_of_notMem hbody) hstops,
    dropWhile_stops (bne_of_notMem hbody) hstops]

theorem cut_blank {c : Char} (h : c ∈ blanks) (cs : List Char) : cut c cs = (.blank c, cs) := by
  simp only [blanks, List.mem_cons, List.not_mem_nil, or_false] at h
  rcases h with rfl | rfl | rfl | rfl <;> rfl

/-- A blank stops whatever no blank goes on. -/
theorem stops_of_blank {p : Char → Bool} (hp : blanks.any p = false) {rest : List Char}
    (hrest : ∀ c ∈ rest.head?, c ∈ blanks) : Stops p rest :=
  fun c hc => Bool.eq_false_iff.mpr (List.any_eq_false.mp hp c (hrest c hc))

theorem cut_symbol {kind : TokenKind} {lexeme rest : List Char} (h : (lexeme, kind) ∈ symbols)
    (hrest : ∀ c ∈ rest.head?, c ∈ blanks) :
    ∃ c cs, lexeme = c :: cs ∧ cut c (cs ++ rest) = (.token kind lexeme, rest) := by
  have hequal : Stops (· == '=') rest := stops_of_blank (by decide) hrest
  have hslash : Stops (· == '/') rest := stops_of_blank (by decide) hrest
  simp only [symbols, List.mem_cons, List.not_mem_nil, or_false, Prod.mk.injEq] at h
  rcases h with h | h | h | h | h | h | h | h | h | h | h | h | h | h | h | h | h | h | h
  -- a symbol that may be longer, or that may start a comment, looks at what follows
  all_goals
    obtain ⟨rfl, rfl⟩ := h
    refine ⟨_, _, rfl, ?_⟩
    first
      | rfl
      | exact cutSlash_stops hslash
      | exact cutOperator_stops hequal

/-- **A lexeme before a blank, or at the end, is one token** of its kind. -/
theorem Lexeme.cut_before {kind : TokenKind} {lexeme rest : List Char} (h : Lexeme kind lexeme)
    (hrest : ∀ c ∈ rest.head?, c ∈ blanks) :
    ∃ c cs, lexeme = c :: cs ∧ cut c (cs ++ rest) = (.token kind lexeme, rest) := by
  have hdigit : Stops isDigit rest := stops_of_blank (by decide) hrest
  have hword : Stops inWord rest := stops_of_blank (by decide) hrest
  cases h with
  | symbol h => exact cut_symbol h hrest
  | @word c cs hc hcs => exact ⟨c, cs, rfl, by rw [cut_of_startsWord hc, cutWord_stops hcs hword]⟩
  | @string contents h =>
    refine ⟨'"', contents ++ ['"'], rfl, ?_⟩
    rw [List.append_assoc]
    exact cutString_contents h rest
  | @whole d digits hd hdigits =>
    refine ⟨d, digits, rfl, ?_⟩
    have hfraction : hasFraction rest = false := by
      cases rest with
      | nil => rfl
      | cons c rest =>
        have hc : c ∈ blanks := hrest c rfl
        refine hasFraction_of_ne ?_ rest
        rintro rfl
        exact absurd hc (by decide)
    rw [cut_of_isDigit hd, cutNumber_whole hdigits hdigit hfraction]
  | @fraction d digits e fraction hd hdigits he hfraction =>
    refine ⟨d, digits ++ '.' :: e :: fraction, rfl, ?_⟩
    rw [List.append_assoc, cut_of_isDigit hd]
    exact cutNumber_fraction hdigits he hfraction hdigit

/-- **A lexeme by itself is one token**, of its kind. -/
theorem Lexeme.cut_alone {kind : TokenKind} {lexeme : List Char} (h : Lexeme kind lexeme) :
    ∃ c cs, lexeme = c :: cs ∧ cut c cs = (.token kind lexeme, []) := by
  have hend : ∀ c ∈ ([] : List Char).head?, c ∈ blanks := nofun
  obtain ⟨c, cs, hlexeme, hcut⟩ := h.cut_before hend
  rw [List.append_nil] at hcut
  exact ⟨c, cs, hlexeme, hcut⟩

/-- **The spelling of a token determines its kind**, and its value with it. -/
theorem Lexeme.kind_unique {kind kind' : TokenKind} {lexeme : List Char} (h : Lexeme kind lexeme)
    (h' : Lexeme kind' lexeme) : kind = kind' := by
  obtain ⟨c, cs, rfl, hcut⟩ := h.cut_alone
  obtain ⟨c', cs', heq, hcut'⟩ := h'.cut_alone
  cases heq
  rw [hcut] at hcut'
  cases hcut'
  rfl

/-- Whether a piece is a token or a comment. -/
def Piece.isSpelling : Piece → Bool
  | .token _ _ | .comment _ => true
  | _ => false

theorem length_le_takeWhile {p : Char → Bool} {cs : List Char} (h : ∀ x ∈ cs, p x)
    (rest : List Char) : cs.length ≤ ((cs ++ rest).takeWhile p).length := by
  rw [List.takeWhile_append_of_pos h, List.length_append]
  exact Nat.le_add_right _ _

theorem isSpelling_cutNumber (c : Char) (cs : List Char) : (cutNumber c cs).1.isSpelling := by
  unfold cutNumber
  split
  · split <;> rfl
  · rfl

/-- A number goes on as long as there are digits. -/
theorem length_le_cutNumber (c : Char) {digits : List Char} (h : ∀ x ∈ digits, isDigit x)
    (rest : List Char) :
    digits.length + 1 ≤ (cutNumber c (digits ++ rest)).1.chars.length := by
  have hdigits := length_le_takeWhile h rest
  unfold cutNumber
  dsimp only
  split
  · split
    · simp only [Piece.chars, List.length_append, List.length_cons]
      omega
    · simpa [Piece.chars] using hdigits
  · simpa [Piece.chars] using hdigits

/-- A number with a fraction goes on as long as there are digits. -/
theorem length_le_cutNumber_fraction (c : Char) {digits fraction : List Char} {e : Char}
    (hdigits : ∀ x ∈ digits, isDigit x) (he : isDigit e) (hfraction : ∀ x ∈ fraction, isDigit x)
    (rest : List Char) :
    digits.length + fraction.length + 3
      ≤ (cutNumber c (digits ++ '.' :: e :: (fraction ++ rest))).1.chars.length := by
  have hsplit : (fraction ++ rest).takeWhile isDigit ++ (fraction ++ rest).dropWhile isDigit
      = fraction ++ rest := List.takeWhile_append_dropWhile
  have hlength := length_le_takeWhile hfraction rest
  rw [← hsplit, cutNumber_fraction hdigits he (forall_mem_takeWhile isDigit _)
    (stops_dropWhile isDigit _)]
  simp only [Piece.chars, List.length_append, List.length_cons]
  omega

theorem isSpelling_cutOperator (c : Char) (alone withEqual : TokenKind) (cs : List Char) :
    (cutOperator c alone withEqual cs).1.isSpelling := by
  unfold cutOperator
  split <;> rfl

theorem isSpelling_cutSlash (cs : List Char) : (cutSlash cs).1.isSpelling := by
  unfold cutSlash
  split <;> rfl

theorem one_le_length_cut (c : Char) (cs : List Char) : 1 ≤ (cut c cs).1.chars.length :=
  List.length_pos_iff.mpr (cut_chars_ne_nil c cs)

/-- **Nothing longer is left out**: where a lexeme starts, a token or a comment is
cut off that is as long or longer. -/
theorem Lexeme.length_le_cut {kind : TokenKind} {lexeme : List Char} (h : Lexeme kind lexeme)
    {c : Char} {cs : List Char} (hstarts : lexeme <+: c :: cs) :
    (cut c cs).1.isSpelling ∧ lexeme.length ≤ (cut c cs).1.chars.length := by
  obtain ⟨rest, hrest⟩ := hstarts
  cases h with
  | symbol h =>
    simp only [symbols, List.mem_cons, List.not_mem_nil, or_false, Prod.mk.injEq] at h
    rcases h with h | h | h | h | h | h | h | h | h | h | h | h | h | h | h | h | h | h | h
    -- a symbol that may be longer, or that may start a comment, depends on what follows
    all_goals
      obtain ⟨rfl, -⟩ := h
      cases hrest
      first
        | exact ⟨rfl, Nat.le_refl _⟩
        | exact ⟨isSpelling_cutSlash _, one_le_length_cut _ _⟩
        | exact ⟨isSpelling_cutOperator _ _ _ _, one_le_length_cut _ _⟩
  | word hc hcs =>
    cases hrest
    rw [cut_of_startsWord hc]
    exact ⟨rfl, Nat.succ_le_succ (length_le_takeWhile hcs rest)⟩
  | @string contents h =>
    have hcs : c = '"' ∧ cs = contents ++ '"' :: rest := by
      rw [List.cons_append, List.cons_append, List.append_assoc] at hrest
      cases hrest
      exact ⟨rfl, rfl⟩
    obtain ⟨rfl, rfl⟩ := hcs
    show (cutString _).1.isSpelling ∧ _ ≤ (cutString _).1.chars.length
    rw [cutString_contents h]
    exact ⟨rfl, Nat.le_refl _⟩
  | whole hd hdigits =>
    cases hrest
    rw [cut_of_isDigit hd]
    exact ⟨isSpelling_cutNumber _ _, length_le_cutNumber _ hdigits rest⟩
  | @fraction d digits e fraction hd hdigits he hfraction =>
    have hcs : c = d ∧ cs = digits ++ '.' :: e :: (fraction ++ rest) := by
      rw [List.cons_append, List.cons_append, List.append_assoc] at hrest
      cases hrest
      exact ⟨rfl, rfl⟩
    obtain ⟨rfl, rfl⟩ := hcs
    rw [cut_of_isDigit hd]
    refine ⟨isSpelling_cutNumber _ _, ?_⟩
    have hlength := length_le_cutNumber_fraction c hdigits he hfraction rest
    simp only [List.length_append, List.length_cons]
    omega

/-- A line end is in no class that it does not belong to. -/
theorem newline_notMem {p : Char → Bool} (hp : p '\n' = false) {cs : List Char}
    (hcs : ∀ x ∈ cs, p x) : '\n' ∉ cs := by
  intro hmem
  have hnewline := hcs _ hmem
  rw [hp] at hnewline
  cases hnewline

theorem newline_notMem_fraction {digits fraction : List Char} (hdigits : ∀ x ∈ digits, isDigit x)
    (hfraction : ∀ x ∈ fraction, isDigit x) : '\n' ∉ digits ++ '.' :: fraction := by
  have hlast : '\n' ∉ '.' :: fraction :=
    List.not_mem_cons_of_ne_of_not_mem (by decide) (newline_notMem (p := isDigit) rfl hfraction)
  exact List.not_mem_append (newline_notMem (p := isDigit) rfl hdigits) hlast

/-- A character that starts a word can go on with it. -/
theorem forall_mem_word {c : Char} {cs : List Char} (hc : startsWord c) (hcs : ∀ x ∈ cs, inWord x) :
    ∀ x ∈ c :: cs, inWord x := by
  refine List.forall_mem_cons.mpr ⟨?_, hcs⟩
  rw [inWord, hc]
  rfl

/-- Only a string can hold a line end. -/
theorem Lexeme.newlines {kind : TokenKind} {lexeme : List Char} (h : Lexeme kind lexeme) :
    (Piece.token kind lexeme).newlines = lexeme.count '\n' := by
  have hnone : '\n' ∉ lexeme → (Piece.token kind lexeme).newlines = lexeme.count '\n' :=
    fun hmem => by rw [Piece.newlines_token hmem, List.count_eq_zero.mpr hmem]
  cases h with
  | symbol h =>
    refine hnone ?_
    have hall : ∀ p ∈ symbols, '\n' ∉ p.1 := by decide
    exact hall _ h
  | word hc hcs => exact hnone (newline_notMem (p := inWord) rfl (forall_mem_word hc hcs))
  | string => rfl
  | whole hd hdigits =>
    exact hnone (newline_notMem (p := isDigit) rfl (List.forall_mem_cons.mpr ⟨hd, hdigits⟩))
  | fraction hd hdigits he hfraction =>
    exact hnone (newline_notMem_fraction (List.forall_mem_cons.mpr ⟨hd, hdigits⟩)
      (List.forall_mem_cons.mpr ⟨he, hfraction⟩))

/-- **No line end is missed**: a piece holds none but those that are counted in it. -/
theorem Piece.Stands.newlines {p : Piece} {rest : List Char} (h : p.Stands rest) :
    p.newlines = p.chars.count '\n' := by
  cases h with
  | token h _ _ => exact h.newlines
  | @blank c rest _ =>
    show (if c = '\n' then 1 else 0) = [c].count '\n'
    rw [List.count_singleton]
    simp only [beq_iff_eq]
  | comment hbody _ =>
    refine (List.count_eq_zero.mpr ?_).symm
    exact List.not_mem_cons_of_ne_of_not_mem (by decide)
      (List.not_mem_cons_of_ne_of_not_mem (by decide) hbody)
  | stray _ hblank _ =>
    refine (List.count_eq_zero.mpr ?_).symm
    rintro hmem
    obtain rfl := List.mem_singleton.mp hmem
    exact hblank (by decide)
  | unterminated => rfl

/-! ## §3. What the scanner cuts off. -/

theorem punctuation_mem_symbols {c : Char} {kind : TokenKind} (h : punctuation? c = some kind) :
    ([c], kind) ∈ symbols := by
  have hall : ∀ p ∈ [('(', TokenKind.leftParen), (')', .rightParen), ('{', .leftBrace),
      ('}', .rightBrace), (',', .comma), ('.', .dot), ('-', .minus), ('+', .plus),
      (';', .semicolon), ('*', .star)], ([p.1], p.2) ∈ symbols := by
    simp [symbols]
  exact hall _ (mem_of_lookup h)

theorem operator_mem_symbols {c : Char} {alone withEqual : TokenKind}
    (h : operator? c = some (alone, withEqual)) :
    ([c], alone) ∈ symbols ∧ ([c, '='], withEqual) ∈ symbols := by
  have hall : ∀ p ∈ [('!', TokenKind.bang, TokenKind.bangEqual), ('=', .equal, .equalEqual),
      ('<', .less, .lessEqual), ('>', .greater, .greaterEqual)],
      ([p.1], p.2.1) ∈ symbols ∧ ([p.1, '='], p.2.2) ∈ symbols := by
    simp [symbols]
  exact hall _ (mem_of_lookup h)

/-- **A token that is cut off is a lexeme.** -/
theorem lexeme_of_cut {c : Char} {cs lexeme : List Char} {kind : TokenKind}
    (h : (cut c cs).1 = .token kind lexeme) : Lexeme kind lexeme := by
  unfold cut at h
  split at h
  · next hpunctuation =>
    cases h
    exact .symbol (punctuation_mem_symbols hpunctuation)
  · next hoperator =>
    obtain ⟨halone, hequal⟩ := operator_mem_symbols hoperator
    unfold cutOperator at h
    split at h
    · cases h
      exact .symbol hequal
    · cases h
      exact .symbol halone
  · split at h
    · cases h
    · split at h
      · unfold cutSlash at h
        split at h
        · cases h
        · cases h
          exact .symbol (by simp [symbols])
      · split at h
        · -- the contents of a string end in front of the next quote
          have hstops := stops_dropWhile (· != '"') cs
          have hcontents := notMem_of_bne (forall_mem_takeWhile (· != '"') cs)
          unfold cutString at h
          dsimp only at h
          split at h
          · cases h
          · next quote rest hdrop =>
            cases h
            rw [hdrop] at hstops
            have hquote : quote = '"' := by simpa using hstops quote rfl
            rw [hquote]
            exact .string hcontents
        · split at h
          · next hdigit =>
            have hdigits := forall_mem_takeWhile isDigit cs
            unfold cutNumber at h
            dsimp only at h
            split at h
            · split at h
              · next hd =>
                cases h
                exact .fraction hdigit hdigits hd (forall_mem_takeWhile isDigit _)
              · cases h
                exact .whole hdigit hdigits
            · cases h
              exact .whole hdigit hdigits
          · split at h
            · next hword =>
              cases h
              exact .word hword (forall_mem_takeWhile inWord cs)
            · cases h

theorem takeWhile_eq_self {p : Char → Bool} {cs : List Char} (h : cs.dropWhile p = []) :
    cs.takeWhile p = cs := by
  have hsplit : cs.takeWhile p ++ cs.dropWhile p = cs := List.takeWhile_append_dropWhile
  rwa [h, List.append_nil] at hsplit

/-- What is cut off if it is no token. -/
theorem cut_cases (c : Char) (cs : List Char) :
    (∃ kind lexeme, (cut c cs).1 = .token kind lexeme)
      ∨ c ∈ blanks
      ∨ (∃ rest, c = '/' ∧ cs = '/' :: rest)
      ∨ (c = '"' ∧ '"' ∉ cs)
      ∨ cut c cs = (.stray c, cs) ∧ c ≠ '"' := by
  -- one case for each way of cutting, in the order in which they are tried
  unfold cut
  split
  · exact .inl ⟨_, _, rfl⟩
  · unfold cutOperator
    split
    · exact .inl ⟨_, _, rfl⟩
    · exact .inl ⟨_, _, rfl⟩
  · split
    · next hblank =>
      refine .inr (.inl ?_)
      simpa [isBlank, blanks, or_assoc] using hblank
    · split
      · next hslash =>
        unfold cutSlash
        split
        · exact .inr (.inr (.inl ⟨_, hslash, rfl⟩))
        · exact .inl ⟨_, _, rfl⟩
      · split
        · next hquote =>
          unfold cutString
          dsimp only
          split
          · next hdrop =>
            refine .inr (.inr (.inr (.inl ⟨hquote, notMem_of_bne ?_⟩)))
            have hall := forall_mem_takeWhile (· != '"') cs
            rwa [takeWhile_eq_self hdrop] at hall
          · exact .inl ⟨_, _, rfl⟩
        · next hquote =>
          split
          · unfold cutNumber
            dsimp only
            split
            · split
              · exact .inl ⟨_, _, rfl⟩
              · exact .inl ⟨_, _, rfl⟩
            · exact .inl ⟨_, _, rfl⟩
          · split
            · exact .inl ⟨_, _, rfl⟩
            · exact .inr (.inr (.inr (.inr ⟨rfl, hquote⟩)))

theorem cut_unterminated {cs : List Char} (h : '"' ∉ cs) :
    cut '"' cs = (.unterminated ('"' :: cs), []) := by
  have htake := takeWhile_stops (bne_of_notMem h) (stops_nil _)
  have hdrop := dropWhile_stops (bne_of_notMem h) (stops_nil _)
  rw [List.append_nil] at htake hdrop
  show cutString cs = _
  rw [cutString, htake, hdrop]

/-- **What the scanner cuts off may stand there.** -/
theorem stands_cut (c : Char) (cs : List Char) : (cut c cs).1.Stands (cut c cs).2 := by
  rcases cut_cases c cs with ⟨kind, lexeme, htoken⟩ | hblank | ⟨rest, rfl, rfl⟩ | ⟨rfl, hopen⟩
    | ⟨hstray, hquote⟩
  · have happend := cut_append c cs
    rw [htoken] at happend ⊢
    refine .token (lexeme_of_cut htoken) ?_ ?_
    · intro kind' lexeme' h hstarts
      change lexeme ++ _ = _ at happend
      rw [happend] at hstarts
      have hle := (h.length_le_cut hstarts).2
      rw [htoken] at hle
      exact hle
    · -- two slashes would have been cut off as a comment
      rintro ⟨rest, hrest⟩
      change lexeme ++ _ = _ at happend
      rw [happend] at hrest
      cases hrest
      cases htoken
  · rw [cut_blank hblank]
    exact .blank hblank
  · refine .comment (notMem_of_bne (forall_mem_takeWhile _ rest)) ?_
    intro c hc
    simpa using stops_dropWhile (· != '\n') rest c hc
  · rw [cut_unterminated hopen]
    exact .unterminated hopen
  · rw [hstray]
    refine .stray ?_ ?_ hquote
    · intro kind lexeme h hstarts
      have hspelling := (h.length_le_cut hstarts).1
      rw [hstray] at hspelling
      cases hspelling
    · intro hblank
      rw [cut_blank hblank] at hstray
      cases hstray

/-- **What may stand there is what the scanner cuts off.** -/
theorem Piece.Stands.cut {p : Piece} {rest : List Char} (h : p.Stands rest) :
    ∃ c cs, p.chars ++ rest = c :: cs ∧ Lox.cut c cs = (p, rest) := by
  cases h with
  | @token kind lexeme rest h hlongest hcomment =>
    obtain ⟨c, cs, rfl, -⟩ := h.cut_alone
    refine ⟨c, cs ++ rest, rfl, ?_⟩
    have hspelling := h.length_le_cut (show c :: cs <+: c :: (cs ++ rest) from ⟨rest, rfl⟩)
    have hstands := stands_cut c (cs ++ rest)
    have happend := cut_append c (cs ++ rest)
    generalize Lox.cut c (cs ++ rest) = first at hspelling hstands happend ⊢
    obtain ⟨q, rest'⟩ := first
    obtain ⟨hkind, hle⟩ := hspelling
    dsimp only at hkind hle hstands happend
    cases hstands with
    | token h' =>
      -- each is as long as the other
      have hge := hlongest _ _ h' ⟨rest', happend⟩
      obtain ⟨hlexeme, hrest⟩ := List.append_inj happend (Nat.le_antisymm hge hle)
      cases hlexeme
      cases hrest
      rw [h.kind_unique h']
    | comment => exact absurd ⟨_, happend⟩ hcomment
    | blank | stray | unterminated => cases hkind
  | @blank c rest h => exact ⟨c, rest, rfl, cut_blank h rest⟩
  | comment hbody hrest => exact ⟨'/', _, rfl, cut_comment hbody hrest⟩
  | @stray c rest h hblank hquote =>
    refine ⟨c, rest, rfl, ?_⟩
    rcases cut_cases c rest with ⟨kind, lexeme, htoken⟩ | hblank' | ⟨rest', rfl, rfl⟩ | ⟨hquote', -⟩
      | ⟨hstray, -⟩
    · have happend := cut_append c rest
      rw [htoken] at happend
      exact absurd ⟨_, happend⟩ (h kind lexeme (lexeme_of_cut htoken))
    · exact absurd hblank' hblank
    · exact absurd ⟨_, rfl⟩ (h .slash ['/'] (.symbol (by simp [symbols])))
    · exact absurd hquote' hquote
    · exact hstray
  | @unterminated body h =>
    refine ⟨'"', body, List.append_nil _, cut_unterminated h⟩

/-- **There is one way to cut a text**, and the scanner finds it. -/
theorem tiles_iff_pieces {ps : List Piece} {text : List Char} :
    Tiles ps text ↔ ps = pieces text := by
  constructor
  · intro h
    induction h with
    | nil => rw [pieces, piecesFrom]; rfl
    | cons hp hps ih =>
      obtain ⟨c, cs, htext, hcut⟩ := hp.cut
      rw [htext, pieces_cons, hcut, ← ih]
  · rintro rfl
    -- on the length of the text: what follows the first piece is shorter
    induction hn : text.length using Nat.strongRecOn generalizing text with
    | ind n ih =>
      subst hn
      cases text with
      | nil =>
        rw [pieces, piecesFrom]
        exact .nil
      | cons c cs =>
        have htiles := Tiles.cons (stands_cut c cs) (ih _ (cut_rest_length c cs) rfl)
        rw [cut_append] at htiles
        rw [pieces_cons]
        exact htiles

theorem Tiles.flatMap {ps : List Piece} {text : List Char} (h : Tiles ps text) :
    ps.flatMap Piece.chars = text := by
  induction h with
  | nil => rfl
  | cons hp hps ih => rw [List.flatMap_cons, ih]

/-- A piece among those that a text consists of. -/
theorem Tiles.stands_of_append {front back : List Piece} {p : Piece} {text : List Char}
    (h : Tiles (front ++ p :: back) text) :
    ∃ after, text = front.flatMap Piece.chars ++ (p.chars ++ after) ∧ p.Stands after := by
  induction front generalizing text with
  | nil =>
    cases h with
    | cons hp hps => exact ⟨_, rfl, hp⟩
  | cons q front ih =>
    cases h with
    | cons hq hps =>
      obtain ⟨after, rfl, hp⟩ := ih hps
      refine ⟨after, ?_, hp⟩
      rw [List.flatMap_cons, List.append_assoc]

/-- **The tokens of a text are lexemes.** -/
theorem lexeme_of_mem_pieces {kind : TokenKind} {lexeme text : List Char}
    (h : .token kind lexeme ∈ pieces text) : Lexeme kind lexeme := by
  refine forall_mem_pieces (P := fun p => ∀ kind lexeme, p = .token kind lexeme →
    Lexeme kind lexeme) ?_ text _ h kind lexeme rfl
  exact fun c cs kind lexeme => lexeme_of_cut

theorem TokenKind.ofWord_ne_string (word contents : String) :
    TokenKind.ofWord word ≠ .string contents := by
  unfold TokenKind.ofWord
  cases hlookup : TokenKind.keywords.lookup word with
  | none => exact fun h => nomatch h
  | some kind =>
    have hall : ∀ p ∈ TokenKind.keywords, ∀ contents, p.2 ≠ .string contents := by
      simp [TokenKind.keywords]
    exact hall _ (mem_of_lookup hlookup) contents

/-- The value of a string is what stands between its quotes. -/
theorem Lexeme.string_inv {contents : String} {lexeme : List Char}
    (h : Lexeme (.string contents) lexeme) :
    ∃ cs, lexeme = '"' :: cs ++ ['"'] ∧ contents = String.ofList cs := by
  generalize hkind : TokenKind.string contents = kind at h
  cases h with
  | symbol h =>
    subst hkind
    simp [symbols] at h
  | word => exact absurd hkind.symm (TokenKind.ofWord_ne_string _ contents)
  | string =>
    cases hkind
    exact ⟨_, rfl, rfl⟩
  | whole | fraction => cases hkind

end Lox
