/-
  Lox.Proofs.Octets.Pieces
  ────────────────────────
  **READING A PIECE.**

  In front of a text a scanner does what cutting the first piece off does (`cut`): it
  fails where that piece is a failure, and otherwise its cursor ends up behind the
  piece, with the line ends in it counted and the kind of a token noted (`told`).

  Main results:
    * `Begun.string_eq`, `Begun.number_eq`, `Begun.word_eq`, …: each kind of piece.
    * `scanToken_eq`: one piece, from its first octet to its last.
-/
import Lox.Proofs.Octets.Loops

namespace Lox.Octets

open Scanner

variable {source : String} {before : List Char} {s : State}

/-! ## §1. Pieces. -/

/-- Where a scanner is behind a piece that has started. -/
def State.behind (s : State) (p : Piece) : State :=
  { s with curr := s.start + octets p.chars, line := s.line + p.newlines }

/-- **What reading a piece comes to** once it has started. -/
def told (p : Piece) (s : State) : Outcome Unit :=
  match p with
  | .token kind _ => .done () { s.behind p with pending := some kind }
  | .blank _ | .comment _ => .done () (s.behind p)
  | .stray c => .failed (.lexical (s.behind p).line (.unexpected c)) (s.behind p)
  | .unterminated _ => .failed (.lexical (s.behind p).line .unterminated) (s.behind p)

/-! ## §2. Numerals and words. -/

/-- The value of a numeral without a point. -/
theorem numeral?_whole {digits : List Char} (hne : digits ≠ [])
    (hdigits : ∀ c ∈ digits, isDigit c) :
    numeral? (String.ofList digits) = some (Decimal.toFloat (digitsValue digits) 0) := by
  have htake := takeWhile_stops hdigits (stops_nil _)
  have hdrop := dropWhile_stops hdigits (stops_nil _)
  rw [List.append_nil] at htake hdrop
  unfold numeral?
  rw [String.toList_ofList, htake, hdrop]
  show (if digits.isEmpty = true then _ else _) = _
  rw [if_neg (by simpa using hne)]

/-- The value of a numeral with a point inside. -/
theorem numeral?_fraction {digits fraction : List Char} (hne : digits ≠ [])
    (hdigits : ∀ c ∈ digits, isDigit c) (hfraction : ∀ c ∈ fraction, isDigit c) :
    numeral? (String.ofList (digits ++ '.' :: fraction))
      = some (Decimal.toFloat (digitsValue (digits ++ fraction)) fraction.length) := by
  have hstops : Stops isDigit ('.' :: fraction) := by
    rintro c ⟨⟩
    rfl
  have hall : fraction.all isDigit = true := List.all_eq_true.mpr hfraction
  have hsome : (digits ++ fraction).isEmpty = false := by
    cases digits with
    | nil => exact absurd rfl hne
    | cons => rfl
  unfold numeral?
  rw [String.toList_ofList, takeWhile_stops hdigits hstops, dropWhile_stops hdigits hstops]
  show (if (fraction.all isDigit && !(digits ++ fraction).isEmpty) = true then _ else _) = _
  rw [hall, hsome]
  rfl

theorem le_iff_toNat (c d : Char) : c ≤ d ↔ c.toNat ≤ d.toNat :=
  UInt32.le_iff_toNat_le

/-- Digits and the characters of words are plain. -/
theorem plain_of_isDigit (c : Char) (hc : isDigit c) : Plain c := by
  unfold isDigit at hc
  simp only [Bool.and_eq_true, decide_eq_true_eq, le_iff_toNat] at hc
  have hle : c.toNat ≤ 57 := hc.2
  have hge : 48 ≤ c.toNat := hc.1
  exact ⟨by omega, by omega⟩

theorem plain_of_startsWord (c : Char) (hc : startsWord c) : Plain c := by
  unfold startsWord at hc
  simp only [Bool.or_eq_true, Bool.and_eq_true, decide_eq_true_eq, le_iff_toNat, beq_iff_eq] at hc
  rcases hc with (⟨hge, hle⟩ | ⟨hge, hle⟩) | rfl
  · exact ⟨Nat.lt_of_lt_of_le (by decide) hge, Nat.lt_of_le_of_lt hle (by decide)⟩
  · exact ⟨Nat.lt_of_lt_of_le (by decide) hge, Nat.lt_of_le_of_lt hle (by decide)⟩
  · decide

theorem plain_of_inWord (c : Char) (hc : inWord c) : Plain c := by
  unfold inWord at hc
  rw [Bool.or_eq_true] at hc
  exact hc.elim (plain_of_startsWord c) (plain_of_isDigit c)

theorem hasFraction_iff {cs : List Char} :
    hasFraction cs = true ↔ ∃ d rest, cs = '.' :: d :: rest ∧ isDigit d := by
  unfold hasFraction
  split
  · simp
  · next hnone =>
    simp only [Bool.false_eq_true, false_iff, not_exists, not_and]
    rintro d rest rfl
    exact absurd rfl (hnone d rest)

/-- Two octets tell whether there is a point with a digit behind it. -/
theorem point_eq {after : List Char} (h : Between source before after s.curr) :
    ∃ b b', peek source s = .done b s ∧ peekNext source s = .done b' s
      ∧ (b == '.'.toUInt8 && isCode isDigit b') = hasFraction after := by
  refine ⟨_, _, peek_eq h.ahead, rfl, ?_⟩
  rw [peek_beq (by decide)]
  cases after with
  | nil => rfl
  | cons d cs =>
    by_cases hd : d = '.'
    · subst hd
      have hahead : Ahead source (s.past 1 0) (encoded cs) := (h.step (by decide)).ahead
      have hoctet : source.toUTF8[s.curr + 1]? = (encoded cs).head? := hahead.octet
      rw [hoctet, peek_isCode plain_of_isDigit]
      cases cs with
      | nil => rfl
      | cons e cs => rfl
    · rw [hasFraction_of_ne hd]
      show ((d == '.') && _) = false
      rw [beq_eq_false_iff_ne.mpr hd]
      rfl

/-- A keyword is found by its octets as it is by its characters. -/
theorem keyword?_getD (word : String) :
    (keyword? word.toUTF8).getD .identifier = .ofWord word := by
  have hlookup : ∀ entries : List (String × TokenKind),
      (entries.find? fun p => p.1.toUTF8.data == word.toUTF8.data).map Prod.snd
        = entries.lookup word := by
    intro entries
    induction entries with
    | nil => rfl
    | cons p entries ih =>
      obtain ⟨w, kind⟩ := p
      rw [List.find?_cons, List.lookup_cons]
      by_cases h : word = w
      · subst h
        simp
      · have hne : ¬ w.toUTF8.data = word.toUTF8.data :=
          fun heq => h (String.toByteArray_inj.mp (ByteArray.ext heq)).symm
        rw [beq_eq_false_iff_ne.mpr hne, beq_eq_false_iff_ne.mpr h]
        exact ih
  unfold keyword? TokenKind.ofWord
  rw [hlookup]

/-! ## §3. Each kind of piece. -/

/-- The first character of a piece has been read, one below 128. -/
structure Begun (source : String) (before : List Char) (c : Char) (cs : List Char) (s : State) :
    Prop where
  between : Between source before (c :: cs) s.start
  small : c.toNat < 128
  curr : s.curr = s.start + 1

namespace Begun

variable {c : Char} {cs : List Char} (h : Begun source before c cs s)
include h

theorem rest : Between source (before ++ [c]) cs s.curr := by
  have hmove : Between source (before ++ [c]) cs (s.start + octets [c]) := h.between.move
  rw [octets_cons, utf8Size_of_lt h.small] at hmove
  rw [h.curr]
  exact hmove

/-- What comes after some more characters. -/
theorem further {cs' after : List Char} (hcs : cs = cs' ++ after) (lines : Nat) :
    Between source (before ++ [c] ++ cs') after (s.past (octets cs') lines).curr := by
  have hrest := h.rest
  rw [hcs] at hrest
  exact hrest.move

theorem behind_eq {p : Piece} {cs' : List Char} (hp : p.chars = c :: cs') :
    s.behind p = s.past (octets cs') p.newlines := by
  unfold State.behind State.past
  rw [hp, octets_cons, utf8Size_of_lt h.small, ← Nat.add_assoc, ← h.curr]

/-- The places between which a piece stands. -/
theorem stop_eq (cs' : List Char) (lines : Nat) :
    (s.past (octets cs') lines).curr = s.start + octets (c :: cs') := by
  rw [octets_cons, utf8Size_of_lt h.small, ← Nat.add_assoc, ← h.curr]
  rfl

/-- A token on one line. -/
theorem told_token {kind : TokenKind} {cs' : List Char} (hline : '\n' ∉ c :: cs') :
    told (.token kind (c :: cs')) s
      = .done () { s.past (octets cs') 0 with pending := some kind } := by
  unfold told
  rw [h.behind_eq rfl, Piece.newlines_token hline]

/-- A token of one character. -/
theorem emit_eq (kind : TokenKind) (hc : c ≠ '\n') :
    emit kind source s = told (.token kind [c]) s := by
  rw [h.told_token (by simpa using hc.symm)]
  rfl

/-- An operator, longer or not. -/
theorem pick_eq (withEqual alone : TokenKind) (hc : c ≠ '\n') :
    pick withEqual alone source s = told (cutOperator c alone withEqual cs).1 s := by
  rcases stops_or_cons '=' cs with hstops | ⟨rest, rfl⟩
  · rw [cutOperator_stops hstops, ← h.emit_eq alone hc]
    exact bind_done (accept_stops h.rest (by decide) hstops)
  · refine (bind_done (accept_cons h.rest (by decide))).trans ?_
    have hline : '\n' ∉ c :: ['='] := by simpa using hc.symm
    exact (h.told_token hline).symm

/-- A slash, or a comment. -/
theorem slash_eq (hc : c = '/') :
    (do if ← accept '/' then skipLine else emit .slash : Scanner Unit) source s
      = told (cutSlash cs).1 s := by
  subst hc
  rcases stops_or_cons '/' cs with hstops | ⟨rest, rfl⟩
  · rw [cutSlash_stops hstops, ← h.emit_eq .slash (by decide)]
    exact bind_done (accept_stops h.rest (by decide) hstops)
  · have hslashes : '/' :: rest = ['/'] ++ rest := rfl
    have hrest := h.further hslashes 0
    have hone : octets ['/'] = 1 := rfl
    refine (bind_done (accept_cons h.rest (by decide))).trans ?_
    refine (skipLine_eq hrest).trans ?_
    show _ = Outcome.done () (s.behind (.comment ('/' :: '/' :: rest.takeWhile (· != '\n'))))
    rw [h.behind_eq rfl, State.past_past, ← octets_append]
    rfl

/-- A string, if it ends. -/
theorem string_eq {fuel : Nat} (hc : c = '"') (hfuel : octets cs < fuel) :
    string fuel source s = told (cutString cs).1 s := by
  subst hc
  obtain ⟨contents, tail, rfl, hcontents, hstops⟩ := exists_stops (· != '"') cs
  have htaken := takeContents_eq h.rest hfuel
  have hfurther := h.further rfl (contents.count '\n')
  unfold cutString
  rw [takeWhile_stops hcontents hstops] at htaken ⊢
  rw [dropWhile_stops hcontents hstops]
  refine (bind_done htaken).trans ?_
  refine (bind_done (isAtEnd_eq hfurther.ahead)).trans ?_
  cases tail with
  | nil =>
    show Outcome.failed _ _ = told (.unterminated ('"' :: contents)) s
    unfold told
    dsimp only
    rw [h.behind_eq rfl, Piece.newlines, List.count_cons]
    rfl
  | cons quote rest =>
    have hquote : quote = '"' := by simpa using hstops quote rfl
    subst hquote
    have hahead : Ahead source (s.past (octets contents) (contents.count '\n'))
      ('"'.toUInt8 :: encoded rest) := hfurther.ahead.trans (encoded_cons_of_lt (by decide) rest)
    rw [isEmpty_encoded]
    refine (bind_done (advance_eq hahead)).trans ?_
    refine (bind_done (p := state) rfl).trans ?_
    -- between the quotes stand the contents
    have hslice := slice_eq (s := (s.past (octets contents) (contents.count '\n')).past 1 0) h.rest
    rw [h.curr] at hslice
    have hstop : ((s.past (octets contents) (contents.count '\n')).past 1 0).curr - 1
        = s.start + 1 + octets contents := by
      show s.curr + octets contents + 1 - 1 = _
      rw [h.curr, Nat.add_sub_cancel]
    rw [← hstop] at hslice
    refine (bind_done hslice).trans ?_
    have hnewlines : ('"' :: (contents ++ ['"'])).count '\n' = contents.count '\n' := by
      rw [List.count_cons_of_ne (by decide), List.count_append]
      rfl
    have hbehind := h.behind_eq (p := .token (.string (String.ofList contents))
      ('"' :: (contents ++ ['"']))) rfl
    rw [Piece.newlines, hnewlines] at hbehind
    show _ = Outcome.done () { s.behind (.token (.string (String.ofList contents))
      ('"' :: (contents ++ ['"']))) with pending := _ }
    rw [hbehind, octets_append, State.past_past]
    rfl

/-- The end of a number. -/
theorem emitNumber_eq {cs' after : List Char} {value : Float} (hcs : cs = cs' ++ after)
    (hline : '\n' ∉ c :: cs') (hvalue : numeral? (String.ofList (c :: cs')) = some value) :
    emitNumber source (s.past (octets cs') 0) = told (.token (.number value) (c :: cs')) s := by
  subst hcs
  have hlexeme : Between source before ((c :: cs') ++ after) s.start := h.between
  have hslice := slice_eq (s := s.past (octets cs') 0) hlexeme
  rw [← h.stop_eq cs' 0] at hslice
  refine (bind_done (p := state) rfl).trans ((bind_done hslice).trans ?_)
  rw [hvalue]
  exact (h.told_token hline).symm

/-- The point of a number, and the digits after it. -/
theorem fraction_eq {fuel : Nat} {digits rest : List Char} {e : Char}
    (hcs : cs = digits ++ '.' :: e :: rest) (hc : isDigit c) (hdigits : ∀ x ∈ digits, isDigit x)
    (he : isDigit e) (hfuel : octets (e :: rest) < fuel) :
    (do let _ ← advance; takeWhile isDigit fuel; emitNumber : Scanner Unit) source
        (s.past (octets digits) 0) = told (cutNumber c cs).1 s := by
  obtain ⟨decimals, tail, rfl, hall, hstops⟩ := exists_stops isDigit rest
  have hfurther := h.further hcs 0
  have hahead : Ahead source (s.past (octets digits) 0)
      ('.'.toUInt8 :: encoded (e :: (decimals ++ tail))) :=
    hfurther.ahead.trans (encoded_cons_of_lt (by decide) _)
  have hbehind : Between source _ ((e :: decimals) ++ tail)
      ((s.past (octets digits) 0).past 1 0).curr := hfurther.step (by decide)
  have hdecimals : ∀ x ∈ e :: decimals, isDigit x := List.forall_mem_cons.mpr ⟨he, hall⟩
  refine (bind_done (advance_eq hahead)).trans ?_
  refine (bind_done (takeWhile_append plain_of_isDigit hbehind hdecimals hstops hfuel)).trans ?_
  -- both together are the numeral
  have hplace : ((s.past (octets digits) 0).past 1 0).past (octets (e :: decimals)) 0
      = s.past (octets (digits ++ '.' :: e :: decimals)) 0 := by
    rw [State.past_past, State.past_past, octets_append, octets_cons '.',
      utf8Size_of_lt (by decide)]
  have hwhole : ∀ x ∈ c :: digits, isDigit x := List.forall_mem_cons.mpr ⟨hc, hdigits⟩
  have hlexeme : c :: digits ++ '.' :: e :: decimals = c :: (digits ++ '.' :: e :: decimals) :=
    List.cons_append
  have hline := newline_notMem_fraction hwhole hdecimals
  have hvalue := numeral?_fraction (List.cons_ne_nil c digits) hwhole hdecimals
  rw [hlexeme] at hline hvalue
  have hnumeral : cs = (digits ++ '.' :: e :: decimals) ++ tail :=
    hcs.trans (List.append_assoc digits ('.' :: e :: decimals) tail).symm
  rw [hplace, hcs, cutNumber_fraction hdigits he hall hstops, numberKind, hlexeme]
  exact h.emitNumber_eq hnumeral hline hvalue

/-- A number, with its fraction if it has one. -/
theorem number_eq {fuel : Nat} (hc : isDigit c) (hfuel : octets cs < fuel) :
    number fuel source s = told (cutNumber c cs).1 s := by
  obtain ⟨digits, tail, rfl, hdigits, hstops⟩ := exists_stops isDigit cs
  refine (bind_done (takeWhile_append plain_of_isDigit h.rest hdigits hstops hfuel)).trans ?_
  obtain ⟨b, b', hpeek, hpeekNext, hpoint⟩ := point_eq (h.further rfl 0)
  refine (bind_done hpeek).trans ((bind_done hpeekNext).trans ?_)
  dsimp only
  rw [hpoint]
  cases hfraction : hasFraction tail with
  | false =>
    have hwhole : ∀ x ∈ c :: digits, isDigit x := List.forall_mem_cons.mpr ⟨hc, hdigits⟩
    have hkind : numberKind (c :: digits) []
        = .number (Decimal.toFloat (digitsValue (c :: digits)) 0) := by
      rw [numberKind, List.append_nil]
      rfl
    rw [cutNumber_whole hdigits hstops hfraction, hkind]
    exact h.emitNumber_eq rfl (newline_notMem (p := isDigit) rfl hwhole)
      (numeral?_whole (List.cons_ne_nil c digits) hwhole)
  | true =>
    obtain ⟨e, rest, rfl, he⟩ := hasFraction_iff.mp hfraction
    refine h.fraction_eq rfl hc hdigits he ?_
    rw [octets_append, octets_cons '.'] at hfuel
    omega

/-- A word. -/
theorem word_eq {fuel : Nat} (hc : startsWord c) (hfuel : octets cs < fuel) :
    word fuel source s = told (cutWord c cs).1 s := by
  obtain ⟨name, tail, rfl, hname, hstops⟩ := exists_stops inWord cs
  refine (bind_done (takeWhile_append plain_of_inWord h.rest hname hstops hfuel)).trans ?_
  refine (bind_done (p := state) rfl).trans ?_
  have hlexeme : Between source before ((c :: name) ++ tail) s.start := h.between
  have hoctets := octetsBetween_eq (s := s.past (octets name) 0) hlexeme
  rw [← h.stop_eq] at hoctets
  refine (bind_done hoctets).trans ?_
  rw [keyword?_getD, cutWord_stops hname hstops]
  have hline : '\n' ∉ c :: name := newline_notMem (p := inWord) rfl (forall_mem_word hc hname)
  exact (h.told_token hline).symm

end Begun

/-- A character with which nothing starts, whatever has been read of it. -/
theorem stray_eq {c : Char} {cs : List Char} (h : Between source before (c :: cs) s.start) :
    stray source s = told (.stray c) s := by
  have hall : Between source before ((c :: cs) ++ []) s.start := by rwa [List.append_nil]
  have hslice := slice_eq (s := s) hall
  rw [← h.size] at hslice
  refine (bind_done (p := state) rfl).trans ((bind_done (p := size) rfl).trans ?_)
  refine (bind_done hslice).trans ?_
  have hhead : (String.ofList (c :: cs)).toList.head?.getD '\uFFFD' = c := by
    rw [String.toList_ofList]
    rfl
  rw [hhead]
  unfold told State.behind
  rw [Piece.chars, octets_cons]
  rfl

/-! ## §4. Which kind it is. -/

/-- From 128 on there is no character that the language knows. -/
theorem unknown_of_ge {c : Char} (h : 128 ≤ c.toNat) :
    punctuation? c = none ∧ operator? c = none ∧ isBlank c = false ∧ c ≠ '/' ∧ c ≠ '"'
      ∧ isDigit c = false ∧ startsWord c = false := by
  have hne : ∀ d : Char, Plain d → c ≠ d := by
    rintro d hd rfl
    exact absurd hd.2 (Nat.not_lt.mpr h)
  have hnone : ∀ {p : Char → Bool}, (∀ d, p d → Plain d) → p c = false := fun hp =>
    Bool.eq_false_iff.mpr fun hc => hne c (hp c hc) rfl
  have hlookup : ∀ {α : Type} {entries : List (Char × α)}, (∀ p ∈ entries, Plain p.1) →
      entries.lookup c = none := by
    intro α entries hentries
    rw [List.lookup_eq_none_iff]
    exact fun p hp => bne_iff_ne.mpr (hne p.1 (hentries p hp))
  refine ⟨hlookup (by simp only [List.forall_mem_cons]; decide),
    hlookup (by simp only [List.forall_mem_cons]; decide), hnone ?_, hne _ (by decide),
    hne _ (by decide), hnone plain_of_isDigit, hnone plain_of_startsWord⟩
  intro d hd
  simp only [isBlank, Bool.or_eq_true, beq_iff_eq] at hd
  rcases hd with ((rfl | rfl) | rfl) | rfl <;> decide

theorem cut_of_ge {c : Char} (h : 128 ≤ c.toNat) (cs : List Char) :
    cut c cs = (.stray c, cs) := by
  obtain ⟨hpunctuation, hoperator, hblank, hslash, hquote, hdigit, hword⟩ := unknown_of_ge h
  unfold cut
  rw [hpunctuation, hoperator]
  simp [hblank, hslash, hquote, hdigit, hword]

theorem scanFrom_of_ge {c : Char} (h : 128 ≤ c.toNat) (fuel : Nat) : scanFrom c fuel = stray := by
  obtain ⟨hpunctuation, hoperator, hblank, hslash, hquote, hdigit, hword⟩ := unknown_of_ge h
  simp only [isBlank, Bool.or_eq_false_iff, beq_eq_false_iff_ne] at hblank
  unfold scanFrom
  rw [hpunctuation, hoperator]
  simp [hblank, hslash, hquote, hdigit, hword]

/-- A blank, which may be a line end. -/
theorem Begun.blank_eq {c : Char} {cs : List Char} (h : Begun source before c cs s) :
    told (.blank c) s = .done () (s.past 0 (if c = '\n' then 1 else 0)) := by
  have hchars : (Piece.blank c).chars = c :: [] := rfl
  exact congrArg (Outcome.done ()) (h.behind_eq hchars)

/-- **A piece is read** from its second octet on. -/
theorem Begun.scanFrom_eq {c : Char} {cs : List Char} {fuel : Nat}
    (h : Begun source before c cs s) (hfuel : octets cs < fuel) :
    scanFrom c fuel source s = told (cut c cs).1 s := by
  unfold scanFrom cut
  cases hpunctuation : punctuation? c with
  | some kind =>
    refine h.emit_eq kind ?_
    rintro rfl
    cases hpunctuation
  | none =>
    cases hoperator : operator? c with
    | some kinds =>
      refine h.pick_eq kinds.2 kinds.1 ?_
      rintro rfl
      cases hoperator
    | none =>
      dsimp only
      by_cases hblank : isBlank c = true
      · rw [if_pos hblank, h.blank_eq]
        simp only [isBlank, Bool.or_eq_true, beq_iff_eq] at hblank
        rcases hblank with ((rfl | rfl) | rfl) | rfl <;> rfl
      · have hno : ¬ (c = ' ' ∨ c = '\r' ∨ c = '\t') ∧ c ≠ '\n' := by
          simpa [isBlank, and_assoc] using hblank
        rw [if_neg hblank, if_neg hno.1, if_neg hno.2]
        -- what is left is decided in one order on both sides
        split
        · next hc => exact h.slash_eq hc
        · split
          · next hc => exact h.string_eq hc hfuel
          · split
            · next hc => exact h.number_eq hc hfuel
            · split
              · next hc => exact h.word_eq hc hfuel
              · exact stray_eq h.between

theorem told_past (p : Piece) (s : State) (n : Nat) : told p (s.past n 0) = told p s := by
  cases p <;> rfl

/-- **One piece is read**, from its first octet to its last. -/
theorem scanToken_eq {c : Char} {cs : List Char} {fuel : Nat}
    (h : Between source before (c :: cs) s.start) (hs : s.curr = s.start)
    (hfuel : octets cs < fuel) : scanToken fuel source s = told (cut c cs).1 s := by
  rw [← hs] at h
  obtain ⟨b, bytes, hbytes, hb⟩ := exists_encoded_cons c cs
  have hahead : Ahead source s (b :: bytes) := h.ahead.trans hbytes
  have hcode : (Char.ofUInt8 b).toNat = b.toNat := rfl
  refine (bind_done (advance_eq hahead)).trans ?_
  rw [← told_past _ s 1]
  rcases octet_cases hb with ⟨hlt, -, heq⟩ | ⟨hge, hbyte⟩
  · have hchar : Char.ofUInt8 b = c := Char.toNat_inj.mp (hcode.trans heq)
    rw [hchar]
    have hbegun : Begun source before c cs (s.past 1 0) :=
      ⟨hs ▸ h, hlt, congrArg (· + 1) hs⟩
    exact hbegun.scanFrom_eq hfuel
  · rw [scanFrom_of_ge (hcode.symm ▸ hbyte), cut_of_ge hge]
    exact stray_eq (s := s.past 1 0) (hs ▸ h)

end Lox.Octets
