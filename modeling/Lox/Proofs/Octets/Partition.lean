/-
  Lox.Proofs.Octets.Partition
  ───────────────────────────
  **SCANNING CUTS A SOURCE INTO LEXEMES, AND NEVER GOES WRONG.**

  A scanner in front of a text has the items of its pieces left, and the end of the
  input (`Left`).  Asked for one, it yields the first of them and has the others left;
  behind the end of the input it has none, and stays where it is.  In between it passes
  over the pieces that yield nothing, and each of them is an octet less, so it
  comes to an end.

  Main results:
    * `next_left`: one request.
    * `ask_eq`: all requests, one after another.
    * `scan_partitions`: there is one way to cut a source, the scanner reads its pieces one
      by one, and its items are theirs.
-/
import Lox.Proofs.Octets.Pieces

namespace Lox

namespace Octets

open Scanner

variable {source : String}

/-! ## §1. One request. -/

/-- The items of a text from a line on, and the end of the input. -/
def itemsAhead (line : Nat) (text : List Char) : List Item :=
  itemsOf line (pieces text) ++ [.token ⟨.eof, "", lineAfter line (pieces text)⟩]

theorem itemsAhead_nil (line : Nat) : itemsAhead line [] = [.token ⟨.eof, "", line⟩] := by
  rw [itemsAhead, pieces, piecesFrom]
  rfl

theorem itemsAhead_cons (line : Nat) (c : Char) (cs : List Char) :
    itemsAhead line (c :: cs) = ((cut c cs).1.item? line).toList
      ++ itemsAhead (line + (cut c cs).1.newlines) (cut c cs).2 := by
  rw [itemsAhead, pieces_cons, itemsOf, List.append_assoc]
  rfl

/-- **The items that a scanner has left**: those of the text ahead and the end of the input,
or none behind it. -/
inductive Left (source : String) (s : State) : List Item → Prop
  | before {before after : List Char} (h : Between source before after s.curr) :
      Left source s (itemsAhead s.line after)
  | behind (h : s.curr = source.utf8ByteSize + 1) : Left source s []

/-- Where a scanner begins a piece. -/
def State.begun (s : State) : State :=
  { s with start := s.curr, pending := none }

theorem attempt_done {p : Scanner Unit} {s s' : State} (h : p source s = .done () s') :
    attempt p source s = .done none s' := by
  rw [attempt, h]

theorem attempt_failed {p : Scanner Unit} {d : Diagnostic} {s s' : State}
    (h : p source s = .failed d s') : attempt p source s = .done (some d) s' := by
  rw [attempt, h]

/-- **The round of a piece.**  A piece that yields an item is the last one. -/
theorem next_piece {before : List Char} {c : Char} {cs : List Char} {s : State} {fuel : Nat}
    (h : Between source before (c :: cs) s.curr) (hfuel : octets cs < fuel) :
    ∃ s', s'.curr = s.curr + octets (cut c cs).1.chars
      ∧ s'.line = s.line + (cut c cs).1.newlines
      ∧ next (fuel + 1) source s
        = match (cut c cs).1.item? s.line with
          | some item => .done (some item) s'
          | none => next fuel source s' := by
  have hsize := h.size
  have hoctets := octets_cons c cs
  have hpos := c.utf8Size_pos
  have hread : scanToken fuel source s.begun = told (cut c cs).1 s.begun :=
    scanToken_eq h rfl hfuel
  have happend := cut_append c cs
  rw [next]
  generalize (cut c cs).1 = p at hread happend ⊢
  refine ⟨{ s.begun.behind p with pending := none }, rfl, rfl, ?_⟩
  refine (bind_done (p := state) rfl).trans ((bind_done (p := size) rfl).trans ?_)
  rw [if_neg (by omega), if_neg (by omega)]
  refine (bind_done (show begin source s = .done () s.begun from rfl)).trans ?_
  cases p with
  | token kind lexeme =>
    have hlexeme : Between source before (lexeme ++ (cut c cs).2) s.curr := happend.symm ▸ h
    refine (bind_done (attempt_done hread)).trans ((bind_done (p := takePending) rfl).trans ?_)
    refine (bind_done (p := state) rfl).trans ?_
    exact bind_done (slice_eq hlexeme)
  | blank c =>
    refine (bind_done (attempt_done hread)).trans ?_
    exact bind_done (p := takePending) rfl
  | comment chars =>
    refine (bind_done (attempt_done hread)).trans ?_
    exact bind_done (p := takePending) rfl
  | stray c => exact bind_done (attempt_failed hread)
  | unterminated chars => exact bind_done (attempt_failed hread)

/-- A piece takes an octet at least. -/
theorem octets_cut_rest (c : Char) (cs : List Char) :
    octets (cut c cs).2 < octets (c :: cs) := by
  obtain ⟨chars, hchars⟩ := cut_chars_head c cs
  have happend := congrArg octets (cut_append c cs)
  have hpos := c.utf8Size_pos
  rw [octets_append, hchars, octets_cons] at happend
  omega

/-- A request in front of a text. -/
theorem next_before {before after : List Char} {s : State} {fuel : Nat}
    (h : Between source before after s.curr) (hfuel : octets after < fuel) :
    ∃ s', next fuel source s = .done (itemsAhead s.line after).head? s'
      ∧ Left source s' (itemsAhead s.line after).tail := by
  -- on the rounds, of which each takes an octet at least
  induction fuel generalizing before after s with
  | zero => exact absurd hfuel (Nat.not_lt_zero _)
  | succ fuel ih =>
    cases after with
    | nil =>
      have hend : source.utf8ByteSize = s.curr := h.size
      rw [itemsAhead_nil, next]
      refine ⟨s.past 1 0, ?_, .behind (congrArg (· + 1) hend.symm)⟩
      refine (bind_done (p := state) rfl).trans ((bind_done (p := size) rfl).trans ?_)
      rw [if_neg (by omega), if_pos hend.symm]
      rfl
    | cons c cs =>
      have hoctets := octets_cons c cs
      have hpos := c.utf8Size_pos
      have hrest := octets_cut_rest c cs
      obtain ⟨s', hcurr, hline, hnext⟩ := next_piece h (by omega : octets cs < fuel)
      have htext : Between source before ((cut c cs).1.chars ++ (cut c cs).2) s.curr :=
        (cut_append c cs).symm ▸ h
      have hbehind : Between source _ (cut c cs).2 s'.curr := hcurr ▸ htext.move
      rw [hnext, itemsAhead_cons, ← hline]
      cases (cut c cs).1.item? s.line with
      | some item => exact ⟨s', rfl, .before hbehind⟩
      | none => exact ih hbehind (by omega)

/-- **One request**: the first of the items that are left. -/
theorem next_left {items : List Item} {s : State} {fuel : Nat} (h : Left source s items)
    (hfuel : source.utf8ByteSize < fuel) :
    ∃ s', next fuel source s = .done items.head? s' ∧ Left source s' items.tail := by
  cases h with
  | before h =>
    refine next_before h ?_
    have hsize := h.size
    omega
  | behind h =>
    obtain ⟨fuel, rfl⟩ := Nat.exists_eq_succ_of_ne_zero (Nat.ne_zero_of_lt hfuel)
    refine ⟨s, ?_, .behind h⟩
    rw [next]
    refine (bind_done (p := state) rfl).trans ((bind_done (p := size) rfl).trans ?_)
    rw [if_pos (by omega)]
    rfl

/-! ## §2. All requests. -/

theorem ask_eq {items : List Item} {s : State} {fuel : Nat} (h : Left source s items)
    (hfuel : source.utf8ByteSize < fuel) (n : Nat) :
    ∃ s', ask fuel n source s = .done items[n]? s' ∧ Left source s' (items.drop (n + 1)) := by
  induction n generalizing items s with
  | zero =>
    obtain ⟨s', hnext, hleft⟩ := next_left h hfuel
    refine ⟨s', ?_, ?_⟩
    · rw [← List.head?_eq_getElem?]
      exact hnext
    · rw [List.drop_one]
      exact hleft
  | succ n ih =>
    obtain ⟨s', hnext, hleft⟩ := next_left h hfuel
    obtain ⟨s'', hask, hleft'⟩ := ih hleft
    refine ⟨s'', ?_, ?_⟩
    · refine (bind_done hnext).trans ?_
      rw [← List.getElem?_tail]
      exact hask
    · rw [← List.drop_tail]
      exact hleft'

/-- The cursor is behind the end of the source if no item is left, and only then. -/
theorem Left.latched_iff {items : List Item} {s : State} (h : Left source s items) :
    s.curr = source.utf8ByteSize + 1 ↔ items = [] := by
  cases h with
  | before h =>
    have hsize := h.size
    refine iff_of_false (by omega) ?_
    rw [itemsAhead]
    exact List.concat_ne_nil _ _
  | behind h => exact iff_of_true h rfl

/-- **A scanner that is asked again and again yields the items of the source** in order, and
then nothing for ever. -/
theorem ask_scan (source : String) {fuel : Nat} (hfuel : source.utf8ByteSize < fuel) (n : Nat) :
    ∃ s, ask fuel n source .new = .done (scan source)[n]? s
      ∧ (s.curr = source.utf8ByteSize + 1 ↔ (scan source).length ≤ n + 1) := by
  have hleft : Left source .new (scan source) := by
    rw [scan_eq]
    exact .before (Between.start source)
  obtain ⟨s, hask, hrest⟩ := ask_eq hleft hfuel n
  refine ⟨s, hask, ?_⟩
  rw [hrest.latched_iff, List.drop_eq_nil_iff]

/-- A piece of a source is read where it stands. -/
theorem scanToken_piece {before after : List Piece} {p : Piece}
    (h : pieces source.toList = before ++ p :: after) {s : State} {fuel : Nat}
    (hs : s.curr = octets (before.flatMap Piece.chars)) (hstart : s.start = s.curr)
    (hfuel : source.utf8ByteSize < fuel) : scanToken fuel source s = told p s := by
  have htiles : Tiles (pieces source.toList) source.toList := tiles_iff_pieces.mpr rfl
  rw [h] at htiles
  obtain ⟨rest, htext, hstands⟩ := htiles.stands_of_append
  obtain ⟨c, cs, hcons, hcut⟩ := hstands.cut
  have hbetween : Between source (before.flatMap Piece.chars) (c :: cs) s.start :=
    ⟨hcons ▸ htext, hstart.trans hs⟩
  have hsize := hbetween.size
  have hoctets := octets_cons c cs
  have hread := scanToken_eq hbetween hstart.symm (by omega : octets cs < fuel)
  rw [hcut] at hread
  exact hread

end Octets

/-! ## §3. What scanning yields. -/

/-- **Scanning cuts a source into lexemes.**  There is one way to cut a source into
pieces of which each may stand where it is: the longest lexeme, a blank, a
comment up to the end of its line, a character with which nothing starts, or a
string that never ends.  The pieces of the scanner are these; put together they
are the source, and each is a slice of its octets that cuts no character apart,
as are the contents of a string.  A scanner that goes octet by octet reads each of
them from its first octet to its last, and takes nothing outside of the source and
no slice that ends inside of a character.  The spelling of a token determines its
kind and value.  What a scan yields are the tokens and failures of the pieces in
order and the end of the input, once, at the end; and the scanner of octets, asked
for one item after another, yields these, with no loop that runs for more rounds than
there are octets, and then, with its cursor behind the end, nothing for ever. -/
theorem scan_partitions (source : String) :
    (∀ ps, Tiles ps source.toList ↔ ps = pieces source.toList)
    ∧ (pieces source.toList).flatMap Piece.chars = source.toList
    ∧ (∀ before p after, pieces source.toList = before ++ p :: after →
      let start := octets (before.flatMap Piece.chars)
      let stop := start + octets p.chars
      Slice source start stop p.chars
        ∧ (∀ contents lexeme, p = .token (.string contents) lexeme →
          Slice source (start + 1) (stop - 1) contents.toList)
        ∧ ∀ (s : Octets.State) (fuel : Nat), s.start = start → s.curr = start →
          source.utf8ByteSize < fuel → Octets.scanToken fuel source s = Octets.told p s)
    ∧ (∀ kind kind' lexeme, Lexeme kind lexeme → Lexeme kind' lexeme → kind = kind')
    ∧ scan source = itemsOf 1 (pieces source.toList)
      ++ [.token ⟨.eof, "", lineAfter 1 (pieces source.toList)⟩]
    ∧ (∀ t, .token t ∈ itemsOf 1 (pieces source.toList) → t.kind ≠ .eof)
    ∧ ∀ fuel, source.utf8ByteSize < fuel → ∀ n, ∃ s,
      Octets.ask fuel n source .new = .done (scan source)[n]? s
        ∧ (s.curr = source.utf8ByteSize + 1 ↔ (scan source).length ≤ n + 1) := by
  have htiles : Tiles (pieces source.toList) source.toList := tiles_iff_pieces.mpr rfl
  refine ⟨fun ps => tiles_iff_pieces, htiles.flatMap, ?_, fun _ _ _ => Lexeme.kind_unique,
    scan_eq source, fun t ht => (itemsOf_spelled (pieces_spelled source.toList) 1 t ht).1,
    fun fuel hfuel n => Octets.ask_scan source hfuel n⟩
  intro before p after hps start stop
  have hsource : source.toList
      = before.flatMap Piece.chars ++ p.chars ++ after.flatMap Piece.chars := by
    rw [← htiles.flatMap, hps, List.flatMap_append, List.flatMap_cons, List.append_assoc]
  refine ⟨slice_of_append hsource, ?_, ?_⟩
  · rintro contents lexeme rfl
    have hmem : Piece.token (.string contents) lexeme ∈ pieces source.toList := by
      rw [hps]
      exact List.mem_append_right before List.mem_cons_self
    obtain ⟨cs, rfl, rfl⟩ := (lexeme_of_mem_pieces hmem).string_inv
    rw [String.toList_ofList]
    exact slice_of_quoted hsource
  · intro s fuel hstart hcurr hfuel
    exact Octets.scanToken_piece hps hcurr (hstart.trans hcurr.symm) hfuel

end Lox
