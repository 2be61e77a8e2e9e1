/-
  Lox.Proofs.Token.Lines
  ──────────────────────
  **THE LINES OF TOKENS AND FAILURES.**

  The scanner carries a line along and moves it on by the line ends of each
  piece.  Here the lines of a scan are said without a running count: what a
  piece yields stands on the line that the text before it ends on, however
  many strings, comments and failures are in that text, and a string that never
  ends is reported, like the end of the input, on the last line of all.

  Main results:
    * `Placed.stands`: where the pieces of a source stand.
    * `scan_lines`: the items of a scan are those of the placed pieces.
-/
import Lox.Proofs.Octets.Partition

namespace Lox

/-! ## §1. Pieces at their place. -/

/-- The line that a text ends on: one, and one more for each line end in it. -/
def lineIn (text : List Char) : Nat :=
  1 + text.count '\n'

theorem lineIn_append (text rest : List Char) :
    lineIn (text ++ rest) = lineIn text + rest.count '\n' := by
  rw [lineIn, List.count_append, ← Nat.add_assoc]
  rfl

/-- A piece and the text before it. -/
structure Placed where
  before : List Char
  piece : Piece

/-- Pieces that follow a text, each with all the text before it. -/
def placedFrom (before : List Char) : List Piece → List Placed
  | [] => []
  | p :: ps => ⟨before, p⟩ :: placedFrom (before ++ p.chars) ps

/-- The pieces of a source, each with the text before it. -/
def Placed.ofSource (source : String) : List Placed :=
  placedFrom [] (pieces source.toList)

/-- **What a piece yields at its place.**  A token and a character that belongs to
nothing are on the line on which they start, a string that never ends on the
last line of the source. -/
def Placed.item? (source : String) (p : Placed) : Option Item :=
  match p.piece with
  | .token kind lexeme => some (.token ⟨kind, String.ofList lexeme, lineIn p.before⟩)
  | .blank _ | .comment _ => none
  | .stray c => some (.failure (.lexical (lineIn p.before) (.unexpected c)))
  | .unterminated _ => some (.failure (.lexical (lineIn source.toList) .unterminated))

/-- A piece is placed behind exactly the pieces before it. -/
theorem mem_placedFrom {before : List Char} {ps : List Piece} {p : Placed} :
    p ∈ placedFrom before ps ↔
      ∃ front back, ps = front ++ p.piece :: back
        ∧ p.before = before ++ front.flatMap Piece.chars := by
  induction ps generalizing before with
  | nil => simp [placedFrom]
  | cons q ps ih =>
    rw [placedFrom, List.mem_cons, ih]
    constructor
    · rintro (rfl | ⟨front, back, rfl, hbefore⟩)
      · exact ⟨[], ps, rfl, (List.append_nil before).symm⟩
      · refine ⟨q :: front, back, rfl, ?_⟩
        rw [hbefore, List.flatMap_cons, List.append_assoc]
    · rintro ⟨front, back, hps, hbefore⟩
      cases front with
      | nil =>
        obtain ⟨before', piece⟩ := p
        cases hps
        rw [List.flatMap_nil, List.append_nil] at hbefore
        obtain rfl : before' = before := hbefore
        exact .inl rfl
      | cons q' front =>
        cases hps
        refine .inr ⟨front, back, rfl, ?_⟩
        rw [hbefore, List.flatMap_cons, List.append_assoc]

/-! ## §2. The running line is the line of the text before. -/

/-- The line that the scanner has reached. -/
theorem lineAfter_lineIn {ps : List Piece} {rest : List Char} (h : Tiles ps rest)
    (before : List Char) : lineAfter (lineIn before) ps = lineIn (before ++ rest) := by
  induction h generalizing before with
  | nil => rw [List.append_nil, lineAfter]
  | @cons p ps rest hp hps ih =>
    have hline : lineIn before + p.newlines = lineIn (before ++ p.chars) := by
      rw [lineIn_append, hp.newlines]
    rw [lineAfter, hline, ih, List.append_assoc]

/-- A piece yields at the running line what it yields at its place. -/
theorem item?_lineIn {source : String} {before rest : List Char} {p : Piece} (hp : p.Stands rest)
    (hsource : source.toList = before ++ (p.chars ++ rest)) :
    p.item? (lineIn before) = (Placed.mk before p).item? source := by
  cases hp with
  | token | blank | comment | stray => rfl
  | @unterminated body _ =>
    -- nothing follows it, so its last line is that of the source
    rw [List.append_nil] at hsource
    rw [Placed.item?, hsource, lineIn_append]
    rfl

theorem itemsOf_lineIn {source : String} {ps : List Piece} {rest : List Char} (h : Tiles ps rest)
    (before : List Char) (hsource : source.toList = before ++ rest) :
    itemsOf (lineIn before) ps = (placedFrom before ps).filterMap (Placed.item? source) := by
  induction h generalizing before with
  | nil => rfl
  | @cons p ps rest hp hps ih =>
    have hline : lineIn before + p.newlines = lineIn (before ++ p.chars) := by
      rw [lineIn_append, hp.newlines]
    rw [itemsOf, hline, ih _ (by rw [hsource, List.append_assoc]), placedFrom,
      List.filterMap_cons, item?_lineIn hp hsource]
    cases (Placed.mk before p).item? source with
    | none => rfl
    | some item => rfl

/-! ## §3. The lines of a scan. -/

/-- **Where the pieces of a source stand**: each behind the pieces before it, as it may
stand there, and it takes up the octets from there on. -/
theorem Placed.stands {source : String} {p : Placed} (h : p ∈ Placed.ofSource source) :
    ∃ after, source.toList = p.before ++ p.piece.chars ++ after ∧ p.piece.Stands after
      ∧ Slice source (octets p.before) (octets p.before + octets p.piece.chars) p.piece.chars := by
  have htiles : Tiles (pieces source.toList) source.toList := tiles_iff_pieces.mpr rfl
  obtain ⟨front, back, hps, hbefore⟩ := mem_placedFrom.mp h
  rw [hps] at htiles
  obtain ⟨after, htext, hstands⟩ := htiles.stands_of_append
  rw [List.nil_append] at hbefore
  have hsource : source.toList = p.before ++ p.piece.chars ++ after := by
    rw [hbefore, htext, List.append_assoc]
  exact ⟨after, hsource, hstands, slice_of_append hsource⟩

/-- **Line numbers are exact.**  The items of a scan are those of the pieces of the
source at their places, in order, and the end of the input: a token, a string over
several lines too, and an unexpected character carry one plus the number of line ends
before their first character; a string that never ends and the end of the input
carry one plus the number of line ends of the whole source.  The places are those of the
one way to cut the source (`tiles_iff_pieces`), each an interval of its octets, and a
scanner of these octets that is asked for one item after another yields these items. -/
theorem scan_lines (source : String) :
    scan source = (Placed.ofSource source).filterMap (Placed.item? source)
      ++ [.token ⟨.eof, "", lineIn source.toList⟩]
    ∧ (∀ fuel, source.utf8ByteSize < fuel → ∀ n, ∃ s,
      Octets.ask fuel n source .new = .done (scan source)[n]? s)
    ∧ (∀ p, p ∈ Placed.ofSource source ↔
      ∃ front back, pieces source.toList = front ++ p.piece :: back
        ∧ p.before = front.flatMap Piece.chars)
    ∧ ∀ p ∈ Placed.ofSource source,
      ∃ after, source.toList = p.before ++ p.piece.chars ++ after ∧ p.piece.Stands after
        ∧ Slice source (octets p.before) (octets p.before + octets p.piece.chars)
          p.piece.chars := by
  have htiles : Tiles (pieces source.toList) source.toList := tiles_iff_pieces.mpr rfl
  have hitems : itemsOf 1 (pieces source.toList)
      = (Placed.ofSource source).filterMap (Placed.item? source) :=
    itemsOf_lineIn htiles [] rfl
  have hline : lineAfter 1 (pieces source.toList) = lineIn source.toList :=
    lineAfter_lineIn htiles []
  refine ⟨?_, ?_, fun p => mem_placedFrom, fun p hp => Placed.stands hp⟩
  · rw [scan_eq, hitems, hline]
  · intro fuel hfuel n
    obtain ⟨s, hask, -⟩ := Octets.ask_scan source hfuel n
    exact ⟨s, hask⟩

end Lox
