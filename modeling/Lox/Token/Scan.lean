/-
  Lox.Token.Scan
  ──────────────
  **FROM TEXT TO TOKENS.**

  A source text is cut into pieces, each as long as it can be: tokens,
  blanks, comments, characters that belong to nothing, and a string that
  never ends.  The pieces, put together, are the text.  A second pass walks
  over the pieces, counts lines, and keeps the tokens and the failures.
-/
import Lox.Diagnostic

namespace Lox

/-! ## §1. Pieces. -/

/-- A piece of a source text. -/
inductive Piece where
  /-- A token with its spelling. -/
  | token (kind : TokenKind) (lexeme : List Char)
  /-- A blank. -/
  | blank (c : Char)
  /-- A comment with its slashes, up to the end of its line. -/
  | comment (chars : List Char)
  /-- A character that belongs to nothing. -/
  | stray (c : Char)
  /-- A string that never ends, with its opening quote. -/
  | unterminated (chars : List Char)
  deriving Repr, DecidableEq

namespace Piece

/-- The characters of a piece. -/
def chars : Piece → List Char
  | token _ lexeme => lexeme
  | blank c => [c]
  | comment chars => chars
  | stray c => [c]
  | unterminated chars => chars

/-- The line ends that are counted in a piece: a blank may be one, and a string may run
over some.  No other piece holds any (`Piece.Stands.newlines`). -/
def newlines : Piece → Nat
  | blank c => if c = '\n' then 1 else 0
  | token (.string _) lexeme => lexeme.count '\n'
  | unterminated chars => chars.count '\n'
  | token _ _ | comment _ | stray _ => 0

/-- A token on one line counts no line end. -/
theorem newlines_token {kind : TokenKind} {lexeme : List Char} (h : '\n' ∉ lexeme) :
    (token kind lexeme).newlines = 0 := by
  cases kind with
  | string => exact List.count_eq_zero.mpr h
  | _ => rfl

end Piece

/-! ## §2. Cutting off one piece. -/

/-- A decimal digit. -/
def isDigit (c : Char) : Bool :=
  '0' ≤ c && c ≤ '9'

/-- A character that a name can start with. -/
def startsWord (c : Char) : Bool :=
  ('a' ≤ c && c ≤ 'z') || ('A' ≤ c && c ≤ 'Z') || c == '_'

/-- A character that a name can go on with. -/
def inWord (c : Char) : Bool :=
  startsWord c || isDigit c

/-- The value of a run of decimal digits. -/
def digitsValue (digits : List Char) : Nat :=
  digits.foldl (fun n c => 10 * n + (c.toNat - 48)) 0

/-- A number from its whole digits and its fraction digits. -/
def numberKind (whole fraction : List Char) : TokenKind :=
  .number (Decimal.toFloat (digitsValue (whole ++ fraction)) fraction.length)

/-- Cut off a number whose first digit is `c`.  A point belongs to it only if
a digit follows. -/
def cutNumber (c : Char) (cs : List Char) : Piece × List Char :=
  let whole := c :: cs.takeWhile isDigit
  match cs.dropWhile isDigit with
  | '.' :: d :: rest =>
      if isDigit d then
        let fraction := d :: rest.takeWhile isDigit
        (.token (numberKind whole fraction) (whole ++ '.' :: fraction), rest.dropWhile isDigit)
      else (.token (numberKind whole []) whole, '.' :: d :: rest)
  | rest => (.token (numberKind whole []) whole, rest)

/-- Cut off a word whose first character is `c`. -/
def cutWord (c : Char) (cs : List Char) : Piece × List Char :=
  let word := c :: cs.takeWhile inWord
  (.token (.ofWord (String.ofList word)) word, cs.dropWhile inWord)

/-- Cut off a string whose opening quote has been read.  It runs to the next
quote, over line ends too. -/
def cutString (cs : List Char) : Piece × List Char :=
  let contents := cs.takeWhile (· != '"')
  match cs.dropWhile (· != '"') with
  | [] => (.unterminated ('"' :: contents), [])
  | quote :: rest =>
      (.token (.string (String.ofList contents)) ('"' :: contents ++ [quote]), rest)

/-- Cut off an operator that is longer when an equals sign follows. -/
def cutOperator (c : Char) (alone withEqual : TokenKind) : List Char → Piece × List Char
  | '=' :: rest => (.token withEqual [c, '='], rest)
  | cs => (.token alone [c], cs)

/-- Cut off a slash or a comment. -/
def cutSlash : List Char → Piece × List Char
  | '/' :: cs =>
      (.comment ('/' :: '/' :: cs.takeWhile (· != '\n')), cs.dropWhile (· != '\n'))
  | cs => (.token .slash ['/'], cs)

/-- The tokens that are one character and never longer. -/
def punctuation? (c : Char) : Option TokenKind :=
  [('(', .leftParen), (')', .rightParen), ('{', .leftBrace), ('}', .rightBrace),
   (',', .comma), ('.', .dot), ('-', .minus), ('+', .plus), (';', .semicolon),
   ('*', .star)].lookup c

/-- The operators that an equals sign makes longer: alone, and with it. -/
def operator? (c : Char) : Option (TokenKind × TokenKind) :=
  [('!', .bang, .bangEqual), ('=', .equal, .equalEqual), ('<', .less, .lessEqual),
   ('>', .greater, .greaterEqual)].lookup c

/-- A blank, line ends included. -/
def isBlank (c : Char) : Bool :=
  c == ' ' || c == '\r' || c == '\t' || c == '\n'

/-- Cut the first piece off the text `c :: cs`. -/
def cut (c : Char) (cs : List Char) : Piece × List Char :=
  match punctuation? c, operator? c with
  | some kind, _ => (.token kind [c], cs)
  | none, some (alone, withEqual) => cutOperator c alone withEqual cs
  | none, none =>
      if isBlank c then (.blank c, cs)
      else if c = '/' then cutSlash cs
      else if c = '"' then cutString cs
      else if isDigit c then cutNumber c cs
      else if startsWord c then cutWord c cs
      else (.stray c, cs)

/-! ## §3. Nothing is lost, and the rest is shorter. -/

theorem cutNumber_append (c : Char) (cs : List Char) :
    (cutNumber c cs).1.chars ++ (cutNumber c cs).2 = c :: cs := by
  have h : cs.takeWhile isDigit ++ cs.dropWhile isDigit = cs :=
    List.takeWhile_append_dropWhile
  unfold cutNumber
  split
  · next d rest hd =>
    rw [hd] at h
    split
    · simpa [Piece.chars, List.takeWhile_append_dropWhile] using h
    · simpa [Piece.chars] using h
  · simp [Piece.chars, h]

theorem cutWord_append (c : Char) (cs : List Char) :
    (cutWord c cs).1.chars ++ (cutWord c cs).2 = c :: cs := by
  simp [cutWord, Piece.chars, List.takeWhile_append_dropWhile]

theorem cutString_append (cs : List Char) :
    (cutString cs).1.chars ++ (cutString cs).2 = '"' :: cs := by
  have h : cs.takeWhile (· != '"') ++ cs.dropWhile (· != '"') = cs :=
    List.takeWhile_append_dropWhile
  unfold cutString
  split
  · next hd =>
    rw [hd] at h
    simpa [Piece.chars] using h
  · next quote rest hd =>
    rw [hd] at h
    simpa [Piece.chars] using h

theorem cutOperator_append (c : Char) (alone withEqual : TokenKind) (cs : List Char) :
    (cutOperator c alone withEqual cs).1.chars ++ (cutOperator c alone withEqual cs).2
      = c :: cs := by
  unfold cutOperator
  split <;> simp [Piece.chars]

theorem cutSlash_append (cs : List Char) :
    (cutSlash cs).1.chars ++ (cutSlash cs).2 = '/' :: cs := by
  unfold cutSlash
  split <;> simp [Piece.chars, List.takeWhile_append_dropWhile]

/-- **Nothing is lost**: the first piece and the rest are the text. -/
theorem cut_append (c : Char) (cs : List Char) :
    (cut c cs).1.chars ++ (cut c cs).2 = c :: cs := by
  unfold cut
  split
  · rfl
  · exact cutOperator_append ..
  · split
    · rfl
    · split
      · next h => rw [h]; exact cutSlash_append cs
      · split
        · next h => rw [h]; exact cutString_append cs
        · split
          · exact cutNumber_append c cs
          · split
            · exact cutWord_append c cs
            · rfl

/-- No piece that `cut` yields is empty. -/
theorem cut_chars_ne_nil (c : Char) (cs : List Char) : (cut c cs).1.chars ≠ [] := by
  unfold cut cutOperator cutSlash cutString cutNumber cutWord
  repeat' split
  all_goals simp [Piece.chars]

/-- **Every piece takes something**: the rest is shorter than the text. -/
theorem cut_rest_length (c : Char) (cs : List Char) :
    (cut c cs).2.length < (c :: cs).length := by
  have h := congrArg List.length (cut_append c cs)
  have hne := List.length_pos_iff.mpr (cut_chars_ne_nil c cs)
  rw [List.length_append] at h
  omega

/-! ## §4. All pieces, and what they yield. -/

/-- The pieces of a text, after the pieces `done` (the last one first). -/
def piecesFrom (done : List Piece) : List Char → List Piece
  | [] => done.reverse
  | c :: cs => piecesFrom ((cut c cs).1 :: done) (cut c cs).2
termination_by cs => cs.length
decreasing_by exact cut_rest_length c cs

/-- The pieces of a text. -/
def pieces (text : List Char) : List Piece :=
  piecesFrom [] text

/-- What a scan yields, in the order of the text. -/
inductive Item where
  | token (t : Token)
  | failure (d : Diagnostic)
  deriving Repr, DecidableEq

/-- What a piece that starts on a line yields.  A string that never ends is
reported on its last line. -/
def Piece.item? (line : Nat) (p : Piece) : Option Item :=
  match p with
  | .token kind lexeme => some (.token ⟨kind, String.ofList lexeme, line⟩)
  | .blank _ | .comment _ => none
  | .stray c => some (.failure (.lexical line (.unexpected c)))
  | .unterminated _ => some (.failure (.lexical (line + p.newlines) .unterminated))

/-- The items of pieces that start on a line, after the items `done`.  The
end of the input is the last token. -/
def itemsFrom (done : Array Item) (line : Nat) : List Piece → Array Item
  | [] => done.push (.token ⟨.eof, "", line⟩)
  | p :: rest =>
      match p.item? line with
      | some item => itemsFrom (done.push item) (line + p.newlines) rest
      | none => itemsFrom done (line + p.newlines) rest

/-- Everything that scanning a text yields: its tokens and failures in order,
and the end of the input last. -/
def scan (source : String) : List Item :=
  (itemsFrom #[] 1 (pieces source.toList)).toList

namespace Item

/-- The token of an item. -/
def token? : Item → Option Token
  | token t => some t
  | failure _ => none

/-- The failure of an item. -/
def failure? : Item → Option Diagnostic
  | token _ => none
  | failure d => some d

end Item

/-- The tokens of a text and, apart from them, its lexical failures. -/
structure Scanned where
  tokens : List Token
  failures : List Diagnostic

/-- Scan a text and sort the items. -/
def Scanned.ofSource (source : String) : Scanned :=
  let items := scan source
  ⟨items.filterMap Item.token?, items.filterMap Item.failure?⟩

end Lox
