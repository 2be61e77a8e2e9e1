/-
  Lox.Proofs.Octets.Basic
  ───────────────────────
  **SCANNING OCTET BY OCTET.**

  A scanner as it is written by hand: two places in the octets of a source, one
  where a piece starts and one for the octet that is looked at next, a line, and
  the kind of the token that has just been read.  It looks at one octet or at two,
  jumps over the rest of a line, and takes what stands between two places.

  Nothing here promises that any of this goes well.  To take an octet behind the end
  is an outcome of its own (`outOfBounds`), and so is a place inside of a
  character (`offBoundary`) and a loop that goes on for too long (`outOfFuel`).  The modules
  after this one show that none of them ever comes up, and that the items are those
  of cutting the characters of the source (`scan`).
-/
import Lox.Token.Scan

namespace Lox.Octets

/-! ## §1. Scanners. -/

/-- Where a scanner is. -/
structure State where
  /-- The place of the first octet of the piece that is read. -/
  start : Nat
  /-- The place of the octet that is looked at next.  Behind the end of the source it is
  the latch of a scanner that has said so. -/
  curr : Nat
  line : Nat
  /-- The kind of the token that has been read. -/
  pending : Option TokenKind

/-- A scanner before its first item. -/
def State.new : State :=
  ⟨0, 0, 1, none⟩

/-- What becomes of a scanner. -/
inductive Outcome (α : Type) where
  | done (a : α) (s : State)
  | failed (d : Diagnostic) (s : State)
  /-- An octet was taken where there is none. -/
  | outOfBounds
  /-- A place inside of a character was one end of a slice. -/
  | offBoundary
  /-- A loop went on for more rounds than allowed. -/
  | outOfFuel

/-- Go on after an outcome, if it is no failure. -/
def Outcome.bind {α β : Type} (o : Outcome α) (f : α → State → Outcome β) : Outcome β :=
  match o with
  | .done a s => f a s
  | .failed d s => .failed d s
  | .outOfBounds => .outOfBounds
  | .offBoundary => .offBoundary
  | .outOfFuel => .outOfFuel

/-- A scanner over a source. -/
def Scanner (α : Type) : Type :=
  String → State → Outcome α

instance : Monad Scanner where
  pure a := fun _ s => .done a s
  bind p f := fun source s => (p source s).bind fun a s => f a source s

namespace Scanner

variable {α : Type}

/-- Where the scanner is. -/
def state : Scanner State :=
  fun _ s => .done s s

/-- Be somewhere else. -/
def modify (f : State → State) : Scanner Unit :=
  fun _ s => .done () (f s)

/-- Fail on the line that has been reached. -/
def fail (fault : LexicalFault) : Scanner α :=
  fun _ s => .failed (.lexical s.line fault) s

/-- A failure as a value. -/
def attempt (p : Scanner Unit) : Scanner (Option Diagnostic) :=
  fun source s =>
    match p source s with
    | .done () s => .done none s
    | .failed d s => .done (some d) s
    | .outOfBounds => .outOfBounds
    | .offBoundary => .offBoundary
    | .outOfFuel => .outOfFuel

/-- More rounds than allowed. -/
def exhausted : Scanner α :=
  fun _ _ => .outOfFuel

/-! ## §2. The cursor. -/

/-- The number of octets of the source. -/
def size : Scanner Nat :=
  fun source s => .done source.utf8ByteSize s

def isAtEnd : Scanner Bool := do
  return decide ((← size) ≤ (← state).curr)

/-- Take the octet under the cursor. -/
def advance : Scanner UInt8 :=
  fun source s =>
    match source.toUTF8[s.curr]? with
    | some b => .done b { s with curr := s.curr + 1 }
    | none => .outOfBounds

/-- The octet under the cursor, zero behind the end. -/
def peek : Scanner UInt8 :=
  fun source s => .done (source.toUTF8[s.curr]?.getD 0) s

/-- The octet after the one under the cursor, zero behind the end. -/
def peekNext : Scanner UInt8 :=
  fun source s => .done (source.toUTF8[s.curr + 1]?.getD 0) s

/-- The octets between two places. -/
def octetsBetween (start stop : Nat) : Scanner ByteArray :=
  fun source s =>
    if start ≤ stop ∧ stop ≤ source.utf8ByteSize then
      .done (source.toUTF8.extract start stop) s
    else .outOfBounds

/-- The text between two places, neither of which may be inside of a character. -/
def slice (start stop : Nat) : Scanner String :=
  fun source s =>
    if start ≤ stop ∧ stop ≤ source.utf8ByteSize then
      if h : String.Pos.Raw.IsValid source ⟨start⟩ ∧ String.Pos.Raw.IsValid source ⟨stop⟩ then
        .done (source.extract ⟨⟨start⟩, h.1⟩ ⟨⟨stop⟩, h.2⟩) s
      else .offBoundary
    else .outOfBounds

/-- Take the octet of a character if it is under the cursor. -/
def accept (c : Char) : Scanner Bool := do
  if !(← isAtEnd) && (← peek) == c.toUInt8 then
    let _ ← advance
    return true
  else
    return false

/-- Move the cursor on. -/
def skip (n : Nat) : Scanner Unit :=
  modify fun s => { s with curr := s.curr + n }

/-- Count a line end. -/
def countLine : Scanner Unit :=
  modify fun s => { s with line := s.line + 1 }

/-- Note the kind of the token that has been read. -/
def emit (kind : TokenKind) : Scanner Unit :=
  modify fun s => { s with pending := some kind }

/-- The kind of the token that has been read.  It is given once. -/
def takePending : Scanner (Option TokenKind) :=
  fun _ s => .done s.pending { s with pending := none }

/-- An operator that is longer if an equals sign follows. -/
def pick (withEqual alone : TokenKind) : Scanner Unit := do
  if ← accept '=' then
    emit withEqual
  else
    emit alone

end Scanner

open Scanner

/-! ## §3. Pieces. -/

/-- Whether an octet is the code of a character of a class. -/
def isCode (p : Char → Bool) (b : UInt8) : Bool :=
  p (Char.ofUInt8 b)

/-- Take octets as long as they are codes of characters of a class. -/
def takeWhile (p : Char → Bool) : Nat → Scanner Unit
  | 0 => exhausted
  | fuel + 1 => do
      if isCode p (← peek) then
        let _ ← advance
        takeWhile p fuel
      else
        return ()

/-- Where an octet stands first among others. -/
def find? (b : UInt8) (octets : ByteArray) : Option Nat :=
  octets.data.toList.findIdx? (· == b)

/-- Move on to the end of the line.  The line end itself is left. -/
def skipLine : Scanner Unit := do
  let ahead ← octetsBetween (← state).curr (← size)
  match find? '\n'.toUInt8 ahead with
  | some n => skip n
  | none =>
      let size ← size
      modify fun s => { s with curr := size }

/-- Take the octets in front of the next quote, over line ends too. -/
def takeContents : Nat → Scanner Unit
  | 0 => exhausted
  | fuel + 1 => do
      if !(← isAtEnd) && (← peek) != '"'.toUInt8 then
        if (← advance) == '\n'.toUInt8 then
          countLine
        takeContents fuel
      else
        return ()

/-- A string whose opening quote has been read. -/
def string (fuel : Nat) : Scanner Unit := do
  takeContents fuel
  if ← isAtEnd then
    fail .unterminated
  else
    let _ ← advance
    let s ← state
    let contents ← slice (s.start + 1) (s.curr - 1)
    emit (.string contents)

/-- The value of a numeral: digits with at most one point before, between or after them. -/
def numeral? (text : String) : Option Float :=
  let whole := text.toList.takeWhile isDigit
  match text.toList.dropWhile isDigit with
  | [] =>
      if whole.isEmpty then none
      else some (Decimal.toFloat (digitsValue whole) 0)
  | '.' :: fraction =>
      if fraction.all isDigit && !(whole ++ fraction).isEmpty then
        some (Decimal.toFloat (digitsValue (whole ++ fraction)) fraction.length)
      else none
  | _ => none

/-- Note the number that has been read. -/
def emitNumber : Scanner Unit := do
  let s ← state
  let numeral ← slice s.start s.curr
  emit (.number ((numeral? numeral).getD 0))

/-- A number whose first digit has been read.  A point belongs to it only if a
digit follows. -/
def number (fuel : Nat) : Scanner Unit := do
  takeWhile isDigit fuel
  if (← peek) == '.'.toUInt8 && isCode isDigit (← peekNext) then
    let _ ← advance
    takeWhile isDigit fuel
  emitNumber

/-- The keyword with these octets. -/
def keyword? (word : ByteArray) : Option TokenKind :=
  (TokenKind.keywords.find? fun p => p.1.toUTF8.data == word.data).map Prod.snd

/-- A word whose first character has been read. -/
def word (fuel : Nat) : Scanner Unit := do
  takeWhile inWord fuel
  let s ← state
  let word ← octetsBetween s.start s.curr
  emit ((keyword? word).getD .identifier)

/-- A character with which nothing starts.  All its octets are taken, not only the first. -/
def stray : Scanner Unit := do
  let s ← state
  let rest ← slice s.start (← size)
  let c := rest.toList.head?.getD '\uFFFD'
  modify fun s => { s with curr := s.start + c.utf8Size }
  fail (.unexpected c)

/-- Read the piece of which the first octet, the code of a character, has been read. -/
def scanFrom (c : Char) (fuel : Nat) : Scanner Unit :=
  match punctuation? c, operator? c with
  | some kind, _ => emit kind
  | none, some (alone, withEqual) => pick withEqual alone
  | none, none =>
      if c = ' ' ∨ c = '\r' ∨ c = '\t' then
        return ()
      else if c = '\n' then
        countLine
      else if c = '/' then do
        if ← accept '/' then
          skipLine
        else
          emit .slash
      else if c = '"' then
        string fuel
      else if isDigit c then
        number fuel
      else if startsWord c then
        word fuel
      else
        stray

/-- **Read the piece under the cursor.**  The kind of a token is left for the one who asked. -/
def scanToken (fuel : Nat) : Scanner Unit := do
  let b ← advance
  scanFrom (Char.ofUInt8 b) fuel

/-! ## §4. Items. -/

/-- Begin a piece where the cursor is. -/
def begin : Scanner Unit :=
  modify fun s => { s with start := s.curr, pending := none }

/-- **The next item.**  The end of the input is one, once; pieces that yield nothing are
passed over. -/
def next : Nat → Scanner (Option Item)
  | 0 => exhausted
  | fuel + 1 => do
      let s ← state
      let size ← size
      if size < s.curr then
        return none
      else if s.curr = size then
        skip 1
        return some (.token ⟨.eof, "", s.line⟩)
      else
        begin
        -- the line of a token is the one on which it starts
        match ← attempt (scanToken fuel) with
        | some d => return some (.failure d)
        | none =>
            match ← takePending with
            | some kind =>
                let s' ← state
                let lexeme ← slice s'.start s'.curr
                return some (.token ⟨kind, lexeme, s.line⟩)
            | none => next fuel

/-- The answer of a scanner that was asked `n` times before. -/
def ask (fuel : Nat) : Nat → Scanner (Option Item)
  | 0 => next fuel
  | n + 1 => do
      let _ ← next fuel
      ask fuel n

end Lox.Octets
