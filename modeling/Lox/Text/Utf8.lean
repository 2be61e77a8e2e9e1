/-
  Lox.Text.Utf8
  ─────────────
  **OCTETS AS TEXT.**

  `decode` turns octets into text or names the first fault: where the valid
  part ends, and how many octets cannot be continued to a character there.
  `decodeLossy` never fails: each faulty run becomes one replacement
  character.
-/

namespace Lox.Text.Utf8

/-! ## §1. One character. -/

/-- What the first octet of a character promises: the number of octets that
follow, and the range of the next one. -/
structure Lead where
  tails : Nat
  low : UInt8
  high : UInt8
  deriving Repr, DecidableEq

/-- Any continuation octet. -/
def anyTail (tails : Nat) : Lead :=
  ⟨tails, 0x80, 0xBF⟩

/-- The promise of a first octet; there is none that starts no character.
The narrower ranges keep out overlong forms, surrogates and what lies beyond
the last code point. -/
def lead? (b : UInt8) : Option Lead :=
  if b < 0x80 then some (anyTail 0)
  else if b < 0xC2 then none
  else if b < 0xE0 then some (anyTail 1)
  else if b = 0xE0 then some ⟨2, 0xA0, 0xBF⟩
  else if b = 0xED then some ⟨2, 0x80, 0x9F⟩
  else if b < 0xF0 then some (anyTail 2)
  else if b = 0xF0 then some ⟨3, 0x90, 0xBF⟩
  else if b < 0xF4 then some (anyTail 3)
  else if b = 0xF4 then some ⟨3, 0x80, 0x8F⟩
  else none

/-- How a run of octets starts. -/
inductive Head where
  /-- With a character, whose first octet is followed by `tails` others. -/
  | whole (tails : Nat)
  /-- With `size` octets that no octet can continue to a character. -/
  | broken (size : Nat)
  /-- The input ends inside a character. -/
  | cut
  deriving Repr, DecidableEq

/-- Match the promised continuation octets; `taken` of them have been read. -/
def matchTails (taken : Nat) : Nat → UInt8 → UInt8 → List UInt8 → Head
  | 0, _, _, _ => .whole taken
  | _ + 1, _, _, [] => .cut
  | n + 1, low, high, b :: bs =>
      if low ≤ b ∧ b ≤ high then matchTails (taken + 1) n 0x80 0xBF bs
      else .broken (taken + 1)

/-- How the octets `b :: bs` start. -/
def head (b : UInt8) (bs : List UInt8) : Head :=
  match lead? b with
  | none => .broken 1
  | some l => matchTails 0 l.tails l.low l.high bs

/-! ## §2. The first fault. -/

/-- Why octets are not text. -/
inductive Fault where
  /-- From `index` on, `size` octets cannot be continued to a character. -/
  | invalid (size index : Nat)
  /-- The input ends inside the character that starts at `index`. -/
  | incomplete (index : Nat)
  deriving Repr, DecidableEq

/-- A fault in words. -/
def Fault.message : Fault → String
  | .invalid size index =>
      s!"invalid utf-8 sequence of {size} bytes from index {index}"
  | .incomplete index =>
      s!"incomplete utf-8 byte sequence from index {index}"

/-- The first fault of octets that start at `index`. -/
def firstFault? (index : Nat) : List UInt8 → Option Fault
  | [] => none
  | b :: bs =>
      match head b bs with
      | .whole tails => firstFault? (index + tails + 1) (bs.drop tails)
      | .broken size => some (.invalid size index)
      | .cut => some (.incomplete index)
termination_by bs => bs.length
decreasing_by simp only [List.length_drop, List.length_cons]; omega

/-! ## §3. Decoding that never fails. -/

/-- Stands for octets that encode no character. -/
def replacement : Char := '\uFFFD'

/-- The character that a first octet and its continuation octets encode. -/
def assemble (b : UInt8) (tails : List UInt8) : Char :=
  let first := match tails.length with
    | 0 => b.toNat
    | 1 => b.toNat % 32
    | 2 => b.toNat % 16
    | _ => b.toNat % 8
  Char.ofNat (tails.foldl (fun n t => n * 64 + t.toNat % 64) first)

/-- The text of octets, after the characters `done` (the last one first). -/
def decodeFrom (done : List Char) : List UInt8 → String
  | [] => String.ofList done.reverse
  | b :: bs =>
      match head b bs with
      | .whole tails => decodeFrom (assemble b (bs.take tails) :: done) (bs.drop tails)
      | .broken size => decodeFrom (replacement :: done) (bs.drop (size - 1))
      | .cut => String.ofList (replacement :: done).reverse
termination_by bs => bs.length
decreasing_by all_goals simp only [List.length_drop, List.length_cons]; omega

/-- The text of octets; each faulty run reads as one replacement character. -/
def decodeLossy (bytes : ByteArray) : String :=
  match String.fromUTF8? bytes with
  | some text => text
  | none => decodeFrom [] bytes.toList

/-! ## §4. Decoding that names the fault. -/

/-- The text that octets encode, or the first fault. -/
def decode (bytes : ByteArray) : Except Fault String :=
  match firstFault? 0 bytes.toList with
  | some fault => .error fault
  | none => .ok (decodeLossy bytes)

end Lox.Text.Utf8
