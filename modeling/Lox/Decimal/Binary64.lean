/-
  Lox.Decimal.Binary64
  ────────────────────
  **DOUBLES AS EXACT NUMBERS.**

  A double is taken apart into what it denotes: a sign and `m · 2^q` with a
  natural number `m`, an infinity, or no number at all.  The other way round,
  a non-negative rational is rounded to the nearest double, a tie going to
  the even significand.  Both directions work on bit patterns with natural
  number arithmetic only, so they can be reasoned about without any law on
  floating-point operations.
-/

namespace Lox.Decimal

/-! ## §1. Taking a double apart. -/

/-- What a double denotes. -/
inductive Binary64 where
  /-- Not a number. -/
  | nan
  /-- An infinity; `negative` is its sign. -/
  | infinity (negative : Bool)
  /-- The number `± significand · 2^exponent`. -/
  | finite (negative : Bool) (significand : Nat) (exponent : Int)
  deriving Repr, DecidableEq

namespace Binary64

/-- Number of bits stored for a significand; a normal one has one bit more,
which is not stored. -/
def storedBits : Nat := 52

/-- The least significand of a normal double. -/
def hiddenBit : Nat := Nat.pow 2 storedBits

/-- The exponent of the subnormal doubles and of the smallest normal ones. -/
def leastExponent : Int := -1074

/-- The exponent field of infinities and of what is no number. -/
def specialField : Nat := 2047

/-- Read a 64-bit pattern: one sign bit, eleven exponent bits, 52 bits of
significand. -/
def ofPattern (bits : Nat) : Binary64 :=
  let negative := bits / Nat.pow 2 63 % 2 == 1
  let field := bits / hiddenBit % 2048
  let stored := bits % hiddenBit
  if field = specialField then
    if stored = 0 then .infinity negative else .nan
  else if field = 0 then
    .finite negative stored leastExponent
  else
    .finite negative (hiddenBit + stored) (leastExponent + (field - 1))

/-- What a double denotes. -/
def ofFloat (x : Float) : Binary64 :=
  ofPattern x.toBits.toNat

/-- The integer a finite double equals, if it is one, with the sign apart so
that negative zero keeps its own. -/
def integral? : Binary64 → Option (Bool × Nat)
  | .finite negative m (.ofNat q) => some (negative, m * Nat.pow 2 q)
  | .finite negative m (.negSucc q) =>
      if m % Nat.pow 2 (q + 1) = 0 then some (negative, m / Nat.pow 2 (q + 1)) else none
  | _ => none

end Binary64

/-! ## §2. Rounding a rational to a double. -/

/-- The quotient `num / den` rounded to the nearest natural number, a half
going to the even neighbour. -/
def divNearestEven (num den : Nat) : Nat :=
  let floor := num / den
  let twice := 2 * (num % den)
  if twice < den then floor
  else if den < twice then floor + 1
  else floor + floor % 2

/-- `num / (den · 2^q)` as a fraction of natural numbers. -/
def scaled (num den : Nat) : Int → Nat × Nat
  | .ofNat q => (num, den * Nat.pow 2 q)
  | .negSucc q => (num * Nat.pow 2 (q + 1), den)

/-- The exponent `q` of the double nearest to `num / den`: the one for which
`num / (den · 2^q)` has 53 bits, unless that is below the least exponent. -/
def quantum (num den : Nat) : Int :=
  let guess := max (num.log2 - den.log2 - Binary64.storedBits : Int) Binary64.leastExponent
  let (n, d) := scaled num den guess
  if n / d < Binary64.hiddenBit ∧ Binary64.leastExponent < guess then guess - 1 else guess

/-- The bit pattern of the double nearest to `num / den`; too large a value
becomes infinity. -/
def nearestPattern (num den : Nat) : Nat :=
  if num = 0 ∨ den = 0 then 0
  else
    let q := quantum num den
    let (n, d) := scaled num den q
    let m := divNearestEven n d
    let field := (q - Binary64.leastExponent).toNat
    let pattern := field * Binary64.hiddenBit + m
    let infinite := Binary64.specialField * Binary64.hiddenBit
    if infinite ≤ pattern then infinite else pattern

/-- The double nearest to `digits / 10^places`. -/
def toFloat (digits places : Nat) : Float :=
  Float.ofBits (nearestPattern digits (Nat.pow 10 places)).toUInt64

end Lox.Decimal
