/-
  Lox.Decimal.Shortest
  ────────────────────
  **THE FEWEST DIGITS THAT READ BACK.**

  Every real in a certain interval around a double rounds to that double.
  The shortest decimal of the double is a point of that interval on the
  coarsest grid `10^e` that meets it; of the two neighbours of the double on
  that grid the nearer one is taken.  All comparisons are between natural
  numbers.
-/
import Lox.Decimal.Binary64

namespace Lox.Decimal

/-! ## §1. Decimals. -/

/-- The decimal `digits · 10^exponent`. -/
structure Digits where
  digits : Nat
  exponent : Int
  deriving Repr, DecidableEq

/-- Which neighbour an exact half goes to. -/
inductive Tie where
  /-- The larger neighbour. -/
  | up
  /-- The neighbour with an even last digit. -/
  | even
  deriving Repr, DecidableEq

/-! ## §2. The interval of a double. -/

/-- The reals that round to a positive double, in quarters of its last bit:
all `x` with `low · 2^(exponent - 2) ≤ x ≤ high · 2^(exponent - 2)`, the ends
themselves only where `closed`. -/
structure Interval where
  low : Nat
  middle : Nat
  high : Nat
  closed : Bool
  deriving Repr, DecidableEq

/-- The interval of `significand · 2^exponent`.  Below a power of two the next
double is half as far away, unless that one is subnormal. -/
def Interval.ofDouble (significand : Nat) (exponent : Int) : Interval :=
  let narrow := significand = Binary64.hiddenBit ∧ Binary64.leastExponent < exponent
  { low := 4 * significand - (if narrow then 1 else 2)
    middle := 4 * significand
    high := 4 * significand + 2
    closed := significand % 2 == 0 }

/-! ## §3. Grids. -/

/-- Both sides of `c · 10^e` against `a · 2^b` as natural numbers: the pair
`(s, t)` with `c · 10^e ≤ a · 2^b ↔ c · s ≤ a · t`. -/
def gridScale (e b : Int) : Nat × Nat :=
  (Nat.pow 10 e.toNat * Nat.pow 2 (-b).toNat, Nat.pow 2 b.toNat * Nat.pow 10 (-e).toNat)

/-- The grid point of the interval on a grid with scale `(s, t)`, if there is
one: the nearer neighbour of the middle. -/
def Interval.gridPoint? (i : Interval) (tie : Tie) (s t : Nat) : Option Nat :=
  let inside (c : Nat) : Bool :=
    if i.closed then i.low * t ≤ c * s && c * s ≤ i.high * t
    else i.low * t < c * s && c * s < i.high * t
  let below := i.middle * t / s
  let above := below + 1
  match inside below, inside above with
  | false, false => none
  | true, false => some below
  | false, true => some above
  | true, true =>
      let down := i.middle * t - below * s
      let up := above * s - i.middle * t
      if down < up then some below
      else if up < down then some above
      else match tie with
        | .up => some above
        | .even => some (below + below % 2)

/-- An exponent whose grid is too coarse for a number below `2^bits`. -/
def coarsest (bits : Int) : Int :=
  bits * 30103 / 100000 + 2

/-- The shortest decimal of the positive double `significand · 2^exponent`.
Grids are tried from the coarsest; twenty of them reach seventeen digits, and
seventeen always suffice. -/
def shortest (tie : Tie) (significand : Nat) (exponent : Int) : Digits :=
  search 20 (coarsest (significand.log2 + 1 + exponent))
where
  /-- The interval that is searched. -/
  interval : Interval := Interval.ofDouble significand exponent
  /-- Try the grid `10^e`, then finer ones. -/
  search : Nat → Int → Digits
    | 0, e =>
        let (s, t) := gridScale e (exponent - 2)
        ⟨interval.middle * t / s, e⟩
    | k + 1, e =>
        let (s, t) := gridScale e (exponent - 2)
        match interval.gridPoint? tie s t with
        | some c => ⟨c, e⟩
        | none => search k (e - 1)

end Lox.Decimal
