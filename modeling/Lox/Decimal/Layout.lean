/-
  Lox.Decimal.Layout
  ──────────────────
  **WRITING A DOUBLE DOWN.**

  A layout is a record of decisions: whether whole numbers show all their
  digits or only the significant ones, whether they end in `.0`, when a
  power of ten is split off, and how the special values read.  The modules
  that write numbers each own one layout; `Layout.render` is the one
  function that obeys it.
-/
import Lox.Decimal.Binary64
import Lox.Decimal.Shortest

namespace Lox.Decimal

/-! ## §1. The decisions. -/

/-- When and how a power of ten is split off: a number whose first digit
stands for `10^k` is written positionally if `least ≤ k < bound`. -/
structure Scientific where
  least : Int
  bound : Int
  /-- Whether an exponent that is not negative has a sign. -/
  plus : Bool
  deriving Repr, DecidableEq

/-- How doubles are written. -/
structure Layout where
  nan : String := "NaN"
  infinity : String := "inf"
  negativeInfinity : String := "-inf"
  /-- Whether the minus sign of a negative zero is written. -/
  signedZero : Bool := true
  /-- Whether a whole number written positionally ends in `.0`. -/
  pointZero : Bool := true
  /-- Whether a whole number shows its exact value instead of its shortest
  digits. -/
  exactWhole : Bool := true
  /-- Where an exact half goes among the shortest digits. -/
  tie : Tie := .up
  /-- How powers of ten are split off, if they ever are. -/
  scientific : Option Scientific := none
  deriving Repr, DecidableEq

/-! ## §2. The texts. -/

/-- `n` zeros. -/
def zeros (n : Nat) : String :=
  String.ofList (List.replicate n '0')

/-- The exact numeral of a whole number. -/
def Layout.whole (l : Layout) (n : Nat) : String :=
  if l.pointZero then Nat.repr n ++ ".0" else Nat.repr n

/-- A decimal without a power of ten. -/
def Layout.positional (l : Layout) (d : Digits) : String :=
  let text := Nat.repr d.digits
  match d.exponent with
  | .ofNat e => text ++ zeros e ++ (if l.pointZero then ".0" else "")
  | .negSucc e =>
      let places := e + 1
      if places < text.length then
        let cut := text.length - places
        String.ofList (text.toList.take cut) ++ "." ++ String.ofList (text.toList.drop cut)
      else "0." ++ zeros (places - text.length) ++ text

/-- A decimal with a power of ten: one digit, the others after a point, and
the exponent `k`. -/
def Scientific.write (s : Scientific) (d : Digits) (k : Int) : String :=
  let exponent := match k with
    | .ofNat n => (if s.plus then "e+" else "e") ++ Nat.repr n
    | .negSucc n => "e-" ++ Nat.repr (n + 1)
  match (Nat.repr d.digits).toList with
  | [] => exponent
  | [c] => String.singleton c ++ exponent
  | c :: rest => String.singleton c ++ "." ++ String.ofList rest ++ exponent

/-- A positive decimal. -/
def Layout.decimal (l : Layout) (d : Digits) : String :=
  match l.scientific with
  | none => l.positional d
  | some s =>
      let k : Int := (Nat.repr d.digits).length + d.exponent - 1
      if s.least ≤ k ∧ k < s.bound then l.positional d else s.write d k

/-- A finite number without its sign. -/
def Layout.magnitude (l : Layout) (m : Nat) (q : Int) : String :=
  match (Binary64.finite false m q).integral? with
  | some (_, n) =>
      if l.exactWhole ∨ n = 0 then l.whole n else l.decimal (shortest l.tie m q)
  | none => l.decimal (shortest l.tie m q)

/-- What a double denotes, as text. -/
def Layout.text (l : Layout) : Binary64 → String
  | .nan => l.nan
  | .infinity false => l.infinity
  | .infinity true => l.negativeInfinity
  | .finite negative m q =>
      let shown := negative && (l.signedZero || m != 0)
      (if shown then "-" else "") ++ l.magnitude m q

/-- A double as text. -/
def Layout.render (l : Layout) (x : Float) : String :=
  l.text (.ofFloat x)

end Lox.Decimal
