/-
  Lox.Proofs.Decimal.Paths
  ────────────────────────
  **TWO PATHS TO ONE NUMERAL.**

  There are two ways to write a double that is whole: cast it to a 64-bit integer and
  write that, or write it with a fixed number of decimal places.  The cast is exact only in
  the range of the integers, so what a program prints and what a token shows take it below
  `10^15` and take the other path from there on; an outline takes the other path always.
  `printed`, `token` and `outline` make these choices one by one.

  Main results:
    * `printed_eq`, `token_eq`, `outline_eq`: for every double, whole or not, they are the
      layouts that the program writes numbers with.
    * `integers_exact`: an integer comes out as its exact numeral on every path.
-/
import Lox.Proofs.Decimal.Exact
import Lox.Value.Basic
import Mathlib.Algebra.Order.Round
import Mathlib.Data.Rat.Floor

namespace Lox.Decimal.Paths

/-! ## §1. Taking the integer out of a double. -/

/-- A number without what stands behind its point. -/
def wholePart (v : ℚ) : Int :=
  if v < 0 then ⌈v⌉ else ⌊v⌋

/-- Whether a double is a number with nothing behind its point. -/
def hasNoFraction (b : Binary64) : Bool :=
  match b.value? with
  | some v => v - wholePart v = 0
  | none => false

/-- Whether a double is a number of magnitude below `10^15`. -/
def belowSwitch (b : Binary64) : Bool :=
  match b.value? with
  | some v => |v| < 10 ^ 15
  | none => false

/-- A double as a 64-bit integer: what is behind the point is dropped, what is too large
becomes the nearest end of the range, and what is no number becomes zero. -/
def toInt64 : Binary64 → Int64
  | .nan => 0
  | .infinity false => Int64.maxValue
  | .infinity true => Int64.minValue
  | .finite negative m q => .ofIntClamp (wholePart ((if negative then -1 else 1) * (m * 2 ^ q)))

/-! ## §2. Fixed places and shortest digits. -/

/-- Shortest digits, never with a power of ten. -/
def shortestLayout : Layout where
  pointZero := false
  exactWhole := false

/-- `m · 2^q · 10^places`, rounded to the nearest natural number, a half to the even one. -/
def rounded (places m : Nat) (q : Int) : Nat :=
  let (num, den) := scaled (m * 10 ^ places) 1 (-q)
  divNearestEven num den

/-- A double with a fixed number of digits behind the point. -/
def fixed (places : Nat) : Binary64 → String
  | .finite negative m q =>
      (if negative then "-" else "") ++ shortestLayout.positional ⟨rounded places m q, -places⟩
  | b => shortestLayout.text b

/-! ## §3. The three choices. -/

/-- A number as a program prints it.  No integer is a negative zero, so that one is
written by hand. -/
def printed : Binary64 → String
  | .nan => "NaN"
  | .infinity negative => if negative then "-Infinity" else "Infinity"
  | .finite negative m q =>
      let b := Binary64.finite negative m q
      if b.value? = some 0 ∧ negative then "-0"
      else if hasNoFraction b && belowSwitch b then (toInt64 b).toInt.repr
      else if hasNoFraction b then fixed 0 b
      else shortestLayout.text b

/-- A number as its token shows it. -/
def token (b : Binary64) : String :=
  if hasNoFraction b && belowSwitch b then (toInt64 b).toInt.repr ++ ".0"
  else if hasNoFraction b then fixed 1 b
  else shortestLayout.text b

/-- A number as it stands in an outline. -/
def outline (b : Binary64) : String :=
  if hasNoFraction b then fixed 1 b else shortestLayout.text b

/-! ## §4. The integer path. -/

theorem wholePart_intCast (z : Int) : wholePart z = z := by
  unfold wholePart
  split
  · exact Int.ceil_intCast z
  · exact Int.floor_intCast z

theorem hasNoFraction_iff (b : Binary64) :
    hasNoFraction b = true ↔ ∃ z : Int, b.value? = some (z : ℚ) := by
  unfold hasNoFraction
  cases b.value? with
  | none => exact iff_of_false Bool.false_ne_true nofun
  | some v =>
    dsimp only
    rw [decide_eq_true_iff, sub_eq_zero]
    constructor
    · intro h
      exact ⟨wholePart v, congrArg some h⟩
    · rintro ⟨z, hz⟩
      rw [Option.some.inj hz, wholePart_intCast]

theorem belowSwitch_iff {b : Binary64} {z : Int} (h : b.value? = some (z : ℚ)) :
    belowSwitch b = true ↔ z.natAbs < 10 ^ 15 := by
  unfold belowSwitch
  rw [h]
  dsimp only
  rw [decide_eq_true_iff, ← Int.cast_abs, ← Int.natCast_natAbs, Int.cast_natCast]
  exact_mod_cast Iff.rfl

/-- **The cast is exact** for the integers in its range. -/
theorem toInt_toInt64 {b : Binary64} {z : Int} (h : b.value? = some (z : ℚ))
    (hlow : -2 ^ 63 ≤ z) (hhigh : z < 2 ^ 63) : (toInt64 b).toInt = z := by
  obtain ⟨negative, m, q, rfl, hz⟩ := Binary64.finite_of_value? h
  show (Int64.ofIntClamp (wholePart ((if negative then -1 else 1) * (m * 2 ^ q)))).toInt = z
  rw [← hz, wholePart_intCast]
  refine Int64.toInt_ofIntClamp ?_ ?_
  · exact hlow
  · exact Int.le_of_lt_add_one hhigh

/-! ## §5. The fixed path. -/

/-- An exact quotient is not rounded. -/
theorem divNearestEven_mul (n : Nat) {d : Nat} (hd : 0 < d) : divNearestEven (n * d) d = n := by
  unfold divNearestEven
  dsimp only
  rw [Nat.mul_mod_left, Nat.mul_zero, if_pos hd, Nat.mul_div_cancel n hd]

theorem scaled_one (num : Nat) (e : Int) :
    scaled num 1 e = (num * 2 ^ (-e).toNat, 2 ^ e.toNat) := by
  cases e with
  | ofNat k =>
    have hneg : (-(Int.ofNat k)).toNat = 0 := by
      rw [Int.ofNat_eq_natCast]
      omega
    rw [hneg, Nat.pow_zero, Nat.mul_one]
    show (num, 1 * 2 ^ k) = (num, 2 ^ k)
    rw [Nat.one_mul]
  | negSucc k => rfl

/-- A whole number is not rounded. -/
theorem rounded_whole {m n : Nat} {q : Int} (h : (n : ℚ) = m * 2 ^ q) (places : Nat) :
    rounded places m q = n * 10 ^ places := by
  have hscales : (n * 2 ^ (-q).toNat : ℕ) = m * 2 ^ q.toNat := by
    have htwo : (2 : ℚ) ^ q.toNat = 2 ^ q * 2 ^ (-q).toNat := by
      rw [← zpow_natCast, ← zpow_natCast, ← zpow_add₀ (by norm_num)]
      congr 1
      omega
    have hcast : (n : ℚ) * 2 ^ (-q).toNat = m * 2 ^ q.toNat := by
      rw [htwo, h, mul_assoc]
    exact_mod_cast hcast
  unfold rounded
  rw [scaled_one, neg_neg]
  dsimp only
  rw [Nat.mul_right_comm, ← hscales, Nat.mul_right_comm]
  exact divNearestEven_mul _ (Nat.two_pow_pos _)

/-- A whole number with no place behind the point. -/
theorem positional_zero (n : Nat) : shortestLayout.positional ⟨n, 0⟩ = n.repr := by
  show n.repr ++ zeros 0 ++ "" = n.repr
  rw [String.append_empty]
  exact String.append_empty

/-- A whole number with one place behind the point: a zero. -/
theorem positional_one (n : Nat) : shortestLayout.positional ⟨n * 10, -1⟩ = n.repr ++ ".0" := by
  by_cases hn : n = 0
  · rw [hn]
    rfl
  · have hrepr : (n * 10).repr = n.repr ++ "0" := by
      rw [Nat.repr_of_ge (by omega), Nat.mul_div_cancel n (by decide), Nat.mul_mod_left]
      rfl
    have hlength : (n.repr ++ "0").length = n.repr.length + 1 := String.length_append ..
    have hpos : 0 < n.repr.length := Nat.length_repr_pos
    show (if 0 + 1 < (n * 10).repr.length then _ else _) = _
    rw [hrepr, hlength, if_pos (by omega), Nat.add_sub_cancel, String.toList_append,
      ← String.length_toList, List.take_left, List.drop_left, String.ofList_toList,
      String.append_assoc]
    rfl

theorem fixed_zero {m n : Nat} {q : Int} (h : (n : ℚ) = m * 2 ^ q) (negative : Bool) :
    fixed 0 (.finite negative m q) = (if negative then "-" else "") ++ n.repr := by
  show _ ++ shortestLayout.positional ⟨rounded 0 m q, 0⟩ = _
  rw [rounded_whole h, Nat.pow_zero, Nat.mul_one, positional_zero]

theorem fixed_one {m n : Nat} {q : Int} (h : (n : ℚ) = m * 2 ^ q) (negative : Bool) :
    fixed 1 (.finite negative m q) = (if negative then "-" else "") ++ (n.repr ++ ".0") := by
  show _ ++ shortestLayout.positional ⟨rounded 1 m q, -1⟩ = _
  rw [rounded_whole h, Nat.pow_one, positional_one]

/-! ## §6. Numbers that are not whole. -/

/-- A finite double is whole, or it has a fraction. -/
theorem whole_or_fraction (m : Nat) (q : Int) :
    (∃ n : Nat, (n : ℚ) = m * 2 ^ q) ∨ (Binary64.finite false m q).integral? = none := by
  cases hinteger : (Binary64.finite false m q).integral? with
  | none => exact .inr rfl
  | some integer => exact .inl ⟨integer.2, value_of_integral? hinteger⟩

theorem hasNoFraction_eq_false {m : Nat} {q : Int}
    (h : (Binary64.finite false m q).integral? = none) (negative : Bool) :
    hasNoFraction (.finite negative m q) = false := by
  rw [← Bool.not_eq_true, hasNoFraction_iff]
  rintro ⟨z, hz⟩
  have hwhole := Binary64.natAbs_eq (Option.some.inj hz).symm
  rw [Binary64.integral?_of_eq hwhole] at h
  cases h

theorem ne_zero_of_fraction {m : Nat} {q : Int}
    (h : (Binary64.finite false m q).integral? = none) : m ≠ 0 := by
  rintro rfl
  have hzero : ((0 : ℕ) : ℚ) = (0 : ℕ) * 2 ^ q := by rw [Nat.cast_zero, zero_mul]
  rw [Binary64.integral?_of_eq hzero] at h
  cases h

/-- **The shortest digits of a fraction end behind the point.**  A whole number in the
interval of a double with a fraction would be the double itself: its distance is a
multiple of the last bit, and half a bit is where the interval ends. -/
theorem exponent_of_fraction {m : Nat} {q : Int} (hm : Canonical m q)
    (h : (Binary64.finite false m q).integral? = none) (tie : Tie) :
    ∃ e : Nat, (shortest tie m q).exponent = .negSucc e := by
  cases hexponent : (shortest tie m q).exponent with
  | negSucc e => exact ⟨e, rfl⟩
  | ofNat e =>
    cases q with
    | ofNat j => cases h
    | negSucc j =>
      exfalso
      have hinside : Inside m (.negSucc j) (shortest tie m (.negSucc j)).value :=
        shortest_inside hm
      have hbounds := inside_le hinside
      have hvalue : (shortest tie m (.negSucc j)).value
          = (((shortest tie m (.negSucc j)).digits * 10 ^ e : ℕ) : ℚ) := by
        unfold Digits.value
        rw [hexponent, Int.ofNat_eq_natCast, zpow_natCast]
        push_cast
        rfl
      generalize (shortest tie m (.negSucc j)).digits * 10 ^ e = n at hvalue
      -- both sides in quarters of the last bit
      have hunit : (n : ℚ) = (n * 2 ^ (j + 1) * 4 : ℕ) * 2 ^ (Int.negSucc j - 2) := by
        rw [zpow_sub₀ (by norm_num), zpow_negSucc]
        push_cast
        field_simp
      rw [hvalue, hunit, mul_le_mul_iff_left₀ (by positivity),
        mul_le_mul_iff_left₀ (by positivity), Nat.cast_le, Nat.cast_le] at hbounds
      obtain ⟨hlow, hhigh⟩ := hbounds
      dsimp only [Interval.ofDouble] at hlow hhigh
      have hexact : n * 2 ^ (j + 1) = m := by
        split at hlow <;> omega
      unfold Binary64.integral? at h
      dsimp only at h
      rw [if_pos (by rw [← hexact, Nat.pow_eq, Nat.mul_mod_left])] at h
      cases h

/-- A layout that shows whole numbers exactly and fractions with their shortest digits, and
never a power of ten. -/
structure Plainly (l : Layout) : Prop where
  exactWhole : l.exactWhole = true
  tie : l.tie = .up
  scientific : l.scientific = none

/-- Such layouts write a fraction alike. -/
theorem text_fraction {l : Layout} (hl : Plainly l) {m : Nat} {q : Int} (hm : Canonical m q)
    (h : (Binary64.finite false m q).integral? = none) (negative : Bool) :
    l.text (.finite negative m q) = shortestLayout.text (.finite negative m q) := by
  have hne : (m != 0) = true := bne_iff_ne.mpr (ne_zero_of_fraction h)
  have hmagnitude : l.magnitude m q = shortestLayout.magnitude m q := by
    obtain ⟨e, he⟩ := exponent_of_fraction hm h .up
    unfold Layout.magnitude Layout.decimal
    rw [h, hl.tie, hl.scientific]
    show l.positional (shortest .up m q) = shortestLayout.positional (shortest .up m q)
    unfold Layout.positional
    rw [he]
  unfold Layout.text
  dsimp only
  rw [hmagnitude, hne, Bool.or_true, Bool.or_true]

/-! ## §7. The choices are the layouts. -/

section Whole

variable {m n : Nat} {q : Int}

/-- The integer that a whole double denotes. -/
theorem value?_whole (h : (n : ℚ) = m * 2 ^ q) (negative : Bool) :
    (Binary64.finite negative m q).value?
      = some (((if negative then -1 else 1) * n : ℤ) : ℚ) := by
  show some ((if negative then -1 else 1) * (m * 2 ^ q) : ℚ) = _
  rw [← h]
  push_cast
  rfl

theorem natAbs_signed (negative : Bool) (n : Nat) :
    ((if negative then -1 else 1) * n : ℤ).natAbs = n := by
  rw [Int.natAbs_mul, Int.natAbs_natCast]
  cases negative <;> exact Nat.one_mul n

theorem hasNoFraction_whole (h : (n : ℚ) = m * 2 ^ q) (negative : Bool) :
    hasNoFraction (.finite negative m q) = true :=
  (hasNoFraction_iff _).mpr ⟨_, value?_whole h negative⟩

theorem belowSwitch_whole (h : (n : ℚ) = m * 2 ^ q) (negative : Bool) :
    belowSwitch (.finite negative m q) = true ↔ n < 10 ^ 15 := by
  rw [belowSwitch_iff (value?_whole h negative), natAbs_signed]

theorem eq_zero_iff_of_whole (h : (n : ℚ) = m * 2 ^ q) : n = 0 ↔ m = 0 := by
  have hpow : (2 : ℚ) ^ q ≠ 0 := by positivity
  rw [← Nat.cast_eq_zero (R := ℚ), h, mul_eq_zero, or_iff_left hpow, Nat.cast_eq_zero]

/-- **What the cast writes**: a zero has lost its sign. -/
theorem repr_toInt64 (h : (n : ℚ) = m * 2 ^ q) (hsmall : n < 10 ^ 15) (negative : Bool) :
    (toInt64 (.finite negative m q)).toInt.repr
      = (if negative && m != 0 then "-" else "") ++ n.repr := by
  have habs := natAbs_signed negative n
  rw [toInt_toInt64 (value?_whole h negative) (by omega) (by omega), repr_eq_sign, habs]
  congr 1
  refine if_congr ?_ rfl rfl
  rw [Bool.and_eq_true, bne_iff_ne, Ne, ← eq_zero_iff_of_whole h]
  cases negative with
  | false =>
    rw [if_neg Bool.false_ne_true, one_mul]
    exact iff_of_false (by omega) fun hsign => Bool.false_ne_true hsign.1
  | true =>
    rw [if_pos rfl, neg_one_mul, and_iff_right rfl]
    omega

end Whole

/-- The doubles that denote zero. -/
theorem value?_eq_zero_iff (negative : Bool) (m : Nat) (q : Int) :
    (Binary64.finite negative m q).value? = some 0 ↔ m = 0 := by
  have hpow : (2 : ℚ) ^ q ≠ 0 := by positivity
  have hsign : (if negative then -1 else 1 : ℚ) ≠ 0 := by split <;> norm_num
  show some ((if negative then -1 else 1) * (m * 2 ^ q) : ℚ) = some 0 ↔ m = 0
  rw [Option.some_inj, mul_eq_zero, or_iff_right hsign, mul_eq_zero, or_iff_left hpow,
    Nat.cast_eq_zero]

theorem plainly_printed : Plainly Value.numberLayout := ⟨rfl, rfl, rfl⟩

theorem plainly_token : Plainly TokenKind.numberLayout := ⟨rfl, rfl, rfl⟩

theorem plainly_outline : Plainly Literal.numberLayout := ⟨rfl, rfl, rfl⟩

/-- A finite number is printed as its layout says. -/
theorem printed_finite {m : Nat} {q : Int} (hm : Canonical m q) (negative : Bool) :
    printed (.finite negative m q) = Value.numberLayout.text (.finite negative m q) := by
  simp only [printed, value?_eq_zero_iff]
  rcases whole_or_fraction m q with ⟨n, hn⟩ | hfraction
  · rw [Layout.text_whole plainly_printed.exactWhole hn, hasNoFraction_whole hn, Bool.true_and,
      if_pos rfl, fixed_zero hn]
    show _ = (if negative && true then "-" else "") ++ n.repr
    rw [Bool.and_true]
    split
    · next hminus =>
      rw [if_pos hminus.2, (eq_zero_iff_of_whole hn).mpr hminus.1]
      rfl
    · next hminus =>
      split
      · next hbelow =>
        -- the cast loses the sign of a zero only, which is not here
        have hsign : (negative && m != 0) = negative := by
          rw [Bool.and_eq_left_iff_imp, bne_iff_ne]
          exact fun hnegative hzero => hminus ⟨hzero, hnegative⟩
        rw [repr_toInt64 hn ((belowSwitch_whole hn negative).mp hbelow), hsign]
      · rfl
  · rw [if_neg fun h => ne_zero_of_fraction hfraction h.1, hasNoFraction_eq_false hfraction,
      text_fraction plainly_printed hm hfraction]
    rfl

/-- A finite number is shown by its token as its layout says. -/
theorem token_finite {m : Nat} {q : Int} (hm : Canonical m q) (negative : Bool) :
    token (.finite negative m q) = TokenKind.numberLayout.text (.finite negative m q) := by
  unfold token
  rcases whole_or_fraction m q with ⟨n, hn⟩ | hfraction
  · rw [Layout.text_whole plainly_token.exactWhole hn, hasNoFraction_whole hn, Bool.true_and,
      if_pos rfl, fixed_one hn]
    show _ = (if negative && m != 0 then "-" else "") ++ (n.repr ++ ".0")
    split
    · next hbelow =>
      rw [repr_toInt64 hn ((belowSwitch_whole hn negative).mp hbelow), String.append_assoc]
    · next hlarge =>
      -- the fixed path keeps the sign, and here it is not the sign of a zero
      have hne : (m != 0) = true := by
        rw [bne_iff_ne, Ne, ← eq_zero_iff_of_whole hn]
        rw [belowSwitch_whole hn] at hlarge
        omega
      rw [hne, Bool.and_true]
  · rw [hasNoFraction_eq_false hfraction, text_fraction plainly_token hm hfraction]
    rfl

/-- A finite number stands in an outline as its layout says. -/
theorem outline_finite {m : Nat} {q : Int} (hm : Canonical m q) (negative : Bool) :
    outline (.finite negative m q) = Literal.numberLayout.text (.finite negative m q) := by
  unfold outline
  rcases whole_or_fraction m q with ⟨n, hn⟩ | hfraction
  · rw [Layout.text_whole plainly_outline.exactWhole hn, hasNoFraction_whole hn, if_pos rfl,
      fixed_one hn]
    show _ = (if negative && true then "-" else "") ++ (n.repr ++ ".0")
    rw [Bool.and_true]
  · rw [hasNoFraction_eq_false hfraction, text_fraction plainly_outline hm hfraction]
    rfl

/-- Whatever a double denotes, a finite one has a significand and an exponent in the
range. -/
theorem forall_ofFloat {P : Binary64 → Prop} (hnan : P .nan)
    (hinfinity : ∀ negative, P (.infinity negative))
    (hfinite : ∀ {m q}, Canonical m q → ∀ negative, P (.finite negative m q)) (x : Float) :
    P (.ofFloat x) := by
  cases hx : Binary64.ofFloat x with
  | nan => exact hnan
  | infinity negative => exact hinfinity negative
  | finite negative m q => exact hfinite (canonical_of_ofPattern hx) negative

/-- **Printed numbers follow their layout**, for every double. -/
theorem printed_eq (x : Float) : printed (.ofFloat x) = Value.numberLayout.render x := by
  refine forall_ofFloat (P := fun b => printed b = Value.numberLayout.text b) rfl ?_ ?_ x
  · intro negative
    cases negative <;> rfl
  · exact printed_finite

/-- **Numbers of tokens follow their layout**, for every double. -/
theorem token_eq (x : Float) : token (.ofFloat x) = TokenKind.numberLayout.render x := by
  refine forall_ofFloat (P := fun b => token b = TokenKind.numberLayout.text b) rfl ?_ ?_ x
  · intro negative
    cases negative <;> rfl
  · exact token_finite

/-- **Numbers in outlines follow their layout**, for every double. -/
theorem outline_eq (x : Float) : outline (.ofFloat x) = Literal.numberLayout.render x := by
  refine forall_ofFloat (P := fun b => outline b = Literal.numberLayout.text b) rfl ?_ ?_ x
  · intro negative
    cases negative <;> rfl
  · exact outline_finite

/-! ## §8. Integers. -/

/-- The fixed path writes an integer of any size exactly. -/
theorem fixed_integer {b : Binary64} {z : Int} (h : b.value? = some (z : ℚ))
    (hzero : z = 0 → b.isNegative = false) :
    fixed 0 b = z.repr ∧ fixed 1 b = z.repr ++ ".0" := by
  obtain ⟨negative, m, q, rfl, hz⟩ := Binary64.finite_of_value? h
  have hmagnitude := Binary64.natAbs_eq hz
  have hsign : (if negative then "-" else "") = if z < 0 then "-" else "" :=
    if_congr (Binary64.lt_zero_iff hz hzero).symm rfl rfl
  rw [fixed_zero hmagnitude, fixed_one hmagnitude, hsign, repr_eq_sign, String.append_assoc]
  exact ⟨rfl, rfl⟩

/-- **An integer is written as its one exact numeral.**  Let a double denote an integer, and
let it be no negative zero.  Then the program prints the numeral of the integer, and its
token and its outline show the numeral with `.0` behind it.  This is so on either side of
the switch: below it the cast is exact, and the fixed path is exact everywhere. -/
theorem integers_exact {x : Float} {z : Int} (hx : (Binary64.ofFloat x).value? = some (z : ℚ))
    (hzero : z = 0 → (Binary64.ofFloat x).isNegative = false) :
    ∃ numeral : String, (∀ s, IsNumeralOf s z ↔ s = numeral)
      ∧ (∀ objects, (Value.number x).text objects = numeral)
      ∧ (TokenKind.number x).literalText = numeral ++ ".0"
      ∧ (Expr.literal (.number x)).outline = numeral ++ ".0"
      ∧ printed (.ofFloat x) = numeral
      ∧ token (.ofFloat x) = numeral ++ ".0"
      ∧ outline (.ofFloat x) = numeral ++ ".0"
      ∧ (belowSwitch (.ofFloat x) = true ↔ z.natAbs < 10 ^ 15)
      ∧ (-2 ^ 63 ≤ z → z < 2 ^ 63 → (toInt64 (.ofFloat x)).toInt = z)
      ∧ fixed 0 (.ofFloat x) = numeral ∧ fixed 1 (.ofFloat x) = numeral ++ ".0" := by
  have hprinted : Value.numberLayout.render x = z.repr :=
    (Layout.text_integer plainly_printed.exactWhole hx hzero).trans String.append_empty
  have htoken : TokenKind.numberLayout.render x = z.repr ++ ".0" :=
    Layout.text_integer plainly_token.exactWhole hx hzero
  have houtline : Literal.numberLayout.render x = z.repr ++ ".0" :=
    Layout.text_integer plainly_outline.exactWhole hx hzero
  refine ⟨z.repr, fun s => isNumeralOf_iff s z, fun _ => hprinted, htoken, ?_,
    (printed_eq x).trans hprinted, (token_eq x).trans htoken, (outline_eq x).trans houtline,
    belowSwitch_iff hx, toInt_toInt64 hx, fixed_integer hx hzero⟩
  rw [Expr.outline]
  exact houtline

/-- Ten sextillions below zero, which is outside of the range of the cast. -/
theorem integers_exact_sextillions :
    (Value.number (-1e22)).text #[] = "-10000000000000000000000"
      ∧ (TokenKind.number (-1e22)).literalText = "-10000000000000000000000.0"
      ∧ (Expr.literal (.number (-1e22))).outline = "-10000000000000000000000.0" := by
  have hdouble : Binary64.ofFloat (-1e22) = .finite true 4768371582031250 21 := by decide +kernel
  have hvalue : (Binary64.ofFloat (-1e22)).value? = some ((-10 ^ 22 : ℤ) : ℚ) := by
    rw [hdouble]
    show some ((-1 : ℚ) * (4768371582031250 * 2 ^ (21 : ℤ))) = _
    norm_num
  obtain ⟨numeral, hnumeral, hprinted, htoken, houtline, -⟩ :=
    integers_exact hvalue fun h => absurd h (by decide)
  obtain rfl : "-10000000000000000000000" = numeral :=
    (hnumeral _).mp ((isNumeralOf_iff _ _).mpr (by decide +kernel))
  exact ⟨hprinted #[], htoken, houtline⟩

end Lox.Decimal.Paths
