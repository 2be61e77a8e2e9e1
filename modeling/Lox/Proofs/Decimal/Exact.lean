/-
  Lox.Proofs.Decimal.Exact
  ────────────────────────
  **WHOLE NUMBERS ARE WRITTEN EXACTLY.**

  A finite double denotes a rational number.  An integer has one numeral: a minus sign if
  it is negative, then its digits without a zero in front (`isNumeralOf_iff`).  A layout
  that shows whole numbers exactly writes this numeral for every double that denotes the
  integer, however large it is (`Layout.text_integer`).
-/
import Lox.Proofs.Decimal.Numerals

namespace Lox.Decimal

/-! ## §1. What a double denotes. -/

namespace Binary64

/-- The number that a finite double denotes. -/
def value? : Binary64 → Option ℚ
  | .finite negative m q => some ((if negative then -1 else 1) * (m * 2 ^ q))
  | _ => none

/-- Whether the sign bit of a finite double is set: for zero, the one thing that its
number does not show. -/
def isNegative : Binary64 → Bool
  | .finite negative _ _ => negative
  | _ => false

theorem finite_of_value? {b : Binary64} {v : ℚ} (h : b.value? = some v) :
    ∃ negative m q, b = .finite negative m q
      ∧ v = (if negative then -1 else 1) * (m * 2 ^ q) := by
  cases b with
  | nan => cases h
  | infinity negative => cases h
  | finite negative m q =>
    cases h
    exact ⟨negative, m, q, rfl, rfl⟩

/-- A double that denotes a natural number is found to be whole. -/
theorem integral?_of_eq {m n : Nat} {q : Int} (h : (n : ℚ) = m * 2 ^ q) :
    (finite false m q).integral? = some (false, n) := by
  cases q with
  | ofNat k =>
    have hexact : n = m * 2 ^ k := by
      rw [Int.ofNat_eq_natCast, zpow_natCast] at h
      exact_mod_cast h
    rw [hexact]
    rfl
  | negSucc k =>
    have hexact : n * 2 ^ (k + 1) = m := by
      rw [zpow_negSucc, ← div_eq_mul_inv, eq_div_iff (by positivity)] at h
      exact_mod_cast h
    have hmod : m % 2 ^ (k + 1) = 0 := by rw [← hexact, Nat.mul_mod_left]
    have hdiv : m / 2 ^ (k + 1) = n := by
      rw [← hexact, Nat.mul_div_cancel n (Nat.two_pow_pos (k + 1))]
    unfold integral?
    dsimp only [Nat.pow_eq]
    rw [if_pos hmod, hdiv]

/-- The magnitude of a double that denotes an integer. -/
theorem natAbs_eq {negative : Bool} {m : Nat} {q z : Int}
    (h : (z : ℚ) = (if negative then -1 else 1) * (m * 2 ^ q)) :
    (z.natAbs : ℚ) = m * 2 ^ q := by
  have hmagnitude : (0 : ℚ) ≤ m * 2 ^ q := by positivity
  rw [Nat.cast_natAbs, Int.cast_abs, h]
  cases negative with
  | false => rw [if_neg Bool.false_ne_true, one_mul, abs_of_nonneg hmagnitude]
  | true => rw [if_pos rfl, neg_one_mul, abs_neg, abs_of_nonneg hmagnitude]

/-- The sign of a double that denotes an integer.  It is the sign of the integer, unless
the double is a negative zero. -/
theorem lt_zero_iff {negative : Bool} {m : Nat} {q z : Int}
    (h : (z : ℚ) = (if negative then -1 else 1) * (m * 2 ^ q))
    (hzero : z = 0 → negative = false) : z < 0 ↔ negative = true := by
  have hmagnitude : (0 : ℚ) ≤ m * 2 ^ q := by positivity
  cases negative with
  | false =>
    rw [if_neg Bool.false_ne_true, one_mul] at h
    have hz : 0 ≤ z := by
      rw [← h] at hmagnitude
      exact_mod_cast hmagnitude
    exact iff_of_false (not_lt.mpr hz) Bool.false_ne_true
  | true =>
    rw [if_pos rfl, neg_one_mul] at h
    have hz : z ≤ 0 := by
      rw [← neg_nonpos, ← h] at hmagnitude
      exact_mod_cast hmagnitude
    have hne : z ≠ 0 := fun heq => Bool.noConfusion (hzero heq)
    exact iff_of_true (lt_of_le_of_ne hz hne) rfl

end Binary64

/-! ## §2. Numerals of integers. -/

/-- **The exact decimal numeral of an integer**: a minus sign if it is negative, and digits
that denote its magnitude.  The first digit is no zero, unless it is the only one. -/
def IsNumeralOf (s : String) (z : Int) : Prop :=
  ∃ digits : List Char, s.toList = (if z < 0 then ['-'] else []) ++ digits
    ∧ AllDigits digits ∧ digits ≠ [] ∧ (digits.head? = some '0' → digits = ['0'])
    ∧ digitsValue digits = z.natAbs

theorem digitChar_of_isDigit {c : Char} (h : isDigit c = true) :
    c.toNat - 48 < 10 ∧ (c.toNat - 48).digitChar = c := by
  have hrange : 48 ≤ c.toNat ∧ c.toNat ≤ 57 := by
    unfold isDigit at h
    rw [Bool.and_eq_true, decide_eq_true_eq, decide_eq_true_eq] at h
    exact h
  have hsmall : c.toNat - 48 < 10 := by omega
  refine ⟨hsmall, Char.toNat_inj.mp ?_⟩
  rw [Nat.toNat_digitChar_of_lt_ten hsmall]
  omega

/-- Digits behind a numeral make it longer, one by one. -/
theorem toDigits_append_digits {n : Nat} (hn : 0 < n) (cs : List Char) (hcs : AllDigits cs) :
    Nat.toDigits 10 n ++ cs = Nat.toDigits 10 (Nat.ofDigitChars 10 cs n) := by
  induction cs generalizing n with
  | nil => exact List.append_nil _
  | cons c cs ih =>
    obtain ⟨hsmall, hchar⟩ := digitChar_of_isDigit (hcs c List.mem_cons_self)
    have hstep : Nat.toDigits 10 n ++ [c] = Nat.toDigits 10 (10 * n + (c.toNat - 48)) := by
      rw [← Nat.toDigits_append_toDigits (by decide) hn hsmall, Nat.toDigits_of_lt_base hsmall,
        hchar]
    calc Nat.toDigits 10 n ++ c :: cs = Nat.toDigits 10 n ++ [c] ++ cs := by
          rw [List.append_assoc, List.singleton_append]
      _ = Nat.toDigits 10 (10 * n + (c.toNat - 48)) ++ cs := by rw [hstep]
      _ = _ := ih (by omega) fun d hd => hcs d (List.mem_cons_of_mem c hd)

/-- **Digits without a zero in front are the numeral of their value.** -/
theorem toDigits_digitsValue {ds : List Char} (hds : AllDigits ds) (hne : ds ≠ [])
    (hhead : ds.head? = some '0' → ds = ['0']) : Nat.toDigits 10 (digitsValue ds) = ds := by
  cases ds with
  | nil => exact absurd rfl hne
  | cons c cs =>
    by_cases hzero : c = '0'
    · rw [hhead (congrArg some hzero)]
      rfl
    · obtain ⟨hsmall, hchar⟩ := digitChar_of_isDigit (hds c List.mem_cons_self)
      have hpos : 0 < c.toNat - 48 := by
        refine Nat.pos_of_ne_zero fun heq => hzero ?_
        rw [← hchar, heq]
        rfl
      have hall := toDigits_append_digits hpos cs fun d hd => hds d (List.mem_cons_of_mem c hd)
      have hvalue : digitsValue (c :: cs) = Nat.ofDigitChars 10 cs (10 * 0 + (c.toNat - 48)) := rfl
      rw [hvalue, Nat.mul_zero, Nat.zero_add, ← hall, Nat.toDigits_of_lt_base hsmall, hchar]
      rfl

/-- The numeral of a natural number has no zero in front. -/
theorem head?_toDigits (n : Nat) (h : (Nat.toDigits 10 n).head? = some '0') :
    Nat.toDigits 10 n = ['0'] := by
  induction n using Nat.strongRecOn with
  | ind n ih =>
    by_cases hsmall : n < 10
    · rw [Nat.toDigits_of_lt_base hsmall] at h ⊢
      exact congrArg ([·]) (Option.some.inj h)
    · -- it begins as the number without its last digit, which is not zero
      rw [Nat.toDigits_of_base_le (by decide) (Nat.le_of_not_lt hsmall), List.head?_append,
        Option.or_eq_some_iff] at h
      rcases h with hfirst | ⟨hnone, -⟩
      · have hvalue := Nat.ofDigitChars_ten_toDigits (n := n / 10)
        rw [ih (n / 10) (by omega) hfirst] at hvalue
        have hzero : n / 10 = 0 := hvalue.symm
        omega
      · exact absurd (List.head?_eq_none_iff.mp hnone) Nat.toDigits_ne_nil

/-- The numeral of an integer is the numeral of its magnitude behind its sign. -/
theorem repr_eq_sign (z : Int) : z.repr = (if z < 0 then "-" else "") ++ z.natAbs.repr := by
  cases z with
  | ofNat n => exact String.empty_append.symm
  | negSucc n =>
    rw [if_pos (Int.negSucc_lt_zero n)]
    rfl

/-- **An integer has one numeral.** -/
theorem isNumeralOf_iff (s : String) (z : Int) : IsNumeralOf s z ↔ s = z.repr := by
  have hsign : (if z < 0 then "-" else "").toList = if z < 0 then ['-'] else [] := by
    split <;> rfl
  rw [← String.toList_inj, repr_eq_sign, String.toList_append, hsign, Nat.toList_repr]
  constructor
  · rintro ⟨digits, hs, hdigits, hne, hhead, hvalue⟩
    rw [hs, ← hvalue, toDigits_digitsValue hdigits hne hhead]
  · intro hs
    have hdigits := allDigits_repr z.natAbs
    have hvalue := digitsValue_repr z.natAbs
    rw [Nat.toList_repr] at hdigits hvalue
    exact ⟨_, hs, hdigits, Nat.toDigits_ne_nil, head?_toDigits _, hvalue⟩

/-! ## §3. What a layout writes. -/

namespace Layout

variable {l : Layout}

/-- A whole number, perhaps a negative zero, as it is written. -/
theorem text_whole (hl : l.exactWhole = true) {negative : Bool} {m n : Nat} {q : Int}
    (h : (n : ℚ) = m * 2 ^ q) :
    l.text (.finite negative m q)
      = (if negative && (l.signedZero || m != 0) then "-" else "") ++ l.whole n := by
  have hmagnitude : l.magnitude m q = l.whole n := by
    unfold magnitude
    rw [Binary64.integral?_of_eq h]
    exact if_pos (.inl hl)
  rw [← hmagnitude]
  rfl

/-- **An integer is written as its numeral**, and with `.0` behind it where the layout
says so. -/
theorem text_integer (hl : l.exactWhole = true) {b : Binary64} {z : Int}
    (h : b.value? = some (z : ℚ)) (hzero : z = 0 → b.isNegative = false) :
    l.text b = z.repr ++ if l.pointZero then ".0" else "" := by
  obtain ⟨negative, m, q, rfl, hz⟩ := Binary64.finite_of_value? h
  have hmagnitude := Binary64.natAbs_eq hz
  have hsign : (negative && (l.signedZero || m != 0)) = decide (z < 0) := by
    rw [Bool.eq_iff_iff, decide_eq_true_iff, Binary64.lt_zero_iff hz hzero, Bool.and_eq_true,
      and_iff_left_iff_imp]
    intro hnegative
    -- only a negative zero has a sign and no magnitude
    have hne : m ≠ 0 := by
      rintro rfl
      rw [Nat.cast_zero, zero_mul, Nat.cast_eq_zero, Int.natAbs_eq_zero] at hmagnitude
      exact Bool.noConfusion (hnegative.symm.trans (hzero hmagnitude))
    rw [bne_iff_ne.mpr hne, Bool.or_true]
  have hwhole : l.whole z.natAbs = z.natAbs.repr ++ if l.pointZero then ".0" else "" := by
    unfold whole
    split
    · rfl
    · exact String.append_empty.symm
  rw [text_whole hl hmagnitude, hsign, hwhole, repr_eq_sign, String.append_assoc]
  simp only [decide_eq_true_eq]

end Layout

end Lox.Decimal
