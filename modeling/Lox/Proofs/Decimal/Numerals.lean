/-
  Lox.Proofs.Decimal.Numerals
  ───────────────────────────
  **NUMERALS TELL NUMBERS APART.**

  An outline writes a number with digits on both sides of a point.  Read as a
  decimal fraction, the digits denote a number in the interval of the double
  (`denotes_render`): its exact value if it is whole, its shortest decimal
  otherwise.  So two doubles have different numerals (`render_injective`).
-/
import Lox.Proofs.Decimal.Patterns
import Lox.Syntax.Outline
import Lox.Token.Scan

namespace Lox

open Decimal

/-! ## §1. Digits. -/

/-- Digits and points, at least one of them. -/
def IsNumeral (s : String) : Prop :=
  s.toList ≠ [] ∧ ∀ c ∈ s.toList, isDigit c = true ∨ c = '.'

/-- All characters are digits. -/
def AllDigits (cs : List Char) : Prop :=
  ∀ c ∈ cs, isDigit c = true

/-- A text has digits, a point, and digits that denote a number. -/
def Denotes (s : String) (v : ℚ) : Prop :=
  ∃ whole fraction : List Char, s.toList = whole ++ '.' :: fraction ∧ AllDigits whole
    ∧ AllDigits fraction ∧ (digitsValue (whole ++ fraction) : ℚ) = v * 10 ^ fraction.length

theorem Denotes.isNumeral {s : String} {v : ℚ} (h : Denotes s v) : IsNumeral s := by
  obtain ⟨whole, fraction, hs, hwhole, hfraction, -⟩ := h
  unfold IsNumeral
  rw [hs]
  refine ⟨List.append_ne_nil_of_right_ne_nil _ (List.cons_ne_nil _ _), ?_⟩
  refine List.forall_mem_append.mpr ⟨fun c hc => .inl (hwhole c hc), ?_⟩
  exact List.forall_mem_cons.mpr ⟨.inr rfl, fun c hc => .inl (hfraction c hc)⟩

/-- **A text denotes one number.** -/
theorem Denotes.unique {s : String} {v v' : ℚ} (h : Denotes s v) (h' : Denotes s v') : v = v' := by
  obtain ⟨whole, fraction, hs, hwhole, -, hv⟩ := h
  obtain ⟨whole', fraction', hs', hwhole', -, hv'⟩ := h'
  have hsplit := hs.symm.trans hs'
  have hpoint : isDigit '.' = false := by decide
  have htake : ∀ ds cs : List Char, AllDigits ds → (ds ++ '.' :: cs).takeWhile isDigit = ds := by
    intro ds cs hds
    rw [List.takeWhile_append_of_pos hds, List.takeWhile_cons, hpoint]
    exact List.append_nil ds
  have hw : whole = whole' := by
    rw [← htake whole fraction hwhole, hsplit, htake whole' fraction' hwhole']
  subst hw
  obtain ⟨-, rfl⟩ := List.cons.inj (List.append_cancel_left hsplit)
  have hpow : (10 : ℚ) ^ fraction.length ≠ 0 := by positivity
  exact mul_right_cancel₀ hpow (hv.symm.trans hv')

theorem digitsValue_append (cs ds : List Char) :
    digitsValue (cs ++ ds) = 10 ^ ds.length * digitsValue cs + digitsValue ds :=
  (Nat.ofDigitChars_append 0).trans Nat.ofDigitChars_eq_ofDigitChars_zero

theorem digitsValue_zeros (n : Nat) : digitsValue (List.replicate n '0') = 0 :=
  Nat.ofDigitChars_replicate_zero

theorem digitsValue_repr (n : Nat) : digitsValue n.repr.toList = n := by
  rw [Nat.repr_eq_ofList_toDigits, String.toList_ofList]
  exact Nat.ofDigitChars_ten_toDigits

theorem allDigits_zeros (n : Nat) : AllDigits (List.replicate n '0') := by
  intro c hc
  rw [List.eq_of_mem_replicate hc]
  decide

theorem allDigits_repr (n : Nat) : AllDigits n.repr.toList := by
  intro c hc
  rw [Nat.repr_eq_ofList_toDigits, String.toList_ofList] at hc
  have hdigit := Nat.isDigit_of_mem_toDigits (by decide) (by decide) hc
  simp only [isDigit, Char.isDigit, Bool.and_eq_true, decide_eq_true_eq] at hdigit ⊢
  exact hdigit

theorem toList_zeros (n : Nat) : (zeros n).toList = List.replicate n '0' :=
  String.toList_ofList

/-! ## §2. What is written. -/

/-- A whole number in front of `.0`. -/
theorem denotes_pointZero {s : String} {cs : List Char} (hs : s.toList = cs ++ ".0".toList)
    (hcs : AllDigits cs) : Denotes s (digitsValue cs) := by
  refine ⟨cs, ['0'], hs, hcs, allDigits_zeros 1, ?_⟩
  have hzero : digitsValue ['0'] = 0 := rfl
  rw [digitsValue_append, hzero]
  push_cast
  ring

theorem denotes_whole (n : Nat) : Denotes (Literal.numberLayout.whole n) n := by
  have hdenotes : Denotes (Literal.numberLayout.whole n) (digitsValue n.repr.toList) :=
    denotes_pointZero String.toList_append (allDigits_repr n)
  rw [digitsValue_repr] at hdenotes
  exact hdenotes

/-- **A decimal is written as what it denotes.** -/
theorem denotes_positional (d : Digits) : Denotes (Literal.numberLayout.positional d) d.value := by
  obtain ⟨digits, exponent⟩ := d
  have hdigits := allDigits_repr digits
  cases exponent with
  | ofNat e =>
    -- a whole number: zeros behind the digits, and then `.0`
    have hall : AllDigits (digits.repr.toList ++ List.replicate e '0') :=
      List.forall_mem_append.mpr ⟨hdigits, allDigits_zeros e⟩
    have hvalue : (Digits.mk digits (.ofNat e)).value
        = digitsValue (digits.repr.toList ++ List.replicate e '0') := by
      rw [digitsValue_append, digitsValue_repr, digitsValue_zeros, List.length_replicate]
      show (digits : ℚ) * 10 ^ (e : Int) = _
      rw [zpow_natCast, Nat.add_zero]
      push_cast
      ring
    rw [hvalue]
    refine denotes_pointZero ?_ hall
    show (digits.repr ++ zeros e ++ ".0").toList = _
    rw [String.toList_append, String.toList_append, toList_zeros]
  | negSucc e =>
    have hvalue : (Digits.mk digits (.negSucc e)).value * 10 ^ (e + 1) = digits := by
      show (digits : ℚ) * 10 ^ Int.negSucc e * 10 ^ (e + 1) = digits
      rw [zpow_negSucc, mul_assoc, inv_mul_cancel₀ (by positivity), mul_one]
    unfold Layout.positional
    dsimp only
    split
    · next hshort =>
      -- the point stands among the digits
      refine ⟨digits.repr.toList.take (digits.repr.length - (e + 1)),
        digits.repr.toList.drop (digits.repr.length - (e + 1)), ?_, ?_, ?_, ?_⟩
      · rw [String.toList_append, String.toList_append, String.toList_ofList,
          String.toList_ofList, String.toList_ofList, List.append_assoc]
        rfl
      · exact fun c hc => hdigits c (List.mem_of_mem_take hc)
      · exact fun c hc => hdigits c (List.mem_of_mem_drop hc)
      · have hlength : (digits.repr.toList.drop (digits.repr.length - (e + 1))).length = e + 1 := by
          rw [List.length_drop, String.length_toList]
          omega
        rw [List.take_append_drop, digitsValue_repr, hlength, hvalue]
    · next hlong =>
      -- the point stands in front of the digits, with zeros between them
      refine ⟨['0'], List.replicate (e + 1 - digits.repr.length) '0' ++ digits.repr.toList, ?_,
        allDigits_zeros 1, List.forall_mem_append.mpr ⟨allDigits_zeros _, hdigits⟩, ?_⟩
      · rw [String.toList_append, String.toList_append, toList_zeros, List.append_assoc]
        rfl
      · have hlength : (List.replicate (e + 1 - digits.repr.length) '0'
            ++ digits.repr.toList).length = e + 1 := by
          rw [List.length_append, List.length_replicate, String.length_toList]
          omega
        have hzero : digitsValue ['0'] = 0 := rfl
        rw [digitsValue_append, digitsValue_append, digitsValue_zeros, digitsValue_repr, hzero,
          hlength, hvalue]
        simp

/-! ## §3. What is denoted. -/

/-- A double is in its own interval. -/
theorem inside_self (m : Nat) (q : Int) : Inside m q (m * 2 ^ q) := by
  have hmiddle : (m : ℚ) * 2 ^ q = ((4 * m : ℕ) : ℚ) * 2 ^ (q - 2) := by
    rw [zpow_sub₀ (by norm_num)]
    push_cast
    ring
  have hunit : (0 : ℚ) < 2 ^ (q - 2) := by positivity
  rw [hmiddle]
  unfold Inside Interval.ofDouble
  dsimp only
  split
  · constructor
    · exact mul_le_mul_of_nonneg_right (Nat.cast_le.mpr (Nat.sub_le _ _)) hunit.le
    · exact mul_le_mul_of_nonneg_right (Nat.cast_le.mpr (Nat.le_add_right _ 2)) hunit.le
  · next hodd =>
    have hpos : 0 < m := Nat.pos_of_ne_zero fun hm => hodd (by rw [hm]; rfl)
    constructor
    · refine mul_lt_mul_of_pos_right (Nat.cast_lt.mpr (Nat.sub_lt (by omega) ?_)) hunit
      split <;> decide
    · exact mul_lt_mul_of_pos_right (Nat.cast_lt.mpr (by omega)) hunit

/-- A double that is a whole number. -/
theorem value_of_integral? {m n : Nat} {q : Int} {negative : Bool}
    (h : (Binary64.finite false m q).integral? = some (negative, n)) : (n : ℚ) = m * 2 ^ q := by
  cases q with
  | ofNat k =>
    cases h
    show ((m * 2 ^ k : ℕ) : ℚ) = m * 2 ^ (k : Int)
    rw [zpow_natCast]
    push_cast
    rfl
  | negSucc k =>
    unfold Binary64.integral? at h
    dsimp only at h
    split at h
    · next hdvd =>
      cases h
      rw [zpow_negSucc, ← div_eq_mul_inv, eq_div_iff (by positivity)]
      have hexact : m / 2 ^ (k + 1) * 2 ^ (k + 1) = m :=
        Nat.div_mul_cancel (Nat.dvd_of_mod_eq_zero hdvd)
      exact_mod_cast hexact
    · cases h

/-- **The numeral of a double denotes a number in its interval.** -/
theorem inside_of_magnitude {m : Nat} {q : Int} (h : Canonical m q) :
    ∃ v, Denotes (Literal.numberLayout.magnitude m q) v ∧ Inside m q v := by
  unfold Layout.magnitude
  split
  · next n hwhole =>
    rw [if_pos (.inl rfl)]
    refine ⟨n, denotes_whole n, ?_⟩
    rw [value_of_integral? hwhole]
    exact inside_self m q
  · exact ⟨_, denotes_positional _, shortest_inside h⟩

theorem text_of_finite (l : Layout) (m : Nat) (q : Int) :
    l.text (.finite false m q) = l.magnitude m q :=
  String.empty_append

theorem denotes_render {x : Float} {m : Nat} {q : Int}
    (h : Binary64.ofFloat x = .finite false m q) :
    ∃ v, Denotes (Literal.numberLayout.render x) v ∧ Inside m q v := by
  unfold Layout.render
  rw [h, text_of_finite]
  exact inside_of_magnitude (ofPattern_finite x.toBits.toNat_lt h).1

theorem isNumeral_render {x : Float} (hx : Plain x) :
    IsNumeral (Literal.numberLayout.render x) := by
  obtain ⟨m, q, hmq⟩ := hx
  obtain ⟨v, hv, -⟩ := denotes_render hmq
  exact hv.isNumeral

/-- **Different doubles have different numerals.** -/
theorem render_injective {x y : Float} (hx : Plain x) (hy : Plain y)
    (h : Literal.numberLayout.render x = Literal.numberLayout.render y) : x = y := by
  obtain ⟨m, q, hmq⟩ := hx
  obtain ⟨m', q', hmq'⟩ := hy
  obtain ⟨v, hv, hinside⟩ := denotes_render hmq
  obtain ⟨v', hv', hinside'⟩ := denotes_render hmq'
  rw [h] at hv
  obtain rfl := hv.unique hv'
  have hcanonical := (ofPattern_finite x.toBits.toNat_lt hmq).1
  have hcanonical' := (ofPattern_finite y.toBits.toNat_lt hmq').1
  obtain ⟨rfl, rfl⟩ := inside_unique hcanonical hcanonical' hinside hinside'
  exact ofFloat_injective ⟨m, q, hmq⟩ (hmq.trans hmq'.symm)

end Lox
