/-
  Lox.Proofs.Decimal.Patterns
  ───────────────────────────
  **DOUBLES AND THEIR BIT PATTERNS.**

  A double that is not negative is determined by its significand and its
  exponent (`ofFloat_injective`), which are in a certain range.  A number that
  is read from decimal digits is never negative, and is always a number: it is
  plain or an infinity (`toFloat_plain`).
-/
import Lox.Proofs.Decimal.Intervals

namespace Lox.Decimal

/-! ## §1. What a pattern denotes. -/

/-- A double that is a number, and not a negative one. -/
def Plain (x : Float) : Prop :=
  ∃ m q, Binary64.ofFloat x = .finite false m q

/-- The pattern of a double from its significand and its exponent. -/
def patternOf (m : Nat) (q : Int) : Nat :=
  if m < Binary64.hiddenBit then m else (q - Binary64.leastExponent).toNat * Binary64.hiddenBit + m

/-- **A double has a significand and an exponent in the range**, whatever its sign is. -/
theorem canonical_of_ofPattern {bits m : Nat} {q : Int} {negative : Bool}
    (h : Binary64.ofPattern bits = .finite negative m q) : Canonical m q := by
  have hhidden : Binary64.hiddenBit = 2 ^ 52 := rfl
  have hleast : Binary64.leastExponent = -1074 := rfl
  have hspecial : Binary64.specialField = 2047 := rfl
  unfold Binary64.ofPattern at h
  dsimp only at h
  have hstored := Nat.mod_lt bits (Nat.two_pow_pos 52)
  rw [hhidden, hspecial, Nat.pow_eq] at h
  split at h
  · split at h <;> cases h
  · next hfinite =>
    split at h
    · next hfield =>
      obtain ⟨-, rfl, rfl⟩ := Binary64.finite.inj h
      exact ⟨by omega, le_rfl, by decide, .inr rfl⟩
    · next hfield =>
      obtain ⟨-, rfl, rfl⟩ := Binary64.finite.inj h
      exact ⟨by omega, by omega, by omega, .inl (by omega)⟩

theorem ofPattern_finite {bits m : Nat} {q : Int} (hbits : bits < 2 ^ 64)
    (h : Binary64.ofPattern bits = .finite false m q) :
    Canonical m q ∧ bits = patternOf m q := by
  refine ⟨canonical_of_ofPattern h, ?_⟩
  have hhidden : Binary64.hiddenBit = 2 ^ 52 := rfl
  have hleast : Binary64.leastExponent = -1074 := rfl
  unfold Binary64.ofPattern at h
  dsimp only at h
  rw [hhidden, Nat.pow_eq] at h
  unfold patternOf
  rw [hhidden, hleast]
  -- the sign bit is not set, so the field has the other bits
  split at h
  · split at h <;> cases h
  · split at h
    · obtain ⟨hsign, rfl, rfl⟩ := Binary64.finite.inj h
      rw [beq_eq_false_iff_ne] at hsign
      rw [if_pos (by omega)]
      omega
    · obtain ⟨hsign, rfl, rfl⟩ := Binary64.finite.inj h
      rw [beq_eq_false_iff_ne] at hsign
      rw [if_neg (by omega)]
      omega

theorem float_ext {x y : Float} (h : x.toBits = y.toBits) : x = y := by
  obtain ⟨⟨bits, hvalid⟩⟩ := x
  obtain ⟨⟨bits', hvalid'⟩⟩ := y
  obtain rfl : bits = bits' := h
  rfl

/-- **A double that is not negative is determined by what it denotes.** -/
theorem ofFloat_injective {x y : Float} (hx : Plain x)
    (h : Binary64.ofFloat x = Binary64.ofFloat y) : x = y := by
  obtain ⟨m, q, hmq⟩ := hx
  have hleft := (ofPattern_finite x.toBits.toNat_lt hmq).2
  have hright := (ofPattern_finite y.toBits.toNat_lt (h.symm.trans hmq)).2
  exact float_ext (UInt64.toNat_inj.mp (hleft.trans hright.symm))

/-! ## §2. Numbers that are read. -/

open Float.Model (UnpackedFloat)

/-- The pattern of a double that is not negative. -/
theorem toNat_packComponents (e : BitVec 11) (m : BitVec 52) :
    (UnpackedFloat.packComponents .binary64 .positive e m).toNat = e.toNat * 2 ^ 52 + m.toNat := by
  show ((0#1 ++ e) ++ m).toNat = _
  rw [BitVec.toNat_append, BitVec.toNat_append, ← Nat.shiftLeft_add_eq_or_of_lt m.isLt,
    Nat.shiftLeft_eq]
  simp

/-- What can be read: a number that is not negative, or an infinity. -/
def Positive (b : Binary64) : Prop :=
  b = .infinity false ∨ ∃ m q, b = .finite false m q

theorem positive_packComponents {e : BitVec 11} {m : BitVec 52} (h : e = -1#11 → m = 0#52) :
    Positive (.ofPattern (UnpackedFloat.packComponents .binary64 .positive e m).toNat) := by
  rw [toNat_packComponents]
  have he := e.isLt
  have hm := m.isLt
  have hzero : e.toNat = 2047 → m.toNat = 0 := by
    intro heq
    have hones : e = -1#11 := BitVec.eq_of_toNat_eq heq
    rw [h hones]
    rfl
  generalize e.toNat = field at he hzero
  generalize m.toNat = stored at hm hzero
  have hhidden : Binary64.hiddenBit = 2 ^ 52 := rfl
  have hspecial : Binary64.specialField = 2047 := rfl
  have hsign : ((field * 2 ^ 52 + stored) / 2 ^ 63 % 2 == 1) = false := by
    rw [beq_eq_false_iff_ne]
    omega
  have hfield : (field * 2 ^ 52 + stored) / 2 ^ 52 % 2048 = field := by omega
  have hstored : (field * 2 ^ 52 + stored) % 2 ^ 52 = stored := by omega
  unfold Binary64.ofPattern
  dsimp only
  rw [hhidden, hspecial, Nat.pow_eq, hsign, hfield, hstored]
  split
  · next heq =>
    rw [if_pos (hzero heq)]
    exact .inl rfl
  · split
    · exact .inr ⟨_, _, rfl⟩
    · exact .inr ⟨_, _, rfl⟩

/-- A number without a sign, or an infinity without one. -/
def Unsigned : UnpackedFloat → Prop
  | .notANumber => False
  | .infinity s | .zero s | .finite s _ _ _ => s = .positive

/-- What is packed without a sign can be read. -/
theorem positive_pack {x : UnpackedFloat} (hx : Unsigned x) :
    Positive (.ofPattern (x.pack .binary64).toNat) := by
  cases x with
  | notANumber => exact hx.elim
  | infinity s =>
    obtain rfl : s = .positive := hx
    exact positive_packComponents fun _ => rfl
  | zero s =>
    obtain rfl : s = .positive := hx
    exact positive_packComponents fun _ => rfl
  | finite s m e h =>
    obtain rfl : s = .positive := hx
    unfold UnpackedFloat.pack
    dsimp only
    split
    · exact positive_packComponents fun _ => rfl
    · next hsmall =>
      split
      · refine positive_packComponents fun hones => ?_
        -- an exponent that is not special
        have htoNat := congrArg BitVec.toNat hones
        simp only [BitVec.toNat_ofNat] at htoNat
        generalize (e + _ + _ : Int).toNat = biased at hsmall htoNat
        have hpow : 2 ^ Float.Model.Format.exponentBits .binary64 = 2048 := rfl
        have hminus : (-1#11).toNat = 2047 := rfl
        change biased % 2048 = (-1#11).toNat at htoNat
        omega
      · exact positive_packComponents fun hones => absurd hones (by decide)

/-- A pattern without a sign, up to the one of infinity, is unpacked without a
sign. -/
theorem unsigned_unpack {b : BitVec 64} (h : b.toNat ≤ 2047 * 2 ^ 52) :
    Unsigned (.unpack .binary64 b) := by
  have hsign : @UnpackedFloat.unpackSign .binary64 b = 0#1 := by
    refine BitVec.eq_of_toNat_eq ?_
    unfold UnpackedFloat.unpackSign
    rw [BitVec.toNat_cast, BitVec.extractLsb_toNat, Nat.shiftRight_eq_div_pow]
    show b.toNat / 2 ^ 63 % 2 = 0
    omega
  have hexponent : (@UnpackedFloat.unpackExponent .binary64 b).toNat = b.toNat / 2 ^ 52 % 2048 := by
    unfold UnpackedFloat.unpackExponent
    rw [BitVec.toNat_cast, BitVec.extractLsb_toNat, Nat.shiftRight_eq_div_pow]
    rfl
  have hmantissa : (@UnpackedFloat.unpackMantissa .binary64 b).toNat = b.toNat % 2 ^ 52 := by
    unfold UnpackedFloat.unpackMantissa
    rw [BitVec.toNat_cast, BitVec.extractLsb_toNat, Nat.shiftRight_zero]
    rfl
  have hinfinity : @UnpackedFloat.unpackExponent .binary64 b = -1#11 →
      @UnpackedFloat.unpackMantissa .binary64 b = 0#52 := by
    intro hones
    have hfield : b.toNat / 2 ^ 52 % 2048 = 2047 :=
      hexponent.symm.trans (congrArg BitVec.toNat hones)
    refine BitVec.eq_of_toNat_eq (hmantissa.trans ?_)
    show b.toNat % 2 ^ 52 = 0
    omega
  unfold UnpackedFloat.unpack
  dsimp only
  rw [hsign]
  by_cases hones : @UnpackedFloat.unpackExponent .binary64 b = -1#11
  · rw [if_pos hones, if_pos (hinfinity hones)]
    rfl
  · rw [if_neg hones]
    by_cases hsubnormal : @UnpackedFloat.unpackExponent .binary64 b = 0#11
    · rw [if_pos hsubnormal]
      by_cases hzero : @UnpackedFloat.unpackMantissa .binary64 b = 0#52
      · rw [dif_pos hzero]
        rfl
      · rw [dif_neg hzero]
        rfl
    · rw [if_neg hsubnormal]
      rfl

theorem positive_ofBits {n : Nat} (h : n ≤ 2047 * 2 ^ 52) :
    Positive (.ofFloat (Float.ofBits n.toUInt64)) := by
  have htoNat : n.toUInt64.toBitVec.toNat = n := by
    show n % 2 ^ 64 = n
    omega
  have hunpacked := unsigned_unpack (htoNat.symm ▸ h : n.toUInt64.toBitVec.toNat ≤ 2047 * 2 ^ 52)
  exact positive_pack hunpacked

theorem nearestPattern_le (num den : Nat) : nearestPattern num den ≤ 2047 * 2 ^ 52 := by
  have hinfinite : Binary64.specialField * Binary64.hiddenBit = 2047 * 2 ^ 52 := rfl
  unfold nearestPattern
  dsimp only
  rw [hinfinite]
  split
  · exact Nat.zero_le _
  · split
    · exact le_rfl
    · next hsmall => exact (Nat.lt_of_not_le hsmall).le

/-- **A number that is read is not negative**, and is a number unless it is
infinite. -/
theorem toFloat_plain {digits places : Nat}
    (h : Binary64.ofFloat (toFloat digits places) ≠ .infinity false) :
    Plain (toFloat digits places) :=
  (positive_ofBits (nearestPattern_le digits _)).resolve_left h

end Lox.Decimal
