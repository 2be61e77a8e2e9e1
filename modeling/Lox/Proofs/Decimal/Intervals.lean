/-
  Lox.Proofs.Decimal.Intervals
  ────────────────────────────
  **THE SHORTEST DECIMAL TELLS DOUBLES APART.**

  The reals that round to a double form an interval, and the intervals of two
  doubles have no point in common: where they touch, only the one with the
  even significand has its end.  The shortest decimal of a double is in its
  interval, since the last grids that are tried are finer than the interval
  is wide (`shortest_inside`).  So no two doubles have a decimal in common
  (`inside_unique`).
-/
import Lox.Decimal.Shortest
import Mathlib.Algebra.Order.Field.Power
import Mathlib.Algebra.Order.Field.Rat
import Mathlib.Data.Rat.Cast.Order
import Mathlib.Tactic.Ring
import Mathlib.Tactic.Linarith

namespace Lox.Decimal

/-! ## §1. Points of an interval. -/

/-- What a decimal denotes. -/
def Digits.value (d : Digits) : ℚ :=
  d.digits * 10 ^ d.exponent

/-- The significand and the exponent of a double that is no negative one. -/
structure Canonical (m : Nat) (q : Int) : Prop where
  bound : m < 2 ^ 53
  least : Binary64.leastExponent ≤ q
  greatest : q ≤ 971
  normal : 2 ^ 52 ≤ m ∨ q = Binary64.leastExponent

/-- A number is in the interval around `m · 2^q`. -/
def Inside (m : Nat) (q : Int) (v : ℚ) : Prop :=
  let i := Interval.ofDouble m q
  let unit : ℚ := 2 ^ (q - 2)
  if i.closed then i.low * unit ≤ v ∧ v ≤ i.high * unit else i.low * unit < v ∧ v < i.high * unit

theorem inside_le {m : Nat} {q : Int} {v : ℚ} (h : Inside m q v) :
    (Interval.ofDouble m q).low * 2 ^ (q - 2) ≤ v
      ∧ v ≤ (Interval.ofDouble m q).high * 2 ^ (q - 2) := by
  unfold Inside at h
  dsimp only at h
  split at h
  · exact h
  · exact ⟨h.1.le, h.2.le⟩

/-- An end belongs to the interval only if the significand is even. -/
theorem inside_lt {m : Nat} {q : Int} {v : ℚ} (h : Inside m q v) (hodd : m % 2 = 1) :
    (Interval.ofDouble m q).low * 2 ^ (q - 2) < v
      ∧ v < (Interval.ofDouble m q).high * 2 ^ (q - 2) := by
  unfold Inside at h
  dsimp only at h
  split at h
  · next hclosed =>
    simp only [Interval.ofDouble, beq_iff_eq] at hclosed
    omega
  · exact h

/-- The interval of a double ends where that of a larger one starts, or before:
in units of the smaller one. -/
theorem high_le_low {m m' : Nat} {q q' : Int} {k : Nat} (h : Canonical m q) (h' : Canonical m' q')
    (hk : q' = q + k) (hlt : k = 0 → m < m') :
    (Interval.ofDouble m q).high ≤ (Interval.ofDouble m' q').low * 2 ^ k
      ∧ (m % 2 = 0 → m' % 2 = 0 →
        (Interval.ofDouble m q).high < (Interval.ofDouble m' q').low * 2 ^ k) := by
  obtain ⟨hbound, hleast, -, hnormal⟩ := h
  obtain ⟨hbound', hleast', -, hnormal'⟩ := h'
  have hhidden : Binary64.hiddenBit = 2 ^ 52 := rfl
  simp only [Interval.ofDouble, hhidden]
  cases k with
  | zero =>
    -- of two doubles with one unit the larger one has no narrow interval
    have hm := hlt rfl
    have hwide : ¬(m' = 2 ^ 52 ∧ Binary64.leastExponent < q') := by
      rintro ⟨hm', hq'⟩
      rcases hnormal with hnormal | hnormal <;> omega
    rw [if_neg hwide, Nat.pow_zero, Nat.mul_one]
    omega
  | succ k =>
    -- the larger unit is twice as large, and the significand has all its bits
    have hlarge : 2 ^ 52 ≤ m' := by
      rcases hnormal' with hnormal' | hnormal'
      · exact hnormal'
      · omega
    have hlow : 2 ^ 54 - 1
        ≤ 4 * m' - (if m' = 2 ^ 52 ∧ Binary64.leastExponent < q' then 1 else 2) := by
      split
      · omega
      · next hwide =>
        have hne : m' ≠ 2 ^ 52 := fun hm' => hwide ⟨hm', by omega⟩
        omega
    have hpow : 2 ≤ 2 ^ (k + 1) := by
      rw [Nat.pow_succ]
      exact Nat.le_mul_of_pos_left 2 (Nat.two_pow_pos k)
    have hproduct := Nat.mul_le_mul hlow hpow
    omega

/-- Nothing is in the intervals of a double and of a larger one. -/
theorem not_inside_larger {m m' : Nat} {q q' : Int} {v : ℚ} (h : Canonical m q)
    (h' : Canonical m' q') (hq : q ≤ q') (hlt : q = q' → m < m') (hv : Inside m q v)
    (hv' : Inside m' q' v) : False := by
  obtain ⟨k, hk⟩ := Int.eq_ofNat_of_zero_le (Int.sub_nonneg.mpr hq)
  have hshift : q' = q + k := by omega
  obtain ⟨hle, hstrict⟩ := high_le_low h h' hshift (fun hk0 => hlt (by omega))
  have hunit : (0 : ℚ) < 2 ^ (q - 2) := by positivity
  have hpow : (2 : ℚ) ^ (q' - 2) = 2 ^ k * 2 ^ (q - 2) := by
    rw [hshift, ← zpow_natCast, ← zpow_add₀ (by norm_num)]
    congr 1
    ring
  generalize hhigh : (Interval.ofDouble m q).high = high at hle hstrict
  generalize hlow : (Interval.ofDouble m' q').low = low at hle hstrict
  have hscaled : (low : ℚ) * 2 ^ (q' - 2) = ((low * 2 ^ k : ℕ) : ℚ) * 2 ^ (q - 2) := by
    rw [hpow]
    push_cast
    ring
  have hupper := (inside_le hv).2
  have hlower := (inside_le hv').1
  rw [hhigh] at hupper
  rw [hlow, hscaled] at hlower
  have hends : (high : ℚ) * 2 ^ (q - 2) ≤ ((low * 2 ^ k : ℕ) : ℚ) * 2 ^ (q - 2) :=
    mul_le_mul_of_nonneg_right (by exact_mod_cast hle) hunit.le
  -- intervals that touch are those of an even and of an odd significand
  rcases Nat.mod_two_eq_zero_or_one m with hm | hm
  · rcases Nat.mod_two_eq_zero_or_one m' with hm' | hm'
    · have hends' : (high : ℚ) * 2 ^ (q - 2) < ((low * 2 ^ k : ℕ) : ℚ) * 2 ^ (q - 2) :=
        mul_lt_mul_of_pos_right (by exact_mod_cast hstrict hm hm') hunit
      linarith
    · have hlower' := (inside_lt hv' hm').1
      rw [hlow, hscaled] at hlower'
      linarith
  · have hupper' := (inside_lt hv hm).2
    rw [hhigh] at hupper'
    linarith

/-- **No number is in the intervals of two doubles.** -/
theorem inside_unique {m m' : Nat} {q q' : Int} {v : ℚ} (h : Canonical m q) (h' : Canonical m' q')
    (hv : Inside m q v) (hv' : Inside m' q' v) : m = m' ∧ q = q' := by
  rcases Int.lt_trichotomy q q' with hq | rfl | hq
  · exact (not_inside_larger h h' hq.le (fun heq => absurd heq hq.ne) hv hv').elim
  · rcases Nat.lt_trichotomy m m' with hm | rfl | hm
    · exact (not_inside_larger h h' le_rfl (fun _ => hm) hv hv').elim
    · exact ⟨rfl, rfl⟩
    · exact (not_inside_larger h' h le_rfl (fun _ => hm) hv' hv).elim
  · exact (not_inside_larger h' h hq.le (fun heq => absurd heq hq.ne) hv' hv).elim

/-! ## §2. Grids. -/

/-- Both sides of a comparison, multiplied by the same positive number. -/
theorem gridScale_eq (e b : Int) : ∃ d : ℚ, 0 < d
    ∧ ((gridScale e b).1 : ℚ) = 10 ^ e * d ∧ ((gridScale e b).2 : ℚ) = 2 ^ b * d := by
  refine ⟨2 ^ (-b).toNat * 10 ^ (-e).toNat, by positivity, ?_, ?_⟩
  · have hten : (10 : ℚ) ^ e.toNat = 10 ^ e * 10 ^ (-e).toNat := by
      rw [← zpow_natCast, ← zpow_natCast, ← zpow_add₀ (by norm_num)]
      congr 1
      omega
    simp only [gridScale, Nat.pow_eq]
    push_cast
    rw [hten]
    ring
  · have htwo : (2 : ℚ) ^ b.toNat = 2 ^ b * 2 ^ (-b).toNat := by
      rw [← zpow_natCast, ← zpow_natCast, ← zpow_add₀ (by norm_num)]
      congr 1
      omega
    simp only [gridScale, Nat.pow_eq]
    push_cast
    rw [htwo]
    ring

theorem scaled_le {d x y : ℚ} {n k : Nat} (hd : 0 < d) (hx : (n : ℚ) = x * d)
    (hy : (k : ℚ) = y * d) : n ≤ k ↔ x ≤ y := by
  have hcast : (n : ℚ) ≤ k ↔ n ≤ k := Nat.cast_le
  rw [← hcast, hx, hy, mul_le_mul_iff_left₀ hd]

theorem scaled_lt {d x y : ℚ} {n k : Nat} (hd : 0 < d) (hx : (n : ℚ) = x * d)
    (hy : (k : ℚ) = y * d) : n < k ↔ x < y := by
  have hcast : (n : ℚ) < k ↔ n < k := Nat.cast_lt
  rw [← hcast, hx, hy, mul_lt_mul_iff_left₀ hd]

/-- Whether a grid point is in an interval, as it is computed. -/
def Interval.has (i : Interval) (s t c : Nat) : Bool :=
  if i.closed then i.low * t ≤ c * s && c * s ≤ i.high * t
  else i.low * t < c * s && c * s < i.high * t

/-- **A grid point that is found is in the interval.** -/
theorem Interval.has_of_gridPoint? {i : Interval} {tie : Tie} {s t c : Nat}
    (h : i.gridPoint? tie s t = some c) : i.has s t c = true := by
  unfold gridPoint? at h
  dsimp only at h
  split at h
  · cases h
  · next hbelow _ =>
    cases h
    exact hbelow
  · next _ habove =>
    cases h
    exact habove
  · next hbelow habove =>
    split at h
    · cases h
      exact hbelow
    · split at h
      · cases h
        exact habove
      · split at h
        · cases h
          exact habove
        · cases h
          rcases Nat.mod_two_eq_zero_or_one (i.middle * t / s) with hm | hm
          · rw [hm]
            exact hbelow
          · rw [hm]
            exact habove

/-- A grid point that is found in the interval of a double is inside it. -/
theorem inside_of_has {m : Nat} {q e : Int} {c : Nat}
    (h : (Interval.ofDouble m q).has (gridScale e (q - 2)).1 (gridScale e (q - 2)).2 c = true) :
    Inside m q (c * 10 ^ e) := by
  obtain ⟨d, hd, hs, ht⟩ := gridScale_eq e (q - 2)
  generalize (gridScale e (q - 2)).1 = s at hs h
  generalize (gridScale e (q - 2)).2 = t at ht h
  have hpoint : ((c * s : ℕ) : ℚ) = c * 10 ^ e * d := by
    push_cast
    rw [hs, mul_assoc]
  have hend : ∀ a : ℕ, ((a * t : ℕ) : ℚ) = a * 2 ^ (q - 2) * d := by
    intro a
    push_cast
    rw [ht, mul_assoc]
  unfold Interval.has at h
  unfold Inside
  dsimp only
  split at h
  · next hclosed =>
    simp only [Bool.and_eq_true, decide_eq_true_eq] at h
    rw [if_pos hclosed]
    exact ⟨(scaled_le hd (hend _) hpoint).mp h.1, (scaled_le hd hpoint (hend _)).mp h.2⟩
  · next hopen =>
    simp only [Bool.and_eq_true, decide_eq_true_eq] at h
    rw [if_neg hopen]
    exact ⟨(scaled_lt hd (hend _) hpoint).mp h.1, (scaled_lt hd hpoint (hend _)).mp h.2⟩

/-- **A grid that is finer than half a unit has a point in the interval**, above
the middle. -/
theorem Interval.gridPoint?_isSome {m : Nat} {q : Int} {tie : Tie} {s t : Nat} (hs : 0 < s)
    (h : s < 2 * t) : ((Interval.ofDouble m q).gridPoint? tie s t).isSome = true := by
  -- the neighbour above the middle is less than half a unit away
  have habove : (Interval.ofDouble m q).has s t (4 * m * t / s + 1) = true := by
    have hlarge : 4 * m * t < (4 * m * t / s + 1) * s := by
      rw [Nat.mul_comm _ s]
      exact Nat.lt_mul_div_succ _ hs
    have hsmall : (4 * m * t / s + 1) * s ≤ 4 * m * t + s := by
      rw [Nat.add_mul, Nat.one_mul]
      exact Nat.add_le_add_right (Nat.div_mul_le_self _ _) s
    have hhigh : (4 * m + 2) * t = 4 * m * t + 2 * t := Nat.add_mul ..
    have hlow : ∀ k, (4 * m - k) * t ≤ 4 * m * t := fun k =>
      Nat.mul_le_mul_right t (Nat.sub_le _ k)
    have hbelow := hlow (if m = Binary64.hiddenBit ∧ Binary64.leastExponent < q then 1 else 2)
    unfold has ofDouble
    dsimp only
    split
    · simp only [Bool.and_eq_true, decide_eq_true_eq]
      omega
    · simp only [Bool.and_eq_true, decide_eq_true_eq]
      omega
  unfold gridPoint?
  dsimp only
  split
  · next _ hnone => exact absurd (habove.symm.trans hnone) Bool.noConfusion
  · rfl
  · rfl
  · split
    · rfl
    · split
      · rfl
      · split <;> rfl

/-! ## §3. Twenty grids are enough. -/

/-- A power of ten below a power of two: `196 / 59` is just above the number of
bits of a decimal digit, and `93 / 28` is just below. -/
theorem ten_zpow_lt_two_zpow {e b : Int} (hup : 196 * e < 59 * b) (hdown : 93 * e < 28 * b) :
    (10 : ℚ) ^ e < 2 ^ b := by
  have htwo : (0 : ℚ) ≤ 2 ^ b := by positivity
  have hone : (1 : ℚ) < 2 := by norm_num
  obtain ⟨k, rfl | rfl⟩ := Int.eq_nat_or_neg e
  · refine lt_of_pow_lt_pow_left₀ 59 htwo ?_
    calc ((10 : ℚ) ^ (k : Int)) ^ 59 = (10 ^ 59) ^ k := by rw [zpow_natCast, pow_right_comm]
      _ ≤ (2 ^ 196) ^ k := pow_le_pow_left₀ (by norm_num) (by norm_num) k
      _ = 2 ^ (196 * (k : Int)) := by
        rw [← pow_mul, ← zpow_natCast]
        push_cast
        rfl
      _ < 2 ^ (b * (59 : ℕ)) := zpow_lt_zpow_right₀ hone (by push_cast; omega)
      _ = (2 ^ b) ^ 59 := by rw [zpow_mul, zpow_natCast]
  · refine lt_of_pow_lt_pow_left₀ 28 htwo ?_
    calc ((10 : ℚ) ^ (-(k : Int))) ^ 28 = ((10 ^ 28) ^ k)⁻¹ := by
          rw [zpow_neg, zpow_natCast, inv_pow, pow_right_comm]
      _ ≤ ((2 ^ 93) ^ k)⁻¹ :=
        inv_anti₀ (by positivity) (pow_le_pow_left₀ (by norm_num) (by norm_num) k)
      _ = 2 ^ (93 * -(k : Int)) := by
        rw [← pow_mul, ← zpow_natCast, ← zpow_neg]
        push_cast
        rw [mul_neg]
      _ < 2 ^ (b * (28 : ℕ)) := zpow_lt_zpow_right₀ hone (by push_cast; omega)
      _ = (2 ^ b) ^ 28 := by rw [zpow_mul, zpow_natCast]

/-- The last grid that is tried is finer than half a unit of the double. -/
theorem last_grid {m : Nat} {q : Int} (h : Canonical m q) :
    (10 : ℚ) ^ (coarsest (m.log2 + 1 + q) - 19) < 2 ^ (q - 1) := by
  have hlog : m.log2 ≤ 52 := by
    by_cases hm : m = 0
    · rw [hm, Nat.log2_zero]
      exact Nat.zero_le 52
    · exact Nat.le_of_lt_succ ((Nat.log2_lt hm).mpr h.bound)
  have hleast : -1074 ≤ q := h.least
  have hgreatest := h.greatest
  unfold coarsest
  generalize m.log2 = l at hlog
  refine ten_zpow_lt_two_zpow ?_ ?_ <;> omega

theorem inside_search {tie : Tie} {m : Nat} {q : Int} : ∀ (k : Nat) (e : Int) (j : Nat), j < k →
    (10 : ℚ) ^ (e - j) < 2 ^ (q - 1) → Inside m q (shortest.search tie m q k e).value
  | 0, _, j, hj, _ => absurd hj (Nat.not_lt_zero j)
  | k + 1, e, j, hj, hfine => by
    unfold shortest.search
    dsimp only
    split
    · next c hc => exact inside_of_has (Interval.has_of_gridPoint? hc)
    · next hnone =>
      cases j with
      | zero =>
        -- this grid is fine enough
        obtain ⟨d, hd, hs, ht⟩ := gridScale_eq e (q - 2)
        have hunit : (2 : ℚ) ^ (q - 1) = 2 * 2 ^ (q - 2) := by
          rw [← zpow_one_add₀ (by norm_num)]
          congr 1
          ring
        rw [Nat.cast_zero, sub_zero, hunit] at hfine
        have hs' : 0 < (gridScale e (q - 2)).1 :=
          Nat.cast_pos.mp (hs.symm ▸ mul_pos (zpow_pos (by norm_num) e) hd)
        have hlt : (gridScale e (q - 2)).1 < 2 * (gridScale e (q - 2)).2 := by
          refine (scaled_lt hd hs ?_).mpr hfine
          push_cast
          rw [ht, mul_assoc]
        have hsome : ((shortest.interval m q).gridPoint? tie (gridScale e (q - 2)).1
            (gridScale e (q - 2)).2).isSome = true := Interval.gridPoint?_isSome hs' hlt
        rw [hnone] at hsome
        cases hsome
      | succ j =>
        refine inside_search k (e - 1) j (Nat.lt_of_succ_lt_succ hj) ?_
        have hexponent : e - 1 - (j : Int) = e - ((j + 1 : ℕ) : Int) := by omega
        rw [hexponent]
        exact hfine

/-- **The shortest decimal of a double is in its interval.** -/
theorem shortest_inside {tie : Tie} {m : Nat} {q : Int} (h : Canonical m q) :
    Inside m q (shortest tie m q).value :=
  inside_search 20 _ 19 (by decide) (last_grid h)

end Lox.Decimal
