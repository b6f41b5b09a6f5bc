import Mathlib
import SheetFormula.Proofs.RoundingLemmas

/-!
# Rounding to a rank, over the rationals

`rankValue` reads a rank as a binary64 word. A quotient is rounded to `k` or below exactly if it is at most
half way from the value of `k` to the next one, and below it if `k` is odd (`nearestRank_le_iff`). With the
shortcuts for large and small exponents the same holds of decimals: `rank_le_iff`. So the rank of a decimal
depends on nothing but its value and grows with it.
-/

namespace SheetFormula

/-! ## Ranks one after the other -/

theorem binade_of_lt {s m : Nat} (hm : m < 2 ^ 53) (hs : s = 0 ∨ 2 ^ 52 ≤ m) :
    spacing (s * 2 ^ 52 + m) = s ∧ significand (s * 2 ^ 52 + m) = m := by
  have := spacing_eq (s * 2 ^ 52 + m)
  unfold significand
  omega

/-- Within a binade, its upper end included, magnitudes are evenly spaced. -/
theorem units_binade {s m : Nat} (hm : m ≤ 2 ^ 53) (hs : s = 0 ∨ 2 ^ 52 ≤ m) :
    units (s * 2 ^ 52 + m) = m * 2 ^ s := by
  by_cases hlt : m < 2 ^ 53
  · obtain ⟨hspacing, hsignificand⟩ := binade_of_lt hlt hs
    rw [units_eq, hspacing, hsignificand]
  · have hm : m = 2 ^ 53 := by omega
    subst hm
    obtain ⟨hspacing, hsignificand⟩ := @binade_of_lt (s + 1) (2 ^ 52) (by omega) (.inr (Nat.le_refl _))
    have hrank : s * 2 ^ 52 + 2 ^ 53 = (s + 1) * 2 ^ 52 + 2 ^ 52 := by omega
    rw [hrank, units_eq, hspacing, hsignificand]
    ring

theorem units_succ (k : Nat) : units (k + 1) = units k + 2 ^ spacing k := by
  have hk := spacing_add_significand k
  have hlt := significand_lt k
  have hs : spacing k = 0 ∨ 2 ^ 52 ≤ significand k + 1 := by
    by_cases hs : spacing k = 0
    · exact .inl hs
    · have := le_significand hs
      exact .inr (by omega)
  have hsucc : k + 1 = spacing k * 2 ^ 52 + (significand k + 1) := by omega
  rw [units_eq k, hsucc, units_binade (Nat.succ_le_of_lt hlt) hs, Nat.succ_mul]

theorem units_strictMono : StrictMono units := by
  apply strictMono_nat_of_lt_succ
  intro k
  have := Nat.two_pow_pos (spacing k)
  rw [units_succ]
  omega

/-! ## Rounding a quotient -/

theorem roundHalfEven_bounds (n : Nat) {d : Nat} (hd : 0 < d) :
    2 * (roundHalfEven n d * d) ≤ 2 * n + d ∧ 2 * n ≤ 2 * (roundHalfEven n d * d) + d ∧
      (2 * (roundHalfEven n d * d) = 2 * n + d ∨ 2 * n = 2 * (roundHalfEven n d * d) + d →
        roundHalfEven n d % 2 = 0) := by
  have hdm := Nat.div_add_mod' n d
  have hlt := Nat.mod_lt n hd
  unfold roundHalfEven
  simp only
  by_cases hlow : 2 * (n % d) < d
  · rw [if_pos hlow]
    omega
  by_cases hhigh : d < 2 * (n % d)
  · rw [if_neg hlow, if_pos hhigh, Nat.add_mul, Nat.one_mul]
    omega
  · rw [if_neg hlow, if_neg hhigh]
    rcases Nat.mod_two_eq_zero_or_one (n / d) with hq | hq
    · rw [hq, Nat.add_zero]
      omega
    · rw [hq, Nat.add_mul, Nat.one_mul]
      omega

/-- Of `n / d`, the binade with spacing `2 ^ s` and the nearest significand `q` in it. -/
structure InBinade (n d s q : Nat) : Prop where
  lt : n < 2 ^ 53 * (d * 2 ^ s)
  ge : s = 0 ∨ 2 ^ 52 * (d * 2 ^ s) ≤ n
  low : 2 * (q * (d * 2 ^ s)) ≤ 2 * n + d * 2 ^ s
  high : 2 * n ≤ 2 * (q * (d * 2 ^ s)) + d * 2 ^ s
  even : 2 * (q * (d * 2 ^ s)) = 2 * n + d * 2 ^ s ∨ 2 * n = 2 * (q * (d * 2 ^ s)) + d * 2 ^ s → q % 2 = 0

theorem nearestRank_binade (n : Nat) {d : Nat} (hd : 0 < d) :
    ∃ s q, nearestRank n d = s * 2 ^ 52 + q ∧ InBinade (n <<< 1074) d s q := by
  unfold nearestRank
  simp only
  generalize n <<< 1074 = N
  rw [Nat.shiftLeft_eq, Nat.shiftLeft_eq]
  generalize hs : (N / d).log2 - 52 = s
  obtain ⟨hlow, hhigh, heven⟩ := roundHalfEven_bounds N (Nat.mul_pos hd (Nat.two_pow_pos s))
  refine ⟨s, _, rfl, ?_, ?_, hlow, hhigh, heven⟩
  · have hlog : N / d < 2 ^ (53 + s) :=
      Nat.lt_of_lt_of_le Nat.lt_log2_self (Nat.pow_le_pow_right (by omega) (by omega))
    rw [Nat.div_lt_iff_lt_mul hd, Nat.pow_add] at hlog
    calc N < 2 ^ 53 * 2 ^ s * d := hlog
      _ = 2 ^ 53 * (d * 2 ^ s) := by ring
  · by_cases hz : s = 0
    · exact .inl hz
    · have hne : N / d ≠ 0 := by
        intro hzero
        rw [hzero, Nat.log2_zero] at hs
        omega
      have hlog : 2 ^ (52 + s) ≤ N / d := by
        rw [show 52 + s = (N / d).log2 by omega]
        exact Nat.log2_self_le hne
      rw [Nat.le_div_iff_mul_le hd, Nat.pow_add] at hlog
      refine .inr ?_
      calc 2 ^ 52 * (d * 2 ^ s) = 2 ^ 52 * 2 ^ s * d := by ring
        _ ≤ N := hlog

section
variable {n d s q : Nat} (hd : 0 < d) (h : InBinade n d s q)
include h

include hd in
theorem InBinade.le_top : q ≤ 2 ^ 53 := by
  have hlow := h.low
  have hlt := h.lt
  have hstep : 0 < d * 2 ^ s := Nat.mul_pos hd (Nat.two_pow_pos s)
  generalize d * 2 ^ s = step at *
  have : q * step < (2 ^ 53 + 1) * step := by
    rw [Nat.add_mul, Nat.one_mul]
    omega
  have := Nat.lt_of_mul_lt_mul_right this
  omega

include hd in
theorem InBinade.bottom_le : s = 0 ∨ 2 ^ 52 ≤ q := by
  rcases h.ge with hs | hge
  · exact .inl hs
  · have hhigh := h.high
    have hstep : 0 < d * 2 ^ s := Nat.mul_pos hd (Nat.two_pow_pos s)
    generalize d * 2 ^ s = step at *
    have : 2 ^ 52 * step < (q + 1) * step := by
      rw [Nat.add_mul, Nat.one_mul]
      omega
    have := Nat.lt_of_mul_lt_mul_right this
    exact .inr (by omega)

omit h in
theorem half_step_mul (m : Nat) : (2 * (m * 2 ^ s) + 2 ^ s) * d = 2 * (m * (d * 2 ^ s)) + d * 2 ^ s := by
  ring

include hd in
/-- The quotient is at most half way up to the next magnitude. -/
theorem InBinade.le_above :
    2 * n < (2 * units (s * 2 ^ 52 + q) + 2 ^ spacing (s * 2 ^ 52 + q)) * d ∨
      2 * n = (2 * units (s * 2 ^ 52 + q) + 2 ^ spacing (s * 2 ^ 52 + q)) * d ∧ q % 2 = 0 := by
  have hle := h.le_top hd
  have hge := h.bottom_le hd
  rw [units_binade hle hge]
  by_cases htop : q < 2 ^ 53
  · have hhigh := h.high
    have heven := h.even
    obtain ⟨hspacing, -⟩ := binade_of_lt htop hge
    rw [hspacing, half_step_mul]
    omega
  · -- the next magnitude is in the next binade, the quotient below it in this one
    have hq : q = 2 ^ 53 := by omega
    subst hq
    have hlt := h.lt
    refine .inl (Nat.lt_of_lt_of_le ?_ (Nat.mul_le_mul_right d (Nat.le_add_right _ _)))
    calc 2 * n < 2 * (2 ^ 53 * (d * 2 ^ s)) := by omega
      _ = 2 * (2 ^ 53 * 2 ^ s) * d := by ring

include hd in
/-- The quotient is at least half way down to the magnitude before. -/
theorem InBinade.below_le {j : Nat} (hj : j + 1 = s * 2 ^ 52 + q) :
    (2 * units j + 2 ^ spacing j) * d < 2 * n ∨
      (2 * units j + 2 ^ spacing j) * d = 2 * n ∧ q % 2 = 0 := by
  have hle := h.le_top hd
  have hge := h.bottom_le hd
  by_cases hbottom : s = 0 ∨ 2 ^ 52 < q
  · obtain ⟨m, rfl⟩ : ∃ m, q = m + 1 := ⟨q - 1, by omega⟩
    have hm : s = 0 ∨ 2 ^ 52 ≤ m := by omega
    have hlow := h.low
    have heven := h.even
    obtain ⟨hspacing, -⟩ := @binade_of_lt s m (by omega) hm
    have hj' : j = s * 2 ^ 52 + m := by omega
    rw [hj', hspacing, units_binade (by omega) hm, half_step_mul]
    rw [Nat.add_mul, Nat.one_mul] at hlow heven
    omega
  · -- the magnitude before is in the binade before, the quotient above it in this one
    have hq : q = 2 ^ 52 := by omega
    subst hq
    have hn := h.ge.resolve_left (by omega)
    have hunits := units_succ j
    have hpos := Nat.two_pow_pos (spacing j)
    rw [hj, units_binade hle hge] at hunits
    have hlt : 2 * units j + 2 ^ spacing j < 2 * (2 ^ 52 * 2 ^ s) := by omega
    refine .inl ?_
    calc (2 * units j + 2 ^ spacing j) * d < 2 * (2 ^ 52 * 2 ^ s) * d := Nat.mul_lt_mul_of_pos_right hlt hd
      _ = 2 * (2 ^ 52 * (d * 2 ^ s)) := by ring
      _ ≤ 2 * n := by omega

end

/-! ## Values -/

/-- The significand of a word without sign bit: its lowest 52 bits, and a further bit above them unless the
exponent is 0. -/
def wordSignificand (k : Nat) : Nat :=
  if k / 2 ^ 52 = 0 then k % 2 ^ 52 else 2 ^ 52 + k % 2 ^ 52

/-- The value of a word without sign bit. Exponents 0 and 1 stand for the same power of 2. -/
def rankValue (k : Nat) : ℚ :=
  wordSignificand k * 2 ^ ((max (k / 2 ^ 52) 1 : ℕ) - 1075 : ℤ)

theorem wordSignificand_eq (k : Nat) : wordSignificand k = significand k := by
  have := spacing_eq k
  unfold wordSignificand significand
  split <;> omega

theorem rankValue_eq (k : Nat) : rankValue k = units k / 2 ^ 1074 := by
  have hexponent : ((max (k / 2 ^ 52) 1 : ℕ) - 1075 : ℤ) = (spacing k : ℤ) - (1074 : ℕ) := by
    have := spacing_eq k
    omega
  rw [rankValue, wordSignificand_eq, hexponent, zpow_sub₀ two_ne_zero, zpow_natCast, zpow_natCast, units_eq,
    Nat.cast_mul, Nat.cast_pow, Nat.cast_ofNat, mul_div_assoc]

theorem rankValue_nonneg (k : Nat) : 0 ≤ rankValue k := by
  unfold rankValue
  positivity

theorem rankValue_strictMono : StrictMono rankValue := by
  intro j k hjk
  rw [rankValue_eq, rankValue_eq]
  have := units_strictMono hjk
  gcongr

/-- Half way from a rank to the next. -/
def midpoint (k : Nat) : ℚ :=
  (rankValue k + rankValue (k + 1)) / 2

theorem rankValue_lt_midpoint (k : Nat) : rankValue k < midpoint k := by
  have := rankValue_strictMono (Nat.lt_succ_self k)
  unfold midpoint
  linarith

theorem midpoint_lt_rankValue (k : Nat) : midpoint k < rankValue (k + 1) := by
  have := rankValue_strictMono (Nat.lt_succ_self k)
  unfold midpoint
  linarith

theorem midpoint_strictMono : StrictMono midpoint :=
  strictMono_nat_of_lt_succ fun k => (midpoint_lt_rankValue k).trans (rankValue_lt_midpoint (k + 1))

theorem midpoint_eq (k : Nat) : midpoint k = (2 * units k + 2 ^ spacing k : ℕ) / (2 * 2 ^ 1074) := by
  rw [midpoint, rankValue_eq, rankValue_eq, units_succ]
  generalize (2 : ℚ) ^ 1074 = scale
  push_cast
  ring

/-! ## What is rounded to a rank or below -/

/-- A tie goes to the even rank. -/
def RoundsLe (k : Nat) (v : ℚ) : Prop :=
  v < midpoint k ∨ v = midpoint k ∧ k % 2 = 0

theorem RoundsLe.anti {k : Nat} {v w : ℚ} (hvw : v ≤ w) (h : RoundsLe k w) : RoundsLe k v := by
  rcases h with hlt | ⟨rfl, heven⟩
  · exact .inl (lt_of_le_of_lt hvw hlt)
  · rcases lt_or_eq_of_le hvw with hlt | heq
    · exact .inl hlt
    · exact .inr ⟨heq, heven⟩

theorem RoundsLe.mono {j k : Nat} {v : ℚ} (hjk : j ≤ k) (h : RoundsLe j v) : RoundsLe k v := by
  rcases Nat.lt_or_eq_of_le hjk with hlt | rfl
  · have hmid := midpoint_strictMono hlt
    rcases h with h | ⟨rfl, -⟩
    · exact .inl (h.trans hmid)
    · exact .inl hmid
  · exact h

theorem RoundsLe.le_midpoint {k : Nat} {v : ℚ} (h : RoundsLe k v) : v ≤ midpoint k := by
  rcases h with h | ⟨h, -⟩
  · exact h.le
  · exact h.le

theorem midpoint_le_of_not_roundsLe {k : Nat} {v : ℚ} (h : ¬ RoundsLe k v) : midpoint k ≤ v :=
  not_lt.mp fun hlt => h (.inl hlt)

theorem roundsLe_div_iff {n d : Nat} (hd : 0 < d) (k : Nat) : RoundsLe k (n / d) ↔
    2 * (n <<< 1074) < (2 * units k + 2 ^ spacing k) * d ∨
      2 * (n <<< 1074) = (2 * units k + 2 ^ spacing k) * d ∧ k % 2 = 0 := by
  have hd' : (0 : ℚ) < d := by exact_mod_cast hd
  have hscale : (0 : ℚ) < 2 * 2 ^ 1074 := by positivity
  rw [RoundsLe, midpoint_eq, div_lt_div_iff₀ hd' hscale, div_eq_div_iff hd'.ne' hscale.ne', Nat.shiftLeft_eq]
  generalize 2 * units k + 2 ^ spacing k = m
  generalize 1074 = e
  have hcast : (n : ℚ) * (2 * 2 ^ e) = (2 * (n * 2 ^ e) : ℕ) := by push_cast; ring
  rw [hcast, ← Nat.cast_mul, Nat.cast_lt, Nat.cast_inj]

theorem nearestRank_le_iff {n d : Nat} (hd : 0 < d) (k : Nat) :
    nearestRank n d ≤ k ↔ RoundsLe k (n / d) := by
  obtain ⟨s, q, hrank, hbinade⟩ := nearestRank_binade n hd
  have hparity : (s * 2 ^ 52 + q) % 2 = q % 2 := by omega
  constructor
  · intro hk
    apply RoundsLe.mono hk
    rw [hrank, roundsLe_div_iff hd, hparity]
    exact hbinade.le_above hd
  · intro hk
    by_contra hlt
    obtain ⟨j, hj⟩ : ∃ j, j + 1 = s * 2 ^ 52 + q := ⟨s * 2 ^ 52 + q - 1, by omega⟩
    have hbelow := (roundsLe_div_iff hd j).mp (hk.mono (by omega))
    have := hbinade.below_le hd hj
    omega

/-! ## Where the ranks begin and end -/

theorem midpoint_zero : midpoint 0 = 1 / (2 * 2 ^ 1074) := by
  have hunits : units 0 = 0 := units_eq_zero_iff.mpr rfl
  have hspacing : spacing 0 = 0 := rfl
  rw [midpoint_eq, hunits, hspacing]
  norm_num only

theorem midpoint_pos (k : Nat) : 0 < midpoint k := by
  have hzero : 0 < midpoint 0 := by rw [midpoint_zero]; positivity
  exact lt_of_lt_of_le hzero (midpoint_strictMono.monotone (Nat.zero_le k))

theorem infinityRank_binade : infinityRank = 2046 * 2 ^ 52 + 2 ^ 52 := by decide +kernel

theorem rankValue_infinityRank : rankValue infinityRank = 2 ^ 1024 := by
  have hunits : units infinityRank = 2 ^ 52 * 2 ^ 2046 := by
    rw [infinityRank_binade, units_binade (by omega) (.inr (Nat.le_refl _))]
  rw [rankValue_eq, hunits, div_eq_iff (by positivity), Nat.cast_mul, Nat.cast_pow, Nat.cast_pow, Nat.cast_ofNat,
    ← pow_add, ← pow_add]

/-- The last finite rank is odd, so that the tie above it is out of range. -/
theorem roundsLe_last_iff {v : ℚ} : RoundsLe (infinityRank - 1) v ↔ v < 2 ^ 1024 - 2 ^ 970 := by
  have hbinade := infinityRank_binade
  have hlast : infinityRank - 1 = 2045 * 2 ^ 52 + (2 ^ 53 - 1) := by omega
  obtain ⟨hspacing, -⟩ := @binade_of_lt 2045 (2 ^ 53 - 1) (by omega) (.inr (by omega))
  rw [← hlast] at hspacing
  have hodd : ¬ (infinityRank - 1) % 2 = 0 := by omega
  have hmid : midpoint (infinityRank - 1) = 2 ^ 1024 - 2 ^ 970 := by
    have hsucc := units_succ (infinityRank - 1)
    have hvalue := rankValue_eq infinityRank
    rw [show infinityRank - 1 + 1 = infinityRank by omega, hspacing] at hsucc
    rw [rankValue_infinityRank, hsucc, eq_div_iff (by positivity)] at hvalue
    rw [midpoint_eq, hspacing, div_eq_iff (by positivity)]
    have hpow : (2 : ℚ) ^ 2045 = 2 ^ 970 * (2 * 2 ^ 1074) := by rw [← pow_succ', ← pow_add]
    rw [Nat.cast_add, Nat.cast_pow, Nat.cast_ofNat] at hvalue ⊢
    rw [Nat.cast_mul, Nat.cast_ofNat]
    generalize (2 : ℚ) ^ 2045 = step at hvalue hpow ⊢
    generalize (2 : ℚ) ^ 1074 = scale at hvalue hpow ⊢
    generalize (2 : ℚ) ^ 1024 = top at hvalue ⊢
    generalize (2 : ℚ) ^ 970 = half at hpow ⊢
    linear_combination (-2) * hvalue - hpow
  rw [RoundsLe, hmid]
  constructor
  · rintro (h | ⟨-, h⟩)
    · exact h
    · exact absurd h hodd
  · exact .inl

/-! ## Decimals -/

def Decimal.value (d : Decimal) : ℚ :=
  d.digits * 10 ^ d.exponent

theorem value_ofNat (n e : Nat) : Decimal.value ⟨n, .ofNat e⟩ = (n * Nat.pow 10 e : ℕ) / (1 : ℕ) := by
  have hpow : (10 : ℚ) ^ (Int.ofNat e) = (Nat.pow 10 e : ℕ) := by
    rw [Int.ofNat_eq_natCast, zpow_natCast, Nat.pow_eq, Nat.cast_pow, Nat.cast_ofNat]
  rw [Decimal.value, hpow, Nat.cast_one, div_one, Nat.cast_mul]

theorem value_negSucc (n e : Nat) : Decimal.value ⟨n, .negSucc e⟩ = n / (Nat.pow 10 (e + 1) : ℕ) := by
  rw [Decimal.value, zpow_negSucc, Nat.pow_eq, Nat.cast_pow, Nat.cast_ofNat, div_eq_mul_inv]

theorem eight_pow_le_ten_pow (e : Nat) : 2 ^ (3 * e) ≤ Nat.pow 10 e := by
  rw [Nat.pow_mul]
  exact Nat.pow_le_pow_left (by omega) e

theorem not_roundsLe_of_large {k n e : Nat} (hk : k < infinityRank) (hn : n ≠ 0) (he : 400 < e) :
    ¬ RoundsLe k (Decimal.value ⟨n, .ofNat e⟩) := by
  have hn : (1 : ℚ) ≤ n := by exact_mod_cast Nat.pos_of_ne_zero hn
  have hvalue : (2 : ℚ) ^ 1024 ≤ Decimal.value ⟨n, .ofNat e⟩ := by
    calc (2 : ℚ) ^ 1024 ≤ 2 ^ (3 * e) := pow_le_pow_right₀ (by norm_num) (by omega)
      _ ≤ (Nat.pow 10 e : ℕ) := by exact_mod_cast eight_pow_le_ten_pow e
      _ ≤ n * (Nat.pow 10 e : ℕ) := le_mul_of_one_le_left (Nat.cast_nonneg _) hn
      _ = Decimal.value ⟨n, .ofNat e⟩ := by rw [value_ofNat, Nat.cast_one, div_one, Nat.cast_mul]
  have hmid : midpoint k < 2 ^ 1024 := by
    rw [← rankValue_infinityRank]
    exact lt_of_lt_of_le (midpoint_lt_rankValue k) (rankValue_strictMono.monotone hk)
  have hlt := hmid.trans_le hvalue
  rintro (h | ⟨h, -⟩)
  · exact lt_asymm h hlt
  · exact hlt.ne' h

theorem mul_two_pow_lt_ten_pow {n e t : Nat} (h : n.log2 + 1 + (t + 1) ≤ 3 * e) :
    n * (2 * 2 ^ t) < Nat.pow 10 e := by
  calc n * (2 * 2 ^ t) < 2 ^ (n.log2 + 1) * (2 * 2 ^ t) :=
        Nat.mul_lt_mul_of_pos_right Nat.lt_log2_self (by positivity)
    _ = 2 ^ (n.log2 + 1 + (t + 1)) := by rw [← Nat.pow_succ', ← Nat.pow_add]
    _ ≤ 2 ^ (3 * e) := Nat.pow_le_pow_right (by omega) h
    _ ≤ Nat.pow 10 e := eight_pow_le_ten_pow e

theorem roundsLe_of_small (k : Nat) {n e : Nat} (h : n.log2 + 1076 < 3 * (e + 1)) :
    RoundsLe k (Decimal.value ⟨n, .negSucc e⟩) := by
  have hnat : n * (2 * 2 ^ 1074) < Nat.pow 10 (e + 1) := mul_two_pow_lt_ten_pow (by omega)
  have hpos : (0 : ℚ) < (Nat.pow 10 (e + 1) : ℕ) := by
    exact_mod_cast Nat.lt_of_le_of_lt (Nat.zero_le _) hnat
  have hvalue : Decimal.value ⟨n, .negSucc e⟩ < midpoint 0 := by
    rw [value_negSucc, midpoint_zero, div_lt_div_iff₀ hpos (by positivity), one_mul]
    exact_mod_cast hnat
  exact RoundsLe.mono (Nat.zero_le k) (.inl hvalue)

/-- **Decimals round by their value.** -/
theorem rank_le_iff (d : Decimal) {k : Nat} (hk : k < infinityRank) : d.rank ≤ k ↔ RoundsLe k d.value := by
  obtain ⟨n, exponent⟩ := d
  cases exponent with
  | ofNat e =>
    rw [rank_ofNat]
    by_cases hn : n = 0
    · subst hn
      have hzero : Decimal.value ⟨0, .ofNat e⟩ = 0 := by simp [Decimal.value]
      rw [if_pos rfl, hzero]
      exact ⟨fun _ => .inl (midpoint_pos k), fun _ => Nat.zero_le k⟩
    by_cases he : 400 < e
    · rw [if_neg hn, if_pos he]
      exact ⟨fun h => absurd h (by omega), fun h => absurd h (not_roundsLe_of_large hk hn he)⟩
    · rw [if_neg hn, if_neg he, value_ofNat]
      exact nearestRank_le_iff Nat.one_pos k
  | negSucc e =>
    rw [rank_negSucc]
    by_cases hsmall : n.log2 + 1076 < 3 * (e + 1)
    · rw [if_pos hsmall]
      exact ⟨fun _ => roundsLe_of_small k hsmall, fun _ => Nat.zero_le k⟩
    · rw [if_neg hsmall, value_negSucc]
      exact nearestRank_le_iff (Nat.pow_pos (by omega)) k

theorem rank_lt_infinityRank_iff (d : Decimal) : d.rank < infinityRank ↔ d.value < 2 ^ 1024 - 2 ^ 970 := by
  have hbinade := infinityRank_binade
  rw [← roundsLe_last_iff, ← rank_le_iff d (by omega)]
  omega

section
variable {d d' : Decimal}

theorem rank_mono (hv : d.value ≤ d'.value) (h : d'.rank < infinityRank) : d.rank ≤ d'.rank := by
  rw [rank_le_iff d h]
  exact RoundsLe.anti hv ((rank_le_iff d' h).mp (Nat.le_refl _))

theorem rank_congr (hv : d.value = d'.value) (h : d'.rank < infinityRank) : d.rank = d'.rank := by
  have hle := rank_mono hv.le h
  exact Nat.le_antisymm hle (rank_mono hv.ge (Nat.lt_of_le_of_lt hle h))

/-- What is read back as a rank is an interval. -/
theorem rank_between {x : Decimal} {k : Nat} (hk : k < infinityRank) (hd : d.rank = k) (hd' : d'.rank = k)
    (hle : d.value ≤ x.value) (hle' : x.value ≤ d'.value) : x.rank = k := by
  have hx : x.rank ≤ k := hd' ▸ rank_mono hle' (hd' ▸ hk)
  exact Nat.le_antisymm hx (hd ▸ rank_mono hle (Nat.lt_of_le_of_lt hx hk))

end

end SheetFormula
