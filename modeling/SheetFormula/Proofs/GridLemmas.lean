import Mathlib
import SheetFormula.Proofs.NearestLemmas

/-!
# The coarsest grid that a rank is read back from

If any point of a grid is read back as a rank, so is one of the two around the magnitude
(`nearestOnGrid?_ne_none`), and no point is on a grid above the first one looked at (`coarsest_no_hit`). So the
shortest decimal is on the coarsest grid with a hit, which leaves no decimal with fewer digits:
`Coarsest.length_le`.
-/

namespace SheetFormula

/-! ## Values of grid points -/

theorem value_gridPoint (g n : Nat) : (gridPoint g n).value = (n * 10 ^ g : ℕ) / 10 ^ 1074 := by
  have hscale : (10 : ℚ) ^ ((g : ℤ) - (1074 : ℕ)) = 10 ^ g / 10 ^ 1074 := by
    rw [zpow_sub₀ (by norm_num), zpow_natCast, zpow_natCast]
  rw [Nat.cast_mul, Nat.cast_pow, Nat.cast_ofNat, mul_div_assoc, ← hscale]
  rfl

theorem value_gridPoint_le_iff {g n g' n' : Nat} :
    (gridPoint g n).value ≤ (gridPoint g' n').value ↔ n * 10 ^ g ≤ n' * 10 ^ g' := by
  rw [value_gridPoint, value_gridPoint, div_le_div_iff_of_pos_right (by positivity), Nat.cast_le]

theorem value_gridPoint_fineUnits (k : Nat) : (gridPoint 0 (fineUnits k)).value = rankValue k := by
  have hfine : ∀ n : Nat, (units k * Nat.pow 5 n : ℕ) / (10 : ℚ) ^ n = units k / 2 ^ n := by
    intro n
    have hten : (10 : ℚ) ^ n = 5 ^ n * 2 ^ n := by rw [← mul_pow]; norm_num
    rw [hten, Nat.pow_eq]
    push_cast
    field_simp
  rw [value_gridPoint, rankValue_eq, Nat.pow_zero, Nat.mul_one, fineUnits]
  apply hfine

/-! ## Grids around a magnitude -/

section
variable {k : Nat} (hk : k < infinityRank)
include hk

theorem nearestOnGrid?_ne_none (tie : Tie) {g m : Nat} (h : (gridPoint g m).rank = k) :
    nearestOnGrid? tie k g ≠ none := by
  have hself := rank_gridPoint_zero k
  have hpow : 0 < 10 ^ g := Nat.pow_pos (by omega)
  have hlow : fineUnits k / 10 ^ g * 10 ^ g ≤ fineUnits k := Nat.div_mul_le_self ..
  have hhigh : fineUnits k ≤ (fineUnits k / 10 ^ g + 1) * 10 ^ g :=
    Nat.le_of_lt ((Nat.div_lt_iff_lt_mul hpow).mp (Nat.lt_succ_self _))
  -- the hit lies on one side of the magnitude, and the grid point next to it on that side in between
  have hhit : (gridPoint g (fineUnits k / Nat.pow 10 g)).rank = k ∨
      (gridPoint g (fineUnits k / Nat.pow 10 g + 1)).rank = k := by
    by_cases hm : m ≤ fineUnits k / 10 ^ g
    · refine .inl (rank_between hk h hself ?_ ?_)
      · exact value_gridPoint_le_iff.mpr (Nat.mul_le_mul_right _ hm)
      · exact value_gridPoint_le_iff.mpr (by rw [Nat.pow_zero, Nat.mul_one]; exact hlow)
    · refine .inr (rank_between hk hself h ?_ ?_)
      · exact value_gridPoint_le_iff.mpr (by rw [Nat.pow_zero, Nat.mul_one]; exact hhigh)
      · exact value_gridPoint_le_iff.mpr (Nat.mul_le_mul_right _ (by simpa using hm))
  unfold nearestOnGrid?
  simp only
  by_cases habove : (gridPoint g (fineUnits k / Nat.pow 10 g + 1)).rank = k
  · rw [if_pos habove]
    split <;> simp
  · rw [if_neg habove, if_pos (hhit.resolve_right habove)]
    simp

end

theorem nearestOnGrid?_eq_gridPoint {tie : Tie} {k g : Nat} {d : Decimal} (h : nearestOnGrid? tie k g = some d) :
    ∃ n, d = gridPoint g n := by
  unfold nearestOnGrid? at h
  simp only at h
  split at h
  · split at h <;> cases h <;> exact ⟨_, rfl⟩
  · split at h
    · cases h
      exact ⟨_, rfl⟩
    · cases h

theorem two_pow_lt_ten_pow {l g : Nat} (h : 28 * l < 93 * g) : 2 ^ l < 10 ^ g := by
  have hbase : (2 : ℕ) ^ 93 ≤ 10 ^ 28 := by norm_num
  refine lt_of_pow_lt_pow_left₀ 93 (Nat.zero_le _) ?_
  calc (2 ^ l) ^ 93 = (2 ^ 93) ^ l := by rw [← Nat.pow_mul, ← Nat.pow_mul, Nat.mul_comm]
    _ ≤ (10 ^ 28) ^ l := Nat.pow_le_pow_left hbase l
    _ = 10 ^ (28 * l) := by rw [← Nat.pow_mul]
    _ < 10 ^ (93 * g) := Nat.pow_lt_pow_right (by omega) h
    _ = (10 ^ g) ^ 93 := by rw [← Nat.pow_mul, Nat.mul_comm]

theorem fineUnits_lt_coarsest (k : Nat) : fineUnits k < 10 ^ coarsestGrid k := by
  have hlog : fineUnits k < 2 ^ ((fineUnits k).log2 + 1) := Nat.lt_log2_self
  refine hlog.trans (two_pow_lt_ten_pow ?_)
  unfold coarsestGrid
  omega

theorem rankValue_succ_le {k : Nat} (hk : k ≠ 0) : rankValue (k + 1) ≤ 2 * rankValue k := by
  have hunits : units (k + 1) ≤ 2 * units k := by
    have hpos : 0 < significand k := by
      have hsum := spacing_add_significand k
      by_contra hzero
      by_cases hs : spacing k = 0
      · rw [hs] at hsum
        omega
      · have := le_significand hs
        omega
    have hstep : 2 ^ spacing k ≤ significand k * 2 ^ spacing k := Nat.le_mul_of_pos_left _ hpos
    rw [units_succ, units_eq k]
    omega
  rw [rankValue_eq, rankValue_eq, ← mul_div_assoc]
  gcongr
  exact_mod_cast hunits

theorem rank_gridPoint_zero_digits (g : Nat) : (gridPoint g 0).rank = 0 := by
  have hpos := Nat.pos_of_ne_zero (show infinityRank ≠ 0 by decide +kernel)
  refine Nat.le_zero.mp ((rank_le_iff _ hpos).mpr (.inl ?_))
  rw [value_gridPoint, Nat.zero_mul, Nat.cast_zero, zero_div]
  exact midpoint_pos 0

theorem coarsest_no_hit {k : Nat} (hk : k < infinityRank) (hne : k ≠ 0) {g m : Nat} (hg : coarsestGrid k < g) :
    (gridPoint g m).rank ≠ k := by
  intro h
  have hm : m ≠ 0 := by
    rintro rfl
    rw [rank_gridPoint_zero_digits] at h
    exact hne h.symm
  have hle := ((rank_le_iff _ hk).mp (Nat.le_of_eq h)).le_midpoint
  have hlt := midpoint_lt_rankValue k
  have hdouble := rankValue_succ_le hne
  have hfar : 10 * fineUnits k ≤ m * 10 ^ g := by
    calc 10 * fineUnits k ≤ 10 * 10 ^ coarsestGrid k := Nat.mul_le_mul_left _ (fineUnits_lt_coarsest k).le
      _ = 10 ^ (coarsestGrid k + 1) := (Nat.pow_succ').symm
      _ ≤ 10 ^ g := Nat.pow_le_pow_right (by omega) hg
      _ ≤ m * 10 ^ g := Nat.le_mul_of_pos_left _ (Nat.pos_of_ne_zero hm)
  have hvalue : 10 * rankValue k ≤ (gridPoint g m).value := by
    rw [← value_gridPoint_fineUnits, value_gridPoint, value_gridPoint, Nat.pow_zero, Nat.mul_one,
      ← mul_div_assoc]
    gcongr
    exact_mod_cast hfar
  have hnonneg := rankValue_nonneg k
  linarith

/-! ## The coarsest grid with a hit -/

/-- The point `n` of grid `g` is read back as `k`, and none of a coarser grid is. -/
structure Coarsest (k g n : Nat) : Prop where
  rank_eq : (gridPoint g n).rank = k
  no_coarser : ∀ g' > g, ∀ m, (gridPoint g' m).rank ≠ k

theorem coarsest_shortestFrom (tie : Tie) {k : Nat} (hk : k < infinityRank) (g : Nat)
    (h : ∀ g' > g, ∀ m, (gridPoint g' m).rank ≠ k) :
    ∃ g' n, shortestFrom tie k g = gridPoint g' n ∧ Coarsest k g' n := by
  induction g with
  | zero => exact ⟨0, fineUnits k, rfl, rank_gridPoint_zero k, h⟩
  | succ g ih =>
    unfold shortestFrom
    cases hd : nearestOnGrid? tie k (g + 1) with
    | some d =>
      obtain ⟨n, rfl⟩ := nearestOnGrid?_eq_gridPoint hd
      exact ⟨g + 1, n, rfl, rank_nearestOnGrid? hd, h⟩
    | none =>
      simp only [Option.getD_none]
      apply ih
      intro g' hg' m
      rcases Nat.lt_or_eq_of_le (Nat.succ_le_of_lt hg') with hlt | rfl
      · exact h g' hlt m
      · exact fun hm => nearestOnGrid?_ne_none hk tie hm hd

theorem coarsest_shortest (tie : Tie) {k : Nat} (hk : k < infinityRank) (hne : k ≠ 0) :
    ∃ g n, shortest tie k = gridPoint g n ∧ Coarsest k g n := by
  unfold shortest
  rw [if_neg hne]
  exact coarsest_shortestFrom tie hk _ fun g' hg' m => coarsest_no_hit hk hne hg'

section
variable {k g n : Nat} (hk : k < infinityRank) (h : Coarsest k g n)
include hk h

-- a last zero could be dropped on the next coarser grid
theorem Coarsest.mod_ten_ne : n % 10 ≠ 0 := by
  intro hmod
  apply h.no_coarser (g + 1) (Nat.lt_succ_self g) (n / 10)
  have hvalue : (gridPoint (g + 1) (n / 10)).value = (gridPoint g n).value := by
    rw [value_gridPoint, value_gridPoint, Nat.pow_succ', ← Nat.mul_assoc,
      Nat.div_mul_cancel (Nat.dvd_of_mod_eq_zero hmod)]
  rw [rank_congr hvalue (h.rank_eq ▸ hk), h.rank_eq]

/-- **Fewest digits.** What is read back as the rank has no fewer digits than the point. -/
theorem Coarsest.length_le (hne : k ≠ 0) {m l : Nat} {e : Int} (hm : Decimal.rank ⟨m, e⟩ = k)
    (hlt : m < 10 ^ l) : (Nat.toDigits 10 n).length ≤ l := by
  by_cases hl : l = 0
  · -- then the decimal is zero
    have hzero : m = 0 := by
      rw [hl, Nat.pow_zero] at hlt
      omega
    subst hzero
    have hvalue : Decimal.value ⟨0, e⟩ = (gridPoint 0 0).value := by simp [Decimal.value, gridPoint]
    rw [← hm, rank_congr hvalue (by rw [rank_gridPoint_zero_digits]; exact Nat.lt_of_le_of_lt (Nat.zero_le _) hk),
      rank_gridPoint_zero_digits] at hne
    exact absurd rfl hne
  by_contra hlong
  rw [Nat.length_toDigits_le_iff (by omega) (Nat.pos_of_ne_zero hl), Nat.not_lt] at hlong
  by_cases hcoarse : (g : ℤ) - 1074 < e
  · obtain ⟨g', rfl⟩ : ∃ g' : ℕ, e = (g' : ℤ) - 1074 := ⟨(e + 1074).toNat, by omega⟩
    exact h.no_coarser g' (by omega) m hm
  · -- a power of ten lies between the two and is a point of a coarser grid
    apply h.no_coarser (g + l) (by omega) 1
    refine rank_between hk hm h.rank_eq ?_ ?_
    · have hscale : (10 : ℚ) ^ e ≤ 10 ^ ((g : ℤ) - 1074) := zpow_le_zpow_right₀ (by norm_num) (by omega)
      have hdigits : (m : ℚ) ≤ 10 ^ l := by exact_mod_cast hlt.le
      calc Decimal.value ⟨m, e⟩ ≤ 10 ^ l * 10 ^ ((g : ℤ) - 1074) := by
            unfold Decimal.value
            gcongr
        _ = (gridPoint (g + l) 1).value := by
            unfold gridPoint Decimal.value
            rw [Nat.cast_one, one_mul, ← zpow_natCast, ← zpow_add₀ (by norm_num)]
            congr 1
            push_cast
            ring
    · apply value_gridPoint_le_iff.mpr
      rw [Nat.one_mul, Nat.pow_add, Nat.mul_comm]
      exact Nat.mul_le_mul_right _ hlong

end

end SheetFormula
