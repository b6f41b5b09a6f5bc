import Mathlib.Tactic.Ring
import SheetFormula.Number.Shortest

/-!
# Magnitudes round to themselves

`nearestRank_exact`: what is exactly the magnitude of a rank is rounded to that rank.
`rank_shortest`: the shortest decimal of a rank is read back as that rank.
-/

namespace SheetFormula

/-! ## Ranks and their magnitudes -/

/-- A rank without the binades below it, the significand of its magnitude. -/
def significand (k : Nat) : Nat :=
  k - spacing k * 2 ^ 52

theorem spacing_eq (k : Nat) : spacing k = k / 2 ^ 52 - 1 := by
  rw [spacing, Nat.shiftRight_eq_div_pow]

theorem units_eq (k : Nat) : units k = significand k * 2 ^ spacing k := by
  rw [units, significand, Nat.shiftLeft_eq, Nat.shiftLeft_eq]

theorem spacing_add_significand (k : Nat) : spacing k * 2 ^ 52 + significand k = k := by
  have := spacing_eq k
  unfold significand
  omega

theorem significand_lt (k : Nat) : significand k < 2 ^ 53 := by
  have := spacing_eq k
  unfold significand
  omega

theorem le_significand {k : Nat} (h : spacing k ≠ 0) : 2 ^ 52 ≤ significand k := by
  have := spacing_eq k
  unfold significand
  omega

theorem log2_units (k : Nat) : (units k).log2 - 52 = spacing k := by
  have hlt := significand_lt k
  by_cases hs : spacing k = 0
  · rw [units_eq, hs, Nat.pow_zero, Nat.mul_one]
    by_cases hz : significand k = 0
    · rw [hz]; rfl
    · have := (Nat.log2_lt hz).mpr hlt
      omega
  · have hle := le_significand hs
    have hne : units k ≠ 0 := by
      rw [units_eq]
      exact Nat.mul_ne_zero (by omega) (by simp)
    have hlog : (units k).log2 = 52 + spacing k := by
      rw [Nat.log2_eq_iff hne, units_eq, Nat.pow_add, show 52 + spacing k + 1 = 53 + spacing k by omega,
        Nat.pow_add]
      exact ⟨Nat.mul_le_mul_right _ hle, Nat.mul_lt_mul_of_pos_right hlt (Nat.two_pow_pos _)⟩
    omega

theorem roundHalfEven_mul (q : Nat) {d : Nat} (hd : 0 < d) : roundHalfEven (q * d) d = q := by
  simp [roundHalfEven, Nat.mul_div_cancel _ hd, hd]

theorem nearestRank_exact {n d k : Nat} (hd : 0 < d) (h : n <<< 1074 = units k * d) :
    nearestRank n d = k := by
  have hs : ((n <<< 1074) / d).log2 - 52 = spacing k := by
    rw [h, Nat.mul_div_cancel _ hd, log2_units]
  have hstep : 0 < d <<< spacing k := by
    rw [Nat.shiftLeft_eq]; exact Nat.mul_pos hd (Nat.two_pow_pos _)
  have hr : n <<< 1074 = significand k * (d <<< spacing k) := by
    rw [h, units_eq, Nat.shiftLeft_eq]; ring
  have hk := spacing_add_significand k
  unfold nearestRank
  simp only [hs]
  rw [hr, roundHalfEven_mul _ hstep, Nat.shiftLeft_eq]; exact hk

/-! ## The shortest decimal -/

theorem units_eq_zero_iff {k : Nat} : units k = 0 ↔ k = 0 := by
  constructor
  · intro h
    have hsum := spacing_add_significand k
    rw [units_eq, Nat.mul_eq_zero] at h
    rcases h with h | h
    · by_cases hs : spacing k = 0
      · rw [hs, h, Nat.zero_mul] at hsum; exact hsum.symm
      · have := le_significand hs
        omega
    · exact absurd h (Nat.pos_iff_ne_zero.mp (Nat.two_pow_pos _))
  · rintro rfl; simp [units]

theorem five_pow_mul_two_pow (n : Nat) : Nat.pow 5 n * 2 ^ n = Nat.pow 10 n :=
  (Nat.mul_pow 5 2 n).symm

theorem four_pow_le_five_pow (n : Nat) : 2 ^ (2 * n) ≤ Nat.pow 5 n := by
  rw [Nat.pow_mul]; exact Nat.pow_le_pow_left (by omega) n

theorem rank_ofNat (n e : Nat) : Decimal.rank ⟨n, .ofNat e⟩ =
    if n = 0 then 0 else if 400 < e then infinityRank else nearestRank (n * Nat.pow 10 e) 1 := rfl

theorem rank_negSucc (n e : Nat) : Decimal.rank ⟨n, .negSucc e⟩ =
    if n.log2 + 1076 < 3 * (e + 1) then 0 else nearestRank n (Nat.pow 10 (e + 1)) := rfl

theorem le_log2_mul_five_pow {u : Nat} (hu : 0 < u) (n : Nat) : 2 * n ≤ (u * Nat.pow 5 n).log2 := by
  have hle : 2 ^ (2 * n) ≤ u * Nat.pow 5 n :=
    Nat.le_trans (four_pow_le_five_pow n) (Nat.le_mul_of_pos_left _ hu)
  have hne : u * Nat.pow 5 n ≠ 0 := Nat.pos_iff_ne_zero.mp (Nat.lt_of_lt_of_le (Nat.two_pow_pos _) hle)
  exact (Nat.le_log2 hne).mpr hle

/-- On the finest grid every magnitude is a point itself. The number of places is kept a variable, so that
its powers are never evaluated. -/
theorem rank_exact {k n e : Nat} (hn : n = 1074) (he : e + 1 = n) :
    Decimal.rank ⟨units k * Nat.pow 5 n, .negSucc e⟩ = k := by
  rw [rank_negSucc, he]
  by_cases hk : k = 0
  · subst hk
    rw [units_eq_zero_iff.mpr rfl, Nat.zero_mul, Nat.log2_zero, if_pos (by omega)]
  · have hu : 0 < units k := Nat.pos_of_ne_zero fun hu => hk (units_eq_zero_iff.mp hu)
    have hlog := le_log2_mul_five_pow hu n
    have hscaled : (units k * Nat.pow 5 n) <<< 1074 = units k * Nat.pow 10 n := by
      rw [← hn, Nat.shiftLeft_eq, Nat.mul_assoc, five_pow_mul_two_pow]
    rw [if_neg (by omega)]
    exact nearestRank_exact (Nat.pow_pos (by omega)) hscaled

theorem fineUnits_eq {n : Nat} (hn : n = 1074) (k : Nat) : fineUnits k = units k * Nat.pow 5 n := by
  rw [fineUnits, ← hn]

theorem rank_gridPoint_zero (k : Nat) : (gridPoint 0 (fineUnits k)).rank = k := by
  obtain ⟨n, hn⟩ : ∃ n, n = 1074 := ⟨_, rfl⟩
  have hpoint : gridPoint 0 (fineUnits k) = ⟨units k * Nat.pow 5 n, .negSucc 1073⟩ := by
    rw [fineUnits_eq hn]; rfl
  rw [hpoint]
  exact rank_exact hn hn.symm

theorem rank_nearestOnGrid? {tie : Tie} {k g : Nat} {d : Decimal} (h : nearestOnGrid? tie k g = some d) :
    d.rank = k := by
  unfold nearestOnGrid? at h
  simp only at h
  split at h
  · rename_i habove
    split at h
    · rename_i hbelow; cases h; exact hbelow.1
    · cases h; exact habove
  · split at h
    · rename_i hbelow; cases h; exact hbelow
    · cases h

theorem rank_shortestFrom (tie : Tie) (k g : Nat) : (shortestFrom tie k g).rank = k := by
  induction g with
  | zero => exact rank_gridPoint_zero k
  | succ g ih =>
    unfold shortestFrom
    cases h : nearestOnGrid? tie k (g + 1) with
    | none => exact ih
    | some d => exact rank_nearestOnGrid? h

/-- **Read back.** The shortest decimal of a rank is rounded to that rank. -/
theorem rank_shortest (tie : Tie) (k : Nat) : (shortest tie k).rank = k := by
  unfold shortest
  by_cases hk : k = 0
  · subst hk; rfl
  · rw [if_neg hk]; exact rank_shortestFrom tie k _

end SheetFormula
