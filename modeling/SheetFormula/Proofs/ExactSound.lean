import Mathlib
import SheetFormula.Proofs.NearestLemmas
import SheetFormula.Proofs.ReadBack

/-!
# What becomes of a number text

`Denotes` gives a decimal text its exact rational value. The double that it is read as is the nearest one, in
every binade and below the least of them (`isNearest_rank`), unless there is none: `normalizeNumber_exact`.
-/

namespace SheetFormula

/-! ## Nearest ranks -/

section
variable {v : ℚ} {k : Nat} (hle : RoundsLe k v) (hgt : ∀ j, j + 1 = k → ¬ RoundsLe j v)

include hle hgt

-- the value of another rank lies beyond the midpoint on its side
theorem abs_sub_rankValue_le (j : Nat) : |v - rankValue k| ≤ |v - rankValue j| := by
  rcases Nat.lt_trichotomy j k with hjk | rfl | hjk
  · obtain ⟨i, rfl⟩ : ∃ i, k = i + 1 := ⟨k - 1, by omega⟩
    have hmid := midpoint_le_of_not_roundsLe (hgt i rfl)
    have hj := rankValue_strictMono.monotone (Nat.le_of_lt_succ hjk)
    have hi := rankValue_strictMono (Nat.lt_succ_self i)
    unfold midpoint at hmid
    rw [abs_of_nonneg (by linarith : 0 ≤ v - rankValue j), abs_le]
    constructor <;> linarith
  · exact le_rfl
  · have hmid := hle.le_midpoint
    have hj := rankValue_strictMono.monotone hjk
    have hk := rankValue_strictMono (Nat.lt_succ_self k)
    unfold midpoint at hmid
    rw [abs_of_nonpos (by linarith : v - rankValue j ≤ 0), abs_le]
    constructor <;> linarith

theorem even_of_abs_sub_eq {j : Nat} (hne : rankValue j ≠ rankValue k)
    (heq : |v - rankValue k| = |v - rankValue j|) : k % 2 = 0 := by
  have hjk : j ≠ k := fun h => hne (h ▸ rfl)
  rcases Nat.lt_or_gt_of_ne hjk with hjk | hjk
  · obtain ⟨i, rfl⟩ : ∃ i, k = i + 1 := ⟨k - 1, by omega⟩
    have hj := rankValue_strictMono.monotone (Nat.le_of_lt_succ hjk)
    have hi := rankValue_strictMono (Nat.lt_succ_self i)
    have hmid := midpoint_le_of_not_roundsLe (hgt i rfl)
    have htie : v = midpoint i := by
      unfold midpoint at hmid ⊢
      rw [abs_of_nonneg (by linarith : 0 ≤ v - rankValue j)] at heq
      rcases abs_eq_abs.mp (heq.trans (abs_of_nonneg (by linarith)).symm) with h | h
      · exact absurd (by linarith) hne
      · linarith
    by_contra hodd
    exact hgt i rfl (.inr ⟨htie, by omega⟩)
  · have hj := rankValue_strictMono.monotone hjk
    have hk := rankValue_strictMono (Nat.lt_succ_self k)
    have hmid := hle.le_midpoint
    have htie : v = midpoint k := by
      unfold midpoint at hmid ⊢
      rw [Nat.succ_eq_add_one] at hj
      rcases abs_eq_abs.mp heq with h | h
      · exact absurd (by linarith) hne
      · linarith
    rcases hle with h | ⟨-, h⟩
    · exact absurd htie h.ne
    · exact h

end

/-! ## Nearest doubles -/

def signed (negative : Bool) (v : ℚ) : ℚ :=
  if negative then -v else v

theorem abs_signed (negative : Bool) {v : ℚ} (h : 0 ≤ v) : |signed negative v| = v := by
  cases negative <;> simp [signed, abs_of_nonneg h]

theorem abs_signed_sub (negative : Bool) (v w : ℚ) : |signed negative v - signed negative w| = |v - w| := by
  cases negative with
  | false => rfl
  | true =>
    simp only [signed, ite_true]
    rw [neg_sub_neg, abs_sub_comm]

theorem abs_signed_sub_of_ne {negative b : Bool} (hb : b ≠ negative) {v w : ℚ} (hv : 0 ≤ v) (hw : 0 ≤ w) :
    |signed negative v - signed b w| = v + w := by
  have hsum : |v + w| = v + w := abs_of_nonneg (by linarith)
  cases negative with
  | false =>
    rw [Bool.eq_true_of_not_eq_false hb]
    simpa [signed] using hsum
  | true =>
    rw [Bool.eq_false_of_not_eq_true hb]
    simp only [signed, ite_true, Bool.false_eq_true, ite_false]
    rw [← neg_add', abs_neg, hsum]

/-- The double is nearest to `v` of all finite ones, with an even significand if another one is as near. Zero
stands for what is at most half the least magnitude, and the steps up to the least normal magnitude are all
of the size of the least one. -/
structure IsNearest (v : ℚ) (negative : Bool) (k : Fin infinityRank) : Prop where
  nearest : ∀ b (j : Fin infinityRank),
    |v - signed negative (rankValue k)| ≤ |v - signed b (rankValue j)|
  even : ∀ b (j : Fin infinityRank), signed b (rankValue j) ≠ signed negative (rankValue k) →
    |v - signed negative (rankValue k)| = |v - signed b (rankValue j)| → wordSignificand k % 2 = 0
  underflow : k.val = 0 ↔ |v| ≤ 2 ^ (-1075 : ℤ)
  gradual : |v| < 2 ^ (-1022 : ℤ) → |v - signed negative (rankValue k)| ≤ 2 ^ (-1075 : ℤ)

theorem rankValue_zero : rankValue 0 = 0 := by
  simp [rankValue, wordSignificand]

theorem even_wordSignificand_iff (k : Nat) : wordSignificand k % 2 = 0 ↔ k % 2 = 0 := by
  unfold wordSignificand
  split <;> omega

theorem half_unit : midpoint 0 = 2 ^ (-1075 : ℤ) := by
  have hexponent : (-1075 : ℤ) = -((1074 + 1 : ℕ) : ℤ) := rfl
  rw [midpoint_zero, hexponent, zpow_neg, zpow_natCast, one_div, ← pow_succ']

theorem rankValue_leastNormal : rankValue (2 ^ 52) = 2 ^ (-1022 : ℤ) := by
  have hsignificand : wordSignificand (2 ^ 52) = 2 ^ 52 := rfl
  rw [rankValue, hsignificand, Nat.cast_pow, Nat.cast_ofNat, ← zpow_natCast, ← zpow_add₀ two_ne_zero]
  rfl

-- below the least normal magnitude and at it, half a step is the same everywhere
theorem midpoint_subnormal {k : Nat} (h : k ≤ 2 ^ 52) :
    midpoint k = rankValue k + midpoint 0 ∧ midpoint k = rankValue (k + 1) - midpoint 0 := by
  have hspacing : spacing k = 0 := by
    have := spacing_eq k
    omega
  rw [midpoint_eq, rankValue_eq, rankValue_eq, midpoint_zero, units_succ, hspacing]
  generalize (2 : ℚ) ^ 1074 = scale
  constructor
  · push_cast
    ring
  · push_cast
    ring

section
variable {v : ℚ} (hv : 0 ≤ v) {k : Nat} (hle : RoundsLe k v) (hgt : ∀ j, j + 1 = k → ¬ RoundsLe j v)
include hv

-- a value of the other sign is no nearer than the same one of this sign
theorem abs_sub_le_signed (negative b : Bool) (j : Nat) :
    |v - rankValue j| ≤ |signed negative v - signed b (rankValue j)| := by
  by_cases hb : b = negative
  · rw [hb, abs_signed_sub]
  · have hj := rankValue_nonneg j
    rw [abs_signed_sub_of_ne hb hv hj, abs_le]
    constructor <;> linarith

include hgt hle

theorem even_of_signed_eq (negative b : Bool) (j : Nat)
    (hne : signed b (rankValue j) ≠ signed negative (rankValue k))
    (heq : |signed negative v - signed negative (rankValue k)| = |signed negative v - signed b (rankValue j)|) :
    k % 2 = 0 := by
  have hj := abs_sub_le_signed hv negative b j
  rw [abs_signed_sub] at heq
  by_cases hjk : rankValue j = rankValue k
  · -- then the signs differ, and one of `v` and the magnitude is zero
    have hb : b ≠ negative := fun hb => hne (by rw [hb, hjk])
    have hk := rankValue_nonneg k
    have hzero := abs_sub_rankValue_le hle hgt 0
    rw [rankValue_zero, sub_zero, abs_of_nonneg hv] at hzero
    rw [hjk, abs_signed_sub_of_ne hb hv hk] at heq
    have hvalue : rankValue k = 0 := by linarith
    have hrank : k = 0 := rankValue_strictMono.injective (hvalue.trans rankValue_zero.symm)
    rw [hrank]
  · apply even_of_abs_sub_eq hle hgt hjk
    exact le_antisymm (abs_sub_rankValue_le hle hgt j) (heq ▸ hj)

theorem isNearest_of_roundsLe (negative : Bool) (hk : k < infinityRank) :
    IsNearest (signed negative v) negative ⟨k, hk⟩ := by
  refine ⟨fun b j => ?_, fun b j hne heq => ?_, ?_, fun hsmall => ?_⟩
  · rw [abs_signed_sub]
    exact (abs_sub_rankValue_le hle hgt j).trans (abs_sub_le_signed hv negative b j)
  · exact (even_wordSignificand_iff k).mpr (even_of_signed_eq hv hle hgt negative b j hne heq)
  · rw [abs_signed negative hv, ← half_unit]
    constructor
    · intro hzero
      rw [show k = 0 from hzero] at hle
      exact hle.le_midpoint
    · intro hmid
      have hzero : RoundsLe 0 v := (lt_or_eq_of_le hmid).imp id fun h => ⟨h, rfl⟩
      by_contra hne
      obtain ⟨j, hj⟩ : ∃ j, j + 1 = k := ⟨k - 1, Nat.sub_add_cancel (Nat.pos_of_ne_zero hne)⟩
      exact hgt j hj (hzero.mono (Nat.zero_le j))
  · rw [abs_signed negative hv, ← rankValue_leastNormal] at hsmall
    have hrank : k ≤ 2 ^ 52 := by
      by_contra hlt
      obtain ⟨j, hj⟩ : ∃ j, j + 1 = k := ⟨k - 1, by omega⟩
      exact hgt j hj (.mono (by omega) (.inl (hsmall.trans (rankValue_lt_midpoint (2 ^ 52)))))
    have hupper := (midpoint_subnormal hrank).1 ▸ hle.le_midpoint
    rw [abs_signed_sub, ← half_unit, abs_le]
    refine ⟨?_, by linarith⟩
    by_cases hzero : k = 0
    · have := midpoint_pos 0
      rw [show rankValue k = 0 by rw [hzero, rankValue_zero]]
      linarith
    · obtain ⟨j, rfl⟩ : ∃ j, k = j + 1 := ⟨k - 1, by omega⟩
      have hlower := midpoint_le_of_not_roundsLe (hgt j rfl)
      rw [(midpoint_subnormal (by omega)).2] at hlower
      linarith

end

theorem value_nonneg (d : Decimal) : 0 ≤ d.value := by
  unfold Decimal.value
  positivity

theorem isNearest_rank (d : Decimal) (h : d.rank < infinityRank) (negative : Bool) :
    IsNearest (signed negative d.value) negative ⟨d.rank, h⟩ := by
  apply isNearest_of_roundsLe (value_nonneg d) ((rank_le_iff d h).mp (Nat.le_refl _))
  intro j hj hle
  have := (rank_le_iff d (by omega)).mpr hle
  omega

/-! ## Exact values -/

/-- A decimal text with its sign and its value. -/
inductive Denotes : List Char → Bool → ℚ → Prop
  | intro {negative : Bool} {sign m whole fraction e : List Char} {exponent : Int} :
      IsSign negative sign → IsParted m whole fraction → IsScale e exponent →
      Denotes (sign ++ (m ++ e)) negative (signed negative
        ((digitsValue whole + digitsValue fraction / 10 ^ fraction.length) * 10 ^ exponent))

/-- An infinity or no number at all, with a sign or without. -/
def IsSpecial (cs : List Char) : Prop :=
  ∃ negative sign w, IsSign negative sign ∧ IsWord w ∧ cs = sign ++ w

theorem digitsValue_append (a b : List Char) :
    digitsValue (a ++ b) = 10 ^ b.length * digitsValue a + digitsValue b := by
  rw [digitsValue_eq, digitsValue_eq, digitsValue_eq, Nat.ofDigitChars_append,
    Nat.ofDigitChars_eq_ofDigitChars_zero]

theorem value_toDecimal (x : Numeral) : x.toDecimal.value =
    (digitsValue x.whole + digitsValue x.fraction / 10 ^ x.fraction.length) * 10 ^ x.exponent := by
  simp only [Numeral.toDecimal, Decimal.value, digitsValue_append]
  rw [zpow_sub₀ (by norm_num), zpow_natCast]
  push_cast
  field_simp

theorem denotes_iff {cs : List Char} {negative : Bool} {v : ℚ} : Denotes cs negative v ↔
    ∃ sign body x, IsSign negative sign ∧ Numeral.Spells x body ∧ cs = sign ++ body ∧
      v = signed negative x.toDecimal.value := by
  constructor
  · rintro ⟨hs, hm, he⟩
    exact ⟨_, _, ⟨_, _, _⟩, hs, ⟨_, _, rfl, hm, he⟩, rfl, by rw [value_toDecimal]⟩
  · rintro ⟨sign, body, x, hs, ⟨m, e, rfl, hm, he⟩, rfl, rfl⟩
    rw [value_toDecimal]
    exact .intro hs hm he

theorem literal_parse?_eq_none_iff_denotes {cs : List Char} :
    Literal.parse? cs = none ↔ ¬ (IsSpecial cs ∨ ∃ negative v, Denotes cs negative v) := by
  rw [literal_parse?_eq_none_iff, not_iff_not]
  constructor
  · rintro ⟨negative, sign, body, hs, rfl, hw | ⟨x, hx⟩⟩
    · exact .inl ⟨negative, sign, body, hs, hw, rfl⟩
    · exact .inr ⟨negative, _, denotes_iff.mpr ⟨sign, body, x, hs, hx, rfl, rfl⟩⟩
  · rintro (⟨negative, sign, w, hs, hw, rfl⟩ | ⟨negative, v, h⟩)
    · exact ⟨negative, sign, w, hs, rfl, .inl hw⟩
    · obtain ⟨sign, body, x, hs, hx, rfl, -⟩ := denotes_iff.mp h
      exact ⟨negative, sign, body, hs, rfl, .inr ⟨x, hx⟩⟩

/-! ## Outcomes -/

section
variable {text : String}

theorem normalizeNumber_eq_malformed_iff :
    normalizeNumber text = .error .malformed ↔ Literal.parse? text.toList = none := by
  unfold normalizeNumber readDouble?
  cases Literal.parse? text.toList with
  | none => simp
  | some l =>
    cases hx : l.toDouble <;> simp [hx]

theorem normalizeNumber_of_special (h : IsSpecial text.toList) :
    normalizeNumber text = .error .outOfRange := by
  obtain ⟨negative, sign, w, hs, hw, htext⟩ := h
  unfold normalizeNumber readDouble?
  rcases literal_parse?_word hs hw with hparse | hparse
  · rw [htext, hparse]
    rfl
  · rw [htext, hparse]
    rfl

theorem readDouble?_of_denotes {negative : Bool} {v : ℚ} (h : Denotes text.toList negative v) :
    ∃ d : Decimal, readDouble? text = some (Double.ofRank negative d.rank) ∧ v = signed negative d.value := by
  obtain ⟨sign, body, x, hs, hx, htext, hv⟩ := denotes_iff.mp h
  exact ⟨x.toDecimal, readDouble?_of_spells hs hx htext, hv⟩

end

/-- What a text's canonical form is, or why there is none. -/
structure NumberOutcome (text : String) : Prop where
  malformed : normalizeNumber text = .error .malformed ↔
    ¬ (IsSpecial text.toList ∨ ∃ negative v, Denotes text.toList negative v)
  special : IsSpecial text.toList → normalizeNumber text = .error .outOfRange
  outOfRange : ∀ negative v, Denotes text.toList negative v →
    (normalizeNumber text = .error .outOfRange ↔ 2 ^ 1024 - 2 ^ 970 ≤ |v|)
  finite : ∀ negative v, Denotes text.toList negative v → |v| < 2 ^ 1024 - 2 ^ 970 → ∃ s rank,
    normalizeNumber text = .ok s ∧ readDouble? s = some (.finite negative rank) ∧ IsNearest v negative rank

/-- **Exact outcomes.** A decimal text is out of range from half way between the last finite magnitude and
`2 ^ 1024` on, and otherwise its canonical text denotes the nearest double of its sign. -/
theorem normalizeNumber_exact (text : String) : NumberOutcome text := by
  refine ⟨?_, normalizeNumber_of_special, fun negative v h => ?_, fun negative v h hlt => ?_⟩
  · rw [normalizeNumber_eq_malformed_iff, literal_parse?_eq_none_iff_denotes]
  · obtain ⟨d, hread, rfl⟩ := readDouble?_of_denotes h
    obtain ⟨hok, herror⟩ := normalizeNumber_ofRank hread
    rw [abs_signed negative (value_nonneg d), ← not_lt, ← rank_lt_infinityRank_iff]
    refine ⟨fun hrange hlt => ?_, herror⟩
    rw [hok hlt] at hrange
    cases hrange
  · obtain ⟨d, hread, rfl⟩ := readDouble?_of_denotes h
    rw [abs_signed negative (value_nonneg d), ← rank_lt_infinityRank_iff] at hlt
    refine ⟨_, ⟨d.rank, hlt⟩, (normalizeNumber_ofRank hread).1 hlt, ?_, isNearest_rank d hlt negative⟩
    exact readDouble?_finiteText negative ⟨d.rank, hlt⟩

-- half way between two doubles, the upper of which has an odd significand
example : normalizeNumber "9007199254740993" = .ok "9007199254740992" := by decide +kernel

end SheetFormula
