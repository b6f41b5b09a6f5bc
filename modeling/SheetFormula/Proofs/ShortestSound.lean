import Mathlib
import SheetFormula.Proofs.ExactSound
import SheetFormula.Proofs.GridLemmas
import SheetFormula.Proofs.LexingLemmas

/-!
# Canonical number texts are the shortest ones

A canonical text is plain: no exponent, no zero too many before or after the point (`isPlain_text`). Its digits are
those of the coarsest grid with a hit, and the zeros that put them in place are not significant, so that no text
of the same double has fewer: `normalizeNumber_shortest`.
-/

namespace SheetFormula

/-! ## Significant digits -/

/-- Without the zeros at both ends. -/
def trimZeros (ds : List Char) : List Char :=
  (ds.dropWhile (· == '0')).rdropWhile (· == '0')

/-- The number of digits before the exponent, not counting the zeros at both ends. -/
def significantDigits (text : String) : Nat :=
  (trimZeros ((text.toList.takeWhile (!isExponentMark ·)).filter Char.isDigit)).length

theorem eq_zeros {zs : List Char} (h : ∀ c ∈ zs, (c == '0') = true) : zs = List.replicate zs.length '0' :=
  List.eq_replicate_iff.mpr ⟨rfl, fun c hc => by simpa using h c hc⟩

theorem exists_trimZeros (ds : List Char) :
    ∃ i j, ds = List.replicate i '0' ++ (trimZeros ds ++ List.replicate j '0') := by
  have hleft : ∀ c ∈ ds.takeWhile (· == '0'), (c == '0') = true := by
    intro c hc
    exact List.mem_takeWhile_imp (p := (· == '0')) hc
  have hright : ∀ c ∈ (ds.dropWhile (· == '0')).rtakeWhile (· == '0'), (c == '0') = true := by
    intro c hc
    exact List.mem_rtakeWhile_imp (p := (· == '0')) hc
  have hsplit : ds.takeWhile (· == '0') ++
      (trimZeros ds ++ (ds.dropWhile (· == '0')).rtakeWhile (· == '0')) = ds := by
    rw [trimZeros, List.rdropWhile_append_rtakeWhile, List.takeWhile_append_dropWhile]
  rw [eq_zeros hleft, eq_zeros hright] at hsplit
  exact ⟨_, _, hsplit.symm⟩

theorem rdropWhile_append_zeros (ds : List Char) (j : Nat) :
    (ds ++ List.replicate j '0').rdropWhile (· == '0') = ds.rdropWhile (· == '0') := by
  induction j with
  | zero => simp
  | succ j ih => rw [List.replicate_succ', ← List.append_assoc, List.rdropWhile_concat_pos _ _ _ (by simp), ih]

theorem length_trimZeros_le (i j : Nat) (ds : List Char) :
    (trimZeros (List.replicate i '0' ++ (ds ++ List.replicate j '0'))).length ≤ ds.length := by
  have hzeros : ∀ n : Nat, ∀ c ∈ List.replicate n '0', (c == '0') = true := by
    intro n c hc
    rw [List.eq_of_mem_replicate hc]
    rfl
  unfold trimZeros
  rw [List.dropWhile_append_of_pos (hzeros i), List.dropWhile_append]
  by_cases hd : (ds.dropWhile (· == '0')).isEmpty = true
  · rw [if_pos hd, List.dropWhile_eq_nil_iff.mpr (hzeros j), List.rdropWhile_nil]
    exact Nat.zero_le _
  · rw [if_neg hd, rdropWhile_append_zeros]
    exact (List.rdropWhile_prefix _ _).length_le.trans (List.dropWhile_suffix _).length_le

theorem digitsValue_zeros (j : Nat) : digitsValue (List.replicate j '0') = 0 := by
  rw [digitsValue_eq, Nat.ofDigitChars_replicate_zero, Nat.mul_zero]

theorem digitsValue_trimmed (i j : Nat) (ds : List Char) :
    digitsValue (List.replicate i '0' ++ (ds ++ List.replicate j '0')) = digitsValue ds * 10 ^ j := by
  simp only [digitsValue_append, digitsValue_zeros, List.length_replicate]
  ring

theorem digitsValue_lt {ds : List Char} (h : ∀ c ∈ ds, c.isDigit = true) : digitsValue ds < 10 ^ ds.length := by
  induction ds using List.reverseRecOn with
  | nil => exact Nat.one_pos
  | append_singleton ds c ih =>
    have hds := ih fun d hd => h d (List.mem_append_left _ hd)
    have hc : 48 ≤ c.toNat ∧ c.toNat ≤ 57 := Char.isDigit_iff_toNat.mp (h c (by simp))
    have hdigit : digitsValue [c] ≤ 9 := by
      change 10 * 0 + (c.toNat - 48) ≤ 9
      omega
    rw [digitsValue_append, List.length_append, List.length_singleton, Nat.pow_one, Nat.pow_succ]
    omega

/-! ## Texts of a finite double -/

theorem exists_spells_of_finite {b : String} {negative : Bool} {k : Fin infinityRank}
    (h : readDouble? b = some (.finite negative k)) : ∃ sign body x, IsSign negative sign ∧
      Numeral.Spells x body ∧ b.toList = sign ++ body ∧ x.toDecimal.rank = k := by
  have hparse : Literal.parse? b.toList ≠ none := by
    intro hnone
    rw [readDouble?, hnone] at h
    cases h
  rw [ne_eq, literal_parse?_eq_none_iff, not_not] at hparse
  obtain ⟨negative', sign, body, hs, htext, hw | ⟨x, hx⟩⟩ := hparse
  · -- the words stand for no finite double
    rw [readDouble?, htext] at h
    rcases literal_parse?_word hs hw with h' | h' <;> rw [h'] at h <;> cases h
  · rw [readDouble?_of_spells hs hx htext, Option.some.injEq, Double.ofRank] at h
    by_cases hlt : x.toDecimal.rank < infinityRank
    · rw [dif_pos hlt, Double.finite.injEq] at h
      exact ⟨sign, body, x, h.1 ▸ hs, hx, htext, congrArg Fin.val h.2⟩
    · rw [dif_neg hlt] at h
      cases h

theorem filter_isDigit_parted {m whole fraction : List Char} (h : IsParted m whole fraction) :
    m.filter Char.isDigit = whole ++ fraction := by
  have hself : ∀ {ds : List Char}, (∀ c ∈ ds, c.isDigit = true) → ds.filter Char.isDigit = ds :=
    fun hd => List.filter_eq_self.mpr hd
  cases h with
  | whole hd => rw [hself (isDigits_iff.mp hd).2, List.append_nil]
  | pointed hd hf =>
    rw [List.filter_append, List.filter_cons_of_neg (by decide), hself (isDigits_iff.mp hd).2, hself hf]
  | fraction hf => rw [List.filter_cons_of_neg (by decide), hself (isDigits_iff.mp hf).2, List.nil_append]

theorem significantDigits_eq {text : String} {negative : Bool} {sign body : List Char} {x : Numeral}
    (hs : IsSign negative sign) (hx : x.Spells body) (htext : text.toList = sign ++ body) :
    significantDigits text = (trimZeros (x.whole ++ x.fraction)).length := by
  obtain ⟨m, e, rfl, hm, he⟩ := hx
  have hsign : (∀ c ∈ sign, (!isExponentMark c) = true) ∧ sign.filter Char.isDigit = [] := by
    cases hs <;> simp [isExponentMark]
  rw [significantDigits, htext, List.takeWhile_append_of_pos hsign.1,
    List.takeWhile_append_of_pos hm.not_isExponentMark, he.takeWhile_eq.1, List.append_nil, List.filter_append,
    hsign.2, List.nil_append, filter_isDigit_parted hm]

theorem exists_trimmed_decimal {ds : List Char} (h : ∀ c ∈ ds, c.isDigit = true) (e : Int) :
    ∃ m e', Decimal.value ⟨m, e'⟩ = Decimal.value ⟨digitsValue ds, e⟩ ∧ m < 10 ^ (trimZeros ds).length := by
  obtain ⟨i, j, hds⟩ := exists_trimZeros ds
  refine ⟨digitsValue (trimZeros ds), e + j, ?_, digitsValue_lt fun c hc => h c ?_⟩
  · have hvalue : digitsValue ds = digitsValue (trimZeros ds) * 10 ^ j := by
      conv_lhs => rw [hds]
      exact digitsValue_trimmed i j _
    simp only [Decimal.value, hvalue]
    rw [zpow_add₀ (by norm_num), zpow_natCast]
    push_cast
    ring
  · rw [hds]
    simp [hc]

/-! ## Plain texts -/

/-- Digits with no leading zero but for zero itself. -/
def IsWhole (ds : List Char) : Prop :=
  isDigits ds = true ∧ (ds = ['0'] ∨ ds.head? ≠ some '0')

/-- Digits, or digits around a point, with no zero too many on either side. -/
inductive IsPlain : List Char → List Char → List Char → Prop
  | whole {ds : List Char} : IsWhole ds → IsPlain ds ds []
  | pointed {ds fs : List Char} : IsWhole ds → isDigits fs = true → fs.getLast? ≠ some '0' →
      IsPlain (ds ++ '.' :: fs) ds fs

theorem IsPlain.spells {body whole fraction : List Char} (h : IsPlain body whole fraction) :
    Numeral.Spells ⟨whole, fraction, 0⟩ body := by
  refine ⟨body, [], (List.append_nil body).symm, ?_, .none⟩
  cases h with
  | whole hw => exact .whole hw.1
  | pointed hw hf => exact .pointed hw.1 (isDigits_iff.mp hf).2

theorem head?_toDigits {n : Nat} (hn : n ≠ 0) : (Nat.toDigits 10 n).head? ≠ some '0' := by
  induction n using Nat.strongRecOn with
  | ind n ih =>
    by_cases hlt : n < 10
    · rw [Nat.toDigits_of_lt_base hlt]
      simpa [Nat.digitChar_eq_zero] using hn
    · have hdiv := ih (n / 10) (by omega) (by omega)
      rw [Nat.toDigits_of_base_le (by omega) (by omega), List.head?_append_of_ne_nil _ Nat.toDigits_ne_nil]
      exact hdiv

theorem getLast?_toDigits {n : Nat} (hn : n % 10 ≠ 0) : (Nat.toDigits 10 n).getLast? ≠ some '0' := by
  by_cases hlt : n < 10
  · rw [Nat.toDigits_of_lt_base hlt]
    have : n ≠ 0 := by omega
    simpa [Nat.digitChar_eq_zero] using this
  · rw [Nat.toDigits_of_base_le (by omega) (by omega), List.getLast?_concat]
    simpa [Nat.digitChar_eq_zero] using hn

theorem isPlain_text {n : Nat} (hn : n % 10 ≠ 0) (e : Int) : ∃ whole fraction i j,
    IsPlain (Decimal.text ⟨n, e⟩) whole fraction ∧
      whole ++ fraction = List.replicate i '0' ++ (Nat.toDigits 10 n ++ List.replicate j '0') := by
  have hhead := head?_toDigits (n := n) (by omega)
  have hlast := getLast?_toDigits hn
  have hne : Nat.toDigits 10 n ≠ [] := Nat.toDigits_ne_nil
  cases e with
  | ofNat e =>
    rw [text_ofNat]
    refine ⟨_, [], 0, e, .whole ⟨isDigits_text_ofNat n e, .inr ?_⟩, by simp⟩
    rw [List.head?_append_of_ne_nil _ hne]
    exact hhead
  | negSucc e =>
    obtain ⟨whole, fraction, i, htext, hw, hf, -, hdigits, hlead⟩ := text_negSucc n e
    rw [htext]
    refine ⟨whole, fraction, i, 0, .pointed ⟨hw, ?_⟩ hf ?_, by simp [hdigits]⟩
    · -- the first digit stands before the point unless a zero does
      rcases hlead with rfl | hzero
      · rw [← List.head?_append_of_ne_nil whole (isDigits_iff.mp hw).1, hdigits]
        exact .inr hhead
      · exact .inl hzero
    · rw [← List.getLast?_append_of_ne_nil whole (isDigits_iff.mp hf).1, hdigits,
        List.getLast?_append_of_ne_nil _ hne]
      exact hlast

/-! ## Canonical texts -/

section
variable (k : Fin infinityRank)

theorem exists_plain_shortest : ∃ whole fraction, IsPlain (shortest .up k).text whole fraction ∧
    ∀ x : Numeral, isDigits (x.whole ++ x.fraction) = true → x.toDecimal.rank = k →
      (trimZeros (whole ++ fraction)).length ≤ (trimZeros (x.whole ++ x.fraction)).length := by
  by_cases hk : k.val = 0
  · -- zero has no significant digit
    refine ⟨['0'], [], ?_, fun x _ _ => Nat.zero_le _⟩
    rw [hk]
    exact .whole ⟨rfl, .inl rfl⟩
  · obtain ⟨g, n, hshortest, hc⟩ := coarsest_shortest .up k.isLt hk
    obtain ⟨whole, fraction, i, j, hplain, hdigits⟩ :=
      isPlain_text (hc.mod_ten_ne k.isLt) (gridPoint g n).exponent
    rw [hshortest]
    refine ⟨whole, fraction, hplain, fun x hx hrank => ?_⟩
    obtain ⟨m, e, hvalue, hlt⟩ := exists_trimmed_decimal (isDigits_iff.mp hx).2 (x.exponent - x.fraction.length)
    have hm : Decimal.rank ⟨m, e⟩ = k := (rank_congr hvalue (hrank ▸ k.isLt)).trans hrank
    rw [hdigits]
    exact (length_trimZeros_le i j _).trans (hc.length_le k.isLt hk hm hlt)

end

/-- `s` stands for the same double as `a`, with a minus exactly if the sign bit is set, without an exponent and
with the fewest significant digits. -/
structure IsShortest (a s : String) : Prop where
  same : readDouble? s = readDouble? a
  plain : ∃ negative rank body whole fraction, readDouble? a = some (.finite negative rank) ∧
    s.toList = cond negative ['-'] [] ++ body ∧ IsPlain body whole fraction
  fewest : ∀ b, readDouble? b = readDouble? a → significantDigits s ≤ significantDigits b

/-- **Shortest texts.** A canonical text is plain, and no text of its double has fewer significant digits. -/
theorem normalizeNumber_shortest {a s : String} (h : normalizeNumber a = .ok s) : IsShortest a s := by
  obtain ⟨negative, k, ha, rfl⟩ := normalizeNumber_eq_ok_iff.mp h
  obtain ⟨whole, fraction, hplain, hfewest⟩ := exists_plain_shortest k
  have htext : (finiteText negative k).toList = cond negative ['-'] [] ++ (shortest .up k).text := by
    rw [finiteText, String.toList_ofList]
  refine ⟨?_, ⟨negative, k, _, whole, fraction, ha, htext, hplain⟩, fun b hb => ?_⟩
  · rw [ha, readDouble?_finiteText]
  · obtain ⟨sign, body, x, hs, hx, hbody, hrank⟩ := exists_spells_of_finite (hb.trans ha)
    rw [significantDigits_eq (isSign_cond negative) hplain.spells htext, significantDigits_eq hs hx hbody]
    apply hfewest x _ hrank
    obtain ⟨m, e, -, hm, -⟩ := hx
    exact hm.digits

theorem normalizeNumber_shortest_small :
    normalizeNumber "-1.50E-7" = .ok "-0.00000015" ∧ IsShortest "-1.50E-7" "-0.00000015" := by
  have h : normalizeNumber "-1.50E-7" = .ok "-0.00000015" := by decide +kernel
  exact ⟨h, normalizeNumber_shortest h⟩

end SheetFormula
