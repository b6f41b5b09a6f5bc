import SheetFormula.Number.Canonical
import SheetFormula.Proofs.NumeralLemmas
import SheetFormula.Proofs.RoundingLemmas

/-!
# Canonical number texts are read back

A decimal's text is digits, or digits with a point inside, whose value is the decimal.
`readDouble?_finiteText`: the canonical text of a finite double denotes that double.
-/

namespace SheetFormula

/-! ## Digits -/

theorem digitsValue_eq (ds : List Char) : digitsValue ds = Nat.ofDigitChars 10 ds 0 := rfl

theorem isDigits_toDigits (n : Nat) : isDigits (Nat.toDigits 10 n) = true :=
  isDigits_iff.mpr ⟨Nat.toDigits_ne_nil, fun _ hc => Nat.isDigit_of_mem_toDigits (by omega) (by omega) hc⟩

theorem digitsValue_append_zeros (n e : Nat) :
    digitsValue (Nat.toDigits 10 n ++ List.replicate e '0') = n * 10 ^ e := by
  rw [digitsValue_eq, Nat.ofDigitChars_append, Nat.ofDigitChars_ten_toDigits,
    Nat.ofDigitChars_replicate_zero, Nat.mul_comm]

theorem digitsValue_zeros_append (n e : Nat) :
    digitsValue (List.replicate e '0' ++ Nat.toDigits 10 n) = n := by
  rw [digitsValue_eq, Nat.ofDigitChars_append, Nat.ofDigitChars_replicate_zero, Nat.mul_zero,
    Nat.ofDigitChars_ten_toDigits]

theorem isDigit_of_mem_zeros {e : Nat} {c : Char} (h : c ∈ List.replicate e '0') : c.isDigit = true := by
  rw [List.eq_of_mem_replicate h]; decide

theorem isDigits_text_ofNat (n e : Nat) : isDigits (Nat.toDigits 10 n ++ List.replicate e '0') = true :=
  isDigits_append (.inl Nat.toDigits_ne_nil) (isDigits_iff.mp (isDigits_toDigits n)).2
    fun _ => isDigit_of_mem_zeros

/-! ## The text of a decimal -/

theorem text_ofNat (n e : Nat) : Decimal.text ⟨n, .ofNat e⟩ = Nat.toDigits 10 n ++ List.replicate e '0' := rfl

/-- A negative exponent puts as many digits behind a point, and at least one before it, if need be a zero. -/
theorem text_negSucc (n e : Nat) : ∃ whole fraction i, Decimal.text ⟨n, .negSucc e⟩ = whole ++ '.' :: fraction ∧
    isDigits whole = true ∧ isDigits fraction = true ∧ fraction.length = e + 1 ∧
    whole ++ fraction = List.replicate i '0' ++ Nat.toDigits 10 n ∧ (i = 0 ∨ whole = ['0']) := by
  obtain ⟨hne, hd⟩ := isDigits_iff.mp (isDigits_toDigits n)
  simp only [Decimal.text]
  by_cases hlt : e + 1 < (Nat.toDigits 10 n).length
  · rw [if_pos hlt]
    refine ⟨_, _, 0, rfl, isDigits_iff.mpr ⟨?_, fun c hc => hd c (List.mem_of_mem_take hc)⟩,
      isDigits_iff.mpr ⟨?_, fun c hc => hd c (List.mem_of_mem_drop hc)⟩, ?_, List.take_append_drop .., .inl rfl⟩
    · simp [← List.length_eq_zero_iff]; omega
    · simp [← List.length_eq_zero_iff]; omega
    · rw [List.length_drop]; omega
  · rw [if_neg hlt]
    refine ⟨['0'], List.replicate (e + 1 - (Nat.toDigits 10 n).length) '0' ++ Nat.toDigits 10 n,
      e + 1 - (Nat.toDigits 10 n).length + 1, rfl, rfl,
      isDigits_append (.inr hne) (fun _ => isDigit_of_mem_zeros) hd, ?_, ?_, .inr rfl⟩
    · rw [List.length_append, List.length_replicate]; omega
    · rw [List.singleton_append, ← List.cons_append, ← List.replicate_succ]

theorem isNumber_text (d : Decimal) : IsNumber d.text := by
  obtain ⟨n, e⟩ := d
  cases e with
  | ofNat e =>
    have hm := @IsMantissa.whole _ [] [] (isDigits_text_ofNat n e) (.inl rfl) rfl
    have := IsNumber.intro hm (.inl rfl)
    rw [text_ofNat]
    simpa using this
  | negSucc e =>
    obtain ⟨whole, fraction, -, htext, hw, hf, -⟩ := text_negSucc n e
    have hm := IsMantissa.whole hw (.inr rfl) (List.all_eq_true.mpr (isDigits_iff.mp hf).2)
    have := IsNumber.intro hm (.inl rfl)
    rw [htext]
    simpa using this

theorem text_head (d : Decimal) : ∃ c cs, d.text = c :: cs ∧ c.isDigit = true := by
  obtain ⟨n, e⟩ := d
  have key : ∀ ds rest : List Char, isDigits ds = true → ∃ c cs, ds ++ rest = c :: cs ∧ c.isDigit = true := by
    intro ds rest h
    obtain ⟨hne, hd⟩ := isDigits_iff.mp h
    cases ds with
    | nil => exact absurd rfl hne
    | cons c ds => exact ⟨c, ds ++ rest, rfl, hd c (by simp)⟩
  cases e with
  | ofNat e => exact key _ _ (isDigits_toDigits n)
  | negSucc e =>
    obtain ⟨whole, fraction, -, htext, hw, -⟩ := text_negSucc n e
    rw [htext]; exact key _ _ hw

/-! ## Reading numerals -/

theorem parse?_digits {ds : List Char} (h : isDigits ds = true) : Numeral.parse? ds = some ⟨ds, [], 0⟩ :=
  numeral_parse?_iff.mpr ⟨ds, [], (List.append_nil ds).symm, .whole h, .none⟩

theorem parse?_pointed {whole fraction : List Char} (hw : isDigits whole = true)
    (hf : isDigits fraction = true) :
    Numeral.parse? (whole ++ '.' :: fraction) = some ⟨whole, fraction, 0⟩ :=
  numeral_parse?_iff.mpr ⟨_, [], (List.append_nil _).symm, .pointed hw (isDigits_iff.mp hf).2, .none⟩

theorem rank_shift {n e : Nat} (h : Decimal.rank ⟨n, .ofNat e⟩ < infinityRank) :
    Decimal.rank ⟨n * Nat.pow 10 e, .ofNat 0⟩ = Decimal.rank ⟨n, .ofNat e⟩ := by
  by_cases hn : n = 0
  · subst hn; rw [Nat.zero_mul, rank_ofNat, rank_ofNat, if_pos rfl, if_pos rfl]
  · have hne : n * Nat.pow 10 e ≠ 0 := Nat.mul_ne_zero hn (Nat.pos_iff_ne_zero.mp (Nat.pow_pos (by omega)))
    have hzero : n * Nat.pow 10 e * Nat.pow 10 0 = n * Nat.pow 10 e := Nat.mul_one _
    rw [rank_ofNat, if_neg hn] at h
    have he : ¬ 400 < e := fun he => Nat.lt_irrefl _ (if_pos he ▸ h)
    rw [rank_ofNat, rank_ofNat, if_neg hn, if_neg he, if_neg hne, if_neg (by omega), hzero]

theorem rank_parse?_text {d : Decimal} (h : d.rank < infinityRank) :
    ∃ x, Numeral.parse? d.text = some x ∧ x.toDecimal.rank = d.rank := by
  obtain ⟨n, e⟩ := d
  cases e with
  | ofNat e =>
    refine ⟨_, by rw [text_ofNat]; exact parse?_digits (isDigits_text_ofNat n e), ?_⟩
    have hvalue : Numeral.toDecimal ⟨Nat.toDigits 10 n ++ List.replicate e '0', [], 0⟩ =
        ⟨n * Nat.pow 10 e, .ofNat 0⟩ := by
      simp only [Numeral.toDecimal, List.append_nil, digitsValue_append_zeros]; rfl
    rw [hvalue]; exact rank_shift h
  | negSucc e =>
    obtain ⟨whole, fraction, i, htext, hw, hf, hlen, hdigits, -⟩ := text_negSucc n e
    refine ⟨_, by rw [htext]; exact parse?_pointed hw hf, ?_⟩
    have : Numeral.toDecimal ⟨whole, fraction, 0⟩ = ⟨n, .negSucc e⟩ := by
      simp only [Numeral.toDecimal, hdigits, digitsValue_zeros_append, hlen, Decimal.mk.injEq, true_and]
      omega
    rw [this]

/-! ## Reading doubles -/

theorem isSign_cond (negative : Bool) : IsSign negative (cond negative ['-'] []) := by
  cases negative with
  | true => exact .minus
  | false => exact .none

theorem toDouble_decimal {d : Decimal} {k : Fin infinityRank} (h : d.rank = k) (negative : Bool) :
    Literal.toDouble (.decimal negative d) = .finite negative k := by
  simp only [Literal.toDouble, Double.ofRank, h, k.isLt, dite_true]

/-- **Read back.** The canonical text of a finite double denotes it, sign included. -/
theorem readDouble?_finiteText (negative : Bool) (k : Fin infinityRank) :
    readDouble? (finiteText negative k) = some (.finite negative k) := by
  have hrank : (shortest .up k).rank = k := rank_shortest .up k
  obtain ⟨x, hx, hxr⟩ := rank_parse?_text (hrank ▸ k.isLt)
  obtain ⟨c, cs, htext, hc⟩ := text_head (shortest .up k)
  rw [htext] at hx
  rw [readDouble?, finiteText, String.toList_ofList, htext, literal_parse?_numeral (isSign_cond negative) (.inl hc),
    hx]
  simp only [Option.map_some]
  rw [toDouble_decimal (hxr.trans hrank)]

theorem normalizeNumber_finiteText (negative : Bool) (k : Fin infinityRank) :
    normalizeNumber (finiteText negative k) = .ok (finiteText negative k) := by
  rw [normalizeNumber, readDouble?_finiteText]

theorem normalizeNumber_ofRank {text : String} {negative : Bool} {k : Nat}
    (h : readDouble? text = some (Double.ofRank negative k)) :
    (k < infinityRank → normalizeNumber text = .ok (finiteText negative k)) ∧
      (¬ k < infinityRank → normalizeNumber text = .error .outOfRange) := by
  unfold normalizeNumber
  rw [h]
  constructor
  · intro hk
    simp only [Double.ofRank, dif_pos hk]
  · intro hk
    simp only [Double.ofRank, dif_neg hk]

theorem IsNumber.readDouble?_eq {r : List Char} (h : IsNumber r) :
    ∃ k, readDouble? (String.ofList r) = some (Double.ofRank false k) := by
  obtain ⟨x, hx⟩ := h.spells
  exact ⟨_, readDouble?_of_spells .none hx String.toList_ofList⟩

/-- A number without sign has a canonical text without sign. -/
theorem exists_finiteText {r : List Char} {s : String} (hr : IsNumber r)
    (h : normalizeNumber (String.ofList r) = .ok s) : ∃ k : Fin infinityRank, s = finiteText false k := by
  obtain ⟨k, hread⟩ := hr.readDouble?_eq
  obtain ⟨hok, herror⟩ := normalizeNumber_ofRank hread
  by_cases hk : k < infinityRank
  · rw [hok hk, Except.ok.injEq] at h
    exact ⟨⟨k, hk⟩, h.symm⟩
  · rw [herror hk] at h
    cases h

end SheetFormula
