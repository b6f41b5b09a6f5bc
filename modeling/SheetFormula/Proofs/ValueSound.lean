import SheetFormula.Proofs.LayoutSound
import SheetFormula.Proofs.ReadBack

/-!
# Canonical texts stand for doubles

A canonical text denotes the double it was made from and is made of no other, so canonical texts and finite
doubles are the same up to spelling (`normalizeNumber_canonical`). Numbers of a formula have no sign, which
makes their doubles nonnegative.
-/

namespace SheetFormula

/-! ## Words -/

namespace Double

/-- The word without its sign bit. -/
def magnitude : Double → Nat
  | .finite _ rank => rank
  | .infinite _ => infinityRank
  | .nan => infinityRank + (1 <<< 51)

theorem magnitude_nan : nan.magnitude = infinityRank + 2 ^ 51 := rfl

theorem infinityRank_eq : infinityRank = 2 ^ 63 - 2 ^ 52 := by decide +kernel

theorem magnitude_lt (x : Double) : x.magnitude < 2 ^ 63 := by
  have hinf := infinityRank_eq
  cases x with
  | finite negative rank => exact Nat.lt_trans rank.isLt (by omega)
  | infinite negative => change infinityRank < _; omega
  | nan => rw [magnitude_nan]; omega

theorem signBit_eq (negative : Bool) : cond negative (1 <<< 63) 0 = negative.toNat * 2 ^ 63 := by
  cases negative <;> decide +kernel

theorem word_eq (x : Double) : x.word = x.isNegative.toNat * 2 ^ 63 + x.magnitude := by
  cases x with
  | finite negative rank => exact congrArg (· + rank.val) (signBit_eq negative)
  | infinite negative => exact congrArg (· + infinityRank) (signBit_eq negative)
  | nan => exact (Nat.zero_add _).symm

theorem ofRank_of_lt {k : Nat} (h : k < infinityRank) (negative : Bool) :
    ofRank negative k = finite negative ⟨k, h⟩ := by
  rw [ofRank, dif_pos h]

theorem ofRank_infinityRank (negative : Bool) : ofRank negative infinityRank = infinite negative := by
  rw [ofRank, dif_neg (Nat.lt_irrefl _)]

-- the magnitude tells the three constructors apart
theorem eq_ofRank (x : Double) :
    x = if x.magnitude ≤ infinityRank then ofRank x.isNegative x.magnitude else nan := by
  cases x with
  | finite negative rank =>
    have hle : (finite negative rank).magnitude ≤ infinityRank := Nat.le_of_lt rank.isLt
    rw [if_pos hle]
    exact (ofRank_of_lt rank.isLt negative).symm
  | infinite negative =>
    have hle : (infinite negative).magnitude ≤ infinityRank := Nat.le_refl _
    rw [if_pos hle]
    exact (ofRank_infinityRank negative).symm
  | nan => rw [if_neg (by rw [magnitude_nan]; omega)]

theorem word_injective : Function.Injective word := by
  intro x y h
  have hx := x.magnitude_lt
  have hy := y.magnitude_lt
  rw [word_eq, word_eq] at h
  have hm : x.magnitude = y.magnitude := by omega
  have hs : x.isNegative = y.isNegative := by
    rw [Bool.eq_iff_iff, ← Bool.toNat_eq_one, ← Bool.toNat_eq_one]
    omega
  rw [x.eq_ofRank, y.eq_ofRank, hm, hs]

end Double

/-! ## Canonical texts -/

section
variable {a b s t : String}

theorem readDouble?_of_normalizeNumber (h : normalizeNumber a = .ok s) : readDouble? s = readDouble? a := by
  obtain ⟨negative, rank, hread, rfl⟩ := normalizeNumber_eq_ok_iff.mp h
  rw [readDouble?_finiteText, hread]

theorem normalizeNumber_of_normalizeNumber (h : normalizeNumber a = .ok s) : normalizeNumber s = .ok s := by
  obtain ⟨negative, rank, -, rfl⟩ := normalizeNumber_eq_ok_iff.mp h
  exact normalizeNumber_finiteText negative rank

theorem normalizeNumber_inj_iff (ha : normalizeNumber a = .ok s) (hb : normalizeNumber b = .ok t) :
    s = t ↔ readDouble? a = readDouble? b := by
  constructor
  · rintro rfl
    rw [← readDouble?_of_normalizeNumber ha, readDouble?_of_normalizeNumber hb]
  · intro h
    simp only [normalizeNumber, h] at ha hb
    exact Except.ok.inj (ha.symm.trans hb)

end

/-! ## Numbers of a formula -/

/-- A number without sign denotes a double without sign. -/
theorem readDouble?_of_isNumber {r s : String} (hr : IsNumber r.toList) (h : normalizeNumber r = .ok s) :
    ∃ rank, readDouble? r = some (.finite false rank) := by
  obtain ⟨rank, rfl⟩ := exists_finiteText hr (by rwa [String.ofList_toList])
  exact ⟨rank, by rw [← readDouble?_of_normalizeNumber h, readDouble?_finiteText]⟩

theorem number?_of_mem {vc : VariableCase} {source : String} {tokens : List Token}
    (h : tokenize vc source = .ok tokens) {t : Token} (ht : t ∈ tokens) (hk : t.kind = .number) :
    ∃ slice rank, t.span.slice? source = some slice ∧ readDouble? slice = some (.finite false rank) ∧
      t.number? = some (.finite false rank) := by
  obtain ⟨slice, hslice, hnumber, htext⟩ := (laid_of_tokenize h).exists_slice ht
  rw [hk] at hnumber htext
  rw [normalText?_number_eq_some_iff, String.ofList_toList] at htext
  obtain ⟨rank, hread⟩ := readDouble?_of_isNumber hnumber htext
  refine ⟨slice, rank, hslice, hread, ?_⟩
  simp only [Token.number?, hk]
  rw [readDouble?_of_normalizeNumber htext, hread]

/-- **Canonical numbers.** A canonical text denotes the double of the text it was made of and is its own
canonical text. Texts have the same one exactly if the words of their doubles are the same, and the value of
a number token is the finite double, with its sign bit clear, that its slice of the source denotes. -/
theorem normalizeNumber_canonical :
    (∀ a s, normalizeNumber a = .ok s → ∃ x, readDouble? a = some x ∧ readDouble? s = some x ∧
      normalizeNumber s = .ok s) ∧
    (∀ a b s t, normalizeNumber a = .ok s → normalizeNumber b = .ok t →
      (normalizeNumber a = normalizeNumber b ↔
        (readDouble? a).map Double.word = (readDouble? b).map Double.word)) ∧
    ∀ f : Formula, ∀ t ∈ f.tokens, t.kind = .number →
      ∃ slice rank, t.span.slice? f.source = some slice ∧ readDouble? slice = some (.finite false rank) ∧
        t.number? = some (.finite false rank) := by
  refine ⟨fun a s h => ?_, fun a b s t ha hb => ?_, fun f t ht hk => ?_⟩
  · obtain ⟨negative, rank, hread, -⟩ := normalizeNumber_eq_ok_iff.mp h
    refine ⟨_, hread, ?_, normalizeNumber_of_normalizeNumber h⟩
    rw [readDouble?_of_normalizeNumber h, hread]
  · rw [(Option.map_injective Double.word_injective).eq_iff, ← normalizeNumber_inj_iff ha hb, ha, hb,
      Except.ok.injEq]
  · obtain ⟨vc, htok⟩ := f.lexed
    exact number?_of_mem htok ht hk

-- the sign of zero is kept
theorem normalizeNumber_canonical_zero :
    (normalizeNumber "-0.00" = .ok "-0" ∧ normalizeNumber "-0" = .ok "-0" ∧ normalizeNumber "+.0e9" = .ok "0" ∧
      (readDouble? "-0.00").map Double.word ≠ (readDouble? "+.0e9").map Double.word) ∧
    ∃ f, Formula.parse .upper "x1-0.00" = .ok f ∧ f.tokens.map Token.text = ["X1", "-", "0"] ∧
      ∀ t ∈ f.tokens, t.kind = .number → ∃ rank, t.number? = some (.finite false rank) := by
  have hminus : normalizeNumber "-0.00" = .ok "-0" := by decide +kernel
  have hplus : normalizeNumber "+.0e9" = .ok "0" := by decide +kernel
  have htok : tokenize .upper "x1-0.00" = .ok
      [⟨.var, "X1", ⟨0, 2⟩⟩, ⟨.operator .sub, "-", ⟨2, 3⟩⟩, ⟨.number, "0", ⟨3, 7⟩⟩] :=
    (tokenize_eq_ok_iff ..).mpr ⟨by decide +kernel, by decide +kernel⟩
  obtain ⟨f, hf, htokens⟩ := exists_formula htok rfl
  obtain ⟨hcanonical, hsame, hnumbers⟩ := normalizeNumber_canonical
  refine ⟨⟨hminus, ?_, hplus, fun hword => ?_⟩, f, hf, by rw [htokens]; rfl, fun t ht hk => ?_⟩
  · obtain ⟨-, -, -, hstable⟩ := hcanonical _ _ hminus
    exact hstable
  · have := (hsame _ _ _ _ hminus hplus).mpr hword
    rw [hminus, hplus] at this
    exact absurd this (by decide)
  · obtain ⟨-, rank, -, -, hvalue⟩ := hnumbers f t ht hk
    exact ⟨rank, hvalue⟩

end SheetFormula
