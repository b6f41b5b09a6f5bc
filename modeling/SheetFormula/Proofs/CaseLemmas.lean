import SheetFormula.Proofs.LayoutSound
import SheetFormula.Proofs.NormalSound

/-!
# Letter case and the cut

A letter in the other case is a letter again, and the only letters that the cut and the reading of numbers
tell apart are exponent marks, in either case. `lexemes_map_toUpper`: a text in upper case is cut as it was
before. `readDouble?_upperText`: and its numbers are the same.
-/

namespace SheetFormula

/-! ## Characters -/

theorem apply_toUpper {α : Type} {p : Char → α} {a : α} (h : ∀ c : Char, c.isAlpha = true → p c = a)
    (c : Char) : p c.toUpper = p c := by
  by_cases hc : c.isAlpha = true
  · rw [h c hc, h c.toUpper (by simpa using hc)]
  · have hl : ¬ c.isLower = true := fun hl => hc (by simp [Char.isAlpha, hl])
    rw [Char.toUpper_eq_of_not_isLower hl]

theorem not_isBlank_of_isAlpha {c : Char} (h : c.isAlpha = true) : isBlank c = false :=
  not_isBlank_of_not_isSeparator (not_isSeparator_of_isAlpha h)

@[simp] theorem isBlank_toUpper (c : Char) : isBlank c.toUpper = isBlank c :=
  apply_toUpper (fun _ => not_isBlank_of_isAlpha) c

@[simp] theorem isSeparator_toUpper (c : Char) : isSeparator c.toUpper = isSeparator c :=
  apply_toUpper (fun _ => not_isSeparator_of_isAlpha) c

@[simp] theorem markKind?_toUpper (c : Char) : markKind? c.toUpper = markKind? c := by
  refine apply_toUpper (a := none) (fun d hd => ?_) c
  have hs := not_isSeparator_of_isAlpha hd
  simp only [isSeparator, Bool.or_eq_false_iff, Option.isSome_eq_false_iff, Option.isNone_iff_eq_none] at hs
  exact hs.2

@[simp] theorem isDigit_toUpper (c : Char) : c.toUpper.isDigit = c.isDigit := by
  refine apply_toUpper (p := Char.isDigit) (a := false) (fun d hd => ?_) c
  by_cases h : d.isDigit = true
  · rw [not_isAlpha_of_isDigit h] at hd; cases hd
  · simpa using h

theorem toUpper_eq_iff {c d : Char} (hd : d.isAlpha = false) : c.toUpper = d ↔ c = d := by
  have hne : ∀ e : Char, e.isAlpha = true → (e == d) = false := by
    intro e he
    rw [beq_eq_false_iff_ne]
    rintro rfl
    rw [hd] at he; cases he
  have := apply_toUpper hne c
  rw [Bool.eq_iff_iff, beq_iff_eq, beq_iff_eq] at this
  exact this

@[simp] theorem utf8Size_toUpper (c : Char) : c.toUpper.utf8Size = c.utf8Size := by
  refine apply_toUpper (p := Char.utf8Size) (a := 1) (fun d hd => ?_) c
  have := isAlpha_range.mp hd
  rw [Char.utf8Size_eq_one_iff, UInt32.le_iff_toNat_le]
  change d.toNat ≤ 127
  omega

theorem isExponentMark_iff (c : Char) : isExponentMark c = true ↔ c.toUpper = 'E' := by
  constructor
  · intro h
    simp only [isExponentMark, Bool.or_eq_true, beq_iff_eq] at h
    rcases h with rfl | rfl <;> decide
  · intro h
    by_cases hl : c.isLower = true
    · have hc : c = 'e' := by
        rw [← Char.toLower_eq_of_not_isUpper (Char.not_isUpper_of_isLower hl),
          ← Char.toLower_toUpper_eq_toLower, h]
        decide
      simp [isExponentMark, hc]
    · rw [Char.toUpper_eq_of_not_isLower hl] at h
      simp [isExponentMark, h]

@[simp] theorem isExponentMark_toUpper (c : Char) : isExponentMark c.toUpper = isExponentMark c := by
  rw [Bool.eq_iff_iff, isExponentMark_iff, isExponentMark_iff, Char.toUpper_toUpper_eq_toUpper]

@[simp] theorem byteLength_map_toUpper (cs : List Char) : byteLength (cs.map Char.toUpper) = byteLength cs := by
  induction cs with
  | nil => rfl
  | cons c cs ih => simp [ih]

/-! ## The cut -/

theorem takeWhile_map_toUpper {p : Char → Bool} (hp : ∀ c : Char, p c.toUpper = p c) (cs : List Char) :
    (cs.map Char.toUpper).takeWhile p = (cs.takeWhile p).map Char.toUpper := by
  rw [List.takeWhile_map]
  simp [Function.comp_def, hp]

theorem dropWhile_map_toUpper {p : Char → Bool} (hp : ∀ c : Char, p c.toUpper = p c) (cs : List Char) :
    (cs.map Char.toUpper).dropWhile p = (cs.dropWhile p).map Char.toUpper := by
  rw [List.dropWhile_map]
  simp [Function.comp_def, hp]

@[simp] theorem digitsLength_map_toUpper (cs : List Char) :
    digitsLength (cs.map Char.toUpper) = digitsLength cs := by
  simp [digitsLength, takeWhile_map_toUpper]

@[simp] theorem runLength_map_toUpper (cs : List Char) : runLength (cs.map Char.toUpper) = runLength cs := by
  simp [runLength, takeWhile_map_toUpper]

theorem map_toUpper_eq_point_iff {cs rest : List Char} :
    cs.map Char.toUpper = '.' :: rest ↔ ∃ rest', cs = '.' :: rest' ∧ rest'.map Char.toUpper = rest := by
  cases cs with
  | nil => simp
  | cons c cs => simp [toUpper_eq_iff (show '.'.isAlpha = false by decide)]

@[simp] theorem mantissaLength_map_toUpper (cs : List Char) :
    mantissaLength (cs.map Char.toUpper) = mantissaLength cs := by
  by_cases h : ∃ rest, cs.drop (digitsLength cs) = '.' :: rest
  · obtain ⟨rest, hrest⟩ := h
    have hmap : (cs.map Char.toUpper).drop (digitsLength (cs.map Char.toUpper)) =
        '.' :: rest.map Char.toUpper := by
      rw [digitsLength_map_toUpper, ← List.map_drop, hrest, List.map_cons]
      rfl
    rw [mantissaLength_pointed hrest, mantissaLength_pointed hmap]
    simp
  · have hmap : ∀ rest, (cs.map Char.toUpper).drop (digitsLength (cs.map Char.toUpper)) ≠ '.' :: rest := by
      intro rest hrest
      rw [digitsLength_map_toUpper, ← List.map_drop, map_toUpper_eq_point_iff] at hrest
      obtain ⟨rest', hrest', _⟩ := hrest
      exact h ⟨rest', hrest'⟩
    rw [mantissaLength_whole hmap, mantissaLength_whole fun rest hrest => h ⟨rest, hrest⟩]
    simp

@[simp] theorem signLength_map_toUpper (cs : List Char) : signLength (cs.map Char.toUpper) = signLength cs := by
  cases cs with
  | nil => rfl
  | cons c cs =>
    by_cases hp : c = '+'
    · subst hp; rfl
    by_cases hm : c = '-'
    · subst hm; rfl
    have hp' : ¬ c.toUpper = '+' := fun h => hp ((toUpper_eq_iff (by decide)).mp h)
    have hm' : ¬ c.toUpper = '-' := fun h => hm ((toUpper_eq_iff (by decide)).mp h)
    simp [signLength, hp, hm, hp', hm']

@[simp] theorem exponentLength_map_toUpper (cs : List Char) :
    exponentLength (cs.map Char.toUpper) = exponentLength cs := by
  cases cs with
  | nil => rfl
  | cons c cs =>
    have hmark : ∀ d : Char, (d = 'e' ∨ d = 'E') ↔ isExponentMark d = true := by simp [isExponentMark]
    simp [exponentLength, hmark, ← List.map_drop]

@[simp] theorem numberLength_map_toUpper (cs : List Char) :
    numberLength (cs.map Char.toUpper) = numberLength cs := by
  simp [numberLength_eq, ← List.map_drop]

@[simp] theorem isVariable_map_toUpper (cs : List Char) : isVariable (cs.map Char.toUpper) = isVariable cs := by
  simp [isVariable, takeWhile_map_toUpper, dropWhile_map_toUpper, Function.comp_def]

theorem firstShape_toUpper (c : Char) (cs : List Char) :
    firstShape c.toUpper (cs.map Char.toUpper) = firstShape c cs := by
  rcases separator_cases c with h | ⟨k, h⟩ | h
  · rw [firstShape_blank h, firstShape_blank (by simpa using h)]
  · rw [firstShape_mark h, firstShape_mark (k := k) (by simpa using h)]
  · have hnumber := numberLength_map_toUpper (c :: cs)
    have hname := isVariable_map_toUpper (c :: cs.take (runLength cs))
    rw [List.map_cons] at hnumber hname
    rw [firstShape_run h, firstShape_run (by simpa using h), runLength_map_toUpper, hnumber, ← List.map_take,
      hname]

def Lexeme.upper (l : Lexeme) : Lexeme :=
  ⟨l.shape, l.text.map Char.toUpper⟩

theorem lexemes_map_toUpper (cs : List Char) :
    lexemes (cs.map Char.toUpper) = (lexemes cs).map Lexeme.upper := by
  fun_induction lexemes cs with
  | case1 => simp [lexemes]
  | case2 c cs first ih =>
    rw [List.map_cons, lexemes_cons, firstShape_toUpper, ← List.map_take, ← List.map_drop, ih]
    rfl

/-! ## Numbers -/

theorem map_toUpper_of_isDigits {ds : List Char} (h : isDigits ds = true) : ds.map Char.toUpper = ds := by
  conv_rhs => rw [← List.map_id ds]
  apply List.map_congr_left
  intro c hc
  exact toUpper_of_isDigit ((isDigits_iff.mp h).2 c hc)

@[simp] theorem isDigits_map_toUpper (cs : List Char) : isDigits (cs.map Char.toUpper) = isDigits cs := by
  simp [isDigits, Function.comp_def]

theorem splitSign_map_toUpper (cs : List Char) :
    splitSign (cs.map Char.toUpper) = ((splitSign cs).1, (splitSign cs).2.map Char.toUpper) := by
  cases cs with
  | nil => rfl
  | cons c cs =>
    by_cases hp : c = '+'
    · subst hp; rfl
    by_cases hm : c = '-'
    · subst hm; rfl
    have hp' : ¬ c.toUpper = '+' := fun h => hp ((toUpper_eq_iff (by decide)).mp h)
    have hm' : ¬ c.toUpper = '-' := fun h => hm ((toUpper_eq_iff (by decide)).mp h)
    simp [splitSign, hp, hm, hp', hm']

theorem exponent?_map_toUpper (cs : List Char) : exponent? (cs.map Char.toUpper) = exponent? cs := by
  cases cs with
  | nil => rfl
  | cons c cs =>
    simp only [List.map_cons, exponent?, splitSign_map_toUpper, isDigits_map_toUpper]
    by_cases h : isDigits (splitSign cs).2 = true
    · rw [map_toUpper_of_isDigits h]
    · simp [h]

theorem numeral_map_toUpper (cs : List Char) : Numeral.parse? (cs.map Char.toUpper) = Numeral.parse? cs := by
  have hpoint : ∀ c : Char, (c.toUpper != '.') = (c != '.') := by
    intro c
    rw [Bool.eq_iff_iff]
    simp [toUpper_eq_iff (show '.'.isAlpha = false by decide)]
  have hmark : ∀ c : Char, (!isExponentMark c.toUpper) = !isExponentMark c := by simp
  simp only [Numeral.parse?, takeWhile_map_toUpper (p := fun c => !isExponentMark c) hmark,
    dropWhile_map_toUpper (p := fun c => !isExponentMark c) hmark,
    takeWhile_map_toUpper (p := fun c => c != '.') hpoint,
    dropWhile_map_toUpper (p := fun c => c != '.') hpoint, ← List.map_drop, ← List.map_append,
    isDigits_map_toUpper, exponent?_map_toUpper]
  -- what is left of the text in a numeral is digits, which have no case
  split
  · rename_i h
    have hdigits := map_toUpper_of_isDigits h
    rw [List.map_append] at hdigits
    obtain ⟨hw, hf⟩ := List.append_inj hdigits (by simp)
    rw [hw, hf]
  · rfl

theorem readDouble?_upperText (text : String) : readDouble? (upperText text) = readDouble? text := by
  have hlower : ∀ cs : List Char, (cs.map Char.toUpper).map Char.toLower = cs.map Char.toLower := by
    intro cs; simp [Function.comp_def]
  rw [readDouble?, readDouble?, toList_upperText]
  simp only [Literal.parse?, splitSign_map_toUpper, hlower, numeral_map_toUpper]

theorem normalizeNumber_upperText (text : String) :
    normalizeNumber (upperText text) = normalizeNumber text := by
  simp only [normalizeNumber, readDouble?_upperText]

/-! ## Token texts -/

theorem mem_text {d : Decimal} {c : Char} (h : c ∈ d.text) : c.isDigit = true ∨ c = '.' := by
  obtain ⟨n, e⟩ := d
  cases e with
  | ofNat e =>
    rw [text_ofNat] at h
    exact .inl ((isDigits_iff.mp (isDigits_text_ofNat n e)).2 c h)
  | negSucc e =>
    obtain ⟨whole, fraction, -, htext, hw, hf, -⟩ := text_negSucc n e
    rw [htext] at h
    simp only [List.mem_append, List.mem_cons] at h
    rcases h with h | h | h
    · exact .inl ((isDigits_iff.mp hw).2 c h)
    · exact .inr h
    · exact .inl ((isDigits_iff.mp hf).2 c h)

theorem toUpper_of_mark {c : Char} {k : Kind} (h : markKind? c = some k) : c.toUpper = c := by
  apply Char.toUpper_eq_of_not_isLower
  intro hl
  have hs := not_isSeparator_of_isAlpha (c := c) (by simp [Char.isAlpha, hl])
  rw [isSeparator_of_mark h] at hs; cases hs

theorem upperText_eq_self_iff {text : String} :
    upperText text = text ↔ ∀ c ∈ text.toList, c.isLower = false := by
  rw [← String.toList_inj, toList_upperText]
  conv_lhs => rhs; rw [← List.map_id text.toList]
  rw [List.map_inj_left]
  refine forall₂_congr fun c _ => ⟨fun h => ?_, fun h => ?_⟩
  · rw [← show c.toUpper = c from h]; exact Char.isLower_toUpper_eq_false c
  · exact Char.toUpper_eq_of_not_isLower (by simp [h])

/-- Only the names of variables have letters in them. -/
theorem upperText_normalText {vc : VariableCase} {k : Kind} {r : List Char} {s : String} (hr : k.IsLexeme r)
    (h : k.normalText? vc r = some s) (hk : k ≠ .var) : upperText s = s := by
  by_cases hatom : k.isAtom = true
  · have hnumber : k = .number := by
      cases k <;> simp_all [Kind.isAtom]
    subst hnumber
    obtain ⟨rank, rfl⟩ := exists_finiteText hr (normalText?_number_eq_some_iff.mp h)
    rw [upperText_eq_self_iff]
    intro c hc
    have hmem : c ∈ (shortest .up rank).text := by simpa [finiteText] using hc
    rcases mem_text hmem with hd | rfl
    · have := not_isAlpha_of_isDigit hd
      simp only [Char.isAlpha, Bool.or_eq_false_iff] at this
      exact this.2
    · decide
  · obtain ⟨-, c, hc, rfl⟩ := hr.mark (by simpa using hatom)
    have hs : s = String.ofList [c] := by
      cases k <;> simp_all [Kind.normalText?, Kind.isAtom]
    rw [hs, ← String.toList_inj, toList_upperText, String.toList_ofList]
    simp [toUpper_of_mark hc]

theorem recase_upper {vc : VariableCase} {k : Kind} {r : List Char} {s : String} (hr : k.IsLexeme r)
    (h : k.normalText? vc r = some s) : k.recase .upper s = upperText s := by
  by_cases hk : k = .var
  · subst hk; rfl
  · rw [upperText_normalText hr h hk]
    cases k <;> first | rfl | exact absurd rfl hk

theorem normalized_eq_upperText {f g : Formula}
    (h : f.tokens.map Token.text = g.tokens.map fun t => upperText t.text) :
    f.normalized = upperText g.normalized := by
  have htexts : ∀ e : Formula, e.normalized.toList = (e.tokens.map Token.text).flatMap String.toList := by
    intro e
    rw [toList_normalized, List.flatMap_map]
  rw [← String.toList_inj, toList_upperText, htexts f, h, toList_normalized]
  simp [List.flatMap_map, List.map_flatMap, toList_upperText]

end SheetFormula
