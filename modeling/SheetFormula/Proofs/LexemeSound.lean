import SheetFormula.Proofs.PatternLemmas

/-!
# The cut into lexemes

`lexemes_matches` and `flatMap_text_lexemes`: every lexeme matches the pattern of its shape, and together
they are the text. `lexemes_append`: a match of a token's pattern is cut off as it stands if a separator
or nothing follows it, and a mark whatever follows it.
-/

namespace SheetFormula

def Shape.Matches : Shape → List Char → Prop
  | .blank, cs => ∃ c, isBlank c = true ∧ cs = [c]
  | .mark k, cs => ∃ c, markKind? c = some k ∧ cs = [c]
  | .number, cs => IsNumber cs
  | .var, cs => IsName cs
  | .unknown, cs => cs ≠ [] ∧ ∀ c ∈ cs, isSeparator c = false

/-! ## Names -/

theorem not_isAlpha_of_isDigit {c : Char} (h : c.isDigit = true) : c.isAlpha = false := by
  have : 48 ≤ c.toNat ∧ c.toNat ≤ 57 := Char.isDigit_iff_toNat.mp h
  refine Bool.eq_false_iff.mpr fun ha => ?_
  have := isAlpha_range.mp ha
  omega

theorem isVariable_iff {cs : List Char} : isVariable cs = true ↔ IsName cs := by
  constructor
  · intro h
    simp only [isVariable, Bool.and_eq_true, Bool.not_eq_true', List.isEmpty_eq_false_iff] at h
    have := IsName.intro h.1.1 List.all_takeWhile (isDigits_iff.mpr ⟨h.1.2, List.all_eq_true.mp h.2⟩)
    rwa [List.takeWhile_append_dropWhile] at this
  · intro h
    cases h with
    | @intro letters ds hne hl hd =>
      obtain ⟨hne', hd'⟩ := isDigits_iff.mp hd
      have hhead : ds.takeWhile Char.isAlpha = [] ∧ ds.dropWhile Char.isAlpha = ds := by
        cases ds with
        | nil => exact absurd rfl hne'
        | cons d ds => simp [not_isAlpha_of_isDigit (hd' d (by simp))]
      rw [List.all_eq_true] at hl
      simp only [isVariable, List.takeWhile_append_of_pos hl, List.dropWhile_append_of_pos hl, hhead]
      simp only [isDigits, Bool.and_eq_true] at hd
      simp [hne, hne', hd.2]

theorem IsName.mem {cs : List Char} (h : IsName cs) : ∀ c ∈ cs, c.isAlpha = true ∨ c.isDigit = true := by
  intro c hc
  cases h with
  | intro _ hl hd =>
    rcases List.mem_append.mp hc with hc | hc
    · exact .inl (List.all_eq_true.mp hl c hc)
    · exact .inr ((isDigits_iff.mp hd).2 c hc)

theorem IsName.head {cs : List Char} (h : IsName cs) : ∃ c cs', cs = c :: cs' ∧ c.isAlpha = true := by
  cases h with
  | @intro letters ds hne hl _ =>
    cases letters with
    | nil => exact absurd rfl hne
    | cons c letters => exact ⟨c, letters ++ ds, rfl, List.all_eq_true.mp hl c (by simp)⟩

theorem IsName.not_isSeparator {cs : List Char} (h : IsName cs) : ∀ c ∈ cs, isSeparator c = false := by
  intro c hc
  rcases h.mem c hc with h' | h'
  · exact not_isSeparator_of_isAlpha h'
  · exact not_isSeparator_of_isDigit h'

/-! ## The first lexeme -/

/-- How many characters come before the next separator. -/
def runLength (cs : List Char) : Nat :=
  (cs.takeWhile fun d => !isSeparator d).length

theorem firstShape_blank {c : Char} (h : isBlank c = true) (cs : List Char) :
    firstShape c cs = (.blank, 0) := by
  simp [firstShape, h]

theorem firstShape_mark {c : Char} {k : Kind} (h : markKind? c = some k) (cs : List Char) :
    firstShape c cs = (.mark k, 0) := by
  simp [firstShape, not_isBlank_of_mark h, h]

theorem firstShape_run {c : Char} (h : isSeparator c = false) (cs : List Char) :
    firstShape c cs = if runLength cs < numberLength (c :: cs) then (.number, numberLength (c :: cs) - 1)
      else if isVariable (c :: cs.take (runLength cs)) then (.var, runLength cs)
      else (.unknown, runLength cs) := by
  simp only [isSeparator, Bool.or_eq_false_iff, Option.isSome_eq_false_iff, Option.isNone_iff_eq_none] at h
  simp only [firstShape, h.1, h.2, Bool.false_eq_true, ite_false]
  rfl

theorem separator_cases (c : Char) :
    isBlank c = true ∨ (∃ k, markKind? c = some k) ∨ isSeparator c = false := by
  cases hb : isBlank c with
  | true => exact .inl rfl
  | false =>
    cases hm : markKind? c with
    | some k => exact .inr (.inl ⟨k, rfl⟩)
    | none => exact .inr (.inr (by simp [isSeparator, hb, hm]))

theorem take_runLength (cs : List Char) : cs.take (runLength cs) = cs.takeWhile fun d => !isSeparator d :=
  (List.prefix_iff_eq_take.mp (List.takeWhile_prefix _)).symm

theorem firstShape_matches (c : Char) (cs : List Char) :
    (firstShape c cs).1.Matches (c :: cs.take (firstShape c cs).2) := by
  rcases separator_cases c with h | ⟨k, h⟩ | h
  · rw [firstShape_blank h]; exact ⟨c, h, rfl⟩
  · rw [firstShape_mark h]; exact ⟨c, h, rfl⟩
  · rw [firstShape_run h]
    split
    · rename_i hlt
      exact isNumber_cons_take (by omega)
    · split
      · rename_i hv; exact isVariable_iff.mp hv
      · refine ⟨by simp, fun d hd => ?_⟩
        rcases List.mem_cons.mp hd with rfl | hd
        · exact h
        · simp only [take_runLength] at hd
          simpa using List.mem_takeWhile_imp hd

/-! ## All lexemes -/

theorem lexemes_cons (c : Char) (cs : List Char) : lexemes (c :: cs) =
    ⟨(firstShape c cs).1, c :: cs.take (firstShape c cs).2⟩ :: lexemes (cs.drop (firstShape c cs).2) := by
  rw [lexemes]

theorem lexemes_matches (cs : List Char) : ∀ l ∈ lexemes cs, l.shape.Matches l.text := by
  fun_induction lexemes cs with
  | case1 => simp
  | case2 c cs first ih =>
    intro l hl
    rcases List.mem_cons.mp hl with rfl | hl
    · exact firstShape_matches c cs
    · exact ih l hl

theorem flatMap_text_lexemes (cs : List Char) : (lexemes cs).flatMap Lexeme.text = cs := by
  fun_induction lexemes cs with
  | case1 => rfl
  | case2 c cs first ih => rw [List.flatMap_cons, ih]; simp

/-! ## Cutting off a match -/

theorem lexemes_blank {c : Char} (h : isBlank c = true) (rest : List Char) :
    lexemes (c :: rest) = ⟨.blank, [c]⟩ :: lexemes rest := by
  rw [lexemes_cons, firstShape_blank h]; rfl

theorem lexemes_mark {c : Char} {k : Kind} (h : markKind? c = some k) (rest : List Char) :
    lexemes (c :: rest) = ⟨.mark k, [c]⟩ :: lexemes rest := by
  rw [lexemes_cons, firstShape_mark h]; rfl

theorem runLength_append_le {rest : List Char} (hr : StartsSeparated rest) (cs : List Char) :
    runLength (cs ++ rest) ≤ cs.length := by
  have hrest : rest.takeWhile (fun d => !isSeparator d) = [] := by
    cases rest with
    | nil => rfl
    | cons c rest => simp [hr c rfl]
  rw [runLength, List.takeWhile_append]
  split
  · rw [hrest]; simp
  · exact (List.takeWhile_prefix _).length_le

theorem le_runLength {cs : List Char} (h : ∀ c ∈ cs, isSeparator c = false) (rest : List Char) :
    cs.length ≤ runLength (cs ++ rest) := by
  rw [runLength, List.takeWhile_append_of_pos (by simpa using h), List.length_append]
  exact Nat.le_add_right ..

theorem runLength_append_eq {cs rest : List Char} (hr : StartsSeparated rest)
    (h : ∀ c ∈ cs, isSeparator c = false) : runLength (cs ++ rest) = cs.length :=
  Nat.le_antisymm (runLength_append_le hr cs) (le_runLength h rest)

theorem lexemes_number {r rest : List Char} (h : IsNumber r) (hr : StartsSeparated rest) :
    lexemes (r ++ rest) = ⟨.number, r⟩ :: lexemes rest := by
  have hlen := h.numberLength_append hr
  obtain ⟨c, cs, rfl, hc⟩ := h.head
  have hsep : isSeparator c = false := by
    rcases hc with hc | rfl
    · exact not_isSeparator_of_isDigit hc
    · decide
  have hrun := runLength_append_le hr cs
  rw [List.cons_append, List.length_cons] at hlen
  have hfirst : firstShape c (cs ++ rest) = (.number, cs.length) := by
    rw [firstShape_run hsep, hlen, if_pos (by omega), Nat.add_sub_cancel]
  rw [List.cons_append, lexemes_cons, hfirst, List.take_left, List.drop_left]

theorem numberLength_of_isAlpha {c : Char} (h : c.isAlpha = true) (cs : List Char) :
    numberLength (c :: cs) = 0 := by
  refine Classical.byContradiction fun hne => ?_
  obtain ⟨d, ds, heq, hd⟩ := (isNumber_cons_take hne).head
  cases heq
  rcases hd with hd | rfl
  · rw [not_isAlpha_of_isDigit hd] at h; cases h
  · exact absurd h (by decide)

theorem lexemes_name {r rest : List Char} (h : IsName r) (hr : StartsSeparated rest) :
    lexemes (r ++ rest) = ⟨.var, r⟩ :: lexemes rest := by
  have hsep := h.not_isSeparator
  obtain ⟨c, cs, rfl, hc⟩ := h.head
  have hrun := runLength_append_eq hr fun d hd => hsep d (List.mem_cons_of_mem _ hd)
  have hfirst : firstShape c (cs ++ rest) = (.var, cs.length) := by
    rw [firstShape_run (hsep c (by simp)), numberLength_of_isAlpha hc, if_neg (Nat.not_lt_zero _), hrun,
      List.take_left, if_pos (isVariable_iff.mpr h)]
  rw [List.cons_append, lexemes_cons, hfirst, List.take_left, List.drop_left]

/-! ## Lexemes of a kind -/

def Kind.IsLexeme : Kind → List Char → Prop
  | .number, r => IsNumber r
  | .var, r => IsName r
  | .operator op, r => r = [op.char]
  | .openParen, r => r = ['(']
  | .closeParen, r => r = [')']

def Kind.shape : Kind → Shape
  | .number => .number
  | .var => .var
  | k => .mark k

/-- Numbers and variables are the kinds whose lexemes do not end by themselves. -/
def Kind.isAtom : Kind → Bool
  | .number | .var => true
  | _ => false

theorem Operator.markKind?_char (op : Operator) : markKind? op.char = some (.operator op) := by
  cases op <;> rfl

theorem Kind.IsLexeme.mark {k : Kind} {r : List Char} (h : k.IsLexeme r) (hk : k.isAtom = false) :
    k.shape = .mark k ∧ ∃ c, markKind? c = some k ∧ r = [c] := by
  cases k with
  | number => cases hk
  | var => cases hk
  | operator op => exact ⟨rfl, op.char, op.markKind?_char, h⟩
  | openParen => exact ⟨rfl, '(', rfl, h⟩
  | closeParen => exact ⟨rfl, ')', rfl, h⟩

theorem isLexeme_of_markKind? {c : Char} {k : Kind} (h : markKind? c = some k) :
    k.IsLexeme [c] ∧ k.shape = .mark k ∧ k.isAtom = false := by
  rcases markKind?_eq_some_iff.mp h with ⟨rfl, rfl⟩ | ⟨rfl, rfl⟩ | ⟨rfl, rfl⟩ | ⟨rfl, rfl⟩ | ⟨rfl, rfl⟩ |
    ⟨rfl, rfl⟩ <;> exact ⟨rfl, rfl, rfl⟩

/-- A lexeme is cut off as it stands; one of a number or variable needs a separator or nothing next. -/
theorem lexemes_append {k : Kind} {r rest : List Char} (h : k.IsLexeme r)
    (hr : k.isAtom = true → StartsSeparated rest) :
    lexemes (r ++ rest) = ⟨k.shape, r⟩ :: lexemes rest := by
  cases hk : k.isAtom with
  | true =>
    cases k with
    | number => exact lexemes_number h (hr rfl)
    | var => exact lexemes_name h (hr rfl)
    | operator _ => cases hk
    | openParen => cases hk
    | closeParen => cases hk
  | false =>
    obtain ⟨hs, c, hc, rfl⟩ := h.mark hk
    rw [hs]; exact lexemes_mark hc rest

end SheetFormula
