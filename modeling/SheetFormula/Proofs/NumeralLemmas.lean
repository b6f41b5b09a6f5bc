import SheetFormula.Proofs.PatternLemmas

/-!
# The grammar of number texts

A numeral is a mantissa and an exponent that may be missing; `Numeral.Spells` says so without reference to the
reader. `numeral_parse?_iff`: the reader finds exactly the digits and the exponent that are spelled.
`literal_parse?_eq_none_iff`: what is neither a numeral nor one of the words, with a sign or without, is no
number text.
-/

namespace SheetFormula

/-! ## Digits -/

theorem isDigits_append {a b : List Char} (hne : a ≠ [] ∨ b ≠ []) (ha : ∀ c ∈ a, c.isDigit = true)
    (hb : ∀ c ∈ b, c.isDigit = true) : isDigits (a ++ b) = true := by
  refine isDigits_iff.mpr ⟨fun hnil => ?_, fun c hc => ?_⟩
  · obtain ⟨rfl, rfl⟩ := List.append_eq_nil_iff.mp hnil
    rcases hne with h | h <;> exact h rfl
  · rcases List.mem_append.mp hc with hc | hc
    · exact ha c hc
    · exact hb c hc

theorem not_isExponentMark_of_isDigit {c : Char} (h : c.isDigit = true) : isExponentMark c = false := by
  refine Bool.eq_false_iff.mpr fun hm => ?_
  simp only [isExponentMark, Bool.or_eq_true, beq_iff_eq] at hm
  rcases hm with rfl | rfl <;> exact absurd h (by decide)

theorem ne_point_of_isDigit {c : Char} (h : c.isDigit = true) : c ≠ '.' := by
  rintro rfl; exact absurd h (by decide)

/-! ## Signs -/

/-- A sign or none, true for a minus. -/
inductive IsSign : Bool → List Char → Prop
  | none : IsSign false []
  | plus : IsSign false ['+']
  | minus : IsSign true ['-']

theorem splitSign_append {negative : Bool} {sign body : List Char} (hs : IsSign negative sign)
    (hb : ∀ c ∈ body.head?, c ≠ '+' ∧ c ≠ '-') : splitSign (sign ++ body) = (negative, body) := by
  cases hs with
  | none =>
    cases body with
    | nil => rfl
    | cons c body =>
      have hc := hb c rfl
      simp [splitSign, hc]
  | plus => rfl
  | minus => rfl

theorem exists_isSign (cs : List Char) : ∃ sign, IsSign (splitSign cs).1 sign ∧ cs = sign ++ (splitSign cs).2 := by
  unfold splitSign
  split
  · exact ⟨_, .plus, rfl⟩
  · exact ⟨_, .minus, rfl⟩
  · exact ⟨_, .none, rfl⟩

theorem unsigned_of_isDigit {c : Char} (h : c.isDigit = true ∨ c = '.') : c ≠ '+' ∧ c ≠ '-' := by
  constructor <;> rintro rfl <;> exact absurd h (by decide)

/-! ## Numerals -/

/-- A mantissa with the digits before and after its point. -/
inductive IsParted : List Char → List Char → List Char → Prop
  | whole {ds : List Char} : isDigits ds = true → IsParted ds ds []
  | pointed {ds fs : List Char} : isDigits ds = true → (∀ c ∈ fs, c.isDigit = true) →
      IsParted (ds ++ '.' :: fs) ds fs
  | fraction {fs : List Char} : isDigits fs = true → IsParted ('.' :: fs) [] fs

/-- An exponent, or none for 0. -/
inductive IsScale : List Char → Int → Prop
  | none : IsScale [] 0
  | intro {mark : Char} {negative : Bool} {sign ds : List Char} : mark = 'e' ∨ mark = 'E' →
      IsSign negative sign → isDigits ds = true →
      IsScale (mark :: sign ++ ds) (if negative then -(digitsValue ds : Int) else digitsValue ds)

def Numeral.Spells (x : Numeral) (cs : List Char) : Prop :=
  ∃ m e, cs = m ++ e ∧ IsParted m x.whole x.fraction ∧ IsScale e x.exponent

section
variable {m whole fraction : List Char}

theorem IsParted.mem (h : IsParted m whole fraction) : ∀ c ∈ m, c.isDigit = true ∨ c = '.' := by
  intro c hc
  cases h with
  | whole hd => exact .inl ((isDigits_iff.mp hd).2 c hc)
  | pointed hd hf =>
    rcases List.mem_append.mp hc with hc | hc
    · exact .inl ((isDigits_iff.mp hd).2 c hc)
    · rcases List.mem_cons.mp hc with rfl | hc
      · exact .inr rfl
      · exact .inl (hf c hc)
  | fraction hf =>
    rcases List.mem_cons.mp hc with rfl | hc
    · exact .inr rfl
    · exact .inl ((isDigits_iff.mp hf).2 c hc)

theorem IsParted.digits (h : IsParted m whole fraction) : isDigits (whole ++ fraction) = true := by
  cases h with
  | whole hd => rw [List.append_nil]; exact hd
  | pointed hd hf => exact isDigits_append (.inl (isDigits_iff.mp hd).1) (isDigits_iff.mp hd).2 hf
  | fraction hf => exact hf

theorem IsParted.takeWhile_eq (h : IsParted m whole fraction) :
    m.takeWhile (· != '.') = whole ∧ (m.dropWhile (· != '.')).drop 1 = fraction := by
  have hpoint : ∀ {ds : List Char}, isDigits ds = true → ∀ c ∈ ds, (c != '.') = true := by
    intro ds hd c hc
    simpa using ne_point_of_isDigit ((isDigits_iff.mp hd).2 c hc)
  cases h with
  | whole hd =>
    rw [List.takeWhile_eq_self_iff.mpr (hpoint hd), List.dropWhile_eq_nil_iff.mpr (hpoint hd)]
    exact ⟨rfl, rfl⟩
  | pointed hd hf =>
    rw [List.takeWhile_append_of_pos (hpoint hd), List.dropWhile_append_of_pos (hpoint hd)]
    simp
  | fraction hf => simp

-- the point, if there is one, stands where the digits before it end
theorem isParted_of_isDigits (h : isDigits (m.takeWhile (· != '.') ++ (m.dropWhile (· != '.')).drop 1) = true) :
    IsParted m (m.takeWhile (· != '.')) ((m.dropWhile (· != '.')).drop 1) := by
  have hsplit : m.takeWhile (· != '.') ++ m.dropWhile (· != '.') = m := List.takeWhile_append_dropWhile
  have hhead := List.head?_dropWhile_not (· != '.') m
  generalize m.takeWhile (· != '.') = whole at *
  generalize m.dropWhile (· != '.') = rest at *
  subst hsplit
  cases rest with
  | nil =>
    rw [List.drop_nil, List.append_nil] at h ⊢
    exact .whole h
  | cons c fs =>
    simp only [List.head?_cons, bne_eq_false_iff_eq] at hhead
    subst hhead
    rw [List.drop_succ_cons, List.drop_zero] at h ⊢
    obtain ⟨-, hd⟩ := isDigits_iff.mp h
    by_cases hw : whole = []
    · subst hw
      exact .fraction h
    · refine .pointed (isDigits_iff.mpr ⟨hw, fun c hc => ?_⟩) fun c hc => ?_
      · exact hd c (List.mem_append_left _ hc)
      · exact hd c (List.mem_append_right _ hc)

end

theorem IsScale.head {e : List Char} {x : Int} (h : IsScale e x) : ∀ c ∈ e.head?, isExponentMark c = true := by
  intro c hc
  cases h with
  | none => cases hc
  | intro hm =>
    cases hc
    rcases hm with rfl | rfl <;> rfl

theorem IsParted.not_isExponentMark {m whole fraction : List Char} (h : IsParted m whole fraction) :
    ∀ c ∈ m, (!isExponentMark c) = true := by
  intro c hc
  rcases h.mem c hc with hd | rfl
  · rw [not_isExponentMark_of_isDigit hd]; rfl
  · rfl

theorem IsScale.takeWhile_eq {e : List Char} {x : Int} (h : IsScale e x) :
    e.takeWhile (!isExponentMark ·) = [] ∧ e.dropWhile (!isExponentMark ·) = e := by
  cases e with
  | nil => exact ⟨rfl, rfl⟩
  | cons c e => simp [h.head c rfl]

theorem head?_digits {ds : List Char} (h : isDigits ds = true) : ∀ c ∈ ds.head?, c ≠ '+' ∧ c ≠ '-' := by
  intro c hc
  exact unsigned_of_isDigit (.inl ((isDigits_iff.mp h).2 c (List.mem_of_mem_head? hc)))

theorem exponent?_eq_some_iff {e : List Char} {x : Int} (he : ∀ c ∈ e.head?, isExponentMark c = true) :
    exponent? e = some x ↔ IsScale e x := by
  constructor
  · intro h
    cases e with
    | nil => cases h; exact .none
    | cons mark cs =>
      have hmark : mark = 'e' ∨ mark = 'E' := by simpa [isExponentMark] using he mark rfl
      obtain ⟨sign, hsign, hcs⟩ := exists_isSign cs
      simp only [exponent?] at h
      by_cases hd : isDigits (splitSign cs).2 = true
      · rw [if_pos hd, Option.some.injEq] at h
        rw [hcs, ← h]
        exact .intro hmark hsign hd
      · rw [if_neg hd] at h
        cases h
  · intro h
    cases h with
    | none => rfl
    | intro hm hs hd =>
      simp only [List.cons_append, exponent?, splitSign_append hs (head?_digits hd)]
      rw [if_pos hd]

/-- **Numerals.** A text is read as the numeral that it spells. -/
theorem numeral_parse?_iff {cs : List Char} {x : Numeral} : Numeral.parse? cs = some x ↔ x.Spells cs := by
  constructor
  · intro h
    simp only [Numeral.parse?] at h
    by_cases hd : isDigits ((cs.takeWhile (!isExponentMark ·)).takeWhile (· != '.') ++
        ((cs.takeWhile (!isExponentMark ·)).dropWhile (· != '.')).drop 1) = true
    · rw [if_pos hd] at h
      obtain ⟨e, he, rfl⟩ := Option.map_eq_some_iff.mp h
      refine ⟨_, _, List.takeWhile_append_dropWhile.symm, isParted_of_isDigits hd,
        (exponent?_eq_some_iff fun c hc => ?_).mp he⟩
      have hhead := List.head?_dropWhile_not (!isExponentMark ·) cs
      rw [Option.mem_def.mp hc] at hhead
      simpa using hhead
    · rw [if_neg hd] at h
      cases h
  · rintro ⟨m, e, rfl, hm, he⟩
    have hmark := hm.not_isExponentMark
    obtain ⟨htake, hdrop⟩ := he.takeWhile_eq
    obtain ⟨hw, hf⟩ := hm.takeWhile_eq
    simp only [Numeral.parse?, List.takeWhile_append_of_pos hmark, List.dropWhile_append_of_pos hmark, htake,
      hdrop, List.append_nil, hw, hf]
    rw [if_pos hm.digits, (exponent?_eq_some_iff he.head).mpr he]
    rfl

theorem Numeral.Spells.head {x : Numeral} {cs : List Char} (h : x.Spells cs) :
    ∃ c cs', cs = c :: cs' ∧ (c.isDigit = true ∨ c = '.') := by
  obtain ⟨m, e, rfl, hm, -⟩ := h
  cases m with
  | nil =>
    have hnil : ∀ {cs ds fs : List Char}, IsParted cs ds fs → cs ≠ [] := by
      intro cs ds fs h
      cases h with
      | whole hd => exact (isDigits_iff.mp hd).1
      | pointed => simp
      | fraction => simp
    exact absurd rfl (hnil hm)
  | cons c m => exact ⟨c, m ++ e, rfl, hm.mem c (by simp)⟩

theorem IsMantissa.parted {m : List Char} (h : IsMantissa m) : ∃ whole fraction, IsParted m whole fraction := by
  cases h with
  | @whole ds point fs hd hp hf =>
    obtain ⟨hne, hd'⟩ := isDigits_iff.mp hd
    rw [List.all_eq_true] at hf
    rcases hp with rfl | rfl
    · rw [List.append_nil]
      exact ⟨_, _, .whole (isDigits_append (.inl hne) hd' hf)⟩
    · rw [List.append_assoc, List.singleton_append]
      exact ⟨_, _, .pointed hd hf⟩
  | fraction hf => exact ⟨_, _, .fraction hf⟩

theorem IsExponent.scale {e : List Char} (h : IsExponent e) : ∃ x, IsScale e x := by
  cases h with
  | intro hm hs hd =>
    rcases hs with rfl | rfl | rfl
    · exact ⟨_, .intro hm .none hd⟩
    · exact ⟨_, .intro hm .plus hd⟩
    · exact ⟨_, .intro hm .minus hd⟩

theorem IsNumber.spells {r : List Char} (h : IsNumber r) : ∃ x : Numeral, x.Spells r := by
  obtain ⟨m, e, hm, he, rfl⟩ := h.split
  obtain ⟨whole, fraction, hm⟩ := hm.parted
  rcases he with rfl | he
  · exact ⟨⟨whole, fraction, 0⟩, m, [], rfl, hm, .none⟩
  · obtain ⟨x, hx⟩ := he.scale
    exact ⟨⟨whole, fraction, x⟩, m, e, rfl, hm, hx⟩

/-! ## Number texts -/

/-- The texts of what is not a finite number, in any letter case. -/
def IsWord (cs : List Char) : Prop :=
  cs.map Char.toLower ∈ ["inf".toList, "infinity".toList, "nan".toList]

theorem toLower_of_lt {c : Char} (h : c.toNat < 65) : c.toLower = c := by
  unfold Char.toLower
  rw [dif_neg]
  rintro ⟨hc, _⟩
  have : 65 ≤ c.toNat := UInt32.le_iff_toNat_le.mp hc
  omega

theorem IsWord.head {cs : List Char} (h : IsWord cs) : ∀ c ∈ cs.head?, c.toLower = 'i' ∨ c.toLower = 'n' := by
  intro c hc
  obtain ⟨cs', rfl⟩ := List.head?_eq_some_iff.mp hc
  simp only [IsWord, List.map_cons, List.mem_cons, List.not_mem_nil, or_false] at h
  rcases h with h | h | h
  · exact .inl (List.cons.inj h).1
  · exact .inl (List.cons.inj h).1
  · exact .inr (List.cons.inj h).1

theorem not_isWord_of_isDigit {c : Char} (h : c.isDigit = true ∨ c = '.') (cs : List Char) : ¬ IsWord (c :: cs) := by
  intro hw
  have hc : c.toLower = c := by
    refine toLower_of_lt ?_
    rcases h with h | rfl
    · have : c.toNat ≤ 57 := (Char.isDigit_iff_toNat.mp h).2
      omega
    · decide
  have hhead := hw.head c rfl
  rw [hc] at hhead
  rcases hhead with rfl | rfl <;> exact absurd h (by decide)

section
variable {negative : Bool} {sign : List Char} (hs : IsSign negative sign)
include hs

theorem literal_parse?_word {cs : List Char} (h : IsWord cs) :
    Literal.parse? (sign ++ cs) = some (.infinity negative) ∨ Literal.parse? (sign ++ cs) = some .nan := by
  have hsplit : splitSign (sign ++ cs) = (negative, cs) := by
    apply splitSign_append hs
    intro c hc
    constructor <;> rintro rfl <;> exact absurd (h.head _ hc) (by decide)
  simp only [IsWord, List.mem_cons, List.not_mem_nil, or_false] at h
  simp only [Literal.parse?, hsplit]
  rcases h with h | h | h
  · exact .inl (if_pos (.inl h))
  · exact .inl (if_pos (.inr h))
  · refine .inr ?_
    rw [h]
    rfl

theorem literal_parse?_numeral {c : Char} (h : c.isDigit = true ∨ c = '.') (cs : List Char) :
    Literal.parse? (sign ++ c :: cs) =
      (Numeral.parse? (c :: cs)).map fun x => .decimal negative x.toDecimal := by
  have hsplit : splitSign (sign ++ c :: cs) = (negative, c :: cs) := by
    apply splitSign_append hs
    intro d hd
    cases hd
    exact unsigned_of_isDigit h
  have hword := not_isWord_of_isDigit h cs
  simp only [IsWord, List.mem_cons, List.not_mem_nil, or_false, not_or] at hword
  simp only [Literal.parse?, hsplit]
  rw [if_neg (not_or.mpr ⟨hword.1, hword.2.1⟩), if_neg hword.2.2]

theorem literal_parse?_of_spells {x : Numeral} {cs : List Char} (h : x.Spells cs) :
    Literal.parse? (sign ++ cs) = some (.decimal negative x.toDecimal) := by
  obtain ⟨c, cs', rfl, hc⟩ := h.head
  rw [literal_parse?_numeral hs hc, numeral_parse?_iff.mpr h]
  rfl

theorem readDouble?_of_spells {x : Numeral} {cs : List Char} (h : x.Spells cs) {text : String}
    (htext : text.toList = sign ++ cs) : readDouble? text = some (Double.ofRank negative x.toDecimal.rank) := by
  rw [readDouble?, htext, literal_parse?_of_spells hs h]
  rfl

end

theorem literal_parse?_eq_none_iff {cs : List Char} : Literal.parse? cs = none ↔
    ¬ ∃ negative sign body, IsSign negative sign ∧ cs = sign ++ body ∧ (IsWord body ∨ ∃ x, Numeral.Spells x body) := by
  constructor
  · rintro h ⟨negative, sign, body, hs, rfl, hw | ⟨x, hx⟩⟩
    · rcases literal_parse?_word hs hw with h' | h' <;> rw [h] at h' <;> cases h'
    · rw [literal_parse?_of_spells hs hx] at h
      cases h
  · intro h
    obtain ⟨sign, hs, hcs⟩ := exists_isSign cs
    have hbody : ¬ (IsWord (splitSign cs).2 ∨ ∃ x, Numeral.Spells x (splitSign cs).2) :=
      fun hbody => h ⟨_, sign, _, hs, hcs, hbody⟩
    rw [not_or, not_exists] at hbody
    have hnumeral : Numeral.parse? (splitSign cs).2 = none := by
      rw [Option.eq_none_iff_forall_ne_some]
      intro x hx
      exact hbody.2 x (numeral_parse?_iff.mp hx)
    have hword := hbody.1
    simp only [IsWord, List.mem_cons, List.not_mem_nil, or_false, not_or] at hword
    simp only [Literal.parse?]
    rw [if_neg (not_or.mpr ⟨hword.1, hword.2.1⟩), if_neg hword.2.2, hnumeral]
    rfl

end SheetFormula
