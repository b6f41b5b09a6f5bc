import Mathlib.Data.List.Basic
import Mathlib.Data.List.TakeWhile
import SheetFormula.Lexeme
import SheetFormula.Number.Literal

/-!
# Patterns of lexemes and their longest matches

The patterns are stated without reference to the cut. `isNumber_take` and `IsNumber.length_le`: the cut
takes the longest number at the head of a text. `IsNumber.not_append_separator`: a number never goes on
over a separator where a shorter one ends, since the only separator inside of a number stands right
behind its exponent mark.
-/

namespace SheetFormula

/-! ## Patterns -/

/-- Digits, an optional point and further digits, or a point and digits. -/
inductive IsMantissa : List Char → Prop
  | whole {ds point fs : List Char} : isDigits ds = true → point = [] ∨ point = ['.'] →
      fs.all Char.isDigit = true → IsMantissa (ds ++ point ++ fs)
  | fraction {fs : List Char} : isDigits fs = true → IsMantissa ('.' :: fs)

/-- `e` or `E`, an optional sign and digits. -/
inductive IsExponent : List Char → Prop
  | intro {mark : Char} {sign ds : List Char} : mark = 'e' ∨ mark = 'E' →
      sign = [] ∨ sign = ['+'] ∨ sign = ['-'] → isDigits ds = true → IsExponent (mark :: sign ++ ds)

/-- A mantissa and an optional exponent. -/
inductive IsNumber : List Char → Prop
  | intro {m e : List Char} : IsMantissa m → e = [] ∨ IsExponent e → IsNumber (m ++ e)

/-- Letters and then digits. -/
inductive IsName : List Char → Prop
  | intro {letters ds : List Char} : letters ≠ [] → letters.all Char.isAlpha = true → isDigits ds = true →
      IsName (letters ++ ds)

/-! ## Separators -/

theorem isDigits_iff {cs : List Char} : isDigits cs = true ↔ cs ≠ [] ∧ ∀ c ∈ cs, c.isDigit = true := by
  simp [isDigits]

theorem isAlpha_range {c : Char} : c.isAlpha = true ↔
    (65 ≤ c.toNat ∧ c.toNat ≤ 90) ∨ (97 ≤ c.toNat ∧ c.toNat ≤ 122) := by
  change (decide ('A'.val ≤ c.val ∧ c.val ≤ 'Z'.val) || ('a'.val ≤ c.val && c.val ≤ 'z'.val)) = true ↔ _
  simp [UInt32.le_iff_toNat_le]

theorem markKind?_eq_some_iff {c : Char} {k : Kind} : markKind? c = some k ↔
    (c = '+' ∧ k = .operator .add) ∨ (c = '-' ∧ k = .operator .sub) ∨ (c = '*' ∧ k = .operator .mul) ∨
      (c = '/' ∧ k = .operator .div) ∨ (c = '(' ∧ k = .openParen) ∨ (c = ')' ∧ k = .closeParen) := by
  constructor
  · intro h; unfold markKind? at h; split at h <;> simp_all
  · rintro (⟨rfl, rfl⟩ | ⟨rfl, rfl⟩ | ⟨rfl, rfl⟩ | ⟨rfl, rfl⟩ | ⟨rfl, rfl⟩ | ⟨rfl, rfl⟩) <;> rfl

theorem mark_range {c : Char} {k : Kind} (h : markKind? c = some k) : 40 ≤ c.toNat ∧ c.toNat ≤ 47 := by
  rcases markKind?_eq_some_iff.mp h with h | h | h | h | h | h <;> rw [h.1] <;> decide

theorem blank_range {c : Char} (h : isBlank c = true) : c.toNat ≤ 32 ∨ 133 ≤ c.toNat := by
  simp only [isBlank, blankRanges, List.any_cons, List.any_nil, Bool.or_eq_true, Bool.and_eq_true,
    decide_eq_true_eq, Bool.false_eq_true, or_false] at h
  omega

theorem not_isBlank_of_mark {c : Char} {k : Kind} (h : markKind? c = some k) : isBlank c = false := by
  have := mark_range h
  refine Bool.eq_false_iff.mpr fun hb => ?_
  have := blank_range hb
  omega

theorem isSeparator_of_mark {c : Char} {k : Kind} (h : markKind? c = some k) : isSeparator c = true := by
  simp [isSeparator, h]

theorem isSeparator_of_blank {c : Char} (h : isBlank c = true) : isSeparator c = true := by
  simp [isSeparator, h]

theorem separator_range {c : Char} (h : isSeparator c = true) :
    c.toNat ≤ 32 ∨ (40 ≤ c.toNat ∧ c.toNat ≤ 47) ∨ 133 ≤ c.toNat := by
  simp only [isSeparator, Bool.or_eq_true, Option.isSome_iff_exists] at h
  rcases h with h | ⟨k, h⟩
  · have := blank_range h; omega
  · have := mark_range h; omega

theorem not_isSeparator_of_isDigit {c : Char} (h : c.isDigit = true) : isSeparator c = false := by
  have : 48 ≤ c.toNat ∧ c.toNat ≤ 57 := Char.isDigit_iff_toNat.mp h
  refine Bool.eq_false_iff.mpr fun hs => ?_
  have := separator_range hs
  omega

theorem not_isSeparator_of_isAlpha {c : Char} (h : c.isAlpha = true) : isSeparator c = false := by
  have := isAlpha_range.mp h
  refine Bool.eq_false_iff.mpr fun hs => ?_
  have := separator_range hs
  omega

/-! ## The longest mantissa -/

theorem le_digitsLength {ds : List Char} (h : ∀ c ∈ ds, c.isDigit = true) (rest : List Char) :
    ds.length ≤ digitsLength (ds ++ rest) := by
  rw [digitsLength, List.takeWhile_append_of_pos h, List.length_append]; omega

theorem digitsLength_append_cons {ds : List Char} (h : ∀ c ∈ ds, c.isDigit = true) {c : Char}
    (hc : c.isDigit = false) (rest : List Char) : digitsLength (ds ++ c :: rest) = ds.length := by
  rw [digitsLength, List.takeWhile_append_of_pos h]; simp [hc]

theorem take_digitsLength (cs : List Char) : cs.take (digitsLength cs) = cs.takeWhile Char.isDigit :=
  (List.prefix_iff_eq_take.mp (List.takeWhile_prefix _)).symm

theorem isDigits_take_digitsLength {cs : List Char} (h : digitsLength cs ≠ 0) :
    isDigits (cs.take (digitsLength cs)) = true := by
  rw [take_digitsLength, isDigits_iff]
  refine ⟨fun he => h ?_, fun c hc => List.mem_takeWhile_imp hc⟩
  rw [digitsLength, he]; rfl

theorem mantissaLength_pointed {cs rest : List Char} (h : cs.drop (digitsLength cs) = '.' :: rest) :
    mantissaLength cs = if digitsLength cs = 0 ∧ digitsLength rest = 0 then 0
      else digitsLength cs + 1 + digitsLength rest := by
  simp only [mantissaLength, h]

theorem mantissaLength_whole {cs : List Char} (h : ∀ rest, cs.drop (digitsLength cs) ≠ '.' :: rest) :
    mantissaLength cs = digitsLength cs := by
  unfold mantissaLength
  cases hrest : cs.drop (digitsLength cs) with
  | nil => simp only
  | cons c rest =>
    have hc : c ≠ '.' := fun hc => h rest (hc ▸ hrest)
    simp only

theorem digitsLength_le_mantissaLength (cs : List Char) : digitsLength cs ≤ mantissaLength cs := by
  by_cases h : ∃ rest, cs.drop (digitsLength cs) = '.' :: rest
  · obtain ⟨rest, hrest⟩ := h
    rw [mantissaLength_pointed hrest]
    split <;> omega
  · rw [mantissaLength_whole fun rest hrest => h ⟨rest, hrest⟩]

theorem length_le_mantissaLength_pointed {ds fs : List Char} (hd : ∀ c ∈ ds, c.isDigit = true)
    (hf : ∀ c ∈ fs, c.isDigit = true) (hne : ds ≠ [] ∨ fs ≠ []) (rest : List Char) :
    ds.length + 1 + fs.length ≤ mantissaLength (ds ++ '.' :: (fs ++ rest)) := by
  have hwhole := digitsLength_append_cons hd (show '.'.isDigit = false by decide) (fs ++ rest)
  have hfraction := le_digitsLength hf rest
  have hne : ¬(ds.length = 0 ∧ fs.length = 0) := by simpa [or_iff_not_imp_left] using hne
  have hdrop : (ds ++ '.' :: (fs ++ rest)).drop (digitsLength (ds ++ '.' :: (fs ++ rest))) =
      '.' :: (fs ++ rest) := by
    rw [hwhole, List.drop_left]
  rw [mantissaLength_pointed hdrop, hwhole, if_neg (by omega)]
  omega

theorem IsMantissa.length_le {m : List Char} (h : IsMantissa m) (rest : List Char) :
    m.length ≤ mantissaLength (m ++ rest) := by
  cases h with
  | @whole ds point fs hd hp hf =>
    obtain ⟨hne, hd⟩ := isDigits_iff.mp hd
    rw [List.all_eq_true] at hf
    rcases hp with rfl | rfl
    · refine Nat.le_trans (le_digitsLength ?_ rest) (digitsLength_le_mantissaLength _)
      simpa [or_imp, forall_and] using ⟨hd, hf⟩
    · have := length_le_mantissaLength_pointed hd hf (.inl hne) rest
      simpa [Nat.add_assoc, Nat.add_comm, Nat.add_left_comm] using this
  | @fraction fs hf =>
    obtain ⟨hne, hf⟩ := isDigits_iff.mp hf
    have := @length_le_mantissaLength_pointed [] fs (by simp) hf (.inr hne) rest
    simpa [Nat.add_comm] using this

theorem isMantissa_take {cs : List Char} (h : mantissaLength cs ≠ 0) :
    IsMantissa (cs.take (mantissaLength cs)) := by
  by_cases hp : ∃ rest, cs.drop (digitsLength cs) = '.' :: rest
  · obtain ⟨rest, hrest⟩ := hp
    rw [mantissaLength_pointed hrest] at h ⊢
    by_cases hne : digitsLength cs = 0 ∧ digitsLength rest = 0
    · rw [if_pos hne] at h; exact absurd rfl h
    have htake : cs.take (digitsLength cs + 1 + digitsLength rest) =
        cs.take (digitsLength cs) ++ '.' :: rest.take (digitsLength rest) := by
      rw [Nat.add_assoc, List.take_add, hrest, Nat.add_comm 1, List.take_succ_cons]
    rw [if_neg hne, htake]
    by_cases hw : digitsLength cs = 0
    · rw [hw]
      exact .fraction (isDigits_take_digitsLength fun hf => hne ⟨hw, hf⟩)
    · have hf : (rest.take (digitsLength rest)).all Char.isDigit = true := by
        rw [take_digitsLength]; exact List.all_takeWhile
      have := IsMantissa.whole (isDigits_take_digitsLength hw) (.inr rfl) hf
      simpa using this
  · rw [mantissaLength_whole fun rest hrest => hp ⟨rest, hrest⟩] at h ⊢
    have := @IsMantissa.whole _ [] [] (isDigits_take_digitsLength h) (.inl rfl) rfl
    simpa using this

theorem IsMantissa.mem {m : List Char} (h : IsMantissa m) : ∀ c ∈ m, c.isDigit = true ∨ c = '.' := by
  intro c hc
  cases h with
  | @whole ds point fs hd hp hf =>
    have hd := (isDigits_iff.mp hd).2
    rw [List.all_eq_true] at hf
    simp only [List.mem_append] at hc
    rcases hc with (hc | hc) | hc
    · exact .inl (hd c hc)
    · rcases hp with rfl | rfl
      · cases hc
      · exact .inr (by simpa using hc)
    · exact .inl (hf c hc)
  | @fraction fs hf =>
    rcases List.mem_cons.mp hc with rfl | hc
    · exact .inr rfl
    · exact .inl ((isDigits_iff.mp hf).2 c hc)

theorem IsMantissa.ne_nil {m : List Char} (h : IsMantissa m) : m ≠ [] := by
  cases h with
  | whole hd _ _ => simp [(isDigits_iff.mp hd).1]
  | fraction _ => simp

/-! ## The longest exponent -/

theorem signLength_digits {ds : List Char} (h : isDigits ds = true) (rest : List Char) :
    signLength (ds ++ rest) = 0 := by
  obtain ⟨hne, hd⟩ := isDigits_iff.mp h
  cases ds with
  | nil => exact absurd rfl hne
  | cons d ds =>
    have hd := hd d (by simp)
    rw [List.cons_append]
    unfold signLength
    split
    · rename_i he; cases he; exact absurd hd (by decide)
    · rename_i he; cases he; exact absurd hd (by decide)
    · rfl

theorem signLength_append {sign ds : List Char} (hs : sign = [] ∨ sign = ['+'] ∨ sign = ['-'])
    (hd : isDigits ds = true) (rest : List Char) : signLength (sign ++ ds ++ rest) = sign.length := by
  rcases hs with rfl | rfl | rfl
  · exact signLength_digits hd rest
  · rfl
  · rfl

theorem take_signLength (cs : List Char) :
    cs.take (signLength cs) = [] ∨ cs.take (signLength cs) = ['+'] ∨ cs.take (signLength cs) = ['-'] := by
  unfold signLength
  split
  · exact .inr (.inl rfl)
  · exact .inr (.inr rfl)
  · exact .inl rfl

theorem IsExponent.length_le {e : List Char} (h : IsExponent e) (rest : List Char) :
    e.length ≤ exponentLength (e ++ rest) := by
  cases h with
  | @intro mark sign ds hm hs hd =>
    obtain ⟨hne, hds⟩ := isDigits_iff.mp hd
    have hlen : ds.length ≠ 0 := by simpa using hne
    have hdigits := le_digitsLength hds rest
    simp only [List.cons_append, exponentLength, signLength_append hs hd]
    rw [List.append_assoc, List.drop_left, if_pos ⟨hm, by omega⟩]
    simp only [List.length_cons, List.length_append]; omega

theorem isExponent_take {cs : List Char} (h : exponentLength cs ≠ 0) :
    IsExponent (cs.take (exponentLength cs)) := by
  cases cs with
  | nil => exact absurd rfl h
  | cons c cs =>
    simp only [exponentLength] at h ⊢
    split at h
    · rename_i hc
      rw [if_pos hc, Nat.add_assoc, Nat.add_comm 1, List.take_succ_cons, List.take_add]
      exact .intro hc.1 (take_signLength cs) (isDigits_take_digitsLength hc.2)
    · exact absurd rfl h

/-! ## The longest number -/

theorem numberLength_eq (cs : List Char) : numberLength cs =
    if mantissaLength cs = 0 then 0
    else mantissaLength cs + exponentLength (cs.drop (mantissaLength cs)) := rfl

theorem take_append_cons {r rest : List Char} {c : Char} {n : Nat} (h : r.length < n) :
    ∃ rest', (r ++ c :: rest).take n = r ++ c :: rest' := by
  obtain ⟨m, rfl⟩ : ∃ m, n = r.length + (m + 1) := ⟨n - r.length - 1, by omega⟩
  exact ⟨rest.take m, by rw [List.take_length_add_append, List.take_succ_cons]⟩

theorem IsMantissa.mantissaLength_append {m : List Char} (h : IsMantissa m) {c : Char}
    (hc : c.isDigit = false ∧ c ≠ '.') (rest : List Char) : mantissaLength (m ++ c :: rest) = m.length := by
  have hle := h.length_le (c :: rest)
  have hpos : m.length ≠ 0 := by simpa using h.ne_nil
  rcases Nat.lt_or_eq_of_le hle with hlt | heq
  · -- a longer mantissa would take in `c`
    obtain ⟨rest', htake⟩ := @take_append_cons m rest c _ hlt
    have hlong := isMantissa_take (show mantissaLength (m ++ c :: rest) ≠ 0 by omega)
    rw [htake] at hlong
    rcases hlong.mem c (by simp) with h' | h'
    · rw [hc.1] at h'; cases h'
    · exact absurd h' hc.2
  · exact heq.symm

/-- No number at the head is longer than the one taken. -/
theorem IsNumber.length_le {r : List Char} (h : IsNumber r) (rest : List Char) :
    r.length ≤ numberLength (r ++ rest) := by
  cases h with
  | @intro m e hm he =>
    have hpos : m.length ≠ 0 := by simpa using hm.ne_nil
    rw [numberLength_eq]
    rcases he with rfl | he
    · have := hm.length_le rest
      rw [List.append_nil, if_neg (by omega)]; omega
    · have hlen : mantissaLength (m ++ e ++ rest) = m.length := by
        cases he with
        | @intro mark sign ds hmark _ _ =>
          rw [List.append_assoc]
          exact hm.mantissaLength_append (by rcases hmark with rfl | rfl <;> decide) _
      have := he.length_le rest
      rw [hlen, if_neg hpos, List.append_assoc, List.drop_left, List.length_append]; omega

theorem isNumber_take {cs : List Char} (h : numberLength cs ≠ 0) : IsNumber (cs.take (numberLength cs)) := by
  rw [numberLength_eq] at h ⊢
  split at h
  · exact absurd rfl h
  · rename_i hm
    rw [if_neg hm, List.take_add]
    refine .intro (isMantissa_take hm) ?_
    by_cases he : exponentLength (cs.drop (mantissaLength cs)) = 0
    · rw [he]; exact .inl rfl
    · exact .inr (isExponent_take he)

theorem isNumber_cons_take {c : Char} {cs : List Char} (h : numberLength (c :: cs) ≠ 0) :
    IsNumber (c :: cs.take (numberLength (c :: cs) - 1)) := by
  have hn := isNumber_take h
  rwa [show numberLength (c :: cs) = numberLength (c :: cs) - 1 + 1 by omega, List.take_succ_cons] at hn

theorem mantissaLength_le (cs : List Char) : mantissaLength cs ≤ cs.length := by
  have hle : ∀ cs : List Char, digitsLength cs ≤ cs.length :=
    fun cs => (List.takeWhile_prefix Char.isDigit).length_le
  by_cases hp : ∃ rest, cs.drop (digitsLength cs) = '.' :: rest
  · obtain ⟨rest, hrest⟩ := hp
    have hlen := congrArg List.length hrest
    rw [List.length_drop, List.length_cons] at hlen
    have := hle rest
    rw [mantissaLength_pointed hrest]
    split <;> omega
  · rw [mantissaLength_whole fun rest hrest => hp ⟨rest, hrest⟩]; exact hle cs

theorem exponentLength_le (cs : List Char) : exponentLength cs ≤ cs.length := by
  cases cs with
  | nil => exact Nat.le_refl _
  | cons c cs =>
    have hs : signLength cs ≤ cs.length := by unfold signLength; split <;> simp
    have hd : digitsLength (cs.drop (signLength cs)) ≤ (cs.drop (signLength cs)).length :=
      (List.takeWhile_prefix Char.isDigit).length_le
    rw [List.length_drop] at hd
    simp only [exponentLength, List.length_cons]
    split <;> omega

theorem numberLength_le (cs : List Char) : numberLength cs ≤ cs.length := by
  have hm := mantissaLength_le cs
  have he := exponentLength_le (cs.drop (mantissaLength cs))
  rw [List.length_drop] at he
  rw [numberLength_eq]
  split <;> omega

/-! ## Where numbers end -/

theorem IsNumber.split {r : List Char} (h : IsNumber r) :
    ∃ m e, IsMantissa m ∧ (e = [] ∨ IsExponent e) ∧ r = m ++ e := by
  cases h with
  | intro hm he => exact ⟨_, _, hm, he, rfl⟩

theorem IsExponent.split {e : List Char} (h : IsExponent e) : ∃ mark sign ds, (mark = 'e' ∨ mark = 'E') ∧
    (sign = [] ∨ sign = ['+'] ∨ sign = ['-']) ∧ isDigits ds = true ∧ e = mark :: (sign ++ ds) := by
  cases h with
  | intro hm hs hd => exact ⟨_, _, _, hm, hs, hd, rfl⟩

theorem not_isSeparator_of_mem_mantissa {m : List Char} (h : IsMantissa m) {c : Char} (hc : c ∈ m) :
    isSeparator c = false := by
  rcases h.mem c hc with hd | rfl
  · exact not_isSeparator_of_isDigit hd
  · decide

theorem IsExponent.separator_second {a b : List Char} {c : Char} (h : IsExponent (a ++ c :: b))
    (hc : isSeparator c = true) : ∃ mark, (mark = 'e' ∨ mark = 'E') ∧ a = [mark] := by
  obtain ⟨mark, sign, ds, hm, hs, hd, heq⟩ := h.split
  have hds : ∀ d ∈ ds, isSeparator d = false :=
    fun d hd' => not_isSeparator_of_isDigit ((isDigits_iff.mp hd).2 d hd')
  cases a with
  | nil =>
    rw [List.nil_append] at heq
    cases heq
    rcases hm with rfl | rfl <;> exact absurd hc (by decide)
  | cons x a =>
    obtain ⟨rfl, htail⟩ := List.cons.inj heq
    cases a with
    | nil => exact ⟨x, hm, rfl⟩
    | cons y a =>
      have hmem : c ∈ ds := by
        rcases hs with rfl | rfl | rfl
        · rw [show ds = y :: a ++ c :: b from htail.symm]; simp
        · rw [show ds = a ++ c :: b from (List.cons.inj htail).2.symm]; simp
        · rw [show ds = a ++ c :: b from (List.cons.inj htail).2.symm]; simp
      rw [hds c hmem] at hc; cases hc

/-- A separator inside of a number stands right behind the exponent mark. -/
theorem IsNumber.separator_after_mark {a b : List Char} {c : Char} (h : IsNumber (a ++ c :: b))
    (hc : isSeparator c = true) : ∃ m mark, (mark = 'e' ∨ mark = 'E') ∧ a = m ++ [mark] := by
  obtain ⟨m, e, hm, he, heq⟩ := h.split
  rcases List.append_eq_append_iff.mp heq with ⟨m', rfl, he'⟩ | ⟨e', rfl, he'⟩
  · -- `c` lies in the mantissa or starts the exponent
    cases m' with
    | nil =>
      rw [List.nil_append] at he'
      rcases he with rfl | he
      · cases he'
      · obtain ⟨mark, _, ha⟩ := IsExponent.separator_second (a := []) (he' ▸ he) hc
        cases ha
    | cons x m' =>
      obtain ⟨rfl, _⟩ := List.cons.inj he'
      rw [not_isSeparator_of_mem_mantissa hm (by simp)] at hc; cases hc
  · rcases he with rfl | he
    · simp at he'
    · obtain ⟨mark, hmark, rfl⟩ := IsExponent.separator_second (he' ▸ he) hc
      exact ⟨m, mark, hmark, rfl⟩

theorem IsNumber.getLast {r : List Char} (h : IsNumber r) :
    ∀ c ∈ r.getLast?, c.isDigit = true ∨ c = '.' := by
  intro c hc
  obtain ⟨m, e, hm, he, rfl⟩ := h.split
  rcases he with rfl | he
  · rw [List.append_nil] at hc
    exact hm.mem c (List.mem_of_getLast? hc)
  · obtain ⟨mark, sign, ds, _, _, hd, rfl⟩ := he.split
    obtain ⟨hne, hd⟩ := isDigits_iff.mp hd
    have hlast : (m ++ mark :: (sign ++ ds)).getLast? = ds.getLast? := by
      rw [← List.cons_append, ← List.append_assoc, List.getLast?_append_of_ne_nil _ hne]
    rw [hlast] at hc
    exact .inl (hd c (List.mem_of_getLast? hc))

/-- A number does not go on over a separator where a number ends. -/
theorem IsNumber.not_append_separator {r rest : List Char} {c : Char} (h : IsNumber r)
    (hc : isSeparator c = true) : ¬ IsNumber (r ++ c :: rest) := by
  intro h'
  obtain ⟨m, mark, hmark, rfl⟩ := h'.separator_after_mark hc
  rcases h.getLast mark (by simp) with hd | hd
  · rcases hmark with rfl | rfl <;> exact absurd hd (by decide)
  · rcases hmark with rfl | rfl <;> cases hd

/-- Nothing, or a separator first. -/
def StartsSeparated (cs : List Char) : Prop :=
  ∀ c ∈ cs.head?, isSeparator c = true

theorem IsNumber.numberLength_append {r rest : List Char} (h : IsNumber r) (hr : StartsSeparated rest) :
    numberLength (r ++ rest) = r.length := by
  have hle := h.length_le rest
  rcases Nat.lt_or_eq_of_le hle with hlt | heq
  · cases rest with
    | nil => have := numberLength_le (r ++ []); simp at this hlt; omega
    | cons c rest =>
      obtain ⟨rest', htake⟩ := @take_append_cons r rest c _ hlt
      have hlong := isNumber_take (show numberLength (r ++ c :: rest) ≠ 0 by omega)
      rw [htake] at hlong
      exact absurd hlong (h.not_append_separator (hr c rfl))
  · exact heq.symm

theorem IsNumber.head {r : List Char} (h : IsNumber r) :
    ∃ c cs, r = c :: cs ∧ (c.isDigit = true ∨ c = '.') := by
  obtain ⟨m, e, hm, _, rfl⟩ := h.split
  cases m with
  | nil => exact absurd rfl hm.ne_nil
  | cons c m => exact ⟨c, m ++ e, rfl, hm.mem c (by simp)⟩

end SheetFormula
