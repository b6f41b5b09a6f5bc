import SheetFormula.Proofs.BoundarySound

/-!
# Lexing never lacks a pattern

Wherever a text goes on with something else than a blank, a pattern matches there, and the cut takes the longest
match (`isLongest_first`). Of the patterns that match the same text the one for unknown runs comes last. Every
text of the pattern of numbers is read as a number, so a run of that last pattern is the only invalid token, and
no number is at fault but for its size: `lexing_exhaustive`.
-/

namespace SheetFormula

/-! ## Matches at one place -/

/-- No match at the head of `cs` is longer, and none as long is of another shape, unless of the unknown one. -/
structure IsLongest (cs : List Char) (s : Shape) (r : List Char) : Prop where
  head : r <+: cs
  shape : s.Matches r
  longest : ∀ (s' : Shape) (r' : List Char), r' <+: cs → s'.Matches r' → r'.length ≤ r.length
  special : ∀ s' : Shape, s'.Matches r → s' = s ∨ s' = .unknown

section
variable {s : Shape} {c : Char} {r : List Char} (h : s.Matches (c :: r))
include h

theorem Shape.Matches.isRun_iff : s.isRun = true ↔ isSeparator c = false := by
  by_cases hs : s.isRun = true
  · obtain ⟨d, r', heq, hd⟩ := h.run hs
    cases heq
    simp [hs, hd]
  · obtain ⟨d, hd, heq⟩ := h.separator (Bool.eq_false_iff.mpr hs)
    cases heq
    simp [hs, hd]

theorem Shape.Matches.tail_eq_nil (hc : isSeparator c = true) : r = [] := by
  have hs : s.isRun = false := by
    rw [← Bool.not_eq_true, h.isRun_iff, hc]
    simp
  obtain ⟨d, -, heq⟩ := h.separator hs
  exact (List.cons.inj heq).2

theorem Shape.Matches.length_le (hc : isSeparator c = false) (rest : List Char) :
    r.length < numberLength (c :: (r ++ rest)) ∨ r.length ≤ runLength (r ++ rest) := by
  have hs := h.isRun_iff.mpr hc
  cases s with
  | number => exact .inl (IsNumber.length_le h rest)
  | var => exact .inr (le_runLength (fun d hd => IsName.not_isSeparator h d (List.mem_cons_of_mem _ hd)) rest)
  | unknown => exact .inr (le_runLength (fun d hd => h.2 d (List.mem_cons_of_mem _ hd)) rest)
  | _ => cases hs

end

theorem Shape.Matches.kind_cases {s : Shape} {r : List Char} (h : s.Matches r) :
    (s = .blank ∧ ∃ c, isBlank c = true ∧ r = [c]) ∨ s = .unknown ∨ ∃ k : Kind, s = k.shape ∧ k.IsLexeme r := by
  cases s with
  | blank => exact .inl ⟨rfl, h⟩
  | mark k =>
    obtain ⟨c, hc, rfl⟩ := h
    obtain ⟨hk, hs, -⟩ := isLexeme_of_markKind? hc
    exact .inr (.inr ⟨k, hs.symm, hk⟩)
  | number => exact .inr (.inr ⟨.number, rfl, h⟩)
  | var => exact .inr (.inr ⟨.var, rfl, h⟩)
  | unknown => exact .inr (.inl rfl)

theorem Kind.IsLexeme.shape_eq {k : Kind} {s : Shape} {r : List Char} (hk : k.IsLexeme r) (h : s.Matches r) :
    s = k.shape ∨ s = .unknown := by
  rcases h.kind_cases with ⟨-, c, hc, rfl⟩ | rfl | ⟨k', rfl, hk'⟩
  · rw [hk.not_isBlank c (by simp)] at hc
    cases hc
  · exact .inr rfl
  · exact .inl (by rw [hk'.kind_eq hk])

theorem shape_eq_of_isBlank {c : Char} (hc : isBlank c = true) {s : Shape} (h : s.Matches [c]) :
    s = .blank ∨ s = .unknown := by
  rcases h.kind_cases with ⟨rfl, -⟩ | rfl | ⟨k, rfl, hk⟩
  · exact .inl rfl
  · exact .inr rfl
  · rw [hk.not_isBlank c (by simp)] at hc
    cases hc

/-! ## The cut -/

section
variable {c : Char} {r rest : List Char} {s : Shape} (h : firstShape c (r ++ rest) = (s, r.length))
include h

theorem le_length_first (hc : isSeparator c = false) :
    numberLength (c :: (r ++ rest)) ≤ r.length + 1 ∧ runLength (r ++ rest) ≤ r.length := by
  have hlength := congrArg Prod.snd h
  rw [firstShape_run hc] at hlength
  by_cases hlt : runLength (r ++ rest) < numberLength (c :: (r ++ rest))
  · rw [if_pos hlt] at hlength
    simp only at hlength
    omega
  · rw [if_neg hlt, apply_ite Prod.snd, ite_self] at hlength
    simp only at hlength
    omega

theorem matches_first : s.Matches (c :: r) := by
  have hm := firstShape_matches c (r ++ rest)
  rwa [h, List.take_left] at hm

theorem longest_first {s' : Shape} {r' : List Char} (hr' : r' <+: c :: (r ++ rest)) (hm : s'.Matches r') :
    r'.length ≤ (c :: r).length := by
  cases r' with
  | nil => exact Nat.zero_le _
  | cons d r' =>
    obtain ⟨rest', heq⟩ := hr'
    obtain ⟨rfl, htail⟩ := List.cons.inj heq
    rw [List.length_cons, List.length_cons]
    by_cases hc : isSeparator d = true
    · rw [hm.tail_eq_nil hc]
      simp
    · have hc := Bool.eq_false_iff.mpr hc
      have hle := hm.length_le hc rest'
      rw [show r' ++ rest' = r ++ rest from htail] at hle
      have hfirst := le_length_first h hc
      omega

theorem special_first {s' : Shape} (hm : s'.Matches (c :: r)) : s' = s ∨ s' = .unknown := by
  have hfirst := matches_first h
  rcases hfirst.kind_cases with ⟨rfl, d, hd, heq⟩ | rfl | ⟨k, rfl, hk⟩
  · rw [heq] at hm
    exact shape_eq_of_isBlank hd hm
  · -- the text is neither a number nor a name, and it begins with no separator
    obtain ⟨-, hnumber, hname⟩ : Lexeme.EndsBefore ⟨.unknown, c :: r⟩ rest := endsBefore_first h
    have hrun := hm.isRun_iff.mpr (hfirst.isRun_iff.mp rfl)
    cases s' with
    | number => exact absurd hm hnumber
    | var => exact absurd hm hname
    | unknown => exact .inr rfl
    | _ => cases hrun
  · exact hk.shape_eq hm

theorem isLongest_first : IsLongest (c :: (r ++ rest)) s (c :: r) where
  head := ⟨rest, rfl⟩
  shape := matches_first h
  longest _ _ hr' hm := longest_first h hr' hm
  special _ hm := special_first h hm

end

theorem exists_isLongest (c : Char) (cs : List Char) : ∃ s r, IsLongest (c :: cs) s (c :: r) := by
  obtain ⟨d, r, rest, heq, -, hfirst, -⟩ := exists_firstShape (lexemes_cons c cs)
  cases heq
  exact ⟨_, r, isLongest_first hfirst⟩

theorem isLongest_of_lexemes {cs : List Char} {before after : List Lexeme} {l : Lexeme}
    (h : lexemes cs = before ++ l :: after) :
    l.text ≠ [] ∧ IsLongest (l.text ++ after.flatMap Lexeme.text) l.shape l.text := by
  obtain ⟨c, r, rest, -, htext, hfirst, hrest⟩ := exists_firstShape (lexemes_append_right h)
  rw [← hrest, flatMap_text_lexemes, htext]
  exact ⟨by simp, isLongest_first hfirst⟩

/-! ## Numbers -/

theorem IsNumber.eq_outOfRange {text : String} (h : IsNumber text.toList) {e : NumberFault}
    (he : normalizeNumber text = .error e) : e = .outOfRange := by
  obtain ⟨k, hread⟩ := IsNumber.readDouble?_eq h
  rw [String.ofList_toList] at hread
  obtain ⟨hok, herror⟩ := normalizeNumber_ofRank hread
  by_cases hk : k < infinityRank
  · rw [hok hk] at he
    cases he
  · rw [herror hk] at he
    cases he
    rfl

/-! ## All of lexing -/

/-- The patterns leave no place of the source without a match and no text of theirs without a reading, but for
numbers out of range. -/
structure Exhaustive (vc : VariableCase) (source : String) : Prop where
  number : ∀ text, IsNumber text.toList → ∀ e, normalizeNumber text = .error e → e = .outOfRange
  covered : ∀ pre c post, source.toList = pre ++ c :: post → isBlank c = false →
    ∃ s r, s ≠ .blank ∧ r ≠ [] ∧ IsLongest (c :: post) s r
  step : ∀ before l after, lexemes source.toList = before ++ l :: after →
    l.text ≠ [] ∧ IsLongest (l.text ++ after.flatMap Lexeme.text) l.shape l.text
  fault : ∀ r, tokenize vc source = .error r → ∃ before l after, lexemes source.toList = before ++ l :: after ∧
    r.span = spanAfter 0 before l ∧
      (l.shape = .unknown ∧ r.fault = .invalidToken (String.ofList l.text) ∨
        l.shape = .number ∧ r.fault = .invalidNumber (String.ofList l.text))

/-- **Lexing never lacks a pattern.** -/
theorem lexing_exhaustive (vc : VariableCase) (source : String) : Exhaustive vc source := by
  refine ⟨fun text h e he => h.eq_outOfRange he, fun pre c post _ hc => ?_,
    fun before l after h => isLongest_of_lexemes h, fun r hr => ?_⟩
  · obtain ⟨s, r, hlongest⟩ := exists_isLongest c post
    refine ⟨s, c :: r, ?_, by simp, hlongest⟩
    rintro rfl
    obtain ⟨d, hd, heq⟩ := hlongest.shape
    cases heq
    rw [hc] at hd
    cases hd
  · obtain ⟨hfault, -⟩ := (tokenize_eq_error_iff vc source r).mp hr
    obtain ⟨before, l, after, h, hread, hspan⟩ := exists_reached_of_fault hfault
    refine ⟨before, l, after, h.split, hspan, ?_⟩
    rcases read_eq_error (matches_of_lexemes h.split) hread with hunknown | ⟨hs, hf, -⟩
    · exact .inl hunknown
    · exact .inr ⟨hs, hf⟩

-- an exponent without digits is cut off before its sign
theorem lexing_exhaustive_exponent : (IsNumber "1e400".toList ∧ normalizeNumber "1e400" = .error .outOfRange) ∧
    (∃ r, tokenize .upper " 2e- 1e400" = .error r ∧ r.span = ⟨1, 3⟩ ∧ r.fault = .invalidToken "2e") ∧
      Exhaustive .upper " 2e- 1e400" := by
  have hnumber : IsNumber ("1e400".toList.take (numberLength "1e400".toList)) := isNumber_take (by decide +kernel)
  have htake : "1e400".toList.take (numberLength "1e400".toList) = "1e400".toList := by decide +kernel
  rw [htake] at hnumber
  have hfault := (tokenize_eq_error_iff .upper " 2e- 1e400" ⟨.invalidToken "2e", _, ⟨1, 3⟩, []⟩).mpr
    ⟨by decide +kernel, rfl, rfl⟩
  exact ⟨⟨hnumber, by decide +kernel⟩, ⟨_, hfault, rfl, rfl⟩, lexing_exhaustive .upper " 2e- 1e400"⟩

end SheetFormula
