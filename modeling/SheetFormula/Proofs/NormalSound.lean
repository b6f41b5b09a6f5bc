import Mathlib
import SheetFormula.Proofs.ReadBack
import SheetFormula.Proofs.SpellSound

/-!
# Normalized texts are read back

A token's text is again a lexeme of its kind, and reading it again changes at most the letter case of a
variable. So the normalized text spells the tokens without blanks (`parse_normalized`). Two things follow:
normalizing twice changes nothing, and the normalized text determines the tokens although nothing stands
between them.
-/

namespace SheetFormula

/-! ## Letter case -/

theorem toList_upperText (text : String) : (upperText text).toList = text.toList.map Char.toUpper := by
  rw [upperText, String.toList_ofList]

theorem upperText_upperText (text : String) : upperText (upperText text) = upperText text := by
  apply String.toList_injective
  simp [toList_upperText]

theorem apply_apply (vc : VariableCase) (text : String) : vc.apply (vc.apply text) = vc.apply text := by
  cases vc with
  | upper => exact upperText_upperText text
  | preserve => rfl

theorem toUpper_of_isDigit {c : Char} (h : c.isDigit = true) : c.toUpper = c := by
  apply Char.toUpper_eq_of_not_isLower
  intro hl
  have := not_isAlpha_of_isDigit h
  simp [Char.isAlpha, hl] at this

theorem IsName.map_toUpper {r : List Char} (h : IsName r) : IsName (r.map Char.toUpper) := by
  cases h with
  | @intro letters ds hne hl hd =>
    have hds : ds.map Char.toUpper = ds := by
      conv_rhs => rw [← List.map_id ds]
      apply List.map_congr_left
      intro c hc
      exact toUpper_of_isDigit ((isDigits_iff.mp hd).2 c hc)
    rw [List.map_append, hds]
    refine .intro (by simpa using hne) ?_ hd
    rw [List.all_map]
    simpa [Function.comp_def] using hl

theorem IsName.apply {r : List Char} (h : IsName r) (vc : VariableCase) :
    IsName (vc.apply (String.ofList r)).toList := by
  cases vc with
  | upper =>
    unfold VariableCase.apply
    rw [toList_upperText, String.toList_ofList]; exact h.map_toUpper
  | preserve =>
    unfold VariableCase.apply
    rw [String.toList_ofList]; exact h

/-! ## Token texts -/

/-- What reading a token's text again makes of it. -/
def Kind.recase (vc : VariableCase) : Kind → String → String
  | .var, text => vc.apply text
  | _, text => text

/-- Normalized texts are lexemes again, with themselves for normalized text but for the letter case. -/
theorem normalText?_normalText {vc : VariableCase} {k : Kind} {r : List Char} {s : String}
    (hr : k.IsLexeme r) (h : k.normalText? vc r = some s) :
    k.IsLexeme s.toList ∧ ∀ vc' : VariableCase, k.normalText? vc' s.toList = some (k.recase vc' s) := by
  cases k with
  | number =>
    obtain ⟨rank, rfl⟩ := exists_finiteText hr (normalText?_number_eq_some_iff.mp h)
    constructor
    · have htext : (finiteText false rank).toList = (shortest .up rank).text := by
        rw [finiteText, String.toList_ofList]; rfl
      rw [htext]; exact isNumber_text _
    · intro vc'
      refine normalText?_number_eq_some_iff.mpr ?_
      rw [String.ofList_toList]; exact normalizeNumber_finiteText false rank
  | var =>
    simp only [Kind.normalText?, Option.some.injEq] at h
    subst h
    refine ⟨hr.apply vc, fun vc' => ?_⟩
    simp only [Kind.normalText?, Kind.recase, String.ofList_toList]
  | _ =>
    simp only [Kind.normalText?, Option.some.injEq] at h
    subst h
    rw [String.toList_ofList]
    exact ⟨hr, fun vc' => rfl⟩

theorem recase_normalText {vc : VariableCase} {k : Kind} {r : List Char} {s : String}
    (h : k.normalText? vc r = some s) : k.recase vc s = s := by
  cases k with
  | var =>
    simp only [Kind.normalText?, Option.some.injEq] at h
    subst h
    exact apply_apply vc _
  | _ => rfl

/-! ## Normalized texts -/

theorem toList_normalized (f : Formula) : f.normalized.toList = f.tokens.flatMap fun t => t.text.toList := by
  rw [Formula.normalized, String.toList_ofList]

/-- A normalized text is read back, in whatever letter case. -/
theorem parse_normalized (f : Formula) (vc : VariableCase) :
    ∃ g, Formula.parse vc f.normalized = .ok g ∧
      g.tokens.map Token.content = f.tokens.map fun t => (t.kind, t.kind.recase vc t.text) := by
  let pieces : List Piece := f.tokens.map fun t => ⟨t.kind, t.text.toList, []⟩
  have hnormal : ∀ p ∈ pieces, p.kind.IsLexeme p.text ∧
      p.kind.normalText? vc p.text = some (p.kind.recase vc (String.ofList p.text)) := by
    intro p hp
    obtain ⟨t, ht, rfl⟩ := List.mem_map.mp hp
    obtain ⟨_, r, hr, hs⟩ := f.exists_isLexeme ht
    obtain ⟨hl, hn⟩ := normalText?_normalText hr hs
    exact ⟨hl, by rw [String.ofList_toList]; exact hn vc⟩
  have hspell : IsSpelling f.normalized.toList [] pieces := by
    refine ⟨?_, nofun, ?_, fun p hp => (hnormal p hp).1⟩
    · simp [toList_normalized, pieces, List.flatMap_map]
    · intro p hp c hc
      obtain ⟨t, _, rfl⟩ := List.mem_map.mp hp
      cases hc
  have hexpr : IsExpr (pieces.map Piece.kind) := by
    rw [List.map_map]; exact f.isExpr
  obtain ⟨g, hg, hcontent⟩ := parse_spelling hspell hexpr fun p hp => (hnormal p hp).2
  refine ⟨g, hg, ?_⟩
  rw [hcontent, List.map_map]
  simp [Function.comp_def, String.ofList_toList]

/-! ## Equal tokens -/

theorem sameAs_iff (s t : Token) : s.sameAs t = true ↔ s.content = t.content := by
  simp [Token.sameAs, Token.content]

theorem all_sameAs_iff : ∀ l l' : List Token,
    (l.length == l'.length && (l.zip l').all fun p => p.1.sameAs p.2) = true ↔
      l.map Token.content = l'.map Token.content
  | [], [] => by simp
  | [], _ :: _ => by simp
  | _ :: _, [] => by simp
  | t :: l, t' :: l' => by
    have ih := all_sameAs_iff l l'
    simp only [Bool.and_eq_true, beq_iff_eq] at ih
    simp only [List.length_cons, List.zip_cons_cons, List.all_cons, Bool.and_eq_true, beq_iff_eq,
      Nat.add_right_cancel_iff, List.map_cons, List.cons.injEq, sameAs_iff, ← ih]
    exact ⟨fun ⟨hlen, ht, hl⟩ => ⟨ht, hlen, hl⟩, fun ⟨ht, hlen, hl⟩ => ⟨hlen, ht, hl⟩⟩

theorem sameTokens_iff (f g : Formula) :
    f.sameTokens g = true ↔ f.tokens.map Token.content = g.tokens.map Token.content :=
  all_sameAs_iff f.tokens g.tokens

theorem beq_eq_true_iff (f g : Formula) : (f == g) = true ↔ f.normalized = g.normalized := by
  change (f.normalized == g.normalized) = true ↔ _
  exact beq_iff_eq

theorem normalized_eq_of_content {f : Formula} {ts : List Token}
    (h : f.tokens.map Token.content = ts.map Token.content) :
    f.normalized = String.ofList (ts.flatMap fun t => t.text.toList) := by
  have htexts : ∀ us : List Token,
      (us.flatMap fun t => t.text.toList) = (us.map Token.content).flatMap fun c => c.2.toList := by
    intro us
    rw [List.flatMap_map]; rfl
  rw [Formula.normalized, htexts, htexts, h]

theorem variableNames_eq_of_content {f : Formula} {ts : List Token}
    (h : f.tokens.map Token.content = ts.map Token.content) :
    f.variableNames = sortedNames ((ts.filter fun t => t.kind == .var).map Token.text) := by
  have hnames : ∀ us : List Token, (us.filter fun t => t.kind == .var).map Token.text =
      ((us.map Token.content).filter fun c => c.1 == .var).map Prod.snd := by
    intro us
    rw [List.filter_map, List.map_map]; rfl
  rw [Formula.variableNames, hnames, hnames, h]

/-- **Stability.** The normalized text is accepted in the same letter case, with the same tokens and with
itself for normalized text. -/
theorem parse_normalized_sameTokens {vc : VariableCase} {source : String} {f : Formula}
    (h : Formula.parse vc source = .ok f) :
    ∃ g, Formula.parse vc f.normalized = .ok g ∧ g.sameTokens f = true ∧ g.normalized = f.normalized := by
  obtain ⟨htok, _, _⟩ := (parse_eq_ok_iff vc source f).mp h
  obtain ⟨g, hg, hcontent⟩ := parse_normalized f vc
  have hsame : g.tokens.map Token.content = f.tokens.map Token.content := by
    rw [hcontent]
    apply List.map_congr_left
    intro t ht
    obtain ⟨r, _, hs⟩ := isLexeme_of_mem_tokenize htok ht
    rw [recase_normalText hs]; rfl
  exact ⟨g, hg, (sameTokens_iff g f).mpr hsame, normalized_eq_of_content hsame⟩

theorem parse_normalized_sameTokens_scaled : ∃ f,
    Formula.parse .upper "(a1 + 2.50)*1e+2" = .ok f ∧ f.normalized = "(A1+2.5)*100" ∧
      ∃ g, Formula.parse .upper f.normalized = .ok g ∧ g.sameTokens f = true ∧
        g.normalized = f.normalized := by
  have htok : tokenize .upper "(a1 + 2.50)*1e+2" = .ok
      [⟨.openParen, "(", ⟨0, 1⟩⟩, ⟨.var, "A1", ⟨1, 3⟩⟩, ⟨.operator .add, "+", ⟨4, 5⟩⟩,
        ⟨.number, "2.5", ⟨6, 10⟩⟩, ⟨.closeParen, ")", ⟨10, 11⟩⟩, ⟨.operator .mul, "*", ⟨11, 12⟩⟩,
        ⟨.number, "100", ⟨12, 16⟩⟩] :=
    (tokenize_eq_ok_iff ..).mpr ⟨by decide +kernel, by decide +kernel⟩
  obtain ⟨f, hf, htokens⟩ := exists_formula htok rfl
  have hnormalized : f.normalized = "(A1+2.5)*100" := by
    rw [Formula.normalized, htokens]
    decide +kernel
  exact ⟨f, hf, hnormalized, parse_normalized_sameTokens hf⟩

theorem content_eq_of_normalized {f g : Formula} (h : f.normalized = g.normalized) :
    f.tokens.map Token.content = g.tokens.map Token.content := by
  -- keeping the letter case, both texts are read back as the tokens they came from
  obtain ⟨f', hf', hfc⟩ := parse_normalized f .preserve
  obtain ⟨g', hg', hgc⟩ := parse_normalized g .preserve
  have hpreserve : ∀ (k : Kind) (text : String), k.recase .preserve text = text := by
    intro k text; cases k <;> rfl
  simp only [hpreserve] at hfc hgc
  rw [h, hg'] at hf'
  cases hf'
  exact hfc.symm.trans hgc

theorem normalized_eq_iff_sameTokens (f g : Formula) :
    f.normalized = g.normalized ↔ f.sameTokens g = true := by
  rw [sameTokens_iff]
  exact ⟨content_eq_of_normalized, normalized_eq_of_content⟩

/-- **Unique decoding.** Formulas, in whatever letter case each was read, are equal exactly if their
tokens are the same, and then they have the same variables. -/
theorem beq_iff_sameTokens (f g : Formula) :
    ((f == g) = true ↔ f.sameTokens g = true) ∧
      ((f == g) = true → f.variableNames = g.variableNames) := by
  rw [beq_eq_true_iff, normalized_eq_iff_sameTokens]
  refine ⟨Iff.rfl, fun h => ?_⟩
  exact variableNames_eq_of_content ((sameTokens_iff f g).mp h)

theorem beq_iff_sameTokens_cases : ∃ f g,
    Formula.parse .upper "x1 + 2.0" = .ok f ∧ Formula.parse .preserve "X1+2" = .ok g ∧ (f == g) = true ∧
      ((f == g) = true ↔ f.sameTokens g = true) ∧
      ((f == g) = true → f.variableNames = g.variableNames) := by
  have htok : tokenize .upper "x1 + 2.0" = .ok
      [⟨.var, "X1", ⟨0, 2⟩⟩, ⟨.operator .add, "+", ⟨3, 4⟩⟩, ⟨.number, "2", ⟨5, 8⟩⟩] :=
    (tokenize_eq_ok_iff ..).mpr ⟨by decide +kernel, by decide +kernel⟩
  have htok' : tokenize .preserve "X1+2" = .ok
      [⟨.var, "X1", ⟨0, 2⟩⟩, ⟨.operator .add, "+", ⟨2, 3⟩⟩, ⟨.number, "2", ⟨3, 4⟩⟩] :=
    (tokenize_eq_ok_iff ..).mpr ⟨by decide +kernel, by decide +kernel⟩
  obtain ⟨f, hf, htokens⟩ := exists_formula htok rfl
  obtain ⟨g, hg, htokens'⟩ := exists_formula htok' rfl
  have hsame : f.sameTokens g = true := by
    rw [sameTokens_iff, htokens, htokens']
    rfl
  have h := beq_iff_sameTokens f g
  exact ⟨f, g, hf, hg, h.1.mpr hsame, h⟩

end SheetFormula
