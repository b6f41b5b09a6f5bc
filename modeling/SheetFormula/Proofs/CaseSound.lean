import Mathlib
import SheetFormula.Proofs.AgreeSound
import SheetFormula.Proofs.CaseLemmas
import SheetFormula.Proofs.NameLemmas

/-!
# Letter case changes no verdict

The letter case that is asked for only shows in the names of variables (`parse_variableCase_agree`), and the
letter case that a source is written in shows nowhere once names are in upper case
(`parse_letterCase_agree`).
-/

namespace SheetFormula

/-! ## One source in both letter cases -/

/-- The same but for the name of a variable, which is in upper case. -/
def Recased (c c' : Kind × String) : Prop :=
  c.1 = c'.1 ∧ (c'.1 ≠ .var → c.2 = c'.2) ∧ (c'.1 = .var → c.2 = upperText c'.2)

theorem readAlike_recased {l : Lexeme} (hm : l.shape.Matches l.text) :
    l.ReadAlike id Recased .upper .preserve l := by
  refine ⟨rfl, ?_⟩
  obtain ⟨shape, r⟩ := l
  cases shape with
  | blank => exact .none
  | mark k =>
    obtain ⟨c, hc, -⟩ := hm
    refine .some (.ok ⟨rfl, fun _ => rfl, fun hk => ?_⟩)
    have hatom := (isLexeme_of_markKind? hc).2.2
    rw [show k = .var from hk] at hatom
    cases hatom
  | number =>
    simp only [Lexeme.read]
    refine .some ?_
    cases normalizeNumber (String.ofList r) with
    | ok canonical => exact .ok ⟨rfl, fun _ => rfl, fun hk => by cases hk⟩
    | error fault => cases fault <;> exact .error ⟨rfl, rfl, rfl⟩
  | var => exact .some (.ok ⟨rfl, fun h => absurd rfl h, fun _ => rfl⟩)
  | unknown => exact .some (.error ⟨rfl, rfl, rfl⟩)

def Token.upper (t : Token) : Token :=
  { t with text := upperText t.text }

theorem Token.Like.eq_upper {g : Formula} {t u : Token} (hu : u ∈ g.tokens) (h : Token.Like Recased t u) :
    t = u.upper := by
  obtain ⟨_, r, hr, hs⟩ := g.exists_isLexeme hu
  obtain ⟨⟨hkind, hother, hvar⟩, hspan⟩ := h
  have htext : t.text = upperText u.text := by
    by_cases hk : u.kind = .var
    · exact hvar hk
    · rw [upperText_normalText hr hs hk]; exact hother hk
  obtain ⟨k, text, span⟩ := t
  simp only [Token.content] at hkind
  subst hkind htext hspan
  rfl

theorem tokens_eq_map_upper {g : Formula} {ts : List Token}
    (h : List.Forall₂ (Token.Like Recased) ts g.tokens) : ts = g.tokens.map Token.upper := by
  rw [List.forall₂_iff_zip] at h
  rw [← List.forall₂_eq_eq_eq, List.forall₂_map_right_iff, List.forall₂_iff_zip]
  exact ⟨h.1, fun hmem => (h.2 hmem).eq_upper (List.of_mem_zip hmem).2⟩

theorem mem_variableNames_upper {f g : Formula} (h : f.tokens = g.tokens.map Token.upper) (name : String) :
    name ∈ f.variableNames ↔ ∃ x ∈ g.variableNames, upperText x = name := by
  simp only [mem_variableNames, h, List.mem_map]
  constructor
  · rintro ⟨_, ⟨u, hu, rfl⟩, hk, rfl⟩
    exact ⟨u.text, ⟨u, hu, hk, rfl⟩, rfl⟩
  · rintro ⟨_, ⟨u, hu, hk, rfl⟩, rfl⟩
    exact ⟨_, ⟨u, hu, rfl⟩, hk, rfl⟩

theorem variableNames_upper {f g : Formula} (h : f.tokens = g.tokens.map Token.upper) :
    f.variableNames = sortedNames (g.variableNames.map upperText) := by
  have hsorted : f.variableNames = sortedNames f.variableNames :=
    List.Pairwise.eq_of_mem_iff (pairwise_sortedNames _) (pairwise_sortedNames _) (by simp)
  rw [hsorted]
  apply sortedNames_congr
  intro name
  rw [mem_variableNames_upper h]
  simp

/-- **The chosen letter case only shows in variables.** In both letter cases a source is accepted, with the
same tokens but for the names of variables, or it is rejected for the same fault at the same place. -/
theorem parse_variableCase_agree (source : String) :
    (∃ f g, Formula.parse .upper source = .ok f ∧ Formula.parse .preserve source = .ok g ∧
      List.Forall₂ (fun t u => t.kind = u.kind ∧ t.span = u.span ∧ (u.kind ≠ .var → t.text = u.text))
        f.tokens g.tokens ∧
      f.normalized = upperText g.normalized ∧
      f.variableNames = sortedNames (g.variableNames.map upperText) ∧
      ∀ name, name ∈ f.variableNames ↔ ∃ x ∈ g.variableNames, upperText x = name) ∨
    ∃ r r', Formula.parse .upper source = .error r ∧ Formula.parse .preserve source = .error r' ∧
      r.fault.name = r'.fault.name ∧ r.rule = r'.rule ∧ r.span = r'.span ∧ r.notes = r'.notes ∧
      r.fault.text? = r'.fault.text? ∧ r.fault.count? = r'.fault.count? := by
  have hlexemes : List.Forall₂ (Lexeme.ReadAlike id Recased .upper .preserve) (lexemes source.toList)
      (lexemes source.toList) :=
    List.forall₂_same.mpr fun l hl => readAlike_recased (lexemes_matches _ l hl)
  rcases (parse_agree id Recased .upper .preserve (fun _ _ h => h.1) rfl hlexemes).elim with
    ⟨f, g, hf, hg, h⟩ | ⟨r, r', hr, hr', h⟩
  · have htokens := tokens_eq_map_upper h
    refine .inl ⟨f, g, hf, hg, h.imp fun t u htu => ⟨htu.1.1, htu.2, htu.1.2.1⟩, ?_,
      variableNames_upper htokens, mem_variableNames_upper htokens⟩
    apply normalized_eq_upperText
    rw [htokens, List.map_map]; rfl
  · exact .inr ⟨r, r', hr, hr', h.fault.name, h.fault.rule, h.span, h.notes, by simpa using h.fault.text,
      h.fault.count⟩

/-! ## Two sources that differ in letter case -/

theorem readAlike_upper {l l' : Lexeme} (hm : l.shape.Matches l.text) (hm' : l'.shape.Matches l'.text)
    (h : l.upper = l'.upper) : l.ReadAlike upperText Eq .upper .upper l' := by
  obtain ⟨shape, r⟩ := l
  obtain ⟨shape', r'⟩ := l'
  obtain ⟨rfl, hr⟩ := Lexeme.mk.inj h
  have htext : upperText (String.ofList r) = upperText (String.ofList r') := by
    rw [← String.toList_inj, toList_upperText, toList_upperText, String.toList_ofList, String.toList_ofList]
    exact hr
  refine ⟨?_, ?_⟩
  · rw [← byteLength_map_toUpper, hr, byteLength_map_toUpper]
  cases shape with
  | blank => exact .none
  | mark k =>
    obtain ⟨c, hc, rfl⟩ := hm
    obtain ⟨c', hc', rfl⟩ := hm'
    simp only [List.map_cons, List.map_nil, toUpper_of_mark hc, toUpper_of_mark hc'] at hr
    exact .some (.ok (by rw [hr]))
  | number =>
    simp only [Lexeme.read]
    rw [← normalizeNumber_upperText (String.ofList r), htext, normalizeNumber_upperText]
    refine .some ?_
    cases normalizeNumber (String.ofList r') with
    | ok canonical => exact .ok rfl
    | error fault => cases fault <;> exact .error ⟨rfl, congrArg some htext, rfl⟩
  | var => exact .some (.ok (congrArg (Prod.mk Kind.var) htext))
  | unknown => exact .some (.error ⟨rfl, congrArg some htext, rfl⟩)

theorem forall₂_readAlike_upper {cs cs' : List Char} (h : cs.map Char.toUpper = cs'.map Char.toUpper) :
    List.Forall₂ (Lexeme.ReadAlike upperText Eq .upper .upper) (lexemes cs) (lexemes cs') := by
  have hupper : (lexemes cs).map Lexeme.upper = (lexemes cs').map Lexeme.upper := by
    rw [← lexemes_map_toUpper, h, lexemes_map_toUpper]
  rw [← List.forall₂_eq_eq_eq, List.forall₂_map_left_iff, List.forall₂_map_right_iff,
    List.forall₂_iff_zip] at hupper
  refine List.forall₂_iff_zip.mpr ⟨hupper.1, fun hmem => ?_⟩
  obtain ⟨hl, hl'⟩ := List.of_mem_zip hmem
  exact readAlike_upper (lexemes_matches cs _ hl) (lexemes_matches cs' _ hl') (hupper.2 hmem)

/-- **The letter case of a source does not matter.** With names in upper case, sources that differ in
letter case only are accepted with the same tokens or rejected for the same fault at the same place. -/
theorem parse_letterCase_agree {source source' : String} (h : upperText source = upperText source') :
    (∃ f f', Formula.parse .upper source = .ok f ∧ Formula.parse .upper source' = .ok f' ∧
      f.tokens = f'.tokens ∧ f.normalized = f'.normalized) ∨
    ∃ r r', Formula.parse .upper source = .error r ∧ Formula.parse .upper source' = .error r' ∧
      r.fault.name = r'.fault.name ∧ r.rule = r'.rule ∧ r.span = r'.span ∧ r.notes = r'.notes := by
  have hchars : source.toList.map Char.toUpper = source'.toList.map Char.toUpper := by
    rw [← toList_upperText, h, toList_upperText]
  have hbytes : byteLength source.toList = byteLength source'.toList := by
    rw [← byteLength_map_toUpper, hchars, byteLength_map_toUpper]
  rcases (parse_agree upperText Eq .upper .upper (fun _ _ => congrArg Prod.fst) hbytes
    (forall₂_readAlike_upper hchars)).elim with ⟨f, f', hf, hf', hlike⟩ | ⟨r, r', hr, hr', hlike⟩
  · have htokens : f.tokens = f'.tokens := by
      rw [← List.forall₂_eq_eq_eq]
      refine hlike.imp fun t t' ht => ?_
      obtain ⟨k, text, span⟩ := t
      obtain ⟨⟨rfl, rfl⟩, rfl⟩ := And.imp_left Prod.mk.inj ht
      rfl
    exact .inl ⟨f, f', hf, hf', htokens, by rw [Formula.normalized, htokens, Formula.normalized]⟩
  · exact .inr ⟨r, r', hr, hr', hlike.fault.name, hlike.fault.rule, hlike.span, hlike.notes⟩

-- an exponent and a name
theorem parse_letterCase_agree_exponent : ∃ f f', Formula.parse .upper "x1*2e3" = .ok f ∧
    Formula.parse .upper "X1*2E3" = .ok f' ∧ f.tokens = f'.tokens ∧ f.normalized = "X1*2000" ∧
    f'.normalized = "X1*2000" := by
  have htok : tokenize .upper "x1*2e3" = .ok
      [⟨.var, "X1", ⟨0, 2⟩⟩, ⟨.operator .mul, "*", ⟨2, 3⟩⟩, ⟨.number, "2000", ⟨3, 6⟩⟩] :=
    (tokenize_eq_ok_iff ..).mpr ⟨by decide +kernel, by decide +kernel⟩
  obtain ⟨f, hlower, htokens⟩ := exists_formula htok rfl
  have hnormalized : f.normalized = "X1*2000" := by
    rw [Formula.normalized, htokens]
    decide +kernel
  have hcase : upperText "x1*2e3" = upperText "X1*2E3" := by decide +kernel
  rcases parse_letterCase_agree hcase with ⟨_, f', hf, hf', hsame, hequal⟩ | ⟨r, -, hr, -⟩
  · cases hlower.symm.trans hf
    exact ⟨f, f', hlower, hf', hsame, hnormalized, hequal.symm.trans hnormalized⟩
  · cases hlower.symm.trans hr

end SheetFormula
