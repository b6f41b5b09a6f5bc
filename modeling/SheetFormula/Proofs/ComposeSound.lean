import SheetFormula.Proofs.NameLemmas
import SheetFormula.Proofs.SpacingSound

/-!
# Formulas made of formulas

A spelling goes on behind a mark with whatever blanks come next (`Spelled.mark`), and behind its last blanks
with another spelling (`Spelled.append`). So sources of formulas can be joined by an operator or put in
parentheses as they are written, and no lexeme of theirs is cut differently: `parse_composed`.
-/

namespace SheetFormula

/-! ## Expressions -/

-- the operator before `v` comes to stand before the first operand of `v`
theorem IsExpr.join {u v : List Kind} (hu : IsExpr u) (op : Operator) (hv : IsExpr v) :
    IsExpr (u ++ .operator op :: v) := by
  match hv with
  | @IsExpr.binary v w op' hv hw =>
    have := IsExpr.binary op' (hu.join op hv) hw
    simpa using this
  | .operand hv => exact .binary op hu hv

/-! ## Spellings of tokens -/

/-- Blanks `lead`, and then pieces that are read as the tokens. -/
def Spelled (vc : VariableCase) (lead cs : List Char) (ts : List Token) : Prop :=
  ∃ pieces, IsSpelling cs lead pieces ∧ List.Forall₂ (Piece.Reads vc) pieces ts

def markToken (k : Kind) (c : Char) : Token :=
  ⟨k, String.singleton c, ⟨0, 0⟩⟩

section
variable {vc : VariableCase} {lead cs ds : List Char} {ts us : List Token}

theorem spelled_nil : Spelled vc [] [] [] :=
  ⟨[], ⟨rfl, nofun, nofun, nofun⟩, .nil⟩

theorem Spelled.append (h : Spelled vc lead cs ts) (h' : Spelled vc [] ds us) :
    Spelled vc lead (cs ++ ds) (ts ++ us) := by
  obtain ⟨ps, hs, hreads⟩ := h
  obtain ⟨qs, hs', hreads'⟩ := h'
  refine ⟨ps ++ qs, ⟨?_, hs.lead_blank, ?_, ?_⟩, List.rel_append hreads hreads'⟩
  · rw [hs.eq, hs'.eq, List.nil_append, List.flatMap_append, List.append_assoc]
  · exact List.forall_mem_append.mpr ⟨hs.blanks_blank, hs'.blanks_blank⟩
  · exact List.forall_mem_append.mpr ⟨hs.lexeme, hs'.lexeme⟩

theorem reads_mark {c : Char} {k : Kind} (hc : markKind? c = some k) :
    Piece.Reads vc ⟨k, [c], lead⟩ (markToken k c) := by
  obtain ⟨-, -, hk⟩ := isLexeme_of_markKind? hc
  refine ⟨rfl, ?_⟩
  cases k with
  | number => cases hk
  | var => cases hk
  | _ => rfl

theorem Spelled.mark {c : Char} {k : Kind} (hc : markKind? c = some k) (h : Spelled vc lead cs ts) :
    Spelled vc [] (c :: cs) (markToken k c :: ts) := by
  obtain ⟨ps, hs, hreads⟩ := h
  refine ⟨⟨k, [c], lead⟩ :: ps, ⟨?_, nofun, ?_, ?_⟩, .cons (reads_mark hc) hreads⟩
  · rw [hs.eq]
    rfl
  · exact List.forall_mem_cons.mpr ⟨hs.lead_blank, hs.blanks_blank⟩
  · exact List.forall_mem_cons.mpr ⟨(isLexeme_of_markKind? hc).1, hs.lexeme⟩

end

/-! ## Formulas -/

theorem spelled_of_parse {vc : VariableCase} {source : String} {f : Formula}
    (h : Formula.parse vc source = .ok f) :
    IsExpr (f.tokens.map Token.kind) ∧ ∃ lead, Spelled vc lead source.toList f.tokens := by
  obtain ⟨htok, -, -⟩ := (parse_eq_ok_iff vc source f).mp h
  obtain ⟨lead, pieces, hs, hholds⟩ := (laid_of_tokenize htok).spelling
  exact ⟨f.isExpr, lead, pieces, hs, hholds.imp fun p t hp => hp.reads⟩

theorem parse_of_spelled {vc : VariableCase} {source : String} {lead : List Char} {ts : List Token}
    (h : Spelled vc lead source.toList ts) (he : IsExpr (ts.map Token.kind)) :
    ∃ f, Formula.parse vc source = .ok f ∧ f.tokens.map Token.content = ts.map Token.content := by
  obtain ⟨pieces, hs, hreads⟩ := h
  exact parse_of_reads hs hreads he

section
variable {vc : VariableCase} {s : String} {f : Formula} (hf : Formula.parse vc s = .ok f)
include hf

theorem parse_binary {t : String} {g : Formula} (hg : Formula.parse vc t = .ok g) (op : Operator) :
    ∃ h, Formula.parse vc (s ++ String.singleton op.char ++ t) = .ok h ∧
      h.normalized = f.normalized ++ String.singleton op.char ++ g.normalized ∧
      h.variableNames = sortedNames (f.variableNames ++ g.variableNames) := by
  obtain ⟨hexpr, lead, hs⟩ := spelled_of_parse hf
  obtain ⟨hexpr', lead', ht⟩ := spelled_of_parse hg
  let ts : List Token := f.tokens ++ markToken (.operator op) op.char :: g.tokens
  have hspelled : Spelled vc lead (s ++ String.singleton op.char ++ t).toList ts := by
    have := hs.append (ht.mark op.markKind?_char)
    simpa using this
  have hkinds : IsExpr (ts.map Token.kind) := by
    have := hexpr.join op hexpr'
    simpa [ts, markToken] using this
  obtain ⟨h, hh, hcontent⟩ := parse_of_spelled hspelled hkinds
  refine ⟨h, hh, ?_, ?_⟩
  · rw [normalized_eq_of_content hcontent]
    apply String.toList_injective
    simp [toList_normalized, ts, markToken]
  · rw [variableNames_eq_of_content hcontent]
    apply sortedNames_congr
    intro name
    simp [ts, markToken, mem_variableNames, and_assoc]

theorem parse_group : ∃ h, Formula.parse vc ("(" ++ s ++ ")") = .ok h ∧
    h.normalized = "(" ++ f.normalized ++ ")" ∧ h.variableNames = f.variableNames := by
  obtain ⟨hexpr, lead, hs⟩ := spelled_of_parse hf
  let ts : List Token := markToken .openParen '(' :: (f.tokens ++ [markToken .closeParen ')'])
  have hspelled : Spelled vc [] ("(" ++ s ++ ")").toList ts := by
    have hclose : Spelled vc [] [')'] [markToken .closeParen ')'] := spelled_nil.mark rfl
    have := (hs.append hclose).mark (c := '(') rfl
    simpa using this
  have hkinds : IsExpr (ts.map Token.kind) := by
    have := IsExpr.operand (.group hexpr)
    simpa [ts, markToken] using this
  obtain ⟨h, hh, hcontent⟩ := parse_of_spelled hspelled hkinds
  refine ⟨h, hh, ?_, ?_⟩
  · rw [normalized_eq_of_content hcontent]
    apply String.toList_injective
    simp [toList_normalized, ts, markToken]
  · rw [variableNames_eq_of_content hcontent, Formula.variableNames]
    simp [ts, markToken]

/-- **Normalizing is compositional.** Formulas joined by an operator, or one in parentheses, are a formula, and
its normalized text is put together from theirs the same way. -/
theorem parse_composed {t : String} {g : Formula} (hg : Formula.parse vc t = .ok g) :
    (∀ op : Operator, ∃ h, Formula.parse vc (s ++ String.singleton op.char ++ t) = .ok h ∧
      h.normalized = f.normalized ++ String.singleton op.char ++ g.normalized ∧
      h.variableNames = sortedNames (f.variableNames ++ g.variableNames)) ∧
    ∃ h, Formula.parse vc ("(" ++ s ++ ")") = .ok h ∧ h.normalized = "(" ++ f.normalized ++ ")" ∧
      h.variableNames = f.variableNames :=
  ⟨parse_binary hf hg, parse_group hf⟩

end

-- the number before the `+` has an exponent without sign, and none after it
theorem parse_composed_exponent : ∃ f g, Formula.parse .upper "a1*1e2" = .ok f ∧
    Formula.parse .upper "\u3000.5-b2 " = .ok g ∧
    (∃ h, Formula.parse .upper ("a1*1e2" ++ "+" ++ "\u3000.5-b2 ") = .ok h ∧
      h.normalized = "A1*100+0.5-B2" ∧ h.variableNames = ["A1", "B2"]) ∧
    ∃ h, Formula.parse .upper ("(" ++ "a1*1e2" ++ ")") = .ok h ∧ h.normalized = "(A1*100)" := by
  have htok : tokenize .upper "a1*1e2" = .ok
      [⟨.var, "A1", ⟨0, 2⟩⟩, ⟨.operator .mul, "*", ⟨2, 3⟩⟩, ⟨.number, "100", ⟨3, 6⟩⟩] :=
    (tokenize_eq_ok_iff ..).mpr ⟨by decide +kernel, by decide +kernel⟩
  have htok' : tokenize .upper "\u3000.5-b2 " = .ok
      [⟨.number, "0.5", ⟨3, 5⟩⟩, ⟨.operator .sub, "-", ⟨5, 6⟩⟩, ⟨.var, "B2", ⟨6, 8⟩⟩] :=
    (tokenize_eq_ok_iff ..).mpr ⟨by decide +kernel, by decide +kernel⟩
  obtain ⟨f, hf, htokens⟩ := exists_formula htok rfl
  obtain ⟨g, hg, htokens'⟩ := exists_formula htok' rfl
  obtain ⟨hbinary, h', hh', hnormalized', -⟩ := parse_composed hf hg
  obtain ⟨h, hh, hnormalized, hnames⟩ := hbinary .add
  refine ⟨f, g, hf, hg, ⟨h, hh, ?_, ?_⟩, h', hh', ?_⟩
  · rw [hnormalized, Formula.normalized, Formula.normalized, htokens, htokens']
    decide +kernel
  · rw [hnames, Formula.variableNames, Formula.variableNames, htokens, htokens']
    decide +kernel
  · rw [hnormalized', Formula.normalized, htokens]
    decide +kernel

end SheetFormula
