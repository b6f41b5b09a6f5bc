import SheetFormula.Proofs.LayoutSound
import SheetFormula.Proofs.NormalSound

/-!
# Blanks between tokens do not count

`Laid.spelling`: a source spells the slices under its tokens, with blanks around them. Other blanks around
the same slices spell the same expression (`isSpelling_spaced`), so that they are read as the same tokens:
`parse_respaced`.
-/

namespace SheetFormula

/-! ## Pieces and the tokens they are read as -/

def Piece.slice (p : Piece) : String :=
  String.ofList p.text

def Piece.Reads (vc : VariableCase) (p : Piece) (t : Token) : Prop :=
  p.kind = t.kind ∧ p.kind.normalText? vc p.text = some t.text

theorem parse_of_reads {vc : VariableCase} {source : String} {lead : List Char} {pieces : List Piece}
    {tokens : List Token} (h : IsSpelling source.toList lead pieces)
    (hreads : List.Forall₂ (Piece.Reads vc) pieces tokens) (he : IsExpr (tokens.map Token.kind)) :
    ∃ f, Formula.parse vc source = .ok f ∧ f.tokens.map Token.content = tokens.map Token.content := by
  let texts : Piece → String := fun p => (p.kind.normalText? vc p.text).getD ""
  have hkinds : pieces.map Piece.kind = tokens.map Token.kind := by
    rw [← List.forall₂_eq_eq_eq, List.forall₂_map_left_iff, List.forall₂_map_right_iff]
    exact hreads.imp fun p t hp => hp.1
  have htexts : ∀ p ∈ pieces, p.kind.normalText? vc p.text = some (texts p) := by
    refine ((List.forall₂_and_left ..).mp (hreads.imp fun p t hp => ⟨?_, hp⟩)).1
    simp only [texts, hp.2, Option.getD_some]
  have hcontent : (pieces.map fun p => (p.kind, texts p)) = tokens.map Token.content := by
    rw [← List.forall₂_eq_eq_eq, List.forall₂_map_left_iff, List.forall₂_map_right_iff]
    refine hreads.imp fun p t hp => ?_
    simp only [texts, hp.2, Option.getD_some]
    rw [hp.1]; rfl
  rw [← hcontent]
  exact parse_spelling h (hkinds ▸ he) htexts

/-! ## The slices of a source -/

/-- The piece stands in the text where the token's span says, and is read as the token. -/
structure Piece.Holds (vc : VariableCase) (n : Nat) (cs : List Char) (p : Piece) (t : Token) : Prop where
  reads : p.Reads vc t
  place : ∃ pre post, cs = pre ++ p.text ++ post ∧
    t.span = ⟨n + byteLength pre, n + byteLength pre + byteLength p.text⟩

theorem Piece.Holds.append_left {vc : VariableCase} {n : Nat} {cs r : List Char} {p : Piece} {t : Token}
    (h : p.Holds vc (n + byteLength r) cs t) : p.Holds vc n (r ++ cs) t := by
  obtain ⟨hreads, pre, post, rfl, hspan⟩ := h
  refine ⟨hreads, r ++ pre, post, ?_, ?_⟩
  · rw [List.append_assoc, List.append_assoc, List.append_assoc]
  · rw [hspan, byteLength_append, Nat.add_assoc n]

theorem Laid.spelling {vc : VariableCase} {n : Nat} {cs : List Char} {ts : List Token} (h : Laid vc n cs ts) :
    ∃ lead pieces, IsSpelling cs lead pieces ∧ List.Forall₂ (Piece.Holds vc n cs) pieces ts := by
  induction h with
  | nil => exact ⟨[], [], ⟨rfl, nofun, nofun, nofun⟩, .nil⟩
  | @blank n c cs ts hc _ ih =>
    obtain ⟨lead, pieces, hs, hholds⟩ := ih
    refine ⟨c :: lead, pieces, ⟨?_, ?_, hs.blanks_blank, hs.lexeme⟩, ?_⟩
    · rw [hs.eq]; rfl
    · exact List.forall_mem_cons.mpr ⟨hc, hs.lead_blank⟩
    · exact hholds.imp fun p t hp => Piece.Holds.append_left (r := [c]) hp
  | @token n k r cs text ts hk htext _ ih =>
    obtain ⟨lead, pieces, hs, hholds⟩ := ih
    refine ⟨[], ⟨k, r, lead⟩ :: pieces, ⟨?_, nofun, ?_, ?_⟩, ?_⟩
    · rw [List.flatMap_cons, List.nil_append, List.append_assoc, ← hs.eq]
    · exact List.forall_mem_cons.mpr ⟨hs.lead_blank, hs.blanks_blank⟩
    · exact List.forall_mem_cons.mpr ⟨hk, hs.lexeme⟩
    · apply List.Forall₂.cons
      · exact ⟨⟨rfl, htext⟩, [], cs, rfl, rfl⟩
      · exact hholds.imp fun p t hp => hp.append_left

theorem Piece.Holds.slice_eq {vc : VariableCase} {source : String} {p : Piece} {t : Token}
    (h : p.Holds vc 0 source.toList t) : t.span.slice? source = some p.slice := by
  obtain ⟨pre, post, hsource, hspan⟩ := h.place
  apply slice?_eq_some_iff.mpr
  refine ⟨pre, post, ?_, ?_⟩
  · rw [Piece.slice, String.toList_ofList]; exact hsource
  · rw [Piece.slice, String.toList_ofList, hspan, Nat.zero_add]

/-! ## Other blanks -/

/-- The text `w₀ r₁ w₁ … rₙ wₙ`, where `lead` is `w₀` and `gaps` are the others. -/
def spaced (lead : String) (rs gaps : List String) : String :=
  lead ++ String.join ((rs.zip gaps).map fun p => p.1 ++ p.2)

def Piece.withBlanks (p : Piece) (w : String) : Piece :=
  { p with blanks := w.toList }

theorem toList_spaced (lead : String) (pieces : List Piece) (gaps : List String) :
    (spaced lead (pieces.map Piece.slice) gaps).toList =
      lead.toList ++ ((pieces.zip gaps).map fun p => p.1.withBlanks p.2).flatMap fun p => p.text ++ p.blanks := by
  simp [spaced, String.toList_join, List.flatMap_map, List.zip_map_left, Piece.withBlanks, Piece.slice]

theorem toList_spaced_map (lead : String) (pieces : List Piece) (gap : Piece → String) :
    (spaced lead (pieces.map Piece.slice) (pieces.map gap)).toList =
      lead.toList ++ pieces.flatMap fun p => p.text ++ (gap p).toList := by
  simp [spaced, String.toList_join, List.flatMap_map, List.zip_map', Piece.slice]

theorem isSpelling_spaced {lead : String} {pieces : List Piece} {gaps : List String}
    (hl : ∀ p ∈ pieces, p.kind.IsLexeme p.text)
    (hb : ∀ w ∈ lead :: gaps, ∀ c ∈ w.toList, isBlank c = true) :
    IsSpelling (spaced lead (pieces.map Piece.slice) gaps).toList lead.toList
      ((pieces.zip gaps).map fun p => p.1.withBlanks p.2) := by
  refine ⟨toList_spaced lead pieces gaps, hb lead (by simp), ?_, ?_⟩
  · intro q hq
    obtain ⟨⟨p, w⟩, hmem, rfl⟩ := List.mem_map.mp hq
    exact hb w (List.mem_cons_of_mem _ (List.of_mem_zip hmem).2)
  · intro q hq
    obtain ⟨⟨p, w⟩, hmem, rfl⟩ := List.mem_map.mp hq
    exact hl p (List.of_mem_zip hmem).1

theorem forall₂_reads_withBlanks {vc : VariableCase} {pieces : List Piece} {gaps : List String}
    {tokens : List Token} (hlen : gaps.length = pieces.length)
    (h : List.Forall₂ (Piece.Reads vc) pieces tokens) :
    List.Forall₂ (Piece.Reads vc) ((pieces.zip gaps).map fun p => p.1.withBlanks p.2) tokens := by
  rw [← List.map_fst_zip (Nat.le_of_eq hlen.symm), List.forall₂_map_left_iff] at h
  rw [List.forall₂_map_left_iff]
  exact h

/-! ## Without blanks -/

theorem IsSpelling.filter_isBlank {text lead : List Char} {pieces : List Piece} (h : IsSpelling text lead pieces) :
    text.filter (fun c => !isBlank c) = pieces.flatMap Piece.text := by
  have hblank : ∀ w : List Char, (∀ c ∈ w, isBlank c = true) → w.filter (fun c => !isBlank c) = [] := by
    intro w hw
    simpa [List.filter_eq_nil_iff] using hw
  rw [h.eq, List.filter_append, hblank lead h.lead_blank, List.nil_append, List.filter_flatMap]
  apply List.flatMap_congr
  intro p hp
  have htext : p.text.filter (fun c => !isBlank c) = p.text := by
    rw [List.filter_eq_self]
    intro c hc
    rw [(h.lexeme p hp).not_isBlank c hc]; rfl
  rw [List.filter_append, htext, hblank p.blanks (h.blanks_blank p hp), List.append_nil]

/-- Blanks may stand anywhere around the slices of a formula's tokens. -/
structure FreelySpaced (vc : VariableCase) (source : String) (f : Formula) (rs : List String) : Prop where
  slices : f.tokens.map (fun t => t.span.slice? source) = rs.map some
  written : ∃ lead gaps, gaps.length = rs.length ∧ (∀ w ∈ lead :: gaps, ∀ c ∈ w.toList, isBlank c = true) ∧
    source = spaced lead rs gaps
  respaced : ∀ lead gaps, gaps.length = rs.length → (∀ w ∈ lead :: gaps, ∀ c ∈ w.toList, isBlank c = true) →
    ∃ g, Formula.parse vc (spaced lead rs gaps) = .ok g ∧ g.sameTokens f = true ∧ g.normalized = f.normalized
  dense : ∃ g, Formula.parse vc (String.ofList (source.toList.filter fun c => !isBlank c)) = .ok g ∧
    g.sameTokens f = true ∧ g.normalized = f.normalized

/-- **Layout does not matter.** The slices under the tokens of a formula give the same formula with any
blanks around them, also with none. -/
theorem parse_respaced {vc : VariableCase} {source : String} {f : Formula}
    (h : Formula.parse vc source = .ok f) : ∃ rs, FreelySpaced vc source f rs := by
  obtain ⟨htok, -, -⟩ := (parse_eq_ok_iff vc source f).mp h
  obtain ⟨lead, pieces, hs, hholds⟩ := (laid_of_tokenize htok).spelling
  have hreads : List.Forall₂ (Piece.Reads vc) pieces f.tokens := hholds.imp fun p t hp => hp.reads
  have hparse : ∀ (lead : String) (gaps : List String), gaps.length = pieces.length →
      (∀ w ∈ lead :: gaps, ∀ c ∈ w.toList, isBlank c = true) →
      ∃ g, Formula.parse vc (spaced lead (pieces.map Piece.slice) gaps) = .ok g ∧ g.sameTokens f = true ∧
        g.normalized = f.normalized := by
    intro lead gaps hlen hb
    obtain ⟨g, hg, hcontent⟩ := parse_of_reads (isSpelling_spaced hs.lexeme hb)
      (forall₂_reads_withBlanks hlen hreads) f.isExpr
    exact ⟨g, hg, (sameTokens_iff g f).mpr hcontent, normalized_eq_of_content hcontent⟩
  refine ⟨pieces.map Piece.slice, ?_, ?_, ?_, ?_⟩
  · rw [List.map_map, ← List.forall₂_eq_eq_eq, List.forall₂_map_left_iff, List.forall₂_map_right_iff]
    exact hholds.flip.imp fun t p hp => hp.slice_eq
  · refine ⟨String.ofList lead, pieces.map fun p => String.ofList p.blanks, by simp, ?_, ?_⟩
    · simpa using ⟨hs.lead_blank, hs.blanks_blank⟩
    · rw [← String.toList_inj, toList_spaced_map, String.toList_ofList, hs.eq]
      simp only [String.toList_ofList]
  · intro lead gaps hlen hb
    rw [List.length_map] at hlen
    exact hparse lead gaps hlen hb
  · have hdense : String.ofList (source.toList.filter fun c => !isBlank c) =
        spaced "" (pieces.map Piece.slice) (pieces.map fun _ => "") := by
      rw [← String.toList_inj, toList_spaced_map, String.toList_ofList, hs.filter_isBlank]
      simp
    rw [hdense]
    exact hparse "" _ (by simp) (by simp)

-- the sign of an exponent stays with its number, and no blanks are left elsewhere
theorem parse_respaced_exponent : ∃ f, Formula.parse .upper " x1 -1e+2" = .ok f ∧
    (∃ rs, FreelySpaced .upper " x1 -1e+2" f rs) ∧
    f.tokens.map (fun t => t.span.slice? " x1 -1e+2") = [some "x1", some "-", some "1e+2"] := by
  have htok : tokenize .upper " x1 -1e+2" = .ok
      [⟨.var, "X1", ⟨1, 3⟩⟩, ⟨.operator .sub, "-", ⟨4, 5⟩⟩, ⟨.number, "100", ⟨5, 9⟩⟩] :=
    (tokenize_eq_ok_iff ..).mpr ⟨by decide +kernel, by decide +kernel⟩
  obtain ⟨f, hf, htokens⟩ := exists_formula htok rfl
  refine ⟨f, hf, parse_respaced hf, ?_⟩
  rw [htokens]
  decide +kernel

end SheetFormula
