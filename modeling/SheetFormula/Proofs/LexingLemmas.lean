import SheetFormula.Formula
import SheetFormula.Proofs.LexemeSound

/-!
# What lexing makes of the lexemes

Lexing goes through if no lexeme is a fault, and then the kinds and texts of its tokens are those that
the lexemes have one by one. A formula is read where lexing and the check go through
(`parse_eq_ok_iff`), and every formula has been read so (`Formula.exists_parse`).
-/

namespace SheetFormula

/-! ## Reading one lexeme -/

theorem normalizeNumber_eq_ok_iff {text s : String} : normalizeNumber text = .ok s ↔
    ∃ negative rank, readDouble? text = some (.finite negative rank) ∧ finiteText negative rank = s := by
  unfold normalizeNumber
  cases hx : readDouble? text with
  | none => simp
  | some x => cases x <;> simp

/-- The normalized text of a lexeme of the kind, unless it is a number without finite value. -/
def Kind.normalText? (vc : VariableCase) : Kind → List Char → Option String
  | .number, r => (normalizeNumber (String.ofList r)).toOption
  | .var, r => some (vc.apply (String.ofList r))
  | _, r => some (String.ofList r)

theorem normalText?_number_eq_some_iff {vc : VariableCase} {r : List Char} {s : String} :
    Kind.number.normalText? vc r = some s ↔ normalizeNumber (String.ofList r) = .ok s := by
  simp only [Kind.normalText?]
  cases h : normalizeNumber (String.ofList r) <;> simp [Except.toOption]

/-- What a token says, wherever it stands. -/
def Token.content (t : Token) : Kind × String :=
  (t.kind, t.text)

/-- The content of the token that a lexeme gives. -/
def Lexeme.content? (vc : VariableCase) (l : Lexeme) : Option (Kind × String) :=
  match l.read vc with
  | some (.ok content) => some content
  | _ => none

theorem content?_shape (vc : VariableCase) (k : Kind) (r : List Char) :
    (⟨k.shape, r⟩ : Lexeme).content? vc = (k.normalText? vc r).map (k, ·) := by
  cases k with
  | number =>
    simp only [Lexeme.content?, Lexeme.read, Kind.shape, Kind.normalText?]
    cases h : normalizeNumber (String.ofList r) with
    | ok s => rfl
    | error e => cases e <;> rfl
  | _ => rfl

theorem read_of_content? {vc : VariableCase} {l : Lexeme} {content : Kind × String}
    (h : l.content? vc = some content) : l.read vc = some (.ok content) := by
  unfold Lexeme.content? at h
  split at h
  · rename_i c hc; cases h; exact hc
  · cases h

theorem content?_blank (vc : VariableCase) (r : List Char) : (⟨.blank, r⟩ : Lexeme).content? vc = none := rfl

/-- A lexeme that gives a token is one of the token's kind. -/
theorem isLexeme_of_content? {vc : VariableCase} {l : Lexeme} {k : Kind} {s : String}
    (hm : l.shape.Matches l.text) (h : l.content? vc = some (k, s)) :
    l.shape = k.shape ∧ k.IsLexeme l.text ∧ k.normalText? vc l.text = some s := by
  obtain ⟨shape, r⟩ := l
  have key : ∀ k' : Kind, shape = k'.shape → k'.IsLexeme r →
      shape = k.shape ∧ k.IsLexeme r ∧ k.normalText? vc r = some s := by
    intro k' hs hl
    rw [hs, content?_shape, Option.map_eq_some_iff] at h
    obtain ⟨s', hs', heq⟩ := h
    cases heq
    exact ⟨hs, hl, hs'⟩
  cases shape with
  | blank => cases h
  | mark k' =>
    obtain ⟨c, hc, hr⟩ := hm
    obtain ⟨hl, hs, _⟩ := isLexeme_of_markKind? hc
    exact key k' hs.symm (by rw [show r = [c] from hr]; exact hl)
  | number => exact key .number rfl hm
  | var => exact key .var rfl hm
  | unknown => cases h

/-! ## Lexing -/

theorem ofLexemes_fault_eq_none_iff (vc : VariableCase) : ∀ (offset : Nat) (ls : List Lexeme),
    (Lexing.ofLexemes vc offset ls).fault = none ↔ ∀ l ∈ ls, ∀ fault, l.read vc ≠ some (.error fault)
  | _, [] => by simp [Lexing.ofLexemes]
  | offset, l :: ls => by
    have ih := ofLexemes_fault_eq_none_iff vc (offset + byteLength l.text) ls
    simp only [List.forall_mem_cons, Lexing.ofLexemes]
    cases hr : l.read vc with
    | none => simpa using ih
    | some read =>
      cases read with
      | error fault => simp
      | ok content => simpa using ih

theorem map_content_ofLexemes (vc : VariableCase) : ∀ (offset : Nat) (ls : List Lexeme),
    (Lexing.ofLexemes vc offset ls).fault = none →
      (Lexing.ofLexemes vc offset ls).tokens.map Token.content = ls.filterMap (Lexeme.content? vc)
  | _, [], _ => rfl
  | offset, l :: ls, h => by
    have ih := map_content_ofLexemes vc (offset + byteLength l.text) ls
    rw [List.filterMap_cons]
    simp only [Lexing.ofLexemes, Lexeme.content?] at h ⊢
    cases hr : l.read vc with
    | none => rw [hr] at h; exact ih h
    | some read =>
      cases read with
      | error fault => rw [hr] at h; cases h
      | ok content =>
        rw [hr] at h
        simp only [List.map_cons, ih h]
        rfl

theorem tokenize_eq_ok_iff (vc : VariableCase) (source : String) (tokens : List Token) :
    tokenize vc source = .ok tokens ↔
      (Lexing.ofSource vc source).fault = none ∧ (Lexing.ofSource vc source).tokens = tokens := by
  unfold tokenize
  cases h : (Lexing.ofSource vc source).fault with
  | none => simp [h]
  | some fault => simp [h]

theorem tokenize_eq_error_iff (vc : VariableCase) (source : String) (r : Rejection) :
    tokenize vc source = .error r ↔
      (Lexing.ofSource vc source).fault = some (r.fault, r.span) ∧ r.source = source ∧ r.notes = [] := by
  obtain ⟨fault, source', span, notes⟩ := r
  unfold tokenize
  cases h : (Lexing.ofSource vc source).fault with
  | none => simp [h]
  | some fault' =>
    obtain ⟨fault', span'⟩ := fault'
    simp only [h, Except.error.injEq, Rejection.mk.injEq, Option.some.injEq, Prod.mk.injEq]
    constructor
    · rintro ⟨rfl, rfl, rfl, rfl⟩; exact ⟨⟨rfl, rfl⟩, rfl, rfl⟩
    · rintro ⟨⟨rfl, rfl⟩, rfl, rfl⟩; exact ⟨rfl, rfl, rfl, rfl⟩

/-! ## Formulas -/

section
variable {vc : VariableCase} {source : String} {tokens : List Token} {r : Rejection}

theorem parse_of_check (ht : tokenize vc source = .ok tokens) (hc : check tokens source = .ok ()) :
    Formula.parse vc source = .ok ⟨source, tokens, ⟨vc, ht⟩, hc⟩ := by
  unfold Formula.parse
  split
  · next ht' => cases ht.symm.trans ht'
  · next ht' =>
    cases ht.symm.trans ht'
    split
    · next hc' => cases hc.symm.trans hc'
    · rfl

theorem parse_of_tokenize_error (ht : tokenize vc source = .error r) : Formula.parse vc source = .error r := by
  unfold Formula.parse
  split
  · next ht' => cases ht.symm.trans ht'; rfl
  · next ht' => cases ht.symm.trans ht'

theorem parse_of_check_error (ht : tokenize vc source = .ok tokens) (hc : check tokens source = .error r) :
    Formula.parse vc source = .error r := by
  unfold Formula.parse
  split
  · next ht' => cases ht.symm.trans ht'
  · next ht' =>
    cases ht.symm.trans ht'
    split
    · next hc' => cases hc.symm.trans hc'; rfl
    · next hc' => cases hc.symm.trans hc'

end

theorem parse_eq_ok_iff (vc : VariableCase) (source : String) (f : Formula) :
    Formula.parse vc source = .ok f ↔
      tokenize vc source = .ok f.tokens ∧ check f.tokens source = .ok () ∧ f.source = source := by
  constructor
  · intro h
    cases ht : tokenize vc source with
    | error r => rw [parse_of_tokenize_error ht] at h; cases h
    | ok tokens =>
      cases hc : check tokens source with
      | error r => rw [parse_of_check_error ht hc] at h; cases h
      | ok u =>
        rw [parse_of_check ht hc] at h
        cases h
        exact ⟨rfl, hc, rfl⟩
  · rintro ⟨ht, hc, rfl⟩
    exact parse_of_check ht hc

theorem parse_eq_error_iff (vc : VariableCase) (source : String) (r : Rejection) :
    Formula.parse vc source = .error r ↔ tokenize vc source = .error r ∨
      ∃ tokens, tokenize vc source = .ok tokens ∧ check tokens source = .error r := by
  constructor
  · intro h
    cases ht : tokenize vc source with
    | error r' =>
      rw [parse_of_tokenize_error ht] at h
      cases h
      exact .inl rfl
    | ok tokens =>
      cases hc : check tokens source with
      | error r' =>
        rw [parse_of_check_error ht hc] at h
        cases h
        exact .inr ⟨tokens, rfl, hc⟩
      | ok u => rw [parse_of_check ht hc] at h; cases h
  · rintro (ht | ⟨tokens, ht, hc⟩)
    · exact parse_of_tokenize_error ht
    · exact parse_of_check_error ht hc

theorem exists_formula {vc : VariableCase} {source : String} {tokens : List Token}
    (ht : tokenize vc source = .ok tokens) (hc : check tokens source = .ok ()) :
    ∃ f, Formula.parse vc source = .ok f ∧ f.tokens = tokens :=
  ⟨_, parse_of_check ht hc, rfl⟩

/-- Every formula is what its source is read as, in one letter case or the other. -/
theorem Formula.exists_parse (f : Formula) : ∃ vc, Formula.parse vc f.source = .ok f := by
  obtain ⟨vc, ht⟩ := f.lexed
  exact ⟨vc, parse_of_check ht f.checked⟩

/-! ## Tokens and lexemes -/

/-- The token contents of a text without fault are those of its lexemes. -/
theorem map_content_tokenize {vc : VariableCase} {source : String} {tokens : List Token}
    (h : tokenize vc source = .ok tokens) :
    tokens.map Token.content = (lexemes source.toList).filterMap (Lexeme.content? vc) := by
  obtain ⟨hf, rfl⟩ := (tokenize_eq_ok_iff vc source tokens).mp h
  exact map_content_ofLexemes vc 0 _ hf

/-- Every token comes from a lexeme of its kind. -/
theorem isLexeme_of_mem_tokenize {vc : VariableCase} {source : String} {tokens : List Token}
    (h : tokenize vc source = .ok tokens) {t : Token} (ht : t ∈ tokens) :
    ∃ r, t.kind.IsLexeme r ∧ t.kind.normalText? vc r = some t.text := by
  have hmem : t.content ∈ tokens.map Token.content := List.mem_map_of_mem ht
  rw [map_content_tokenize h, List.mem_filterMap] at hmem
  obtain ⟨l, hl, hc⟩ := hmem
  obtain ⟨_, hk, hs⟩ := isLexeme_of_content? (lexemes_matches _ l hl) hc
  exact ⟨l.text, hk, hs⟩

theorem Formula.exists_isLexeme (f : Formula) {t : Token} (ht : t ∈ f.tokens) :
    ∃ vc r, t.kind.IsLexeme r ∧ t.kind.normalText? vc r = some t.text := by
  obtain ⟨vc, htok⟩ := f.lexed
  exact ⟨vc, isLexeme_of_mem_tokenize htok ht⟩

end SheetFormula
