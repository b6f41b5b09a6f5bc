import SheetFormula.Proofs.CutLemmas
import SheetFormula.Proofs.PlaceSound
import SheetFormula.Proofs.ReadBack

/-!
# Where lexemes begin and end

A run is cut at the next separator, but a number goes on over the sign of its exponent and then ends where no
digit follows (`endsBefore_first`). So an operand stands between separators unless it or the one before it is
such a number: `lexing_boundaries`.
-/

namespace SheetFormula

/-! ## Numbers with a signed exponent -/

def HasSignedExponent (r : List Char) : Prop :=
  ∃ a mark sign b, r = a ++ mark :: sign :: b ∧ (mark = 'e' ∨ mark = 'E') ∧ (sign = '+' ∨ sign = '-')

section
variable {r : List Char} (h : IsNumber r)
include h

theorem IsNumber.hasSignedExponent {c : Char} (hc : c ∈ r) (hsep : isSeparator c = true) :
    HasSignedExponent r := by
  obtain ⟨m, e, hm, he, rfl⟩ := h.split
  rcases List.mem_append.mp hc with hc | hc
  · rw [not_isSeparator_of_mem_mantissa hm hc] at hsep
    cases hsep
  rcases he with rfl | he
  · cases hc
  obtain ⟨mark, sign, ds, hmark, hsign, hd, rfl⟩ := he.split
  rcases hsign with rfl | rfl | rfl
  · -- neither the mark nor a digit is a separator
    rcases List.mem_cons.mp hc with rfl | hc
    · rcases hmark with rfl | rfl <;> exact absurd hsep (by decide)
    · rw [not_isSeparator_of_isDigit ((isDigits_iff.mp hd).2 c hc)] at hsep
      cases hsep
  · exact ⟨m, mark, '+', ds, rfl, hmark, .inl rfl⟩
  · exact ⟨m, mark, '-', ds, rfl, hmark, .inr rfl⟩

theorem IsNumber.append_digit {d : Char} (hd : d.isDigit = true) : IsNumber (r ++ [d]) := by
  obtain ⟨m, e, hm, he, rfl⟩ := h.split
  rcases he with rfl | he
  · have hm' : IsMantissa (m ++ [d]) := by
      cases hm with
      | whole hds hp hf =>
        rw [List.append_assoc]
        exact .whole hds hp (by simp [hf, hd])
      | fraction hf =>
        rw [List.cons_append]
        exact .fraction (isDigits_append (.inr (by simp)) (isDigits_iff.mp hf).2 (by simp [hd]))
    have := IsNumber.intro hm' (.inl rfl)
    rwa [List.append_nil] at this ⊢
  · cases he with
    | @intro mark sign ds hmark hsign hds =>
      have hds' : isDigits (ds ++ [d]) = true :=
        isDigits_append (.inr (by simp)) (isDigits_iff.mp hds).2 (by simp [hd])
      have := IsNumber.intro hm (.inr (.intro hmark hsign hds'))
      simpa using this

end

/-! ## What follows a lexeme -/

/-- A lexeme is as long as it can be in front of `rest`. -/
def Lexeme.EndsBefore (l : Lexeme) (rest : List Char) : Prop :=
  match l.shape with
  | .number => (StartsSeparated rest ∨ HasSignedExponent l.text) ∧ ∀ d ∈ rest.head?, d.isDigit = false
  | .var => StartsSeparated rest
  | .unknown => StartsSeparated rest ∧ ¬ IsNumber l.text ∧ ¬ IsName l.text
  | _ => True

theorem startsSeparated_of_runLength {r rest : List Char} (h : runLength (r ++ rest) = r.length) :
    StartsSeparated rest := by
  have htake := take_runLength (r ++ rest)
  rw [h, List.take_left] at htake
  have hdrop : (r ++ rest).dropWhile (fun d => !isSeparator d) = rest := by
    have hsplit := List.takeWhile_append_dropWhile (p := fun d => !isSeparator d) (l := r ++ rest)
    rw [← htake] at hsplit
    exact List.append_cancel_left hsplit
  intro c hc
  have hhead := List.head?_dropWhile_not (fun d => !isSeparator d) (r ++ rest)
  rw [hdrop, Option.mem_def.mp hc] at hhead
  simpa using hhead

theorem endsBefore_number {c : Char} {r rest : List Char}
    (hlt : runLength (r ++ rest) < numberLength (c :: (r ++ rest)))
    (hlen : numberLength (c :: (r ++ rest)) = r.length + 1) : Lexeme.EndsBefore ⟨.number, c :: r⟩ rest := by
  have hnumber : IsNumber (c :: r) := by
    have := isNumber_cons_take (show numberLength (c :: (r ++ rest)) ≠ 0 by omega)
    rwa [hlen, Nat.add_sub_cancel, List.take_left] at this
  refine ⟨?_, fun d hd => Bool.eq_false_iff.mpr fun hdigit => ?_⟩
  · by_cases hsep : ∃ d ∈ r, isSeparator d = true
    · obtain ⟨d, hd, hsep⟩ := hsep
      exact .inr (hnumber.hasSignedExponent (List.mem_cons_of_mem _ hd) hsep)
    · -- then the run is no shorter than the number
      have hrun : r.length ≤ runLength (r ++ rest) := le_runLength (by simpa using hsep) rest
      have hlength : runLength (r ++ rest) = r.length := by omega
      exact .inl (startsSeparated_of_runLength hlength)
  · -- a digit would make the number longer
    obtain ⟨rest', rfl⟩ := List.head?_eq_some_iff.mp hd
    have hle := (hnumber.append_digit hdigit).length_le rest'
    simp at hle hlen
    omega

theorem endsBefore_first {c : Char} {r rest : List Char} {s : Shape}
    (h : firstShape c (r ++ rest) = (s, r.length)) : Lexeme.EndsBefore ⟨s, c :: r⟩ rest := by
  rcases separator_cases c with hc | ⟨k, hc⟩ | hc
  · rw [firstShape_blank hc, Prod.mk.injEq] at h
    rw [← h.1]
    trivial
  · rw [firstShape_mark hc, Prod.mk.injEq] at h
    rw [← h.1]
    trivial
  · rw [firstShape_run hc] at h
    by_cases hlt : runLength (r ++ rest) < numberLength (c :: (r ++ rest))
    · rw [if_pos hlt, Prod.mk.injEq] at h
      rw [← h.1]
      exact endsBefore_number hlt (by omega)
    · rw [if_neg hlt] at h
      by_cases hv : isVariable (c :: (r ++ rest).take (runLength (r ++ rest))) = true
      · rw [if_pos hv, Prod.mk.injEq] at h
        rw [← h.1]
        exact startsSeparated_of_runLength h.2
      · rw [if_neg hv, Prod.mk.injEq] at h
        rw [h.2, List.take_left, isVariable_iff] at hv
        rw [← h.1]
        refine ⟨startsSeparated_of_runLength h.2, fun hnumber => ?_, hv⟩
        have hle := hnumber.length_le rest
        rw [List.cons_append, List.length_cons] at hle
        omega

theorem lexemes_append_right {cs : List Char} {ls₁ ls₂ : List Lexeme} (h : lexemes cs = ls₁ ++ ls₂) :
    lexemes (ls₂.flatMap Lexeme.text) = ls₂ := by
  induction ls₁ generalizing cs with
  | nil => rw [← List.nil_append ls₂, ← h, flatMap_text_lexemes]
  | cons l ls₁ ih =>
    obtain ⟨-, -, rest, -, -, -, hrest⟩ := exists_firstShape h
    exact ih hrest

section
variable {cs : List Char} {before after : List Lexeme} {l : Lexeme} (h : lexemes cs = before ++ l :: after)
include h

theorem endsBefore_of_lexemes : l.EndsBefore (after.flatMap Lexeme.text) := by
  obtain ⟨c, r, rest, -, htext, hfirst, hrest⟩ := exists_firstShape (lexemes_append_right h)
  have hafter : after.flatMap Lexeme.text = rest := by rw [← hrest, flatMap_text_lexemes]
  have hends := endsBefore_first hfirst
  rwa [← htext, ← hafter] at hends

theorem matches_of_lexemes : l.shape.Matches l.text :=
  lexemes_matches cs l (by simp [h])

end

/-! ## What precedes a lexeme -/

/-- The shapes that start with no separator. -/
def Shape.isRun : Shape → Bool
  | .number | .var | .unknown => true
  | _ => false

section
variable {s : Shape} {cs : List Char} (h : s.Matches cs)
include h

theorem Shape.Matches.separator (hs : s.isRun = false) : ∃ c, isSeparator c = true ∧ cs = [c] := by
  cases s with
  | blank =>
    obtain ⟨c, hc, rfl⟩ := h
    exact ⟨c, isSeparator_of_blank hc, rfl⟩
  | mark k =>
    obtain ⟨c, hc, rfl⟩ := h
    exact ⟨c, isSeparator_of_mark hc, rfl⟩
  | _ => cases hs

theorem Shape.Matches.run (hs : s.isRun = true) : ∃ c cs', cs = c :: cs' ∧ isSeparator c = false := by
  cases s with
  | number =>
    obtain ⟨c, cs', rfl, hc⟩ := IsNumber.head h
    refine ⟨c, cs', rfl, ?_⟩
    rcases hc with hc | rfl
    · exact not_isSeparator_of_isDigit hc
    · decide
  | var =>
    obtain ⟨c, cs', rfl, hc⟩ := IsName.head h
    exact ⟨c, cs', rfl, not_isSeparator_of_isAlpha hc⟩
  | unknown =>
    cases cs with
    | nil => exact absurd rfl h.1
    | cons c cs' => exact ⟨c, cs', rfl, h.2 c (by simp)⟩
  | _ => cases hs

end

theorem Lexeme.EndsBefore.separated {l : Lexeme} {rest : List Char} (h : l.EndsBefore rest)
    (hs : l.shape.isRun = true) : StartsSeparated rest ∨ l.shape = .number ∧ HasSignedExponent l.text := by
  obtain ⟨shape, text⟩ := l
  cases shape with
  | number => exact h.1.imp_right fun hsigned => ⟨rfl, hsigned⟩
  | var => exact .inl h
  | unknown => exact .inl h.1
  | _ => cases hs

theorem Lexeme.EndsBefore.not_isDigit {l : Lexeme} {rest : List Char} (h : l.EndsBefore rest)
    (hs : l.shape = .number) : ∀ d ∈ rest.head?, d.isDigit = false := by
  obtain ⟨shape, text⟩ := l
  cases hs
  exact h.2

theorem not_startsSeparated {c : Char} (hc : isSeparator c = false) (cs : List Char) :
    ¬ StartsSeparated (c :: cs) := by
  intro h
  rw [h c rfl] at hc
  cases hc

/-- The lexeme before a run is a separator or a number with a signed exponent. -/
theorem previous_of_lexemes {cs : List Char} {before after : List Lexeme} {p l : Lexeme}
    (h : lexemes cs = before ++ p :: l :: after) (hl : l.shape.isRun = true) :
    (∃ c, isSeparator c = true ∧ p.text = [c]) ∨ p.shape = .number ∧ HasSignedExponent p.text := by
  by_cases hp : p.shape.isRun = true
  · have hends := endsBefore_of_lexemes h
    have hm : l.shape.Matches l.text := lexemes_matches cs l (by simp [h])
    obtain ⟨c, cs', htext, hc⟩ := hm.run hl
    rw [List.flatMap_cons, htext] at hends
    exact .inr ((hends.separated hp).resolve_left (not_startsSeparated hc _))
  · exact .inl ((matches_of_lexemes h).separator (Bool.eq_false_iff.mpr hp))

/-! ## Reading a lexeme -/

section
variable (vc : VariableCase) {l : Lexeme} (hm : l.shape.Matches l.text)
include hm

theorem read_number (hs : l.shape = .number) : (∃ text, l.read vc = some (.ok (.number, text))) ∨
    l.read vc = some (.error (.invalidNumber (String.ofList l.text))) ∧
      readDouble? (String.ofList l.text) = some (.infinite false) := by
  obtain ⟨shape, r⟩ := l
  cases hs
  obtain ⟨k, hread⟩ := IsNumber.readDouble?_eq hm
  obtain ⟨hok, herror⟩ := normalizeNumber_ofRank hread
  by_cases hk : k < infinityRank
  · exact .inl ⟨finiteText false k, by simp only [Lexeme.read, hok hk]⟩
  · refine .inr ⟨by simp only [Lexeme.read, herror hk], ?_⟩
    rw [hread, Double.ofRank, dif_neg hk]

variable {vc}

theorem read_eq_error {fault : Fault} (h : l.read vc = some (.error fault)) :
    l.shape = .unknown ∧ fault = .invalidToken (String.ofList l.text) ∨
      l.shape = .number ∧ fault = .invalidNumber (String.ofList l.text) ∧
        readDouble? (String.ofList l.text) = some (.infinite false) := by
  by_cases hs : l.shape = .number
  · rcases read_number vc hm hs with ⟨text, hread⟩ | ⟨hread, hvalue⟩
    · rw [hread] at h
      cases h
    · rw [hread] at h
      cases h
      exact .inr ⟨hs, rfl, hvalue⟩
  · obtain ⟨shape, r⟩ := l
    cases shape with
    | unknown =>
      cases h
      exact .inl ⟨rfl, rfl⟩
    | number => exact absurd rfl hs
    | _ => cases h

theorem read_eq_ok {t : Token} (h : l.read vc = some (.ok (t.kind, t.text))) :
    l.shape = t.kind.shape ∧ t.kind.IsLexeme l.text := by
  have hc : l.content? vc = some (t.kind, t.text) := by simp only [Lexeme.content?, h]
  obtain ⟨hs, hk, -⟩ := isLexeme_of_content? hm hc
  exact ⟨hs, hk⟩

end

theorem isRun_shape {k : Kind} (h : k.isAtom = true) : k.shape.isRun = true := by
  cases k with
  | number => rfl
  | var => rfl
  | _ => cases h

theorem shape_eq_number {k : Kind} (h : k.shape = .number) : k = .number := by
  cases k with
  | number => rfl
  | _ => cases h

/-! ## Boundaries -/

/-- The text before a lexeme is empty or ends with a separator or with a number that has a signed exponent. -/
def BeginsAfter (source : String) (tokens : List Token) (before : List Char) : Prop :=
  (∀ c ∈ before.getLast?, isSeparator c = true) ∨
    ∃ s ∈ tokens, ∃ slice, s.kind = .number ∧ s.span.stop = byteLength before ∧
      s.span.slice? source = some slice ∧ HasSignedExponent slice.toList

/-- What is at the span stands between separators, but for signed exponents. -/
def Bounded (source : String) (tokens : List Token) (number : Prop) (span : Span) : Prop :=
  ∃ before text after, source.toList = before ++ text ++ after ∧
    span = ⟨byteLength before, byteLength before + byteLength text⟩ ∧ BeginsAfter source tokens before ∧
    (StartsSeparated after ∨ number ∧ HasSignedExponent text)

section
variable {vc : VariableCase} {source : String} {before after : List Lexeme} {l : Lexeme}
variable (h : Reached vc (lexemes source.toList) before l after)
include h

theorem beginsAfter_of_reached (hl : l.shape.isRun = true) :
    BeginsAfter source (Lexing.ofSource vc source).tokens (before.flatMap Lexeme.text) := by
  obtain ⟨hsplit, hread⟩ := h
  rcases List.eq_nil_or_concat' before with rfl | ⟨before, p, rfl⟩
  · exact .inl nofun
  rw [List.append_assoc, List.singleton_append] at hsplit
  rcases previous_of_lexemes hsplit hl with ⟨c, hc, hp⟩ | ⟨hp, hsigned⟩
  · left
    simp [hp, hc]
  · right
    rcases read_number vc (matches_of_lexemes hsplit) hp with ⟨text, htext⟩ | ⟨hfault, -⟩
    · have hreached : Reached vc (lexemes source.toList) before p (l :: after) :=
        ⟨hsplit, fun q hq => hread q (List.mem_append_left _ hq)⟩
      refine ⟨⟨.number, text, spanAfter 0 before p⟩, mem_tokens_iff.mpr ⟨before, p, _, hreached, htext, rfl⟩,
        String.ofList p.text, rfl, ?_, slice?_spanAfter hsplit, by rwa [String.toList_ofList]⟩
      simp [spanAfter]
    · exact absurd hfault (hread p (by simp) _)

theorem bounded_of_reached (hl : l.shape.isRun = true) {number : Prop} (hn : l.shape = .number → number) :
    Bounded source (Lexing.ofSource vc source).tokens number (spanAfter 0 before l) := by
  refine ⟨before.flatMap Lexeme.text, l.text, after.flatMap Lexeme.text, ?_, ?_, beginsAfter_of_reached h hl, ?_⟩
  · exact eq_flatMap_of_lexemes h.split
  · simp [spanAfter]
  · exact ((endsBefore_of_lexemes h.split).separated hl).imp_right (And.imp_left hn)

end

/-- What the fault of a lexeme says of its text. -/
inductive Offends : Fault → String → Prop
  | token {text : String} : text.toList ≠ [] → (∀ c ∈ text.toList, isSeparator c = false) →
      ¬ IsNumber text.toList → ¬ IsName text.toList → Offends (.invalidToken text) text
  | number {text : String} : IsNumber text.toList → readDouble? text = some (.infinite false) →
      Offends (.invalidNumber text) text

theorem offends_of_read {vc : VariableCase} {l : Lexeme} {rest : List Char} {fault : Fault}
    (hm : l.shape.Matches l.text) (hends : l.EndsBefore rest) (h : l.read vc = some (.error fault)) :
    Offends fault (String.ofList l.text) := by
  rcases read_eq_error hm h with ⟨hs, rfl⟩ | ⟨hs, rfl, hvalue⟩
  · obtain ⟨shape, r⟩ := l
    cases hs
    refine .token ?_ ?_ ?_ ?_
    · rw [String.toList_ofList]; exact hm.1
    · rw [String.toList_ofList]; exact hm.2
    · rw [String.toList_ofList]; exact hends.2.1
    · rw [String.toList_ofList]; exact hends.2.2
  · rw [hs] at hm
    exact .number (by rwa [String.toList_ofList]) hvalue

/-! ## Lexemes that touch -/

section
variable {cs : List Char} {before₁ after₁ before₂ after₂ : List Lexeme} {l₁ l₂ : Lexeme}
variable (h₁ : lexemes cs = before₁ ++ l₁ :: after₁) (h₂ : lexemes cs = before₂ ++ l₂ :: after₂)
variable (htouch : (spanAfter 0 before₁ l₁).stop = (spanAfter 0 before₂ l₂).start)
include h₁ h₂ htouch

theorem flatMap_after_of_touching :
    after₁.flatMap Lexeme.text = l₂.text ++ after₂.flatMap Lexeme.text := by
  have hsplit : (before₁.flatMap Lexeme.text ++ l₁.text) ++ after₁.flatMap Lexeme.text =
      before₂.flatMap Lexeme.text ++ (l₂.text ++ after₂.flatMap Lexeme.text) := by
    rw [← eq_flatMap_of_lexemes h₁, ← List.append_assoc, ← eq_flatMap_of_lexemes h₂]
  simp only [spanAfter, Nat.zero_add] at htouch
  obtain ⟨mid, hbefore, hafter⟩ := eq_append_of_byteLength_le hsplit (by rw [byteLength_append]; omega)
  have hmid : mid = [] := by
    rw [← byteLength_eq_zero_iff]
    have := congrArg byteLength hbefore
    rw [byteLength_append, byteLength_append] at this
    omega
  rw [hafter, hmid, List.nil_append]

theorem signed_of_touching (hs₁ : l₁.shape.isRun = true) (hs₂ : l₂.shape.isRun = true) :
    (l₁.shape = .number ∧ HasSignedExponent l₁.text) ∧ ∃ c r, l₂.text = c :: r ∧ c.isDigit = false := by
  obtain ⟨c, r, htext, hc⟩ := (matches_of_lexemes h₂).run hs₂
  have hends := endsBefore_of_lexemes h₁
  rw [flatMap_after_of_touching h₁ h₂ htouch, htext, List.cons_append] at hends
  have hsigned := (hends.separated hs₁).resolve_left (not_startsSeparated hc _)
  exact ⟨hsigned, c, r, htext, hends.not_isDigit hsigned.1 c rfl⟩

end

theorem Kind.IsLexeme.head_not_isDigit {k : Kind} {c : Char} {r : List Char} (h : k.IsLexeme (c :: r))
    (hk : k.isAtom = true) (hc : c.isDigit = false) : c = '.' ∨ c.isAlpha = true := by
  cases k with
  | number =>
    obtain ⟨d, r', heq, hd⟩ := IsNumber.head h
    cases heq
    exact .inl (hd.resolve_left (by simp [hc]))
  | var =>
    obtain ⟨d, r', heq, hd⟩ := IsName.head h
    cases heq
    exact .inr hd
  | _ => cases hk

/-! ## Boundaries of a source -/

/-- Where the lexemes of a source begin and end, up to its fault if there is one. -/
structure Boundaries (vc : VariableCase) (source : String) (tokens : List Token) : Prop where
  complete : ∀ ts, tokenize vc source = .ok ts → ts = tokens
  operand : ∀ t ∈ tokens, t.kind.isAtom = true → Bounded source tokens (t.kind = .number) t.span
  fault : ∀ r, tokenize vc source = .error r →
    Bounded source tokens (∃ text, r.fault = .invalidNumber text) r.span
  offends : ∀ r, tokenize vc source = .error r →
    ∃ text, r.span.slice? source = some text ∧ Offends r.fault text
  touching : ∀ s ∈ tokens, ∀ t ∈ tokens, s.kind.isAtom = true → t.kind.isAtom = true →
    s.span.stop = t.span.start →
      (s.kind = .number ∧ ∃ slice, s.span.slice? source = some slice ∧ HasSignedExponent slice.toList) ∧
        ∃ slice, t.span.slice? source = some slice ∧ ∃ c ∈ slice.toList.head?, c = '.' ∨ c.isAlpha = true

theorem exists_reached_of_mem {vc : VariableCase} {source : String} {t : Token}
    (ht : t ∈ (Lexing.ofSource vc source).tokens) : ∃ before l after,
      Reached vc (lexemes source.toList) before l after ∧ l.shape = t.kind.shape ∧ t.kind.IsLexeme l.text ∧
        t.span = spanAfter 0 before l := by
  obtain ⟨before, l, after, h, hread, hspan⟩ := mem_tokens_iff.mp ht
  obtain ⟨hshape, hk⟩ := read_eq_ok (matches_of_lexemes h.split) hread
  exact ⟨before, l, after, h, hshape, hk, hspan⟩

/-- **Boundaries.** Operands and faults stand between separators, but for numbers with a signed exponent, which
end where no digit follows. -/
theorem lexing_boundaries (vc : VariableCase) (source : String) :
    Boundaries vc source (Lexing.ofSource vc source).tokens := by
  refine ⟨fun ts hts => ?_, fun t ht hk => ?_, fun r hr => ?_, fun r hr => ?_, fun s hs t ht hsk htk htouch => ?_⟩
  · exact ((tokenize_eq_ok_iff vc source ts).mp hts).2.symm
  · obtain ⟨before, l, after, h, hshape, -, hspan⟩ := exists_reached_of_mem ht
    rw [hspan]
    exact bounded_of_reached h (hshape ▸ isRun_shape hk) fun hnumber => shape_eq_number (hshape ▸ hnumber)
  · obtain ⟨hfault, -⟩ := (tokenize_eq_error_iff vc source r).mp hr
    obtain ⟨before, l, after, h, hread, hspan⟩ := exists_reached_of_fault hfault
    rw [hspan]
    rcases read_eq_error (matches_of_lexemes h.split) hread with ⟨hs, -⟩ | ⟨hs, hnumber, -⟩
    · exact bounded_of_reached h (by rw [hs]; rfl) (by simp [hs])
    · exact bounded_of_reached h (by rw [hs]; rfl) fun _ => ⟨_, hnumber⟩
  · obtain ⟨hfault, -⟩ := (tokenize_eq_error_iff vc source r).mp hr
    obtain ⟨before, l, after, h, hread, hspan⟩ := exists_reached_of_fault hfault
    refine ⟨String.ofList l.text, hspan ▸ slice?_spanAfter h.split, ?_⟩
    exact offends_of_read (matches_of_lexemes h.split) (endsBefore_of_lexemes h.split) hread
  · obtain ⟨before₁, l₁, after₁, h₁, hshape₁, -, hspan₁⟩ := exists_reached_of_mem hs
    obtain ⟨before₂, l₂, after₂, h₂, hshape₂, hlexeme, hspan₂⟩ := exists_reached_of_mem ht
    rw [hspan₁, hspan₂] at htouch
    obtain ⟨⟨hnumber, hsigned⟩, c, r, htext, hc⟩ := signed_of_touching h₁.split h₂.split htouch
      (hshape₁ ▸ isRun_shape hsk) (hshape₂ ▸ isRun_shape htk)
    rw [htext] at hlexeme
    refine ⟨⟨shape_eq_number (hshape₁ ▸ hnumber), _, hspan₁ ▸ slice?_spanAfter h₁.split, ?_⟩,
      _, hspan₂ ▸ slice?_spanAfter h₂.split, c, ?_, hlexeme.head_not_isDigit htk hc⟩
    · rwa [String.toList_ofList]
    · rw [String.toList_ofList, htext]
      rfl

example : ((Lexing.ofSource .upper "1e+5.5").tokens.map Token.span,
    (Lexing.ofSource .upper "1e+2a3").tokens.map Token.span) = ([⟨0, 4⟩, ⟨4, 6⟩], [⟨0, 4⟩, ⟨4, 6⟩]) := by
  decide +kernel

end SheetFormula
