import SheetFormula.Proofs.BreachSound
import SheetFormula.Proofs.LayoutSound

/-!
# Where a rejection points

The spans of a rejection are those of lexemes, so that they can be sliced out of the source, and the notes
come before the fault. `exists_reached_of_fault` finds the lexeme of a fault in lexing; for the faults of the
check the tokens are found first (`Rejects.span_cases`, `Rejects.note_cases`) and then their places in the
source.
-/

namespace SheetFormula

/-! ## Lexemes that lexing comes to -/

/-- Lexing comes to `l`: none of the lexemes before it is a fault. -/
structure Reached (vc : VariableCase) (ls before : List Lexeme) (l : Lexeme) (after : List Lexeme) : Prop where
  split : ls = before ++ l :: after
  read : ∀ p ∈ before, ∀ fault, p.read vc ≠ some (.error fault)

def spanAfter (n : Nat) (before : List Lexeme) (l : Lexeme) : Span :=
  ⟨n + byteLength (before.flatMap Lexeme.text), n + byteLength (before.flatMap Lexeme.text) + byteLength l.text⟩

theorem spanAfter_nil (n : Nat) (l : Lexeme) : spanAfter n [] l = ⟨n, n + byteLength l.text⟩ := rfl

theorem spanAfter_cons (n : Nat) (p : Lexeme) (before : List Lexeme) (l : Lexeme) :
    spanAfter n (p :: before) l = spanAfter (n + byteLength p.text) before l := by
  simp [spanAfter, Nat.add_assoc]

section
variable {vc : VariableCase} {ls : List Lexeme} {l : Lexeme}

theorem exists_reached_cons {P : List Lexeme → Lexeme → Prop} :
    (∃ before l' after, Reached vc (l :: ls) before l' after ∧ P before l') ↔
      P [] l ∨ (∀ fault, l.read vc ≠ some (.error fault)) ∧
        ∃ before l' after, Reached vc ls before l' after ∧ P (l :: before) l' := by
  constructor
  · rintro ⟨before, l', after, ⟨hsplit, hread⟩, hp⟩
    cases before with
    | nil =>
      cases hsplit
      exact .inl hp
    | cons p before =>
      cases hsplit
      rw [List.forall_mem_cons] at hread
      exact .inr ⟨hread.1, before, l', after, ⟨rfl, hread.2⟩, hp⟩
  · rintro (hp | ⟨hl, before, l', after, ⟨rfl, hread⟩, hp⟩)
    · exact ⟨[], l, ls, ⟨rfl, by simp⟩, hp⟩
    · exact ⟨l :: before, l', after, ⟨rfl, List.forall_mem_cons.mpr ⟨hl, hread⟩⟩, hp⟩

theorem mem_tokens_iff {n : Nat} {t : Token} : t ∈ (Lexing.ofLexemes vc n ls).tokens ↔
    ∃ before l after, Reached vc ls before l after ∧
      l.read vc = some (.ok (t.kind, t.text)) ∧ t.span = spanAfter n before l := by
  induction ls generalizing n with
  | nil =>
    refine ⟨nofun, ?_⟩
    rintro ⟨before, l, after, ⟨hsplit, -⟩, -⟩
    simp at hsplit
  | cons l ls ih =>
    rw [exists_reached_cons]
    simp only [Lexing.ofLexemes, spanAfter_nil, spanAfter_cons, ← ih]
    cases hr : l.read vc with
    | none => simp
    | some read =>
      cases read with
      | error fault => simp
      | ok content =>
        obtain ⟨k, text⟩ := content
        obtain ⟨k', text', span⟩ := t
        simp [and_assoc, eq_comm]

theorem exists_reached_of_fault {n : Nat} {fault : Fault} {span : Span}
    (h : (Lexing.ofLexemes vc n ls).fault = some (fault, span)) :
    ∃ before l after, Reached vc ls before l after ∧
      l.read vc = some (.error fault) ∧ span = spanAfter n before l := by
  induction ls generalizing n with
  | nil => cases h
  | cons l ls ih =>
    rw [exists_reached_cons]
    simp only [Lexing.ofLexemes] at h
    simp only [spanAfter_nil, spanAfter_cons]
    cases hr : l.read vc with
    | none =>
      rw [hr] at h
      exact .inr ⟨by simp, ih h⟩
    | some read =>
      cases read with
      | error fault' =>
        rw [hr] at h
        cases h
        exact .inl ⟨rfl, rfl⟩
      | ok content =>
        rw [hr] at h
        exact .inr ⟨by simp, ih h⟩

end

theorem eq_flatMap_of_lexemes {cs : List Char} {before after : List Lexeme} {l : Lexeme}
    (h : lexemes cs = before ++ l :: after) :
    cs = before.flatMap Lexeme.text ++ l.text ++ after.flatMap Lexeme.text := by
  conv_lhs => rw [← flatMap_text_lexemes cs, h]
  simp

theorem slice?_spanAfter {source : String} {before after : List Lexeme} {l : Lexeme}
    (h : lexemes source.toList = before ++ l :: after) :
    (spanAfter 0 before l).slice? source = some (String.ofList l.text) := by
  refine slice?_eq_some_iff.mpr ⟨before.flatMap Lexeme.text, after.flatMap Lexeme.text, ?_, ?_⟩
  · rw [String.toList_ofList]
    exact eq_flatMap_of_lexemes h
  · simp [spanAfter]

/-! ## Faults in lexing -/

theorem fault_of_read {vc : VariableCase} {l : Lexeme} {fault : Fault} (h : l.read vc = some (.error fault)) :
    fault = .invalidToken (String.ofList l.text) ∨ fault = .invalidNumber (String.ofList l.text) := by
  obtain ⟨shape, r⟩ := l
  cases shape with
  | unknown => cases h; exact .inl rfl
  | number =>
    simp only [Lexeme.read] at h
    split at h
    · cases h
    · cases h; exact .inr rfl
    · cases h; exact .inl rfl
  | _ => simp [Lexeme.read] at h

theorem exists_fault_of_tokenize {vc : VariableCase} {source : String} {r : Rejection}
    (h : tokenize vc source = .error r) : ∃ slice, r.source = source ∧ r.notes = [] ∧
      r.span.slice? source = some slice ∧ (r.fault = .invalidToken slice ∨ r.fault = .invalidNumber slice) := by
  obtain ⟨hf, hsource, hnotes⟩ := (tokenize_eq_error_iff vc source r).mp h
  obtain ⟨before, l, after, hl, hread, hspan⟩ := exists_reached_of_fault hf
  exact ⟨String.ofList l.text, hsource, hnotes, hspan ▸ slice?_spanAfter hl.split, fault_of_read hread⟩

/-! ## Faults of the check, by their tokens -/

section
variable {ts : List Token} {source : String} {r : Rejection}

theorem Rejects.source_eq (h : Rejects ts source r) : r.source = source := by
  cases h <;> rfl

theorem Rejects.not_lexical (h : Rejects ts source r) (text : String) :
    ¬ (r.fault = .invalidToken text ∨ r.fault = .invalidNumber text) := by
  cases h with
  | breach _ hb => cases hb.breach <;> simp
  | _ => simp

/-- The token at fault, unless there is none. -/
theorem Rejects.span_cases (h : Rejects ts source r) :
    (ts = [] ∧ r.span = ⟨0, byteLength source.toList⟩ ∧ r.fault = .empty) ∨
      ∃ t ∈ ts, r.span = t.span ∧ r.fault ≠ .empty ∧ (r.fault = .unmatchedClose → t.kind = .closeParen) ∧
        ∀ count, r.fault = .unclosed count → t.kind = .openParen := by
  cases h with
  | breach ht hb =>
    refine .inr ⟨_, List.mem_of_getElem? ht, rfl, ?_⟩
    cases hb.breach with
    | close ht' hk =>
      cases ht.symm.trans ht'
      exact ⟨by simp, fun _ => hk, by simp⟩
    | _ => simp
  | empty he => exact .inl ⟨he, rfl, rfl⟩
  | last _ hl => exact .inr ⟨_, List.mem_of_getLast? hl, rfl, by simp⟩
  | @unclosed _ innermost outer _ _ _ ho =>
    have hmem : innermost ∈ leftOpen ts := by simp [ho]
    exact .inr ⟨_, (leftOpen_sublist ts).mem hmem, rfl, by simp, by simp, fun _ _ => kind_of_mem_leftOpen hmem⟩

theorem append_of_getElem? {i : Nat} {s t : Token} (hs : ts[i]? = some s) (ht : ts[i + 1]? = some t) :
    ∃ ts₁ ts₂, ts = ts₁ ++ s :: t :: ts₂ := by
  obtain ⟨hi, rfl⟩ := List.getElem?_eq_some_iff.mp hs
  obtain ⟨hi', rfl⟩ := List.getElem?_eq_some_iff.mp ht
  refine ⟨ts.take i, ts.drop (i + 2), ?_⟩
  rw [List.getElem_cons_drop, List.getElem_cons_drop, List.take_append_drop]

theorem pair_sublist (ts₁ : List Token) (s t : Token) (ts₂ : List Token) :
    [s, t].Sublist (ts₁ ++ s :: t :: ts₂) := by
  have hsub : [s, t].Sublist (s :: t :: ts₂) := ((List.nil_sublist ts₂).cons_cons t).cons_cons s
  exact hsub.trans (List.sublist_append_right ..)

/-- The tokens of a note: a parenthesis left open, or the one right before the token at fault. -/
theorem Rejects.note_cases (h : Rejects ts source r) {note : Note} (hn : note ∈ r.notes) :
    (∃ s t, [s, t].Sublist ts ∧ r.span = t.span ∧ note = .openedHere s.span ∧ s.kind = .openParen) ∨
      ∃ s t ts₁ ts₂ name, ts = ts₁ ++ s :: t :: ts₂ ∧ r.span = t.span ∧ s.kind.Named name ∧
        note = .precededBy name s.span := by
  cases h with
  | breach ht hb =>
    cases hb.breach with
    | operator hs ht' _ _ _ _ hname | operand hs ht' _ _ _ _ hname =>
      cases ht.symm.trans ht'
      obtain ⟨ts₁, ts₂, hts⟩ := append_of_getElem? hs ht
      exact .inr ⟨_, _, ts₁, ts₂, _, hts, rfl, hname, List.mem_singleton.mp hn⟩
    | _ => cases hn
  | empty => cases hn
  | last => cases hn
  | @unclosed _ innermost outer _ _ _ ho =>
    obtain ⟨s, hs, rfl⟩ := List.mem_map.mp hn
    have hsub : [s, innermost].Sublist (leftOpen ts) := by
      rw [ho]
      exact (List.singleton_sublist.mpr hs).append (List.Sublist.refl [innermost])
    exact .inl ⟨s, innermost, hsub.trans (leftOpen_sublist ts), rfl, rfl,
      kind_of_mem_leftOpen (hsub.mem List.mem_cons_self)⟩

end

/-! ## Places in the source -/

section
variable {vc : VariableCase} {source : String} {tokens : List Token}

theorem Laid.slice_eq (h : Laid vc 0 source.toList tokens) {t : Token} (ht : t ∈ tokens) {text : String}
    (hc : ∀ r, t.kind.IsLexeme r → r = text.toList) : t.span.slice? source = some text := by
  obtain ⟨slice, hslice, hk, -⟩ := h.exists_slice ht
  rw [hslice, Option.some.injEq, ← String.toList_inj]
  exact hc _ hk

theorem Laid.slice_open (h : Laid vc 0 source.toList tokens) {t : Token} (ht : t ∈ tokens)
    (hk : t.kind = .openParen) : t.span.slice? source = some "(" :=
  h.slice_eq ht (by rw [hk]; exact fun _ hr => hr)

theorem Laid.slice_close (h : Laid vc 0 source.toList tokens) {t : Token} (ht : t ∈ tokens)
    (hk : t.kind = .closeParen) : t.span.slice? source = some ")" :=
  h.slice_eq ht (by rw [hk]; exact fun _ hr => hr)

theorem Laid.slice_gap {s t : Token} {ts₁ ts₂ : List Token}
    (h : Laid vc 0 source.toList (ts₁ ++ s :: t :: ts₂)) : ∃ gap,
      (⟨s.span.stop, t.span.start⟩ : Span).slice? source = some gap ∧ ∀ c ∈ gap.toList, isBlank c = true := by
  obtain ⟨pre, r, post, hsource, -, -, hs, -, hpost⟩ := h.split
  rw [← List.nil_append (t :: ts₂)] at hpost
  obtain ⟨gap, r', post', rfl, -, -, ht, hgap, -⟩ := hpost.split
  refine ⟨String.ofList gap, slice?_eq_some_iff.mpr ⟨pre ++ r, r' ++ post', ?_, ?_⟩, ?_⟩
  · rw [hsource, String.toList_ofList]; simp
  · rw [hs, ht, String.toList_ofList, byteLength_append]; simp
  · rw [String.toList_ofList]; exact hgap.isBlank_of_nil

theorem Laid.exists_slice_of_note (h : Laid vc 0 source.toList tokens) {r : Rejection}
    (hr : Rejects tokens source r) {note : Note} (hn : note ∈ r.notes) :
    note.span.stop ≤ r.span.start ∧ ∃ slice, note.span.slice? source = some slice := by
  have key : ∀ s t : Token, [s, t].Sublist tokens → r.span = t.span → note.span = s.span →
      note.span.stop ≤ r.span.start ∧ ∃ slice, note.span.slice? source = some slice := by
    intro s t hsub hspan hnote
    have hle : s.span.stop ≤ t.span.start := by simpa using h.pairwise.sublist hsub
    obtain ⟨slice, hslice, -⟩ := h.exists_slice (hsub.mem List.mem_cons_self)
    rw [hspan, hnote]
    exact ⟨hle, slice, hslice⟩
  rcases hr.note_cases hn with ⟨s, t, hsub, hspan, rfl, -⟩ | ⟨s, t, ts₁, ts₂, _, rfl, hspan, -, rfl⟩
  · exact key s t hsub hspan rfl
  · exact key s t (pair_sublist ts₁ s t ts₂) hspan rfl

end

/-- What a rejection says about its places. -/
structure Located (vc : VariableCase) (source : String) (r : Rejection) : Prop where
  source_eq : r.source = source
  fits : ∀ s ∈ r.span :: r.notes.map Note.span, s.Fits source ∧ ∃ slice, s.slice? source = some slice
  ordered : ∀ note ∈ r.notes, note.span.stop ≤ r.span.start
  text : ∀ text, r.fault = .invalidToken text ∨ r.fault = .invalidNumber text →
    r.span.slice? source = some text
  unmatched : r.fault = .unmatchedClose → r.span.slice? source = some ")"
  unclosed : ∀ count, r.fault = .unclosed count → r.span.slice? source = some "("
  opened : ∀ span, .openedHere span ∈ r.notes → span.slice? source = some "("
  preceded : ∀ what span, .precededBy what span ∈ r.notes →
    (∃ tokens, tokenize vc source = .ok tokens ∧ ∃ t ∈ tokens, t.span = span ∧ t.kind.Named what) ∧
      ∃ gap, (⟨span.stop, r.span.start⟩ : Span).slice? source = some gap ∧ ∀ c ∈ gap.toList, isBlank c = true
  empty : r.fault = .empty →
    r.span = ⟨0, source.utf8ByteSize⟩ ∧ ∀ c ∈ source.toList, isBlank c = true

theorem located_of_tokenize {vc : VariableCase} {source : String} {r : Rejection}
    (h : tokenize vc source = .error r) : Located vc source r := by
  obtain ⟨slice, hsource, hnotes, hslice, hfault⟩ := exists_fault_of_tokenize h
  have hne : ∀ fault, (∀ text, fault ≠ .invalidToken text ∧ fault ≠ .invalidNumber text) → r.fault ≠ fault := by
    rintro fault hf rfl
    rcases hfault with hfault | hfault
    · exact (hf slice).1 hfault
    · exact (hf slice).2 hfault
  refine
    { source_eq := hsource
      fits := ?_
      ordered := by simp [hnotes]
      text := ?_
      unmatched := fun hf => absurd hf (hne _ (by simp))
      unclosed := fun _ hf => absurd hf (hne _ (by simp))
      opened := by simp [hnotes]
      preceded := by simp [hnotes]
      empty := fun hf => absurd hf (hne _ (by simp)) }
  · intro s hs
    rw [hnotes, List.map_nil, List.mem_singleton] at hs
    rw [hs]
    exact ⟨fits_iff_exists_slice?.mpr ⟨slice, hslice⟩, slice, hslice⟩
  · intro text ht
    rw [hslice]
    rcases hfault with hf | hf <;> rcases ht with ht | ht <;> rw [hf] at ht <;> cases ht <;> rfl

theorem located_of_check {vc : VariableCase} {source : String} {tokens : List Token} {r : Rejection}
    (ht : tokenize vc source = .ok tokens) (hc : check tokens source = .error r) : Located vc source r := by
  have hl := laid_of_tokenize ht
  have hr := rejects_of_check hc
  refine
    { source_eq := hr.source_eq
      fits := ?_
      ordered := fun note hn => (hl.exists_slice_of_note hr hn).1
      text := fun text hf => absurd hf (hr.not_lexical text)
      unmatched := ?_
      unclosed := ?_
      opened := ?_
      preceded := ?_
      empty := ?_ }
  · intro s hs
    have hslice : ∃ slice, s.slice? source = some slice := by
      rcases List.mem_cons.mp hs with rfl | hs
      · rcases hr.span_cases with ⟨-, hspan, -⟩ | ⟨t, hmem, hspan, -⟩
        · exact ⟨source, slice?_eq_some_iff.mpr ⟨[], [], by simp, by simp [hspan]⟩⟩
        · obtain ⟨slice, hslice, -⟩ := hl.exists_slice hmem
          exact ⟨slice, by rw [hspan, hslice]⟩
      · obtain ⟨note, hn, rfl⟩ := List.mem_map.mp hs
        exact (hl.exists_slice_of_note hr hn).2
    exact ⟨fits_iff_exists_slice?.mpr hslice, hslice⟩
  · intro hf
    rcases hr.span_cases with ⟨-, -, he⟩ | ⟨t, hmem, hspan, -, hk, -⟩
    · rw [hf] at he; cases he
    · rw [hspan]; exact hl.slice_close hmem (hk hf)
  · intro count hf
    rcases hr.span_cases with ⟨-, -, he⟩ | ⟨t, hmem, hspan, -, -, hk⟩
    · rw [hf] at he; cases he
    · rw [hspan]; exact hl.slice_open hmem (hk count hf)
  · intro span hn
    rcases hr.note_cases hn with ⟨s, t, hsub, -, hnote, hk⟩ | ⟨s, t, ts₁, ts₂, _, -, -, -, hnote⟩
    · cases hnote
      exact hl.slice_open (hsub.mem List.mem_cons_self) hk
    · cases hnote
  · intro what span hn
    rcases hr.note_cases hn with ⟨s, t, -, -, hnote, -⟩ | ⟨s, t, ts₁, ts₂, _, rfl, hspan, hname, hnote⟩
    · cases hnote
    · cases hnote
      rw [hspan]
      exact ⟨⟨_, ht, s, by simp, rfl, hname⟩, hl.slice_gap⟩
  · intro hf
    rcases hr.span_cases with ⟨rfl, hspan, -⟩ | ⟨t, -, -, he, -⟩
    · exact ⟨by rw [hspan, utf8ByteSize_eq], hl.isBlank_of_nil⟩
    · exact absurd hf he

section
variable {vc : VariableCase} {source : String} {r : Rejection} (h : Formula.parse vc source = .error r)
include h

theorem source_of_parse_error : r.source = source := by
  rcases (parse_eq_error_iff vc source r).mp h with ht | ⟨tokens, -, hc⟩
  · exact ((tokenize_eq_error_iff vc source r).mp ht).2.1
  · exact (rejects_of_check hc).source_eq

theorem fits_of_parse_error : ∀ s ∈ r.span :: r.notes.map Note.span, s.Fits source := by
  intro s hs
  rcases (parse_eq_error_iff vc source r).mp h with ht | ⟨tokens, ht, hc⟩
  · exact ((located_of_tokenize ht).fits s hs).1
  · exact ((located_of_check ht hc).fits s hs).1

end

/-- **The places of a rejection can be shown.** -/
theorem parse_error_located {vc : VariableCase} {source : String} {r : Rejection}
    (h : Formula.parse vc source = .error r) : Located vc source r := by
  rcases (parse_eq_error_iff vc source r).mp h with ht | ⟨tokens, ht, hc⟩
  · exact located_of_tokenize ht
  · exact located_of_check ht hc

theorem parse_error_located_wide : ∃ r, Formula.parse .upper "\u3000(2\u00a0(x1" = .error r ∧
    r.span = ⟨7, 8⟩ ∧ r.notes = [.precededBy "number" ⟨4, 5⟩] ∧ Located .upper "\u3000(2\u00a0(x1" r := by
  have htok : tokenize .upper "\u3000(2\u00a0(x1" = .ok [⟨.openParen, "(", ⟨3, 4⟩⟩, ⟨.number, "2", ⟨4, 5⟩⟩,
      ⟨.openParen, "(", ⟨7, 8⟩⟩, ⟨.var, "X1", ⟨8, 10⟩⟩] :=
    (tokenize_eq_ok_iff ..).mpr ⟨by decide +kernel, by decide +kernel⟩
  have h := (parse_eq_error_iff .upper _ _).mpr (.inr ⟨_, htok, rfl⟩)
  exact ⟨_, h, rfl, rfl, parse_error_located h⟩

end SheetFormula
