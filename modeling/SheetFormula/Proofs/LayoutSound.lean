import SheetFormula.Proofs.LexingLemmas
import SheetFormula.Proofs.SpanLemmas

/-!
# Where tokens stand in their source

`Laid` follows a text from one of its bytes on: blanks are passed over and lexemes become tokens, with the
bytes that they take up for their spans. `laid_of_tokenize`: this is how the tokens of a source stand in
it. What it says of spans, slices and gaps is read off in `Laid.split`; `Laid.isBlank_iff` says that
nothing but blanks is left out.
-/

namespace SheetFormula

/-! ## Characters of a lexeme -/

theorem not_isBlank_of_not_isSeparator {c : Char} (h : isSeparator c = false) : isBlank c = false := by
  cases hb : isBlank c with
  | false => rfl
  | true => rw [isSeparator_of_blank hb] at h; cases h

/-- What numbers, variables and marks are written with. -/
def isTokenChar (c : Char) : Bool :=
  c.isAlpha || c.isDigit || c == '.' || (markKind? c).isSome

theorem tokenChar_range {c : Char} (h : isTokenChar c = true) : 40 ≤ c.toNat ∧ c.toNat ≤ 122 := by
  simp only [isTokenChar, Bool.or_eq_true, beq_iff_eq, Option.isSome_iff_exists] at h
  rcases h with ((h | h) | rfl) | ⟨k, h⟩
  · have := isAlpha_range.mp h
    omega
  · have : 48 ≤ c.toNat ∧ c.toNat ≤ 57 := Char.isDigit_iff_toNat.mp h
    omega
  · decide
  · have := mark_range h
    omega

theorem isTokenChar_of_isAlpha {c : Char} (h : c.isAlpha = true) : isTokenChar c = true := by
  simp [isTokenChar, h]

theorem isTokenChar_of_isDigit {c : Char} (h : c.isDigit = true) : isTokenChar c = true := by
  simp [isTokenChar, h]

theorem IsExponent.tokenChar {e : List Char} (h : IsExponent e) : ∀ c ∈ e, isTokenChar c = true := by
  intro c hc
  obtain ⟨mark, sign, ds, hm, hs, hd, rfl⟩ := h.split
  rcases List.mem_cons.mp hc with rfl | hc
  · rcases hm with rfl | rfl <;> rfl
  · rcases List.mem_append.mp hc with hc | hc
    · rcases hs with rfl | rfl | rfl
      · cases hc
      · rw [List.mem_singleton.mp hc]; rfl
      · rw [List.mem_singleton.mp hc]; rfl
    · exact isTokenChar_of_isDigit ((isDigits_iff.mp hd).2 c hc)

theorem IsNumber.tokenChar {r : List Char} (h : IsNumber r) : ∀ c ∈ r, isTokenChar c = true := by
  intro c hc
  obtain ⟨m, e, hm, he, rfl⟩ := h.split
  rcases List.mem_append.mp hc with hc | hc
  · rcases hm.mem c hc with hd | rfl
    · exact isTokenChar_of_isDigit hd
    · rfl
  · rcases he with rfl | he
    · cases hc
    · exact he.tokenChar c hc

theorem Kind.IsLexeme.tokenChar {k : Kind} {r : List Char} (h : k.IsLexeme r) :
    ∀ c ∈ r, isTokenChar c = true := by
  intro c hc
  cases hk : k.isAtom with
  | true =>
    cases k with
    | number => exact IsNumber.tokenChar h c hc
    | var => exact (IsName.mem h c hc).elim isTokenChar_of_isAlpha isTokenChar_of_isDigit
    | _ => cases hk
  | false =>
    obtain ⟨-, d, hd, rfl⟩ := h.mark hk
    rw [List.mem_singleton.mp hc]
    simp [isTokenChar, hd]

theorem not_isBlank_of_isTokenChar {c : Char} (h : isTokenChar c = true) : isBlank c = false := by
  have := tokenChar_range h
  refine Bool.eq_false_iff.mpr fun hb => ?_
  have := blank_range hb
  omega

theorem Kind.IsLexeme.not_isBlank {k : Kind} {r : List Char} (h : k.IsLexeme r) :
    ∀ c ∈ r, isBlank c = false :=
  fun c hc => not_isBlank_of_isTokenChar (h.tokenChar c hc)

theorem Kind.IsLexeme.ne_nil {k : Kind} {r : List Char} (h : k.IsLexeme r) : r ≠ [] := by
  cases k with
  | number =>
    obtain ⟨c, cs, rfl, -⟩ := IsNumber.head h
    simp
  | var =>
    obtain ⟨c, cs, rfl, -⟩ := IsName.head h
    simp
  | _ => rw [show r = _ from h]; simp

-- the cut of the text `r` shows what kind of lexeme it is
theorem Kind.IsLexeme.kind_eq {k k' : Kind} {r : List Char} (h : k.IsLexeme r) (h' : k'.IsLexeme r) :
    k = k' := by
  have hsep : StartsSeparated [] := nofun
  have hcut := (lexemes_append h fun _ => hsep).symm.trans (lexemes_append h' fun _ => hsep)
  have hshape : k.shape = k'.shape := by
    simp only [List.cons.injEq, Lexeme.mk.injEq, and_true] at hcut
    exact hcut
  cases k <;> cases k' <;> simp_all [Kind.shape]

/-! ## Layouts -/

/-- The tokens of a text whose first byte is at `n`. -/
inductive Laid (vc : VariableCase) : Nat → List Char → List Token → Prop
  | nil {n : Nat} : Laid vc n [] []
  | blank {n : Nat} {c : Char} {cs : List Char} {ts : List Token} : isBlank c = true →
      Laid vc (n + c.utf8Size) cs ts → Laid vc n (c :: cs) ts
  | token {n : Nat} {k : Kind} {r cs : List Char} {text : String} {ts : List Token} : k.IsLexeme r →
      k.normalText? vc r = some text → Laid vc (n + byteLength r) cs ts →
      Laid vc n (r ++ cs) (⟨k, text, ⟨n, n + byteLength r⟩⟩ :: ts)

theorem blank_of_read_eq_none {vc : VariableCase} {l : Lexeme} (hm : l.shape.Matches l.text)
    (h : l.read vc = none) : ∃ c, isBlank c = true ∧ l.text = [c] := by
  obtain ⟨shape, r⟩ := l
  cases shape with
  | blank => exact hm
  | _ => simp [Lexeme.read] at h

theorem laid_ofLexemes (vc : VariableCase) : ∀ (n : Nat) (ls : List Lexeme),
    (∀ l ∈ ls, l.shape.Matches l.text) → (Lexing.ofLexemes vc n ls).fault = none →
      Laid vc n (ls.flatMap Lexeme.text) (Lexing.ofLexemes vc n ls).tokens
  | n, [], _, _ => .nil
  | n, l :: ls, hm, hf => by
    have hml := hm l (by simp)
    have ih := laid_ofLexemes vc (n + byteLength l.text) ls fun l hl => hm l (List.mem_cons_of_mem _ hl)
    rw [List.flatMap_cons]
    simp only [Lexing.ofLexemes] at hf ⊢
    cases hr : l.read vc with
    | none =>
      rw [hr] at hf
      obtain ⟨c, hc, htext⟩ := blank_of_read_eq_none hml hr
      rw [htext] at ih hf ⊢
      exact .blank hc (ih hf)
    | some read =>
      cases read with
      | error fault => rw [hr] at hf; cases hf
      | ok content =>
        rw [hr] at hf
        obtain ⟨k, text⟩ := content
        have hc : l.content? vc = some (k, text) := by simp only [Lexeme.content?, hr]
        obtain ⟨-, hk, htext⟩ := isLexeme_of_content? hml hc
        exact .token hk htext (ih hf)

theorem laid_of_tokenize {vc : VariableCase} {source : String} {tokens : List Token}
    (h : tokenize vc source = .ok tokens) : Laid vc 0 source.toList tokens := by
  obtain ⟨hf, rfl⟩ := (tokenize_eq_ok_iff vc source tokens).mp h
  have := laid_ofLexemes vc 0 _ (lexemes_matches source.toList) hf
  rwa [flatMap_text_lexemes] at this

/-! ## Tokens of a layout -/

section
variable {vc : VariableCase} {n : Nat} {cs : List Char} {ts : List Token}

theorem Laid.isBlank_of_nil (h : Laid vc n cs []) : ∀ c ∈ cs, isBlank c = true := by
  generalize hts : ([] : List Token) = ts at h
  induction h with
  | nil => exact nofun
  | blank hc _ ih => exact List.forall_mem_cons.mpr ⟨hc, ih hts⟩
  | token => cases hts

/-- The text before a token, its lexeme and the text after it. -/
theorem Laid.split {t : Token} {ts₁ ts₂ : List Token} (h : Laid vc n cs (ts₁ ++ t :: ts₂)) :
    ∃ pre r post, cs = pre ++ r ++ post ∧ t.kind.IsLexeme r ∧ t.kind.normalText? vc r = some t.text ∧
      t.span = ⟨n + byteLength pre, n + byteLength pre + byteLength r⟩ ∧ Laid vc n pre ts₁ ∧
      Laid vc (n + byteLength pre + byteLength r) post ts₂ := by
  generalize hts : ts₁ ++ t :: ts₂ = ts at h
  induction h generalizing ts₁ with
  | nil => simp at hts
  | @blank n c cs ts hc _ ih =>
    obtain ⟨pre, r, post, rfl, hk, htext, hspan, hpre, hpost⟩ := ih hts
    refine ⟨c :: pre, r, post, rfl, hk, htext, ?_, .blank hc hpre, ?_⟩
    · rw [hspan, byteLength_cons, Nat.add_assoc n]
    · rw [byteLength_cons, ← Nat.add_assoc n]; exact hpost
  | @token n k r cs text ts hk htext hcs ih =>
    cases ts₁ with
    | nil =>
      cases hts
      exact ⟨[], r, cs, rfl, hk, htext, rfl, .nil, hcs⟩
    | cons s ts₁ =>
      cases hts
      obtain ⟨pre, r', post, rfl, hk', htext', hspan, hpre, hpost⟩ := ih rfl
      refine ⟨r ++ pre, r', post, by simp, hk', htext', ?_, .token hk htext hpre, ?_⟩
      · rw [hspan, byteLength_append, Nat.add_assoc n]
      · rw [byteLength_append, ← Nat.add_assoc n]; exact hpost

theorem Laid.le_start (h : Laid vc n cs ts) {t : Token} (ht : t ∈ ts) : n ≤ t.span.start := by
  obtain ⟨ts₁, ts₂, rfl⟩ := List.append_of_mem ht
  obtain ⟨pre, r, post, -, -, -, hspan, -⟩ := h.split
  rw [hspan]
  exact Nat.le_add_right ..

theorem Laid.start_lt_stop (h : Laid vc n cs ts) {t : Token} (ht : t ∈ ts) : t.span.start < t.span.stop := by
  obtain ⟨ts₁, ts₂, rfl⟩ := List.append_of_mem ht
  obtain ⟨pre, r, post, -, hk, -, hspan, -⟩ := h.split
  have hne : byteLength r ≠ 0 := mt byteLength_eq_zero_iff.mp hk.ne_nil
  rw [hspan]
  simp only; omega

theorem Laid.pairwise (h : Laid vc n cs ts) : ts.Pairwise fun s t => s.span.stop ≤ t.span.start := by
  induction h with
  | nil => exact .nil
  | blank _ _ ih => exact ih
  | token _ _ hcs ih => exact .cons (fun t ht => hcs.le_start ht) ih

theorem split_append_cons {r cs pre post : List Char} {c : Char} (h : r ++ cs = pre ++ c :: post) :
    (∃ r', r = pre ++ c :: r') ∨ ∃ pre', pre = r ++ pre' ∧ cs = pre' ++ c :: post := by
  rcases List.append_eq_append_iff.mp h with ⟨pre', rfl, hcs⟩ | ⟨r', rfl, hcs⟩
  · exact .inr ⟨pre', rfl, hcs⟩
  · cases r' with
    | nil => exact .inr ⟨[], by simp, hcs.symm⟩
    | cons d r' => cases hcs; exact .inl ⟨r', rfl⟩

-- a character lies in the first lexeme or, as in the rest of the text, in a later one
theorem Laid.isBlank_iff (h : Laid vc n cs ts) {pre post : List Char} {c : Char} (hcs : cs = pre ++ c :: post) :
    isBlank c = false ↔
      ∃ t ∈ ts, t.span.start ≤ n + byteLength pre ∧ n + byteLength pre + c.utf8Size ≤ t.span.stop := by
  induction h generalizing pre with
  | nil => simp at hcs
  | @blank n b cs ts hb hcs' ih =>
    cases pre with
    | nil =>
      cases hcs
      rw [hb]
      refine ⟨nofun, ?_⟩
      rintro ⟨t, ht, hle, -⟩
      have := hcs'.le_start ht
      have := c.utf8Size_pos
      rw [byteLength_nil] at hle
      omega
    | cons d pre =>
      cases hcs
      rw [ih rfl, byteLength_cons, ← Nat.add_assoc n]
  | @token n k r cs text ts hk htext hcs' ih =>
    rcases split_append_cons hcs with ⟨r', rfl⟩ | ⟨pre', rfl, hrest⟩
    · refine ⟨fun _ => ⟨_, List.mem_cons_self, Nat.le_add_right .., ?_⟩, fun _ => ?_⟩
      · simp only [byteLength_append, byteLength_cons]; omega
      · exact hk.not_isBlank c (by simp)
    · rw [ih hrest, byteLength_append, ← Nat.add_assoc n, List.exists_mem_cons_iff]
      have := c.utf8Size_pos
      simp only
      refine ⟨.inr, ?_⟩
      rintro (⟨-, hle⟩ | h)
      · omega
      · exact h

end

/-! ## Slices of tokens -/

/-- What makes the token of a slice. -/
def Token.IsReadFrom (vc : VariableCase) (t : Token) (slice : String) : Prop :=
  match t.kind with
  | .number => IsNumber slice.toList ∧ normalizeNumber slice = .ok t.text
  | .var => IsName slice.toList ∧ t.text = vc.apply slice
  | .operator op => slice = String.singleton op.char ∧ t.text = slice
  | .openParen => slice = "(" ∧ t.text = slice
  | .closeParen => slice = ")" ∧ t.text = slice

theorem isReadFrom_of_isLexeme {vc : VariableCase} {t : Token} {slice : String}
    (hk : t.kind.IsLexeme slice.toList) (ht : t.kind.normalText? vc slice.toList = some t.text) :
    t.IsReadFrom vc slice := by
  obtain ⟨k, text, span⟩ := t
  have hmark : ∀ c, slice.toList = [c] → slice = String.singleton c := by
    intro c hc
    rw [← String.toList_inj, hc, String.toList_singleton]
  cases k with
  | number =>
    rw [normalText?_number_eq_some_iff, String.ofList_toList] at ht
    exact ⟨hk, ht⟩
  | var =>
    simp only [Kind.normalText?, String.ofList_toList, Option.some.injEq] at ht
    exact ⟨hk, ht.symm⟩
  | _ =>
    simp only [Kind.normalText?, String.ofList_toList, Option.some.injEq] at ht
    exact ⟨hmark _ hk, ht.symm⟩

theorem Laid.exists_slice {vc : VariableCase} {source : String} {tokens : List Token}
    (h : Laid vc 0 source.toList tokens) {t : Token} (ht : t ∈ tokens) : ∃ slice,
      t.span.slice? source = some slice ∧ t.kind.IsLexeme slice.toList ∧
        t.kind.normalText? vc slice.toList = some t.text := by
  obtain ⟨ts₁, ts₂, rfl⟩ := List.append_of_mem ht
  obtain ⟨pre, r, post, hsource, hk, htext, hspan, -⟩ := h.split
  refine ⟨String.ofList r, slice?_eq_some_iff.mpr ⟨pre, post, ?_, ?_⟩, ?_, ?_⟩
  · rw [hsource, String.toList_ofList]
  · rw [hspan, String.toList_ofList]; simp
  · rw [String.toList_ofList]; exact hk
  · rw [String.toList_ofList]; exact htext

/-- Nothing of the source is lost in its tokens. -/
structure Lossless (vc : VariableCase) (source : String) (tokens : List Token) : Prop where
  fits : ∀ t ∈ tokens, t.span.Fits source ∧ t.span.start < t.span.stop
  ordered : tokens.Pairwise fun s t => s.span.start < t.span.start ∧ s.span.stop ≤ t.span.start
  covered : ∀ pre c post, source.toList = pre ++ c :: post → (isBlank c = false ↔
    ∃ t ∈ tokens, t.span.start ≤ byteLength pre ∧ byteLength pre + c.utf8Size ≤ t.span.stop)
  slice : ∀ t ∈ tokens, ∃ slice, t.span.slice? source = some slice ∧ t.IsReadFrom vc slice
  determined : ∀ s ∈ tokens, ∀ t ∈ tokens, s.span.slice? source = t.span.slice? source → s.sameAs t = true

/-- **Lexing is lossless.** -/
theorem tokenize_lossless {vc : VariableCase} {source : String} {tokens : List Token}
    (h : tokenize vc source = .ok tokens) : Lossless vc source tokens := by
  have hl := laid_of_tokenize h
  refine ⟨fun t ht => ?_, ?_, fun pre c post hsource => ?_, fun t ht => ?_, fun s hs t ht heq => ?_⟩
  · obtain ⟨slice, hslice, -⟩ := hl.exists_slice ht
    exact ⟨fits_iff_exists_slice?.mpr ⟨slice, hslice⟩, hl.start_lt_stop ht⟩
  · refine hl.pairwise.imp_of_mem fun hs _ hle => ⟨?_, hle⟩
    exact Nat.lt_of_lt_of_le (hl.start_lt_stop hs) hle
  · simpa using hl.isBlank_iff hsource
  · obtain ⟨slice, hslice, hk, htext⟩ := hl.exists_slice ht
    exact ⟨slice, hslice, isReadFrom_of_isLexeme hk htext⟩
  · obtain ⟨slice, hslice, hk, htext⟩ := hl.exists_slice hs
    obtain ⟨slice', hslice', hk', htext'⟩ := hl.exists_slice ht
    rw [hslice, hslice', Option.some.injEq] at heq
    subst heq
    have hkind := hk.kind_eq hk'
    rw [hkind, htext', Option.some.injEq] at htext
    simp [Token.sameAs, hkind, htext]

theorem tokenize_lossless_wide : ∃ tokens, tokenize .upper "\u3000x1\u00a0+ 2.50" = .ok tokens ∧
    tokens.map Token.span = [⟨3, 5⟩, ⟨7, 8⟩, ⟨9, 13⟩] ∧ Lossless .upper "\u3000x1\u00a0+ 2.50" tokens := by
  have h : tokenize .upper "\u3000x1\u00a0+ 2.50" = .ok [⟨.var, "X1", ⟨3, 5⟩⟩,
      ⟨.operator .add, "+", ⟨7, 8⟩⟩, ⟨.number, "2.5", ⟨9, 13⟩⟩] :=
    (tokenize_eq_ok_iff ..).mpr ⟨by decide +kernel, by decide +kernel⟩
  exact ⟨_, h, rfl, tokenize_lossless h⟩

end SheetFormula
