import SheetFormula.Proofs.CutLemmas
import SheetFormula.Proofs.SpellSound

/-!
# Two texts with blanks between them

A lexeme is read by itself, whatever byte it starts at: `ofLexemes_shift`. So lexing goes on after some
lexemes as it would from the start, only further on (`ofLexemes_append`), and two texts with blanks between
them are lexed one after the other: `ofSource_append_blanks`.
-/

namespace SheetFormula

/-! ## Further on in a text -/

def Span.shift (d : Nat) (s : Span) : Span :=
  ⟨s.start + d, s.stop + d⟩

def Token.shift (d : Nat) (t : Token) : Token :=
  { t with span := t.span.shift d }

namespace Lexing

def shift (d : Nat) (x : Lexing) : Lexing :=
  ⟨x.tokens.map (Token.shift d), x.fault.map fun f => (f.1, f.2.shift d)⟩

/-- Lexing that goes on as in `y`, unless there is a fault in `x`. -/
def andThen (x y : Lexing) : Lexing :=
  match x.fault with
  | none => ⟨x.tokens ++ y.tokens, y.fault⟩
  | some _ => x

end Lexing

theorem andThen_of_fault {x : Lexing} {f : Fault × Span} (h : x.fault = some f) (y : Lexing) :
    x.andThen y = x := by
  simp only [Lexing.andThen, h]

theorem andThen_of_no_fault {x : Lexing} (h : x.fault = none) (y : Lexing) :
    x.andThen y = ⟨x.tokens ++ y.tokens, y.fault⟩ := by
  simp only [Lexing.andThen, h]

theorem andThen_nothing (x : Lexing) : x.andThen ⟨[], none⟩ = x := by
  cases h : x.fault with
  | none => rw [andThen_of_no_fault h, List.append_nil, ← h]
  | some f => exact andThen_of_fault h _

theorem cons_andThen (t : Token) (x y : Lexing) : Lexing.andThen ⟨t :: x.tokens, x.fault⟩ y =
    ⟨t :: (x.andThen y).tokens, (x.andThen y).fault⟩ := by
  cases h : x.fault with
  | none => rw [andThen_of_no_fault h, andThen_of_no_fault rfl, List.cons_append]
  | some f => rw [andThen_of_fault h, andThen_of_fault rfl, h]

theorem ofLexemes_shift (vc : VariableCase) (d n : Nat) (ls : List Lexeme) :
    Lexing.ofLexemes vc (n + d) ls = (Lexing.ofLexemes vc n ls).shift d := by
  induction ls generalizing n with
  | nil => rfl
  | cons l ls ih =>
    unfold Lexing.ofLexemes
    have hstop : n + d + byteLength l.text = n + byteLength l.text + d := by omega
    cases hr : l.read vc with
    | none =>
      simp only [hstop]
      exact ih _
    | some read =>
      cases read with
      | error fault =>
        simp only [hstop]
        rfl
      | ok content =>
        simp only [hstop, ih]
        rfl

theorem ofLexemes_append (vc : VariableCase) (n : Nat) (ls₁ ls₂ : List Lexeme) :
    Lexing.ofLexemes vc n (ls₁ ++ ls₂) = (Lexing.ofLexemes vc n ls₁).andThen
      (Lexing.ofLexemes vc (n + byteLength (ls₁.flatMap Lexeme.text)) ls₂) := by
  induction ls₁ generalizing n with
  | nil => rfl
  | cons l ls₁ ih =>
    rw [List.cons_append, List.flatMap_cons, byteLength_append, ← Nat.add_assoc, Lexing.ofLexemes,
      Lexing.ofLexemes]
    cases hr : l.read vc with
    | none => exact ih _
    | some read =>
      cases read with
      | error fault => rfl
      | ok content =>
        simp only [ih]
        exact (cons_andThen ..).symm

theorem ofLexemes_blanks (vc : VariableCase) (n : Nat) (w : List Char) :
    Lexing.ofLexemes vc n (w.map blankLexeme) = ⟨[], none⟩ := by
  induction w generalizing n with
  | nil => rfl
  | cons c w ih => exact ih _

/-! ## Blanks between two texts -/

section
variable {w : List Char} (hne : w ≠ []) (hw : ∀ c ∈ w, isBlank c = true)
include hne hw

theorem lexemes_append_blanks (cs rest : List Char) :
    lexemes (cs ++ w ++ rest) = lexemes cs ++ (w.map blankLexeme ++ lexemes rest) := by
  cases w with
  | nil => exact absurd rfl hne
  | cons c w =>
    rw [List.forall_mem_cons] at hw
    rw [List.append_assoc, List.cons_append, lexemes_append_blank hw.1, lexemes_blanks hw.2]
    rfl

end

section
variable (vc : VariableCase) {w : String} (hne : w ≠ "") (hw : ∀ c ∈ w.toList, isBlank c = true) (a b : String)
include hne hw

theorem ofSource_append_blanks : Lexing.ofSource vc (a ++ w ++ b) =
    (Lexing.ofSource vc a).andThen ((Lexing.ofSource vc b).shift (a ++ w).utf8ByteSize) := by
  have hne' : w.toList ≠ [] := mt String.toList_eq_nil_iff.mp hne
  have hblanks : (w.toList.map blankLexeme).flatMap Lexeme.text = w.toList := by
    simp [List.flatMap_map, blankLexeme]
  have hsize : (a ++ w).utf8ByteSize = byteLength a.toList + byteLength w.toList := by
    rw [utf8ByteSize_eq, String.toList_append, byteLength_append]
  unfold Lexing.ofSource
  rw [String.toList_append, String.toList_append, lexemes_append_blanks hne' hw, ofLexemes_append,
    flatMap_text_lexemes, ofLexemes_append, ofLexemes_blanks, hblanks, hsize, Nat.add_assoc, ofLexemes_shift]
  rfl

/-- **Blanks part a text.** A fault before them stays as it is. Without one, the tokens or the fault behind
them are those of the text there by itself, as many bytes further on as there are before it. -/
theorem tokenize_append_blanks :
    (∀ r, tokenize vc a = .error r → tokenize vc (a ++ w ++ b) = .error { r with source := a ++ w ++ b }) ∧
    (∀ ts us, tokenize vc a = .ok ts → tokenize vc b = .ok us →
      tokenize vc (a ++ w ++ b) = .ok (ts ++ us.map (Token.shift (a ++ w).utf8ByteSize))) ∧
    (∀ ts r, tokenize vc a = .ok ts → tokenize vc b = .error r → tokenize vc (a ++ w ++ b) =
      .error { r with source := a ++ w ++ b, span := r.span.shift (a ++ w).utf8ByteSize }) := by
  have hlex := ofSource_append_blanks vc hne hw a b
  refine ⟨fun r hr => ?_, fun ts us hts hus => ?_, fun ts r hts hr => ?_⟩
  · obtain ⟨hfault, -, hnotes⟩ := (tokenize_eq_error_iff ..).mp hr
    rw [tokenize_eq_error_iff, hlex, andThen_of_fault hfault]
    exact ⟨hfault, rfl, hnotes⟩
  · obtain ⟨hfault, rfl⟩ := (tokenize_eq_ok_iff ..).mp hts
    obtain ⟨hfault', rfl⟩ := (tokenize_eq_ok_iff ..).mp hus
    rw [tokenize_eq_ok_iff, hlex, andThen_of_no_fault hfault]
    simp [Lexing.shift, hfault']
  · obtain ⟨hfault, -⟩ := (tokenize_eq_ok_iff ..).mp hts
    obtain ⟨hfault', -, hnotes⟩ := (tokenize_eq_error_iff ..).mp hr
    rw [tokenize_eq_error_iff, hlex, andThen_of_no_fault hfault]
    simp [Lexing.shift, hfault', hnotes]

end

-- a dangling exponent before the blank, then one behind it
theorem tokenize_append_blanks_exponent : "\u3000" ≠ "" ∧ (∀ c ∈ "\u3000".toList, isBlank c = true) ∧
    tokenize .upper ("1e+" ++ "\u3000" ++ "5") =
      .error ⟨.invalidToken "1e", "1e+" ++ "\u3000" ++ "5", ⟨0, 2⟩, []⟩ ∧
    tokenize .upper ("x1" ++ "\u3000" ++ "-1e+2") =
      .ok [⟨.var, "X1", ⟨0, 2⟩⟩, ⟨.operator .sub, "-", ⟨5, 6⟩⟩, ⟨.number, "100", ⟨6, 10⟩⟩] ∧
    tokenize .upper ("x1" ++ "\u3000" ++ "-1e+") =
      .error ⟨.invalidToken "1e", "x1" ++ "\u3000" ++ "-1e+", ⟨6, 8⟩, []⟩ := by
  have hne : "\u3000" ≠ "" := by decide
  have hw : ∀ c ∈ "\u3000".toList, isBlank c = true := List.all_eq_true.mp (by decide +kernel)
  have hname : tokenize .upper "x1" = .ok [⟨.var, "X1", ⟨0, 2⟩⟩] :=
    (tokenize_eq_ok_iff ..).mpr ⟨by decide +kernel, by decide +kernel⟩
  have hnumber : tokenize .upper "-1e+2" = .ok [⟨.operator .sub, "-", ⟨0, 1⟩⟩, ⟨.number, "100", ⟨1, 5⟩⟩] :=
    (tokenize_eq_ok_iff ..).mpr ⟨by decide +kernel, by decide +kernel⟩
  have hbefore : tokenize .upper "1e+" = .error ⟨.invalidToken "1e", "1e+", ⟨0, 2⟩, []⟩ :=
    (tokenize_eq_error_iff ..).mpr ⟨by decide +kernel, rfl, rfl⟩
  have hbehind : tokenize .upper "-1e+" = .error ⟨.invalidToken "1e", "-1e+", ⟨1, 3⟩, []⟩ :=
    (tokenize_eq_error_iff ..).mpr ⟨by decide +kernel, rfl, rfl⟩
  exact ⟨hne, hw, (tokenize_append_blanks .upper hne hw "1e+" "5").1 _ hbefore,
    (tokenize_append_blanks .upper hne hw "x1" "-1e+2").2.1 _ _ hname hnumber,
    (tokenize_append_blanks .upper hne hw "x1" "-1e+").2.2 _ _ hname hbehind⟩

end SheetFormula
