import Mathlib.Data.List.Sort
import Mathlib.Data.String.Basic
import SheetFormula.Formula

/-!
# Sorted names

`sortedNames` is the ascending list of the names it is given, each once. So it depends on nothing but which
names there are: `sortedNames_congr`.
-/

namespace SheetFormula

@[simp] theorem mem_insertName {a b : String} {names : List String} :
    b ∈ insertName a names ↔ b = a ∨ b ∈ names := by
  induction names with
  | nil => simp [insertName]
  | cons c names ih =>
    unfold insertName
    by_cases hlt : a < c
    · simp [hlt]
    · by_cases heq : a = c
      · subst heq; simp
      · simp only [hlt, heq, ite_false, List.mem_cons, ih]
        exact or_left_comm

theorem pairwise_insertName (a : String) {names : List String} (h : names.Pairwise (· < ·)) :
    (insertName a names).Pairwise (· < ·) := by
  induction names with
  | nil => simp [insertName]
  | cons c names ih =>
    obtain ⟨hc, hnames⟩ := List.pairwise_cons.mp h
    unfold insertName
    by_cases hlt : a < c
    · simp only [hlt, ite_true]
      refine List.pairwise_cons.mpr ⟨fun b hb => ?_, h⟩
      rcases List.mem_cons.mp hb with rfl | hb
      · exact hlt
      · exact String.lt_trans hlt (hc b hb)
    · by_cases heq : a = c
      · subst heq
        simp only [hlt, ite_true, ite_false]; exact h
      · simp only [hlt, heq, ite_false]
        refine List.pairwise_cons.mpr ⟨fun b hb => ?_, ih hnames⟩
        rcases mem_insertName.mp hb with rfl | hb
        · exact lt_of_le_of_ne (not_lt.mp hlt) (Ne.symm heq)
        · exact hc b hb

@[simp] theorem mem_sortedNames {a : String} {names : List String} : a ∈ sortedNames names ↔ a ∈ names := by
  induction names with
  | nil => rfl
  | cons b names ih =>
    change a ∈ insertName b (sortedNames names) ↔ _
    simp [ih]

theorem pairwise_sortedNames (names : List String) : (sortedNames names).Pairwise (· < ·) := by
  induction names with
  | nil => exact .nil
  | cons b names ih => exact pairwise_insertName b ih

theorem sortedNames_congr {l l' : List String} (h : ∀ a, a ∈ l ↔ a ∈ l') : sortedNames l = sortedNames l' := by
  refine List.Pairwise.eq_of_mem_iff (pairwise_sortedNames l) (pairwise_sortedNames l') fun a => ?_
  rw [mem_sortedNames, mem_sortedNames, h]

theorem mem_variableNames {f : Formula} {name : String} :
    name ∈ f.variableNames ↔ ∃ t ∈ f.tokens, t.kind = .var ∧ t.text = name := by
  simp [Formula.variableNames, and_assoc]

end SheetFormula
