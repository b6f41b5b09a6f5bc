import Mathlib.Data.List.Sort
import SheetFormula.Proofs.PlaceSound
import SheetFormula.Report

/-!
# The order of the labels in a report

The fault of a rejection and the notes on it are at tokens, the fault at the last of them
(`Rejects.exists_sublist`). Tokens do not overlap, so the columns of their labels ascend with them
(`ascending_orderedLabels`) and to sort by columns is to put the labels in the order of the source:
`parse_error_labels`.
-/

namespace SheetFormula

/-! ## Sorting by columns -/

theorem sortedLabels_perm (d : Diagnostic) : d.sortedLabels.Perm d.labels :=
  List.mergeSort_perm ..

theorem pairwise_sortedLabels (d : Diagnostic) :
    d.sortedLabels.Pairwise fun a b => a.column ≤ b.column :=
  List.pairwise_mergeSort' (fun a b : Label => a.column ≤ b.column) d.labels

theorem nodup_columns {labels : List Label} (h : labels.Pairwise fun a b => a.column < b.column) :
    (labels.map Label.column).Nodup :=
  List.pairwise_map.mpr (h.imp Nat.ne_of_lt)

/-- Labels with distinct columns can be sorted in one way only. -/
theorem eq_of_ascending {labels labels' : List Label} (hperm : labels.Perm labels')
    (h : labels.Pairwise fun a b => a.column ≤ b.column)
    (h' : labels'.Pairwise fun a b => a.column < b.column) : labels = labels' := by
  refine List.Perm.eq_of_pairwise (fun a b ha hb hab hba => ?_) h (h'.imp Nat.le_of_lt) hperm
  exact List.inj_on_of_nodup_map (nodup_columns h') (hperm.mem_iff.mp ha) hb (Nat.le_antisymm hab hba)

/-! ## The spans of a rejection -/

/-- A span with something in it that ends before the other one begins. -/
def Span.Precedes (s t : Span) : Prop :=
  s.start < s.stop ∧ s.stop ≤ t.start ∧ t.start < t.stop

/-- The notes, if there are any, and the fault are at tokens in the order of the source. -/
theorem Rejects.exists_sublist {ts : List Token} {source : String} {r : Rejection} (h : Rejects ts source r) :
    r.notes = [] ∨ ∃ us : List Token, us.Sublist ts ∧ us.map Token.span = r.notes.map Note.span ++ [r.span] := by
  cases h with
  | breach ht hb =>
    cases hb.breach with
    -- the two rules with a note on the token before
    | operator hs ht' | operand hs ht' =>
      cases ht.symm.trans ht'
      obtain ⟨ts₁, ts₂, rfl⟩ := append_of_getElem? hs ht
      exact .inr ⟨_, pair_sublist .., rfl⟩
    | _ => exact .inl rfl
  | @unclosed _ innermost outer _ _ _ ho =>
    refine .inr ⟨leftOpen ts, leftOpen_sublist ts, ?_⟩
    rw [ho, List.map_append, List.map_map]
    rfl
  | _ => exact .inl rfl

theorem Laid.precedes {vc : VariableCase} {n : Nat} {cs : List Char} {ts : List Token} (h : Laid vc n cs ts) :
    ts.Pairwise fun s t => s.span.Precedes t.span :=
  h.pairwise.imp_of_mem fun hs ht hle => ⟨h.start_lt_stop hs, hle, h.start_lt_stop ht⟩

theorem precedes_of_parse_error {vc : VariableCase} {source : String} {r : Rejection}
    (h : Formula.parse vc source = .error r) :
    (r.notes.map Note.span ++ [r.span]).Pairwise Span.Precedes := by
  have single : r.notes = [] → (r.notes.map Note.span ++ [r.span]).Pairwise Span.Precedes := by
    intro hnotes
    simp [hnotes]
  rcases (parse_eq_error_iff vc source r).mp h with ht | ⟨tokens, ht, hc⟩
  · exact single ((tokenize_eq_error_iff vc source r).mp ht).2.2
  · rcases (rejects_of_check hc).exists_sublist with hnotes | ⟨us, hsub, hspans⟩
    · exact single hnotes
    · rw [← hspans, List.pairwise_map]
      exact (laid_of_tokenize ht).precedes.sublist hsub

/-! ## The order of the source -/

/-- The labels of the notes, as they are listed, and then that of the fault. -/
def Rejection.orderedLabels (r : Rejection) : List Label :=
  r.notes.map (fun note => ⟨note.span, note.message⟩) ++ [⟨r.span, r.fault.message⟩]

theorem orderedLabels_perm (r : Rejection) : r.orderedLabels.Perm r.diagnostic.labels :=
  List.perm_append_singleton _ _

theorem map_span_orderedLabels (r : Rejection) :
    r.orderedLabels.map Label.span = r.notes.map Note.span ++ [r.span] := by
  simp [Rejection.orderedLabels]

-- the column of a span with something in it is before its end, also after rounding
theorem column_lt_of_precedes {l m : Label} (h : l.span.Precedes m.span) : l.column < m.column := by
  obtain ⟨hl, hle, hm⟩ := h
  unfold Label.column
  omega

theorem ascending_orderedLabels {vc : VariableCase} {source : String} {r : Rejection}
    (h : Formula.parse vc source = .error r) : r.orderedLabels.Pairwise fun l m => l.column < m.column := by
  have hspans := precedes_of_parse_error h
  rw [← map_span_orderedLabels, List.pairwise_map] at hspans
  exact hspans.imp column_lt_of_precedes

theorem sortedLabels_eq {vc : VariableCase} {source : String} {r : Rejection}
    (h : Formula.parse vc source = .error r) : r.diagnostic.sortedLabels = r.orderedLabels :=
  eq_of_ascending ((sortedLabels_perm _).trans (orderedLabels_perm r).symm) (pairwise_sortedLabels _)
    (ascending_orderedLabels h)

/-- **The order of the labels.** All columns are distinct, and whoever sorts the labels by them gets the notes
as they are listed and the fault at the end. -/
theorem parse_error_labels {vc : VariableCase} {source : String} {r : Rejection}
    (h : Formula.parse vc source = .error r) :
    (r.diagnostic.labels.map Label.column).Nodup ∧ r.diagnostic.sortedLabels = r.orderedLabels ∧
      ∀ labels, labels.Perm r.diagnostic.labels → labels.Pairwise (fun l m => l.column ≤ m.column) →
        labels = r.orderedLabels := by
  have hascending := ascending_orderedLabels h
  have hperm := orderedLabels_perm r
  refine ⟨?_, sortedLabels_eq h, fun labels hlabels hsorted => ?_⟩
  · exact (hperm.map Label.column).nodup_iff.mp (nodup_columns hascending)
  · exact eq_of_ascending (hlabels.trans hperm.symm) hsorted hascending

-- the first two parentheses touch, and the fault is at the third
theorem parse_error_labels_nested : ∃ r, Formula.parse .upper "((1+(2" = .error r ∧
    r.diagnostic.labels.map Label.column = [4, 0, 1] ∧
    (r.diagnostic.labels.map Label.column).Nodup ∧ r.diagnostic.sortedLabels = r.orderedLabels ∧
      ∀ labels, labels.Perm r.diagnostic.labels → labels.Pairwise (fun l m => l.column ≤ m.column) →
        labels = r.orderedLabels := by
  have htok : tokenize .upper "((1+(2" = .ok [⟨.openParen, "(", ⟨0, 1⟩⟩, ⟨.openParen, "(", ⟨1, 2⟩⟩,
      ⟨.number, "1", ⟨2, 3⟩⟩, ⟨.operator .add, "+", ⟨3, 4⟩⟩, ⟨.openParen, "(", ⟨4, 5⟩⟩,
      ⟨.number, "2", ⟨5, 6⟩⟩] :=
    (tokenize_eq_ok_iff ..).mpr ⟨by decide +kernel, by decide +kernel⟩
  have h := (parse_eq_error_iff .upper _ _).mpr (.inr ⟨_, htok, rfl⟩)
  exact ⟨_, h, rfl, parse_error_labels h⟩

end SheetFormula
