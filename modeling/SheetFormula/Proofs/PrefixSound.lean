import SheetFormula.Proofs.BreachSound

/-!
# When a rejection is final

The check stops at a token only if nothing that follows could help: `StopsAt.check_eq`. Up to there the
tokens can be completed: `check_completion` ends what is open with a number and closing parentheses.
-/

namespace SheetFormula

/-- The check gets through the tokens before `i` and rejects the one at `i`. -/
def StopsAt (source : String) (ts : List Token) (i : Nat) (r : Rejection) : Prop :=
  ∃ p t, (ts.take i).foldlM (Progress.step source) Progress.start = .ok p ∧ ts[i]? = some t ∧
    p.step source t = .error r

/-! ## Tokens after the fault -/

theorem run_ok_of_source {source source' : String} {ts : List Token} {p : Progress}
    (h : ts.foldlM (Progress.step source) Progress.start = .ok p) :
    ts.foldlM (Progress.step source') Progress.start = .ok p :=
  (run_eq_ok_iff source' ts p).mpr ((run_eq_ok_iff source ts p).mp h)

theorem step_error_of_source {source source' : String} {p : Progress} {t : Token} {r : Rejection}
    (h : p.step source t = .error r) : p.step source' t = .error { r with source := source' } := by
  unfold Progress.step at h ⊢
  split at h
  · cases h; rfl
  · split at h
    · cases h; rfl
    · cases h

theorem StopsAt.check_eq {source : String} {ts ts' : List Token} {i : Nat} {r : Rejection}
    (h : StopsAt source ts i r) (hp : ts.take (i + 1) <+: ts') (source' : String) :
    check ts' source' = .error { r with source := source' } := by
  obtain ⟨p, t, hrun, ht, hstep⟩ := h
  obtain ⟨us, rfl⟩ := hp
  rw [List.take_add_one, ht, Option.toList_some, List.append_assoc, check_eq_error_iff]
  refine .inl ((foldlM_eq_error_iff ..).mpr ⟨ts.take i, t, us, p, rfl, ?_, ?_⟩)
  · exact run_ok_of_source hrun
  · exact step_error_of_source hstep

theorem exists_stopsAt {source : String} {ts : List Token} {r : Rejection}
    (h : ts.foldlM (Progress.step source) Progress.start = .error r) : ∃ i, StopsAt source ts i r := by
  obtain ⟨pre, t, post, p, rfl, hrun, hstep⟩ := (foldlM_eq_error_iff ..).mp h
  exact ⟨pre.length, p, t, by rw [List.take_left]; exact hrun, by simp, hstep⟩

/-! ## Tokens that complete a beginning -/

def zeroToken : Token :=
  ⟨.number, "0", ⟨0, 0⟩⟩

def plusToken : Token :=
  ⟨.operator .add, "+", ⟨0, 0⟩⟩

def closeToken : Token :=
  ⟨.closeParen, ")", ⟨0, 0⟩⟩

/-- A number, behind an operator where one is due, and what closes the parentheses still open. -/
def Progress.completion (p : Progress) : List Token :=
  (if p.afterOperand then [plusToken] else []) ++
    ([zeroToken] ++ List.replicate p.opened.length closeToken)

theorem run_closeTokens (source : String) (p : Progress) (hp : p.afterOperand = true) :
    ∃ q, (List.replicate p.opened.length closeToken).foldlM (Progress.step source) p = .ok q ∧
      q.afterOperand = true ∧ q.opened = [] := by
  obtain ⟨previous, opened⟩ := p
  induction opened generalizing previous with
  | nil => exact ⟨_, rfl, hp, rfl⟩
  | cons s opened ih =>
    obtain ⟨q, hrun, hq⟩ := ih (some closeToken) rfl
    have hstep : Progress.step source ⟨previous, s :: opened⟩ closeToken = .ok ⟨some closeToken, opened⟩ :=
      (step_eq_ok_iff ..).mpr ⟨hp, rfl, rfl⟩
    exact ⟨q, (foldlM_cons_ok_iff ..).mpr ⟨_, hstep, hrun⟩, hq⟩

theorem run_operandAndCloses (source : String) (p : Progress) (hp : p.afterOperand = false) :
    ∃ q, ([zeroToken] ++ List.replicate p.opened.length closeToken).foldlM (Progress.step source) p = .ok q ∧
      q.afterOperand = true ∧ q.opened = [] := by
  obtain ⟨q, hrun, hq⟩ := run_closeTokens source ⟨some zeroToken, p.opened⟩ rfl
  exact ⟨q, foldlM_append_ok (step_ok hp rfl) hrun, hq⟩

theorem run_completion (source : String) (p : Progress) :
    ∃ q, p.completion.foldlM (Progress.step source) p = .ok q ∧ q.afterOperand = true ∧ q.opened = [] := by
  unfold Progress.completion
  cases hp : p.afterOperand with
  | false => exact run_operandAndCloses source p hp
  | true =>
    obtain ⟨q, hrun, hq⟩ := run_operandAndCloses source ⟨some plusToken, p.opened⟩ rfl
    exact ⟨q, foldlM_append_ok (step_ok hp rfl) hrun, hq⟩

theorem completion_ne_nil (p : Progress) : p.completion ≠ [] := by
  simp [Progress.completion]

theorem check_completion {source : String} {ts : List Token} {p : Progress}
    (h : ts.foldlM (Progress.step source) Progress.start = .ok p) :
    check (ts ++ p.completion) source = .ok () := by
  obtain ⟨q, hrun, hq⟩ := run_completion source p
  exact (check_eq_ok_iff ..).mpr ⟨q, foldlM_append_ok h hrun, hq⟩

/-! ## The rules of the two kinds of rejection -/

/-- The rules that a token breaks where it stands. -/
def Rule.IsFinal (rule : Rule) : Prop :=
  rule ∈ [Rule.firstToken, .afterOperand, .afterOperator, .closingParenthesis]

/-- The rules that are broken at the end only. -/
def Rule.IsPending (rule : Rule) : Prop :=
  rule ∈ [Rule.oneToken, .lastToken, .balancedParentheses]

theorem step_error_rule {source : String} {p : Progress} {t : Token} {r : Rejection}
    (h : p.step source t = .error r) : r.rule.IsFinal := by
  unfold Progress.step at h
  split at h
  · rename_i fault notes hf
    cases h
    rcases followFault?_eq_some_iff.mp hf with ⟨-, -, rfl, -⟩ | ⟨s, -, -, -, rfl, -⟩ | ⟨s, -, -, -, rfl, -⟩ <;>
      simp [Rejection.rule, Fault.rule, Rule.IsFinal]
  · split at h
    · cases h; simp [Rejection.rule, Fault.rule, Rule.IsFinal]
    · cases h

theorem run_error_rule {source : String} {ts : List Token} {r : Rejection}
    (h : ts.foldlM (Progress.step source) Progress.start = .error r) : r.rule.IsFinal := by
  obtain ⟨_, _, _, _, _, _, hstep⟩ := (foldlM_eq_error_iff ..).mp h
  exact step_error_rule hstep

theorem finish_error_rule {source : String} {p : Progress} {r : Rejection} (h : p.finish source = .error r) :
    r.rule.IsPending := by
  unfold Progress.finish at h
  split at h
  · cases h; simp [Rejection.rule, Fault.rule, Rule.IsPending]
  · split at h
    · split at h
      · cases h
      · cases h; simp [Rejection.rule, Fault.rule, Rule.IsPending]
    · cases h; simp [Rejection.rule, Fault.rule, Rule.IsPending]

theorem Rule.IsFinal.not_isPending {rule : Rule} (h : rule.IsFinal) : ¬ rule.IsPending := by
  cases rule <;> simp_all [Rule.IsFinal, Rule.IsPending]

/-- **A rejection comes as soon as it is final, and no sooner.** -/
theorem check_error_final {ts : List Token} {source : String} {r : Rejection}
    (h : check ts source = .error r) :
    (r.rule.IsFinal → (∃ i, StopsAt source ts i r) ∧ ∀ i, StopsAt source ts i r →
      (∀ ts' source', ts.take (i + 1) <+: ts' → check ts' source' = .error { r with source := source' }) ∧
        ∃ us, check (ts.take i ++ us) source = .ok ()) ∧
    (r.rule.IsPending → ∃ us, us ≠ [] ∧ check (ts ++ us) source = .ok ()) := by
  rcases (check_eq_error_iff ts source r).mp h with hrun | ⟨p, hrun, hfin⟩
  · have hrule := run_error_rule hrun
    refine ⟨fun _ => ⟨exists_stopsAt hrun, fun i hi => ?_⟩, fun hp => absurd hp hrule.not_isPending⟩
    have ⟨p, _, hrun', _, _⟩ := hi
    exact ⟨fun ts' source' hts' => hi.check_eq hts' source', p.completion, check_completion hrun'⟩
  · have hrule := finish_error_rule hfin
    exact ⟨fun hf => absurd hrule hf.not_isPending, fun _ =>
      ⟨p.completion, completion_ne_nil p, check_completion hrun⟩⟩

theorem check_error_final_parens :
    (∀ us source, check ([⟨.number, "1", ⟨0, 1⟩⟩, ⟨.closeParen, ")", ⟨1, 2⟩⟩] ++ us) source =
      .error ⟨.unmatchedClose, source, ⟨1, 2⟩, []⟩) ∧
    ∃ us, us ≠ [] ∧ check ([⟨.openParen, "(", ⟨0, 1⟩⟩, ⟨.number, "1", ⟨1, 2⟩⟩] ++ us) "(1" = .ok () := by
  have hclose : check [⟨.number, "1", ⟨0, 1⟩⟩, ⟨.closeParen, ")", ⟨1, 2⟩⟩] "1)" =
      .error ⟨.unmatchedClose, "1)", ⟨1, 2⟩, []⟩ := rfl
  have hopen : check [⟨.openParen, "(", ⟨0, 1⟩⟩, ⟨.number, "1", ⟨1, 2⟩⟩] "(1" =
      .error ⟨.unclosed 1, "(1", ⟨0, 1⟩, []⟩ := rfl
  have hfinal := (check_error_final hclose).1 (by simp [Rejection.rule, Fault.rule, Rule.IsFinal])
  refine ⟨fun us source => ?_, (check_error_final hopen).2 (by simp [Rejection.rule, Fault.rule, Rule.IsPending])⟩
  exact (hfinal.2 1 ⟨_, _, rfl, rfl, rfl⟩).1 _ source (List.prefix_append ..)

end SheetFormula
