import SheetFormula.Check
import SheetFormula.Grammar

/-!
# The check decides the grammar

A run of the check keeps `Reads`: up to every parenthesis still open the tokens are enclosing context,
and after the last one they are an expression, or one with an operator behind it. `check_iff_isExpr`:
the tokens pass the check exactly if their kinds derive from the grammar.
-/

namespace SheetFormula

/-! ## What a step and the end accept -/

/-- Whether an operand has just ended. -/
def Progress.afterOperand (p : Progress) : Bool :=
  p.previous.any fun t => t.kind.endsOperand

theorem followFault?_eq_none_iff (previous : Option Token) (t : Token) :
    followFault? previous t = none ↔
      (previous.any fun s => s.kind.endsOperand) = !t.kind.startsOperand := by
  cases previous with
  | none => cases h : t.kind.startsOperand <;> simp [followFault?, h]
  | some s =>
    cases h₁ : s.kind.endsOperand <;> cases h₂ : t.kind.startsOperand <;> simp [followFault?, h₁, h₂]

/-- A step goes through exactly if the token may follow and closes no parenthesis that is not there. -/
theorem step_eq_ok_iff (source : String) (p q : Progress) (t : Token) :
    p.step source t = .ok q ↔
      p.afterOperand = !t.kind.startsOperand ∧ openAfter? p.opened t = some q.opened ∧
        q.previous = some t := by
  have hf := followFault?_eq_none_iff p.previous t
  unfold Progress.step
  cases hp : followFault? p.previous t with
  | some fault =>
    have : p.afterOperand ≠ !t.kind.startsOperand := by
      intro h; rw [hp] at hf; cases hf.mpr h
    simp [this]
  | none =>
    have : p.afterOperand = !t.kind.startsOperand := hf.mp hp
    cases ho : openAfter? p.opened t with
    | none => simp
    | some opened =>
      obtain ⟨previous, opened'⟩ := q
      simp only [this, Except.ok.injEq, Progress.mk.injEq, Option.some.injEq, true_and]
      exact ⟨fun h => ⟨h.2, h.1.symm⟩, fun h => ⟨h.2.symm, h.1⟩⟩

theorem finish_eq_ok_iff (source : String) (p : Progress) :
    p.finish source = .ok () ↔ p.afterOperand = true ∧ p.opened = [] := by
  obtain ⟨previous, opened⟩ := p
  cases previous with
  | none => simp [Progress.finish, Progress.afterOperand]
  | some last =>
    cases h : last.kind.endsOperand <;> cases opened <;>
      simp [Progress.finish, Progress.afterOperand, h]

theorem foldlM_cons_ok_iff {ε α β : Type} (f : β → α → Except ε β) (b c : β) (a : α) (l : List α) :
    (a :: l).foldlM f b = .ok c ↔ ∃ b', f b a = .ok b' ∧ l.foldlM f b' = .ok c := by
  rw [List.foldlM_cons]
  cases h : f b a with
  | error e => simp [bind, Except.bind]
  | ok b' => simp [bind, Except.bind]

theorem foldlM_append_ok {ε α β : Type} {f : β → α → Except ε β} {b b' c : β} {l₁ l₂ : List α}
    (h₁ : l₁.foldlM f b = .ok b') (h₂ : l₂.foldlM f b' = .ok c) : (l₁ ++ l₂).foldlM f b = .ok c := by
  rw [List.foldlM_append, h₁]; exact h₂

theorem check_eq_ok_iff (tokens : List Token) (source : String) :
    check tokens source = .ok () ↔
      ∃ p, tokens.foldlM (Progress.step source) Progress.start = .ok p ∧
        p.afterOperand = true ∧ p.opened = [] := by
  unfold check
  cases h : tokens.foldlM (Progress.step source) Progress.start with
  | error r => simp [bind, Except.bind]
  | ok p => simp [bind, Except.bind, finish_eq_ok_iff]

/-! ## From a run to a derivation -/

/-- What may stand before an operand in an expression: nothing, or an expression and an operator. -/
def IsLead (w : List Kind) : Prop :=
  w = [] ∨ ∃ u op, IsExpr u ∧ w = u ++ [.operator op]

/-- What ends in the innermost of `n` parentheses still open. -/
inductive IsContext : Nat → List Kind → Prop
  | top : IsContext 0 []
  | opened {n u v} : IsContext n u → IsLead v → IsContext (n + 1) (u ++ v ++ [.openParen])

theorem IsLead.append_operand {u v : List Kind} (hu : IsLead u) (hv : IsOperand v) : IsExpr (u ++ v) := by
  rcases hu with rfl | ⟨u, op, hu, rfl⟩
  · exact .operand hv
  · rw [List.append_assoc]; exact .binary op hu hv

theorem IsContext.eq_nil {u : List Kind} (h : IsContext 0 u) : u = [] := by
  cases h; rfl

theorem IsContext.split_last {n : Nat} {u : List Kind} (h : IsContext (n + 1) u) :
    ∃ u' v, IsContext n u' ∧ IsLead v ∧ u = u' ++ v ++ [.openParen] := by
  cases h with
  | opened hu hv => exact ⟨_, _, hu, hv, rfl⟩

/-- The invariant of a run that has read tokens of the kinds `w`. -/
def Progress.Reads (p : Progress) (w : List Kind) : Prop :=
  ∃ u v, w = u ++ v ∧ IsContext p.opened.length u ∧ if p.afterOperand then IsExpr v else IsLead v

theorem start_reads : Progress.start.Reads [] :=
  ⟨[], [], rfl, .top, .inl rfl⟩

theorem step_reads {source : String} {p q : Progress} {t : Token} {w : List Kind}
    (hs : p.step source t = .ok q) (hr : p.Reads w) : q.Reads (w ++ [t.kind]) := by
  obtain ⟨hf, ho, hq⟩ := (step_eq_ok_iff source p q t).mp hs
  obtain ⟨u, v, rfl, hu, hv⟩ := hr
  have hafter : q.afterOperand = t.kind.endsOperand := by simp [Progress.afterOperand, hq]
  unfold Progress.Reads
  rw [hf] at hv
  rw [hafter]
  cases hk : t.kind with
  | number =>
    simp only [openAfter?, hk, Option.some.injEq] at ho
    simp only [hk, Kind.startsOperand, Bool.not_true, Bool.false_eq_true, ite_false] at hv
    exact ⟨u, v ++ [.number], by simp, ho ▸ hu, hv.append_operand .number⟩
  | var =>
    simp only [openAfter?, hk, Option.some.injEq] at ho
    simp only [hk, Kind.startsOperand, Bool.not_true, Bool.false_eq_true, ite_false] at hv
    exact ⟨u, v ++ [.var], by simp, ho ▸ hu, hv.append_operand .var⟩
  | operator op =>
    simp only [openAfter?, hk, Option.some.injEq] at ho
    simp only [hk, Kind.startsOperand, Bool.not_false, ite_true] at hv
    exact ⟨u, v ++ [.operator op], by simp, ho ▸ hu, .inr ⟨v, op, hv, rfl⟩⟩
  | openParen =>
    simp only [openAfter?, hk, Option.some.injEq] at ho
    simp only [hk, Kind.startsOperand, Bool.not_true, Bool.false_eq_true, ite_false] at hv
    exact ⟨u ++ v ++ [.openParen], [], by simp, ho ▸ .opened hu hv, .inl rfl⟩
  | closeParen =>
    simp only [hk, Kind.startsOperand, Bool.not_false, ite_true] at hv
    cases hp : p.opened with
    | nil => simp [openAfter?, hk, hp] at ho
    | cons s opened =>
      -- the closed group is an operand of the expression around it
      rw [hp] at hu
      obtain ⟨u', v', hu', hv', rfl⟩ := hu.split_last
      simp only [openAfter?, hk, hp, List.tail?_cons, Option.some.injEq] at ho
      exact ⟨u', v' ++ (.openParen :: v ++ [.closeParen]), by simp, ho ▸ hu', hv'.append_operand (.group hv)⟩

theorem run_reads {source : String} (tokens : List Token) {p q : Progress} {w : List Kind}
    (h : tokens.foldlM (Progress.step source) p = .ok q) (hr : p.Reads w) :
    q.Reads (w ++ tokens.map Token.kind) := by
  induction tokens generalizing p w with
  | nil => cases h; simpa using hr
  | cons t tokens ih =>
    obtain ⟨p', hs, h'⟩ := (foldlM_cons_ok_iff ..).mp h
    have := ih h' (step_reads hs hr)
    simpa using this

/-! ## From a derivation to a run -/

theorem step_ok {source : String} {p : Progress} {t : Token} {opened : List Span}
    (hf : p.afterOperand = !t.kind.startsOperand) (ho : openAfter? p.opened t = some opened) :
    [t].foldlM (Progress.step source) p = .ok ⟨some t, opened⟩ :=
  (foldlM_cons_ok_iff ..).mpr ⟨_, (step_eq_ok_iff source p _ t).mpr ⟨hf, ho, rfl⟩, rfl⟩

mutual
/-- An expression is read wherever an operand may start, and leaves the open parentheses as they were. -/
theorem run_expr (source : String) {w : List Kind} (hw : IsExpr w) (tokens : List Token)
    (hk : tokens.map Token.kind = w) (p : Progress) (hp : p.afterOperand = false) :
    ∃ last, last.kind.endsOperand = true ∧
      tokens.foldlM (Progress.step source) p = .ok ⟨some last, p.opened⟩ := by
  match hw with
  | .operand ho => exact run_operand source ho tokens hk p hp
  | @IsExpr.binary u v op hu hv =>
    obtain ⟨ts₁, ts₂, rfl, hk₁, hk₂⟩ := List.map_eq_append_iff.mp hk
    obtain ⟨t, ts₂, rfl, ht, hk₂⟩ := List.map_eq_cons_iff.mp hk₂
    obtain ⟨last, hl, h₁⟩ := run_expr source hu ts₁ hk₁ p hp
    have hop : [t].foldlM (Progress.step source) ⟨some last, p.opened⟩ = .ok ⟨some t, p.opened⟩ :=
      step_ok (by simp [Progress.afterOperand, hl, ht, Kind.startsOperand]) (by simp [openAfter?, ht])
    obtain ⟨last', hl', h₂⟩ := run_operand source hv ts₂ hk₂ ⟨some t, p.opened⟩
      (by simp [Progress.afterOperand, ht, Kind.endsOperand])
    exact ⟨last', hl', foldlM_append_ok h₁ (foldlM_append_ok hop h₂)⟩

theorem run_operand (source : String) {w : List Kind} (hw : IsOperand w) (tokens : List Token)
    (hk : tokens.map Token.kind = w) (p : Progress) (hp : p.afterOperand = false) :
    ∃ last, last.kind.endsOperand = true ∧
      tokens.foldlM (Progress.step source) p = .ok ⟨some last, p.opened⟩ := by
  match hw with
  | .number =>
    obtain ⟨t, rfl, ht⟩ := List.map_eq_singleton_iff.mp hk
    exact ⟨t, by simp [ht, Kind.endsOperand],
      step_ok (by simp [hp, ht, Kind.startsOperand]) (by simp [openAfter?, ht])⟩
  | .var =>
    obtain ⟨t, rfl, ht⟩ := List.map_eq_singleton_iff.mp hk
    exact ⟨t, by simp [ht, Kind.endsOperand],
      step_ok (by simp [hp, ht, Kind.startsOperand]) (by simp [openAfter?, ht])⟩
  | @IsOperand.group u hu =>
    obtain ⟨ts₁, ts₂, rfl, hk₁, hk₂⟩ := List.map_eq_append_iff.mp hk
    obtain ⟨t, ts₁, rfl, ht, hk₁⟩ := List.map_eq_cons_iff.mp hk₁
    obtain ⟨t', rfl, ht'⟩ := List.map_eq_singleton_iff.mp hk₂
    have hopen : [t].foldlM (Progress.step source) p = .ok ⟨some t, t.span :: p.opened⟩ :=
      step_ok (by simp [hp, ht, Kind.startsOperand]) (by simp [openAfter?, ht])
    obtain ⟨last, hl, h₁⟩ := run_expr source hu ts₁ hk₁ ⟨some t, t.span :: p.opened⟩
      (by simp [Progress.afterOperand, ht, Kind.endsOperand])
    have hclose : [t'].foldlM (Progress.step source) ⟨some last, t.span :: p.opened⟩ =
        .ok ⟨some t', p.opened⟩ :=
      step_ok (by simp [Progress.afterOperand, hl, ht', Kind.startsOperand]) (by simp [openAfter?, ht'])
    exact ⟨t', by simp [ht', Kind.endsOperand], foldlM_append_ok (foldlM_append_ok hopen h₁) hclose⟩
end

/-! ## The check and the grammar -/

theorem isExpr_of_check {tokens : List Token} {source : String} (h : check tokens source = .ok ()) :
    IsExpr (tokens.map Token.kind) := by
  obtain ⟨p, hrun, hp, ho⟩ := (check_eq_ok_iff tokens source).mp h
  obtain ⟨u, v, hw, hu, hv⟩ := run_reads tokens hrun start_reads
  rw [ho] at hu
  rw [hp] at hv
  rw [List.nil_append, hu.eq_nil, List.nil_append] at hw
  rw [hw]; exact hv

theorem check_of_isExpr {tokens : List Token} (h : IsExpr (tokens.map Token.kind)) (source : String) :
    check tokens source = .ok () := by
  obtain ⟨last, hl, hrun⟩ := run_expr source h tokens rfl Progress.start rfl
  exact (check_eq_ok_iff tokens source).mpr ⟨_, hrun, by simpa [Progress.afterOperand] using hl, rfl⟩

/-- **The check decides the grammar.** -/
theorem check_iff_isExpr (tokens : List Token) (source : String) :
    check tokens source = .ok () ↔ IsExpr (tokens.map Token.kind) :=
  ⟨isExpr_of_check, fun h => check_of_isExpr h source⟩

end SheetFormula
