import SheetFormula.Proofs.AgreeSound
import SheetFormula.Proofs.ApartSound
import SheetFormula.Proofs.RunSound

/-!
# A formula as an argument or on a line

A line loses the carriage return at its end, an argument keeps it. `parse_push_blank`: a blank at the end of
a source changes neither its tokens nor its fault, only where the fault of an empty source is. So both ways to
hand over a formula come to the same: `run_argument_eq_stdin`.
-/

namespace SheetFormula

/-! ## A blank at the end -/

theorem ofSource_push_blank (vc : VariableCase) (source : String) {b : Char} (hb : isBlank b = true) :
    Lexing.ofSource vc (source.push b) = Lexing.ofSource vc source := by
  have hne : String.singleton b ≠ "" := by simp
  have hw : ∀ c ∈ (String.singleton b).toList, isBlank c = true := by simp [hb]
  have hempty : Lexing.ofSource vc "" = ⟨[], none⟩ := by
    rw [Lexing.ofSource, String.toList_empty, lexemes]
    rfl
  have h := ofSource_append_blanks vc hne hw source ""
  rw [hempty, String.append_empty, ← String.push_eq_append] at h
  rw [h]
  exact andThen_nothing _

/-! ## The source in a rejection -/

section
variable {source source' : String}

/-- Rejections for the same reason, of whatever sources. -/
def Rejection.SameFault (r r' : Rejection) : Prop :=
  r.fault = r'.fault

theorem step_sameFault (p : Progress) (t : Token) :
    Agree Rejection.SameFault Eq (p.step source t) (p.step source' t) := by
  unfold Progress.step
  cases followFault? p.previous t with
  | some fault => exact .error rfl
  | none =>
    cases openAfter? p.opened t with
    | none => exact .error rfl
    | some opened => exact .ok rfl

theorem finish_sameFault (p : Progress) :
    Agree Rejection.SameFault Eq (p.finish source) (p.finish source') := by
  unfold Progress.finish
  cases p.previous with
  | none => exact .error rfl
  | some last =>
    simp only
    by_cases hlast : last.kind.endsOperand = true
    · rw [if_pos hlast, if_pos hlast]
      cases p.opened with
      | nil => exact .ok rfl
      | cons innermost outer => exact .error rfl
    · rw [if_neg hlast, if_neg hlast]
      exact .error rfl

theorem check_sameFault (tokens : List Token) :
    Agree Rejection.SameFault Eq (check tokens source) (check tokens source') := by
  unfold check
  have hrun : Agree Rejection.SameFault Eq (tokens.foldlM (Progress.step source) Progress.start)
      (tokens.foldlM (Progress.step source') Progress.start) := by
    have hsame : List.Forall₂ Eq tokens tokens := List.forall₂_refl tokens
    apply Agree.foldlM hsame _ rfl
    rintro p _ t _ rfl rfl
    exact step_sameFault p t
  apply hrun.bind
  rintro p _ rfl
  exact finish_sameFault p

theorem parse_sameFault {vc : VariableCase} (h : Lexing.ofSource vc source = Lexing.ofSource vc source') :
    Agree Rejection.SameFault (fun f f' => f.tokens = f'.tokens) (Formula.parse vc source)
      (Formula.parse vc source') := by
  have htokens : Agree Rejection.SameFault Eq (tokenize vc source) (tokenize vc source') := by
    unfold tokenize
    simp only [h]
    cases (Lexing.ofSource vc source').fault with
    | none => exact .ok rfl
    | some fault => exact .error rfl
  apply htokens.parse
  rintro tokens _ rfl
  exact check_sameFault tokens

end

theorem parse_push_blank (vc : VariableCase) (source : String) {b : Char} (hb : isBlank b = true) :
    Agree Rejection.SameFault (fun f f' => f.tokens = f'.tokens) (Formula.parse vc (source.push b))
      (Formula.parse vc source) :=
  parse_sameFault (ofSource_push_blank vc source hb)

/-! ## Outcomes alike -/

/-- Outcomes that differ in the drawings of their reports at most. -/
structure Outcome.Alike (a b : Outcome) : Prop where
  output : a.output = b.output
  headers : a.headers = b.headers
  status : a.status = b.status

theorem block_eq (o : Options) {f f' : Formula} (h : f.tokens = f'.tokens) : o.block f = o.block f' := by
  unfold Options.block Formula.normalized Formula.variableNames
  rw [h]

theorem checkText_push_blank (o : Options) (text : String) {b : Char} (hb : isBlank b = true) :
    (o.checkText (text.push b)).Alike (o.checkText text) := by
  unfold Options.checkText
  rcases (parse_push_blank o.variableCase text hb).elim with ⟨f, f', hf, hf', htokens⟩ | ⟨r, r', hr, hr', hfault⟩
  · rw [hf, hf']
    exact ⟨block_eq o htokens, rfl, rfl⟩
  · rw [hr, hr']
    refine ⟨rfl, ?_, rfl⟩
    have hheader : r.diagnostic.header = r'.diagnostic.header := by
      unfold Diagnostic.header Rejection.diagnostic Rejection.rule
      rw [show r.fault = r'.fault from hfault]
    rw [headers_report, headers_report, hheader]

/-! ## The two ways -/

/-- A run with a formula behind the flags. -/
def runFormula (flags : List Flag) (formula : String) (stdin : List UInt8) : Outcome :=
  (Request.parse (flags.map Flag.name ++ ["--", formula])).run stdin

section
variable {flags : List Flag} (hnodup : flags.Nodup) (hhelp : Flag.help ∉ flags)
include hnodup hhelp

theorem runFormula_eq (s : String) (stdin : List UInt8) :
    runFormula flags s stdin = (Options.ofFlags flags).checkText s := by
  rw [runFormula, parse_flags hnodup hhelp, Request.ofArguments, show Argument.read "--" = .endOfFlags by decide]
  rfl

theorem runFlags_line {s line : String} (h : textLines (s ++ "\n") = [line]) :
    runFlags flags (utf8Bytes (s ++ "\n")) = (Options.ofFlags flags).checkText line := by
  rw [runFlags_eq hnodup hhelp, byteLines_utf8Bytes, h, List.map_cons, checkLines_utf8]
  exact Outcome.append_empty (status_checkText ..)

end

/-- **A formula as an argument is checked like one on a line.** -/
theorem run_argument_eq_stdin {flags : List Flag} (hnodup : flags.Nodup) (hhelp : Flag.help ∉ flags)
    {s : String} (hs : '\n' ∉ s.toList) (stdin : List UInt8) :
    (runFormula flags s stdin).Alike (runFlags flags (utf8Bytes (s ++ "\n"))) ∧
      (runFormula flags s stdin).output = printedFor flags s ∧
      (runFormula flags s stdin).headers = (headerFor? flags s).toList ∧
      ((runFormula flags s stdin).status = 0 ↔ ∃ f, Formula.parse (chosenCase flags) s = .ok f) := by
  obtain ⟨line, hline, hs⟩ := textLines_lf hs
  rw [runFormula_eq hnodup hhelp, runFlags_line hnodup hhelp hline]
  refine ⟨?_, output_checkText flags s, headers_checkText flags s, status_checkText_eq_zero flags s⟩
  rcases hs with rfl | rfl
  · exact ⟨rfl, rfl, rfl⟩
  · exact checkText_push_blank _ line (by decide)

-- the line loses one of the carriage returns, so that the span of the fault is shorter
theorem run_argument_eq_stdin_cr : [Flag.listTokens].Nodup ∧ Flag.help ∉ [Flag.listTokens] ∧
    '\n' ∉ "\r\r".toList ∧
    (runFormula [.listTokens] "\r\r" []).Alike (runFlags [.listTokens] [13, 13, 10]) ∧
    (runFormula [.listTokens] "\r\r" []).headers = ["[F001] Error: Formula must contain at least one token"] := by
  have hnodup : [Flag.listTokens].Nodup := by decide
  have hhelp : Flag.help ∉ [Flag.listTokens] := by decide
  have hs : '\n' ∉ "\r\r".toList := by decide
  exact ⟨hnodup, hhelp, hs, (run_argument_eq_stdin hnodup hhelp hs []).1, by decide +kernel⟩

end SheetFormula
