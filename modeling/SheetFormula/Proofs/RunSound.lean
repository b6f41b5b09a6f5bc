import SheetFormula.Command.Outcome
import SheetFormula.Proofs.LineLemmas
import SheetFormula.Proofs.NameLemmas

/-!
# Runs over standard input

The flags are read as a set (`parse_flags`), and a run over lines is made of what each line gives by
itself (`checkLines_append`), up to the first one that is not UTF-8 (`checkLines_stopped`). `run_stdin`: so
the lines tell output, complaints and status, and runs on two texts can be put together.
-/

namespace SheetFormula

/-! ## Flags -/

theorem read_name (f : Flag) : Argument.read f.name = .flag f none := by
  cases f <;> decide

theorem has_set_of_ne {f g : Flag} (h : g ≠ f) (o : Options) : (o.set f).has g = o.has g := by
  cases f <;> cases g <;> simp_all [Options.set, Options.has]

theorem ofArguments_name {f : Flag} (hf : f ≠ .help) {o : Options} (hnew : o.has f = false)
    (rest : List String) : Request.ofArguments o (f.name :: rest) = Request.ofArguments (o.set f) rest := by
  rw [Request.ofArguments, read_name]
  cases f with
  | help => exact absurd rfl hf
  | listTokens | listVariables | preserveCase => simp [hnew]

/-- What the flags ask for, in whatever order they come. -/
def Options.ofFlags (flags : List Flag) : Options :=
  ⟨decide (.listTokens ∈ flags), decide (.listVariables ∈ flags), decide (.preserveCase ∈ flags), none⟩

theorem foldl_set (flags : List Flag) (o : Options) : flags.foldl Options.set o =
    ⟨o.listTokens || decide (.listTokens ∈ flags), o.listVariables || decide (.listVariables ∈ flags),
      o.preserveCase || decide (.preserveCase ∈ flags), o.formula⟩ := by
  induction flags generalizing o with
  | nil => simp
  | cons f flags ih => cases f <;> simp [ih, Options.set]

section
variable {flags : List Flag} (hnodup : flags.Nodup) (hhelp : Flag.help ∉ flags)
include hnodup hhelp

theorem ofArguments_map_name {o : Options} (hnew : ∀ f ∈ flags, o.has f = false) (rest : List String) :
    Request.ofArguments o (flags.map Flag.name ++ rest) =
      Request.ofArguments (flags.foldl Options.set o) rest := by
  induction flags generalizing o with
  | nil => rfl
  | cons f flags ih =>
    obtain ⟨hf, hflags⟩ := List.nodup_cons.mp hnodup
    rw [List.mem_cons, not_or] at hhelp
    rw [List.map_cons, List.cons_append, ofArguments_name (Ne.symm hhelp.1) (hnew f List.mem_cons_self)]
    apply ih hflags hhelp.2
    -- `f` sets none of the flags behind it
    intro g hg
    have hne : g ≠ f := fun he => hf (he ▸ hg)
    rw [has_set_of_ne hne]
    exact hnew g (List.mem_cons_of_mem _ hg)

theorem parse_flags (rest : List String) :
    Request.parse (flags.map Flag.name ++ rest) = Request.ofArguments (.ofFlags flags) rest := by
  have hnew : ∀ f ∈ flags, Options.plain.has f = false := fun f _ => by cases f <;> rfl
  rw [Request.parse, ofArguments_map_name hnodup hhelp hnew, foldl_set]
  simp [Options.plain, Options.ofFlags]

end

/-! ## Outcomes one after the other -/

attribute [ext] Outcome

namespace Outcome

@[simp] theorem output_append (a b : Outcome) : (a ++ b).output = a.output ++ b.output :=
  rfl

@[simp] theorem reports_append (a b : Outcome) : (a ++ b).reports = a.reports ++ b.reports :=
  rfl

@[simp] theorem headers_append (a b : Outcome) : (a ++ b).headers = a.headers ++ b.headers :=
  List.filterMap_append

theorem status_append (a b : Outcome) :
    (a ++ b).status = if a.status = 0 ∧ b.status = 0 then 0 else 1 :=
  rfl

theorem status_append_eq_zero {a b : Outcome} : (a ++ b).status = 0 ↔ a.status = 0 ∧ b.status = 0 := by
  simp [status_append]

/-- One run has what two runs have, first the one and then the other. -/
structure Joins (first second whole : Outcome) : Prop where
  output : whole.output = first.output ++ second.output
  reports : whole.reports = first.reports ++ second.reports
  headers : whole.headers = first.headers ++ second.headers
  status : whole.status = 0 ↔ first.status = 0 ∧ second.status = 0

theorem joins_append (a b : Outcome) : Joins a b (a ++ b) :=
  ⟨output_append a b, reports_append a b, headers_append a b, status_append_eq_zero⟩

theorem append_assoc (a b c : Outcome) : a ++ b ++ c = a ++ (b ++ c) := by
  apply Outcome.ext
  · rw [status_append (a ++ b) c, status_append a (b ++ c)]
    simp only [status_append_eq_zero, and_assoc]
  · simp
  · simp

section
variable {a : Outcome} (h : a.status = 0 ∨ a.status = 1)
include h

theorem empty_append : empty ++ a = a := by
  apply Outcome.ext
  · rw [status_append]
    rcases h with h | h <;> rw [h] <;> rfl
  · rfl
  · rfl

theorem append_empty : a ++ empty = a := by
  apply Outcome.ext
  · rw [status_append]
    rcases h with h | h <;> rw [h] <;> rfl
  · exact List.append_nil _
  · exact List.append_nil _

end

end Outcome

/-! ## One text -/

def chosenCase (flags : List Flag) : VariableCase :=
  if .preserveCase ∈ flags then .preserve else .upper

/-- What is printed for a text: nothing, unless it is a formula. -/
def printedFor (flags : List Flag) (text : String) : List String :=
  match Formula.parse (chosenCase flags) text with
  | .error _ => []
  | .ok f => f.normalized ::
    ((if .listTokens ∈ flags then f.tokens.map Token.listing else []) ++
      if .listVariables ∈ flags then ["  variables: " ++ ", ".intercalate f.variableNames] else [])

/-- The complaint about a text, unless it is a formula. -/
def headerFor? (flags : List Flag) (text : String) : Option String :=
  match Formula.parse (chosenCase flags) text with
  | .error r => some s!"[{r.rule.code}] Error: {r.fault.message}"
  | .ok _ => none

/-- Every report starts with its header, whatever can be drawn below it. -/
theorem headers_report (d : Diagnostic) (source : String) :
    (⟨1, [], [(d.report? source).getD [d.header]]⟩ : Outcome).headers = [d.header] := by
  unfold Diagnostic.report?
  by_cases h : isDrawable source = true
  · rw [if_pos h, Option.getD_some]
    cases d.location? source <;> rfl
  · rw [if_neg h]; rfl

theorem status_checkText (o : Options) (text : String) :
    (o.checkText text).status = 0 ∨ (o.checkText text).status = 1 := by
  unfold Options.checkText
  cases Formula.parse o.variableCase text with
  | error r => exact .inr rfl
  | ok f => exact .inl rfl

section
variable (flags : List Flag) (text : String)

theorem variableCase_ofFlags : (Options.ofFlags flags).variableCase = chosenCase flags := by
  simp [Options.ofFlags, Options.variableCase, chosenCase]

theorem output_checkText : ((Options.ofFlags flags).checkText text).output = printedFor flags text := by
  unfold Options.checkText printedFor
  rw [variableCase_ofFlags]
  cases Formula.parse (chosenCase flags) text with
  | error r => rfl
  | ok f => simp [Options.block, Options.ofFlags]

theorem headers_checkText :
    ((Options.ofFlags flags).checkText text).headers = (headerFor? flags text).toList := by
  unfold Options.checkText headerFor?
  rw [variableCase_ofFlags]
  cases Formula.parse (chosenCase flags) text with
  | error r => exact headers_report r.diagnostic text
  | ok f => rfl

theorem status_checkText_eq_zero : ((Options.ofFlags flags).checkText text).status = 0 ↔
    ∃ f, Formula.parse (chosenCase flags) text = .ok f := by
  unfold Options.checkText
  rw [variableCase_ofFlags]
  cases Formula.parse (chosenCase flags) text <;> simp

end

/-! ## Line after line -/

section
variable (o : Options)

theorem checkLines_utf8 (text : String) (rest : List (List UInt8)) :
    o.checkLines (utf8Bytes text :: rest) = o.checkText text ++ o.checkLines rest := by
  rw [Options.checkLines, utf8Text?_utf8Bytes]

/-- A line that is not UTF-8 ends the run, and nothing is said about it or about the lines after it. -/
theorem checkLines_stopped {rest : List (List UInt8)} (h : ∀ line ∈ rest.head?, utf8Text? line = none) :
    (o.checkLines rest).output = [] ∧ (o.checkLines rest).headers = [] ∧
      ((o.checkLines rest).status = 0 ↔ rest = []) := by
  cases rest with
  | nil => exact ⟨rfl, rfl, fun _ => rfl, fun _ => rfl⟩
  | cons line rest =>
    rw [Options.checkLines, h line rfl]
    exact ⟨rfl, rfl, nofun, nofun⟩

theorem status_checkLines (lines : List (List UInt8)) :
    (o.checkLines lines).status = 0 ∨ (o.checkLines lines).status = 1 := by
  cases lines with
  | nil => exact .inl rfl
  | cons line rest =>
    unfold Options.checkLines
    cases utf8Text? line with
    | none => exact .inr rfl
    | some text => simp only [Outcome.status_append]; split <;> simp

/-- Lines of UTF-8 are checked with no regard to those after them. -/
theorem checkLines_append (texts : List String) (rest : List (List UInt8)) :
    o.checkLines (texts.map utf8Bytes ++ rest) = o.checkLines (texts.map utf8Bytes) ++ o.checkLines rest := by
  induction texts with
  | nil => exact (Outcome.empty_append (status_checkLines o rest)).symm
  | cons text texts ih =>
    rw [List.map_cons, List.cons_append, checkLines_utf8, checkLines_utf8, ih, Outcome.append_assoc]

end

section
variable (flags : List Flag)

theorem output_checkLines (texts : List String) :
    ((Options.ofFlags flags).checkLines (texts.map utf8Bytes)).output = texts.flatMap (printedFor flags) := by
  induction texts with
  | nil => rfl
  | cons text texts ih =>
    rw [List.map_cons, checkLines_utf8, Outcome.output_append, output_checkText, ih, List.flatMap_cons]

theorem headers_checkLines (texts : List String) :
    ((Options.ofFlags flags).checkLines (texts.map utf8Bytes)).headers = texts.filterMap (headerFor? flags) := by
  induction texts with
  | nil => rfl
  | cons text texts ih =>
    rw [List.map_cons, checkLines_utf8, Outcome.headers_append, headers_checkText, ih, List.filterMap_cons]
    cases headerFor? flags text <;> rfl

theorem status_checkLines_eq_zero (texts : List String) :
    ((Options.ofFlags flags).checkLines (texts.map utf8Bytes)).status = 0 ↔
      ∀ text ∈ texts, ∃ f, Formula.parse (chosenCase flags) text = .ok f := by
  induction texts with
  | nil => exact ⟨fun _ => nofun, fun _ => rfl⟩
  | cons text texts ih =>
    rw [List.map_cons, checkLines_utf8, Outcome.status_append_eq_zero, status_checkText_eq_zero, ih,
      List.forall_mem_cons]

end

theorem exists_utf8_lines (lines : List (List UInt8)) : ∃ (texts : List String) (rest : List (List UInt8)),
    lines = texts.map utf8Bytes ++ rest ∧ ∀ line ∈ rest.head?, utf8Text? line = none := by
  induction lines with
  | nil => exact ⟨[], [], rfl, nofun⟩
  | cons line lines ih =>
    cases hline : utf8Text? line with
    | none =>
      refine ⟨[], line :: lines, rfl, ?_⟩
      intro l hl
      cases hl
      exact hline
    | some text =>
      obtain ⟨texts, rest, rfl, hrest⟩ := ih
      rw [utf8Text?_eq_some_iff] at hline
      exact ⟨text :: texts, rest, by rw [hline]; rfl, hrest⟩

/-! ## Whole runs -/

/-- A run with these flags, in their order, and no formula. -/
def runFlags (flags : List Flag) (stdin : List UInt8) : Outcome :=
  (Request.parse (flags.map Flag.name)).run stdin

theorem runFlags_eq {flags : List Flag} (hnodup : flags.Nodup) (hhelp : Flag.help ∉ flags) (stdin : List UInt8) :
    runFlags flags stdin = (Options.ofFlags flags).checkLines (byteLines stdin) := by
  have hparse := parse_flags hnodup hhelp []
  rw [List.append_nil] at hparse
  rw [runFlags, hparse]
  rfl

/-- How a run over standard input ends. `texts` are the lines before the first one that is not UTF-8, and
`rest` are the other lines. -/
structure Checked (flags : List Flag) (stdin : List UInt8) (texts : List String) (rest : List (List UInt8))
    (o : Outcome) : Prop where
  lines : ∀ lines, IsLines 10 13 stdin lines ↔ lines = texts.map utf8Bytes ++ rest
  stopped : ∀ line ∈ rest.head?, utf8Text? line = none
  output : o.output = texts.flatMap (printedFor flags)
  headers : o.headers = texts.filterMap (headerFor? flags)
  status : o.status = 0 ∨ o.status = 1
  status_eq_zero : o.status = 0 ↔ rest = [] ∧ ∀ text ∈ texts, ∃ f, Formula.parse (chosenCase flags) text = .ok f
  names : ∀ text ∈ texts, ∀ f, Formula.parse (chosenCase flags) text = .ok f →
    f.variableNames.Pairwise (· < ·) ∧
      ∀ name, name ∈ f.variableNames ↔ ∃ t ∈ f.tokens, t.kind = .var ∧ t.text = name

theorem checked_checkLines (flags : List Flag) (stdin : List UInt8) :
    ∃ texts rest, Checked flags stdin texts rest ((Options.ofFlags flags).checkLines (byteLines stdin)) := by
  obtain ⟨texts, rest, hlines, hrest⟩ := exists_utf8_lines (byteLines stdin)
  obtain ⟨houtput, hheaders, hstatus⟩ := checkLines_stopped (.ofFlags flags) hrest
  refine ⟨texts, rest,
    { lines := fun lines => hlines ▸ isLines_iff (by decide)
      stopped := hrest
      output := ?_
      headers := ?_
      status := status_checkLines _ _
      status_eq_zero := ?_
      names := fun _ _ f _ => ⟨pairwise_sortedNames _, fun name => mem_variableNames⟩ }⟩
  · rw [hlines, checkLines_append, Outcome.output_append, output_checkLines, houtput, List.append_nil]
  · rw [hlines, checkLines_append, Outcome.headers_append, headers_checkLines, hheaders, List.append_nil]
  · rw [hlines, checkLines_append, Outcome.status_append_eq_zero, status_checkLines_eq_zero, hstatus]
    exact and_comm

theorem utf8Bytes_lf (text : String) : utf8Bytes text ++ [10] = utf8Bytes (text ++ "\n") := by
  rw [utf8Bytes, utf8Bytes, String.toList_append, List.flatMap_append]
  rfl

/-- **Lines are checked one by one.** What a run prints and how it ends is told by its lines, and a text with
its last line ended can be followed by any bytes. -/
theorem run_stdin {flags : List Flag} (hnodup : flags.Nodup) (hhelp : Flag.help ∉ flags) :
    (∀ stdin, ∃ texts rest, Checked flags stdin texts rest (runFlags flags stdin)) ∧
      ∀ (a : String) (b : List UInt8), Outcome.Joins (runFlags flags (utf8Bytes a ++ [10])) (runFlags flags b)
        (runFlags flags (utf8Bytes a ++ 10 :: b)) := by
  refine ⟨?_, ?_⟩
  · intro stdin
    rw [runFlags_eq hnodup hhelp]
    exact checked_checkLines flags stdin
  · intro a b
    -- the cut is between two lines, and those before it are UTF-8
    have hlines : byteLines (utf8Bytes a ++ 10 :: b) = byteLines (utf8Bytes a ++ [10]) ++ byteLines b :=
      linesFrom_append_lf ..
    have hfirst : byteLines (utf8Bytes a ++ [10]) = (textLines (a ++ "\n")).map utf8Bytes := by
      rw [utf8Bytes_lf, byteLines_utf8Bytes]
    rw [runFlags_eq hnodup hhelp, runFlags_eq hnodup hhelp, runFlags_eq hnodup hhelp, hlines, hfirst,
      checkLines_append]
    exact Outcome.joins_append ..

-- `b1`, a line that is not UTF-8, and `c`
theorem run_stdin_invalid : [Flag.listVariables, .preserveCase].Nodup ∧
    Flag.help ∉ [Flag.listVariables, .preserveCase] ∧
    (∃ texts rest, Checked [.listVariables, .preserveCase] [98, 49, 13, 10, 255, 10, 99] texts rest
      (runFlags [.listVariables, .preserveCase] [98, 49, 13, 10, 255, 10, 99])) ∧
    runFlags [.listVariables, .preserveCase] [98, 49, 13, 10, 255, 10, 99] = ⟨1, ["b1", "  variables: b1"], []⟩ := by
  refine ⟨by decide, by decide, ?_, by decide +kernel⟩
  exact (run_stdin (by decide) (by decide)).1 _

end SheetFormula
