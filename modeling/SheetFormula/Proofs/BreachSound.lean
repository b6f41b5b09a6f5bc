import Mathlib.Data.List.Induction
import SheetFormula.Proofs.CheckSound
import SheetFormula.Proofs.ParenLemmas

/-!
# The fault that the check reports

A breach is a token that must not stand where it is, judged by the token before it and the parentheses up
to it. `run_eq_ok_iff` and `run_eq_error_iff`: the check reads on up to the first breach and reports that
one. `finish_ofTokens_error_iff`: without a breach it is what is missing at the end that counts.
-/

namespace SheetFormula

/-! ## Descriptions -/

/-- The names of the kinds. -/
inductive Kind.Named : Kind → String → Prop
  | number : Named .number "number"
  | var : Named .var "variable"
  | operator (op : Operator) : Named (.operator op) "operator"
  | openParen : Named .openParen "opening parenthesis"
  | closeParen : Named .closeParen "closing parenthesis"

/-- A token is described by the name of its kind and by its text in quotes. -/
inductive Token.Described (t : Token) : String → Prop
  | quoted {name : String} : t.kind.Named name → Described t (name ++ " '" ++ t.text ++ "'")

theorem named_iff {k : Kind} {name : String} : k.Named name ↔ name = k.describe := by
  constructor
  · intro h
    cases h <;> rfl
  · rintro rfl
    cases k <;> constructor

theorem described_iff {t : Token} {text : String} : t.Described text ↔ text = t.describe := by
  constructor
  · rintro ⟨h⟩
    rw [named_iff.mp h]
    rfl
  · rintro rfl
    exact .quoted (named_iff.mpr rfl)

/-! ## Breaches -/

/-- The token at an index breaks a rule, with these notes on it. -/
inductive Breach (ts : List Token) : Nat → Fault → List Note → Prop
  | first {t : Token} {found : String} : ts[0]? = some t → t.kind.startsOperand = false →
      t.Described found → Breach ts 0 (.invalidFirst found) []
  | operator {i : Nat} {s t : Token} {previous found name : String} : ts[i]? = some s → ts[i + 1]? = some t →
      s.kind.endsOperand = true → t.kind.startsOperand = true →
      s.Described previous → t.Described found → s.kind.Named name →
      Breach ts (i + 1) (.missingOperator previous found) [.precededBy name s.span]
  | operand {i : Nat} {s t : Token} {previous found name : String} : ts[i]? = some s → ts[i + 1]? = some t →
      s.kind.endsOperand = false → t.kind.startsOperand = false →
      s.Described previous → t.Described found → s.kind.Named name →
      Breach ts (i + 1) (.missingOperand previous found) [.precededBy name s.span]
  | close {i : Nat} {t : Token} : ts[i]? = some t → t.kind = .closeParen →
      opens (ts.take (i + 1)) < closes (ts.take (i + 1)) → Breach ts i .unmatchedClose []

def BreachAt (ts : List Token) (i : Nat) : Prop :=
  ∃ fault notes, Breach ts i fault notes

/-- The first breach. At one token, a fault of its place goes before a parenthesis without partner. -/
structure FirstBreach (ts : List Token) (i : Nat) (fault : Fault) (notes : List Note) : Prop where
  breach : Breach ts i fault notes
  least : ∀ j < i, ¬ BreachAt ts j
  prior : fault = .unmatchedClose → ∀ fault' notes', Breach ts i fault' notes' → fault' = .unmatchedClose

/-- What is reported of the tokens. -/
inductive Rejects (ts : List Token) (source : String) : Rejection → Prop
  | breach {i : Nat} {t : Token} {fault : Fault} {notes : List Note} : ts[i]? = some t →
      FirstBreach ts i fault notes → Rejects ts source ⟨fault, source, t.span, notes⟩
  | empty : ts = [] → Rejects ts source ⟨.empty, source, ⟨0, byteLength source.toList⟩, []⟩
  | last {t : Token} {found : String} : (∀ i, ¬ BreachAt ts i) → ts.getLast? = some t →
      t.kind.endsOperand = false → t.Described found →
      Rejects ts source ⟨.invalidLast found, source, t.span, []⟩
  | unclosed {t innermost : Token} {outer : List Token} : (∀ i, ¬ BreachAt ts i) → ts.getLast? = some t →
      t.kind.endsOperand = true → leftOpen ts = outer ++ [innermost] →
      Rejects ts source ⟨.unclosed (opens ts - closes ts), source, innermost.span,
        outer.map fun u => .openedHere u.span⟩

/-! ## Breaches of a beginning -/

theorem Breach.lt_length {ts : List Token} {i : Nat} {fault : Fault} {notes : List Note}
    (h : Breach ts i fault notes) : i < ts.length := by
  cases h with
  | first ht | operator _ ht | operand _ ht | close ht => exact (List.getElem?_eq_some_iff.mp ht).1

-- a breach depends on its own token and on those before it
theorem Breach.congr {ts us : List Token} {i : Nat} (h : ts.take (i + 1) = us.take (i + 1)) {fault : Fault}
    {notes : List Note} (hb : Breach ts i fault notes) : Breach us i fault notes := by
  have hget : ∀ j ≤ i, ts[j]? = us[j]? := by
    intro j hj
    rw [← List.getElem?_take_of_lt (show j < i + 1 by omega), h, List.getElem?_take_of_lt (by omega)]
  cases hb with
  | first ht hs hfound => exact .first (hget 0 (Nat.zero_le _) ▸ ht) hs hfound
  | operator hs ht he hst hprevious hfound hname =>
    exact .operator (hget _ (Nat.le_succ _) ▸ hs) (hget _ (Nat.le_refl _) ▸ ht) he hst hprevious hfound hname
  | operand hs ht he hst hprevious hfound hname =>
    exact .operand (hget _ (Nat.le_succ _) ▸ hs) (hget _ (Nat.le_refl _) ▸ ht) he hst hprevious hfound hname
  | close ht hk hlt => exact .close (hget _ (Nat.le_refl _) ▸ ht) hk (h ▸ hlt)

theorem breach_append_iff {ts us : List Token} {i : Nat} (hi : i < ts.length) {fault : Fault}
    {notes : List Note} : Breach (ts ++ us) i fault notes ↔ Breach ts i fault notes := by
  have h : (ts ++ us).take (i + 1) = ts.take (i + 1) := List.take_append_of_le_length hi
  exact ⟨Breach.congr h, Breach.congr h.symm⟩

theorem breachAt_append_iff {ts us : List Token} {i : Nat} (hi : i < ts.length) :
    BreachAt (ts ++ us) i ↔ BreachAt ts i := by
  simp only [BreachAt, breach_append_iff hi]

theorem FirstBreach.congr {ts us : List Token} {i : Nat} (h : ts.take (i + 1) = us.take (i + 1))
    {fault : Fault} {notes : List Note} (hb : FirstBreach ts i fault notes) :
    FirstBreach us i fault notes := by
  refine ⟨hb.breach.congr h, ?_, ?_⟩
  · rintro j hj ⟨_, _, hbj⟩
    have htake : us.take (j + 1) = ts.take (j + 1) := by
      have := congrArg (List.take (j + 1)) h
      rwa [List.take_take, List.take_take, Nat.min_eq_left (by omega), eq_comm] at this
    exact hb.least j hj ⟨_, _, hbj.congr htake⟩
  · intro hf fault' notes' hb'
    exact hb.prior hf fault' notes' (hb'.congr h.symm)

theorem firstBreach_append_iff {ts us : List Token} {i : Nat} (hi : i < ts.length) {fault : Fault}
    {notes : List Note} : FirstBreach (ts ++ us) i fault notes ↔ FirstBreach ts i fault notes := by
  have h : (ts ++ us).take (i + 1) = ts.take (i + 1) := List.take_append_of_le_length hi
  exact ⟨FirstBreach.congr h, FirstBreach.congr h.symm⟩

/-! ## The state of a run -/

/-- How far the check has come after the tokens. -/
def Progress.ofTokens (ts : List Token) : Progress :=
  ⟨ts.getLast?, openSpans ts⟩

def tokenBefore (ts : List Token) : Nat → Option Token
  | 0 => none
  | i + 1 => ts[i]?

theorem tokenBefore_length (ts us : List Token) : tokenBefore (ts ++ us) ts.length = ts.getLast? := by
  rcases List.eq_nil_or_concat ts with rfl | ⟨ts, s, rfl⟩
  · rfl
  · simp [tokenBefore]

theorem followFault?_eq_some_iff {previous : Option Token} {t : Token} {fault : Fault} {notes : List Note} :
    followFault? previous t = some (fault, notes) ↔
      (previous = none ∧ t.kind.startsOperand = false ∧ .invalidFirst t.describe = fault ∧ [] = notes) ∨
      (∃ s, previous = some s ∧ s.kind.endsOperand = true ∧ t.kind.startsOperand = true ∧
        .missingOperator s.describe t.describe = fault ∧ [.precededBy s.kind.describe s.span] = notes) ∨
      ∃ s, previous = some s ∧ s.kind.endsOperand = false ∧ t.kind.startsOperand = false ∧
        .missingOperand s.describe t.describe = fault ∧ [.precededBy s.kind.describe s.span] = notes := by
  cases previous with
  | none => cases hs : t.kind.startsOperand <;> simp [followFault?, hs]
  | some s =>
    cases he : s.kind.endsOperand <;> cases hs : t.kind.startsOperand <;>
      simp [followFault?, he, hs]

theorem followFault?_ne_unmatchedClose {previous : Option Token} {t : Token} {fault : Fault}
    {notes : List Note} (h : followFault? previous t = some (fault, notes)) : fault ≠ .unmatchedClose := by
  rcases followFault?_eq_some_iff.mp h with ⟨-, -, rfl, -⟩ | ⟨s, -, -, -, rfl, -⟩ | ⟨s, -, -, -, rfl, -⟩ <;>
    exact nofun

theorem breach_iff {ts : List Token} {i : Nat} {t : Token} (ht : ts[i]? = some t) (fault : Fault)
    (notes : List Note) : Breach ts i fault notes ↔
      followFault? (tokenBefore ts i) t = some (fault, notes) ∨
        fault = .unmatchedClose ∧ notes = [] ∧ t.kind = .closeParen ∧
          opens (ts.take (i + 1)) < closes (ts.take (i + 1)) := by
  rw [followFault?_eq_some_iff]
  constructor
  · intro h
    cases h with
    | first ht' hs hfound =>
      cases ht.symm.trans ht'
      rw [described_iff.mp hfound]
      exact .inl (.inl ⟨rfl, hs, rfl, rfl⟩)
    | operator hp ht' he hs hprevious hfound hname =>
      cases ht.symm.trans ht'
      rw [described_iff.mp hprevious, described_iff.mp hfound, named_iff.mp hname]
      exact .inl (.inr (.inl ⟨_, hp, he, hs, rfl, rfl⟩))
    | operand hp ht' he hs hprevious hfound hname =>
      cases ht.symm.trans ht'
      rw [described_iff.mp hprevious, described_iff.mp hfound, named_iff.mp hname]
      exact .inl (.inr (.inr ⟨_, hp, he, hs, rfl, rfl⟩))
    | close ht' hk hlt =>
      cases ht.symm.trans ht'
      exact .inr ⟨rfl, rfl, hk, hlt⟩
  · rintro ((⟨hp, hs, rfl, rfl⟩ | ⟨s, hp, he, hs, rfl, rfl⟩ | ⟨s, hp, he, hs, rfl, rfl⟩) | ⟨rfl, rfl, hk, hlt⟩)
    · cases i with
      | zero => exact .first ht hs (described_iff.mpr rfl)
      | succ i =>
        have := (List.getElem?_eq_some_iff.mp ht).1
        have := List.getElem?_eq_none_iff.mp hp
        omega
    · cases i with
      | zero => cases hp
      | succ i =>
        exact .operator hp ht he hs (described_iff.mpr rfl) (described_iff.mpr rfl) (named_iff.mpr rfl)
    · cases i with
      | zero => cases hp
      | succ i =>
        exact .operand hp ht he hs (described_iff.mpr rfl) (described_iff.mpr rfl) (named_iff.mpr rfl)
    · exact .close ht hk hlt

theorem breach_snoc_iff {ts : List Token} (hu : unmatched ts = 0) (t : Token) (fault : Fault)
    (notes : List Note) : Breach (ts ++ [t]) ts.length fault notes ↔
      followFault? ts.getLast? t = some (fault, notes) ∨
        fault = .unmatchedClose ∧ notes = [] ∧ t.kind = .closeParen ∧ leftOpen ts = [] := by
  have ht : (ts ++ [t])[ts.length]? = some t := by simp
  have hall : (ts ++ [t]).take (ts.length + 1) = ts ++ [t] := List.take_of_length_le (by simp)
  rw [breach_iff ht, tokenBefore_length, hall, opens_append, closes_append, leftOpen_eq_nil_iff hu]
  refine or_congr_right (and_congr_right fun _ => and_congr_right fun _ => and_congr_right fun hk => ?_)
  have hcount := opens_add_unmatched ts
  simp only [opens_cons, closes_cons, opens_nil, closes_nil, hk, reduceCtorEq, ite_true, ite_false]
  omega

theorem firstBreach_snoc_iff {ts : List Token} (hu : unmatched ts = 0) (hn : ∀ i, ¬ BreachAt ts i)
    (t : Token) (fault : Fault) (notes : List Note) :
    FirstBreach (ts ++ [t]) ts.length fault notes ↔
      followFault? ts.getLast? t = some (fault, notes) ∨
        followFault? ts.getLast? t = none ∧ fault = .unmatchedClose ∧ notes = [] ∧
          t.kind = .closeParen ∧ leftOpen ts = [] := by
  have hb := breach_snoc_iff hu t
  have hleast : ∀ j < ts.length, ¬ BreachAt (ts ++ [t]) j := by
    intro j hj h
    exact hn j ((breachAt_append_iff hj).mp h)
  constructor
  · rintro ⟨h, -, hp⟩
    rcases (hb ..).mp h with h | ⟨rfl, rfl, hc⟩
    · exact .inl h
    · refine .inr ⟨?_, rfl, rfl, hc⟩
      cases hf : followFault? ts.getLast? t with
      | none => rfl
      | some found =>
        have := hp rfl found.1 found.2 ((hb ..).mpr (.inl hf))
        exact absurd this (followFault?_ne_unmatchedClose hf)
  · rintro (h | ⟨hf, rfl, rfl, hc⟩)
    · exact ⟨(hb ..).mpr (.inl h), hleast, fun he => absurd he (followFault?_ne_unmatchedClose h)⟩
    · refine ⟨(hb ..).mpr (.inr ⟨rfl, rfl, hc⟩), hleast, fun _ fault notes h => ?_⟩
      rcases (hb ..).mp h with h | ⟨rfl, -⟩
      · rw [hf] at h; cases h
      · rfl

theorem breachAt_snoc_iff {ts : List Token} (hu : unmatched ts = 0) (t : Token) :
    BreachAt (ts ++ [t]) ts.length ↔
      followFault? ts.getLast? t ≠ none ∨ t.kind = .closeParen ∧ leftOpen ts = [] := by
  simp only [BreachAt, breach_snoc_iff hu, Option.ne_none_iff_exists']
  grind

/-! ## One step -/

theorem step_ofTokens_error_iff {ts : List Token} (hu : unmatched ts = 0) (hn : ∀ i, ¬ BreachAt ts i)
    (source : String) (t : Token) (r : Rejection) :
    (Progress.ofTokens ts).step source t = .error r ↔
      ∃ fault notes, FirstBreach (ts ++ [t]) ts.length fault notes ∧ ⟨fault, source, t.span, notes⟩ = r := by
  simp only [firstBreach_snoc_iff hu hn, Progress.step, Progress.ofTokens, openAfter?_openSpans]
  cases hf : followFault? ts.getLast? t with
  | some found =>
    obtain ⟨fault, notes⟩ := found
    simp only [Except.error.injEq, Option.some.injEq, Prod.mk.injEq, reduceCtorEq, false_and, or_false]
    constructor
    · intro h; exact ⟨fault, notes, ⟨rfl, rfl⟩, h⟩
    · rintro ⟨_, _, ⟨rfl, rfl⟩, h⟩; exact h
  | none =>
    by_cases hc : t.kind = .closeParen ∧ leftOpen ts = []
    · simp [hc, and_assoc]
    · simp [hc]

theorem step_ofTokens_ok_iff {ts : List Token} (hu : unmatched ts = 0) (source : String) (t : Token)
    (q : Progress) : (Progress.ofTokens ts).step source t = .ok q ↔
      ¬ BreachAt (ts ++ [t]) ts.length ∧ Progress.ofTokens (ts ++ [t]) = q := by
  simp only [breachAt_snoc_iff hu, Progress.step, Progress.ofTokens, openAfter?_openSpans]
  cases hf : followFault? ts.getLast? t with
  | some found => simp
  | none =>
    by_cases hc : t.kind = .closeParen ∧ leftOpen ts = []
    · simp [hc]
    · simp [hc]

/-! ## A whole run -/

theorem noBreach_snoc_iff (ts : List Token) (t : Token) :
    (∀ i, ¬ BreachAt (ts ++ [t]) i) ↔ (∀ i, ¬ BreachAt ts i) ∧ ¬ BreachAt (ts ++ [t]) ts.length := by
  constructor
  · intro h
    refine ⟨fun i hi => h i ?_, h _⟩
    obtain ⟨_, _, hb⟩ := hi
    exact (breachAt_append_iff hb.lt_length).mpr ⟨_, _, hb⟩
  · rintro ⟨hts, hlast⟩ i ⟨fault, notes, hb⟩
    have hlt := hb.lt_length
    rw [List.length_append, List.length_singleton] at hlt
    by_cases hi : i = ts.length
    · subst hi; exact hlast ⟨_, _, hb⟩
    · exact hts i ((breachAt_append_iff (by omega)).mp ⟨_, _, hb⟩)

theorem unmatched_eq_zero {ts : List Token} (h : ∀ i, ¬ BreachAt ts i) : unmatched ts = 0 := by
  induction ts using List.reverseRecOn with
  | nil => rfl
  | append_singleton ts t ih =>
    obtain ⟨hts, hlast⟩ := (noBreach_snoc_iff ts t).mp h
    have hu := ih hts
    rw [breachAt_snoc_iff hu] at hlast
    cases hk : t.kind with
    | openParen => rw [(leftOpen_snoc_open hk ts).2, hu]
    | closeParen =>
      have hl : leftOpen ts ≠ [] := fun hl => hlast (.inr ⟨hk, hl⟩)
      rw [(leftOpen_snoc_close hk ts).2, if_neg hl, hu]
    | _ => rw [(leftOpen_snoc_other (by simp [hk]) (by simp [hk]) ts).2, hu]

theorem foldlM_snoc_ok_iff {ε α β : Type} (f : β → α → Except ε β) (b c : β) (l : List α) (a : α) :
    (l ++ [a]).foldlM f b = .ok c ↔ ∃ b', l.foldlM f b = .ok b' ∧ f b' a = .ok c := by
  simp only [List.foldlM_append, List.foldlM_cons, List.foldlM_nil, bind_pure]
  cases h : l.foldlM f b with
  | error e => simp [bind, Except.bind]
  | ok b' => simp [bind, Except.bind]

-- a run that fails does so at one of its steps
theorem foldlM_eq_error_iff {ε α β : Type} (f : β → α → Except ε β) (b : β) (e : ε) (l : List α) :
    l.foldlM f b = .error e ↔
      ∃ pre a post b', l = pre ++ a :: post ∧ pre.foldlM f b = .ok b' ∧ f b' a = .error e := by
  induction l generalizing b with
  | nil => simp [pure, Except.pure]
  | cons a l ih =>
    rw [List.foldlM_cons]
    cases h : f b a with
    | error e' =>
      constructor
      · intro he
        cases he
        exact ⟨[], a, l, b, rfl, rfl, h⟩
      · rintro ⟨pre, a', post, b', heq, hrun, hstep⟩
        cases pre with
        | nil => cases heq; cases hrun; exact h.symm.trans hstep
        | cons _ pre =>
          cases heq
          obtain ⟨_, hb, -⟩ := (foldlM_cons_ok_iff ..).mp hrun
          rw [h] at hb; cases hb
    | ok b₁ =>
      refine (ih b₁).trans ⟨?_, ?_⟩
      · rintro ⟨pre, a', post, b', rfl, hrun, hstep⟩
        exact ⟨a :: pre, a', post, b', rfl, (foldlM_cons_ok_iff ..).mpr ⟨b₁, h, hrun⟩, hstep⟩
      · rintro ⟨pre, a', post, b', heq, hrun, hstep⟩
        cases pre with
        | nil => cases heq; cases hrun; rw [h] at hstep; cases hstep
        | cons _ pre =>
          cases heq
          obtain ⟨b₂, hb, hrun⟩ := (foldlM_cons_ok_iff ..).mp hrun
          rw [h] at hb; cases hb
          exact ⟨pre, a', post, b', rfl, hrun, hstep⟩

-- by induction from the end: the tokens before the last one have left the state it is checked in
theorem run_eq_ok_iff (source : String) (ts : List Token) (p : Progress) :
    ts.foldlM (Progress.step source) Progress.start = .ok p ↔
      (∀ i, ¬ BreachAt ts i) ∧ Progress.ofTokens ts = p := by
  induction ts using List.reverseRecOn generalizing p with
  | nil =>
    have hn : ∀ i, ¬ BreachAt [] i := fun i ⟨_, _, hb⟩ => absurd hb.lt_length (by simp)
    constructor
    · intro h; cases h; exact ⟨hn, rfl⟩
    · rintro ⟨-, rfl⟩; rfl
  | append_singleton ts t ih =>
    rw [noBreach_snoc_iff, foldlM_snoc_ok_iff]
    constructor
    · rintro ⟨p', hrun, hstep⟩
      obtain ⟨hn, rfl⟩ := (ih p').mp hrun
      obtain ⟨hlast, hp⟩ := (step_ofTokens_ok_iff (unmatched_eq_zero hn) ..).mp hstep
      exact ⟨⟨hn, hlast⟩, hp⟩
    · rintro ⟨⟨hn, hlast⟩, hp⟩
      exact ⟨_, (ih _).mpr ⟨hn, rfl⟩, (step_ofTokens_ok_iff (unmatched_eq_zero hn) ..).mpr ⟨hlast, hp⟩⟩

theorem noBreach_take {ts : List Token} {i : Nat} (h : ∀ j < i, ¬ BreachAt ts j) :
    ∀ j, ¬ BreachAt (ts.take i) j := by
  rintro j ⟨fault, notes, hb⟩
  have hj := hb.lt_length
  rw [List.length_take] at hj
  have : BreachAt (ts.take i ++ ts.drop i) j :=
    (breachAt_append_iff (by rw [List.length_take]; exact hj)).mpr ⟨_, _, hb⟩
  rw [List.take_append_drop] at this
  exact h j (by omega) this

theorem run_eq_error_iff (source : String) (ts : List Token) (r : Rejection) :
    ts.foldlM (Progress.step source) Progress.start = .error r ↔
      ∃ i t fault notes, ts[i]? = some t ∧ FirstBreach ts i fault notes ∧
        ⟨fault, source, t.span, notes⟩ = r := by
  rw [foldlM_eq_error_iff]
  constructor
  · rintro ⟨pre, t, post, p, rfl, hrun, hstep⟩
    obtain ⟨hn, rfl⟩ := (run_eq_ok_iff source pre p).mp hrun
    obtain ⟨fault, notes, hb, hr⟩ := (step_ofTokens_error_iff (unmatched_eq_zero hn) hn source t r).mp hstep
    refine ⟨pre.length, t, fault, notes, by simp, ?_, hr⟩
    rw [List.append_cons]
    exact (firstBreach_append_iff (by simp)).mpr hb
  · rintro ⟨i, t, fault, notes, ht, hb, hr⟩
    obtain ⟨hi, ht⟩ := List.getElem?_eq_some_iff.mp ht
    have hsplit : ts = ts.take i ++ t :: ts.drop (i + 1) := by
      rw [← ht, List.getElem_cons_drop, List.take_append_drop]
    have hn := noBreach_take hb.least
    have hb' : FirstBreach (ts.take i ++ [t]) (ts.take i).length fault notes := by
      rw [hsplit, List.append_cons] at hb
      rw [List.length_take, Nat.min_eq_left (by omega)]
      exact (firstBreach_append_iff (by simp; omega)).mp hb
    exact ⟨ts.take i, t, ts.drop (i + 1), _, hsplit, (run_eq_ok_iff ..).mpr ⟨hn, rfl⟩,
      (step_ofTokens_error_iff (unmatched_eq_zero hn) hn ..).mpr ⟨fault, notes, hb', hr⟩⟩

/-! ## The end of a run -/

theorem length_leftOpen {ts : List Token} (hu : unmatched ts = 0) :
    (leftOpen ts).length = opens ts - closes ts := by
  have := opens_add_unmatched ts
  omega

theorem finish_of_rejects {ts : List Token} (hn : ∀ i, ¬ BreachAt ts i) {source : String} {r : Rejection}
    (h : Rejects ts source r) : (Progress.ofTokens ts).finish source = .error r := by
  cases h with
  | breach ht hb => exact absurd ⟨_, _, hb.breach⟩ (hn _)
  | empty he => subst he; rfl
  | last _ hl he hfound => simp [Progress.finish, Progress.ofTokens, hl, he, described_iff.mp hfound]
  | unclosed _ hl he ho =>
    have hlen := length_leftOpen (unmatched_eq_zero hn)
    rw [ho, List.length_append] at hlen
    simp [Progress.finish, Progress.ofTokens, hl, he, openSpans, ho, ← hlen]

theorem finish_ofTokens_ok_iff {ts : List Token} (hn : ∀ i, ¬ BreachAt ts i) (source : String) :
    (Progress.ofTokens ts).finish source = .ok () ↔
      (∃ t, ts.getLast? = some t ∧ t.kind.endsOperand = true) ∧ opens ts = closes ts := by
  rw [finish_eq_ok_iff, ← leftOpen_eq_nil_iff (unmatched_eq_zero hn)]
  cases hl : ts.getLast? <;> simp [Progress.afterOperand, Progress.ofTokens, openSpans, hl]

theorem exists_rejects {ts : List Token} (hn : ∀ i, ¬ BreachAt ts i) (source : String)
    (h : (Progress.ofTokens ts).finish source ≠ .ok ()) : ∃ r, Rejects ts source r := by
  cases hl : ts.getLast? with
  | none => exact ⟨_, .empty (List.getLast?_eq_none_iff.mp hl)⟩
  | some t =>
    cases he : t.kind.endsOperand with
    | false => exact ⟨_, .last hn hl he (described_iff.mpr rfl)⟩
    | true =>
      rcases List.eq_nil_or_concat (leftOpen ts) with ho | ⟨outer, innermost, ho⟩
      · have hcount := (leftOpen_eq_nil_iff (unmatched_eq_zero hn)).mp ho
        exact absurd ((finish_ofTokens_ok_iff hn source).mpr ⟨⟨t, hl, he⟩, hcount⟩) h
      · exact ⟨_, .unclosed hn hl he (ho.trans List.concat_eq_append)⟩

theorem finish_ofTokens_error_iff {ts : List Token} (hn : ∀ i, ¬ BreachAt ts i) (source : String)
    (r : Rejection) : (Progress.ofTokens ts).finish source = .error r ↔ Rejects ts source r := by
  refine ⟨fun h => ?_, finish_of_rejects hn⟩
  obtain ⟨r', hr'⟩ := exists_rejects hn source (by rw [h]; exact nofun)
  cases h.symm.trans (finish_of_rejects hn hr')
  exact hr'

/-! ## The verdict -/

theorem check_eq_error_iff (ts : List Token) (source : String) (r : Rejection) :
    check ts source = .error r ↔
      ts.foldlM (Progress.step source) Progress.start = .error r ∨
        ∃ p, ts.foldlM (Progress.step source) Progress.start = .ok p ∧ p.finish source = .error r := by
  unfold check
  cases h : ts.foldlM (Progress.step source) Progress.start with
  | error e => simp [bind, Except.bind]
  | ok p => simp [bind, Except.bind]

theorem rejects_of_check {ts : List Token} {source : String} {r : Rejection}
    (h : check ts source = .error r) : Rejects ts source r := by
  rcases (check_eq_error_iff ts source r).mp h with hrun | ⟨p, hrun, hfin⟩
  · obtain ⟨i, t, fault, notes, ht, hb, rfl⟩ := (run_eq_error_iff source ts r).mp hrun
    exact .breach ht hb
  · obtain ⟨hn, rfl⟩ := (run_eq_ok_iff source ts p).mp hrun
    exact (finish_ofTokens_error_iff hn source r).mp hfin

theorem check_of_rejects {ts : List Token} {source : String} {r : Rejection} (h : Rejects ts source r) :
    check ts source = .error r := by
  rw [check_eq_error_iff]
  by_cases hn : ∀ i, ¬ BreachAt ts i
  · exact .inr ⟨_, (run_eq_ok_iff source ts _).mpr ⟨hn, rfl⟩, finish_of_rejects hn h⟩
  · cases h with
    | breach ht hb => exact .inl ((run_eq_error_iff source ts _).mpr ⟨_, _, _, _, ht, hb, rfl⟩)
    | empty he =>
      subst he
      exact absurd (fun i ⟨_, _, hb⟩ => absurd hb.lt_length (Nat.not_lt_zero i)) hn
    | last hn' => exact absurd hn' hn
    | unclosed hn' => exact absurd hn' hn

/-- **The exact verdict of the check.** The first breach is reported, else what is missing at the end;
nothing is missing behind an operand with as many closing as opening parentheses. -/
theorem check_verdict (ts : List Token) (source : String) :
    (∀ r, check ts source = .error r ↔ Rejects ts source r) ∧
      (check ts source = .ok () ↔ (∀ i, ¬ BreachAt ts i) ∧
        (∃ t, ts.getLast? = some t ∧ t.kind.endsOperand = true) ∧ opens ts = closes ts) := by
  refine ⟨fun r => ⟨rejects_of_check, check_of_rejects⟩, ?_⟩
  simp only [check_eq_ok_iff, ← finish_eq_ok_iff source, run_eq_ok_iff]
  constructor
  · rintro ⟨p, ⟨hn, rfl⟩, hfin⟩
    exact ⟨hn, (finish_ofTokens_ok_iff hn source).mp hfin⟩
  · rintro ⟨hn, hend⟩
    exact ⟨_, ⟨hn, rfl⟩, (finish_ofTokens_ok_iff hn source).mpr hend⟩

end SheetFormula
