import Mathlib.Data.List.Forall2
import SheetFormula.Proofs.LexingLemmas

/-!
# Two readings that agree

Two sources are read in parallel, each in a letter case of its own. Where their lexemes take up the same
bytes and give related contents or faults alike one by one, so do their tokens, and the check cannot tell
these apart: of a token it looks at the kind and the span only. `parse_agree`: both sources are accepted
with related tokens, or both are rejected alike.
-/

namespace SheetFormula

/-! ## Outcomes that agree -/

/-- Both succeed with related results, or both fail with related faults. -/
inductive Agree {ε δ α β : Type} (E : ε → δ → Prop) (R : α → β → Prop) : Except ε α → Except δ β → Prop
  | ok {a : α} {b : β} : R a b → Agree E R (.ok a) (.ok b)
  | error {e : ε} {d : δ} : E e d → Agree E R (.error e) (.error d)

theorem Agree.bind {ε δ α β α' β' : Type} {E : ε → δ → Prop} {R : α → β → Prop} {S : α' → β' → Prop}
    {x : Except ε α} {y : Except δ β} {f : α → Except ε α'} {g : β → Except δ β'} (h : Agree E R x y)
    (hf : ∀ a b, R a b → Agree E S (f a) (g b)) : Agree E S (x >>= f) (y >>= g) := by
  cases h with
  | ok hr => exact hf _ _ hr
  | error he => exact .error he

theorem Agree.elim {ε δ α β : Type} {E : ε → δ → Prop} {R : α → β → Prop} {x : Except ε α} {y : Except δ β}
    (h : Agree E R x y) :
    (∃ a b, x = .ok a ∧ y = .ok b ∧ R a b) ∨ ∃ e d, x = .error e ∧ y = .error d ∧ E e d := by
  cases h with
  | ok hr => exact .inl ⟨_, _, rfl, rfl, hr⟩
  | error he => exact .inr ⟨_, _, rfl, rfl, he⟩

theorem Agree.foldlM {ε δ α β σ τ : Type} {E : ε → δ → Prop} {R : α → β → Prop} {S : σ → τ → Prop}
    {f : σ → α → Except ε σ} {g : τ → β → Except δ τ} {as : List α} {bs : List β} (h : List.Forall₂ R as bs)
    (hstep : ∀ s t a b, S s t → R a b → Agree E S (f s a) (g t b)) {s : σ} {t : τ} (hs : S s t) :
    Agree E S (as.foldlM f s) (bs.foldlM g t) := by
  induction h generalizing s t with
  | nil => exact .ok hs
  | cons hr _ ih =>
    rw [List.foldlM_cons, List.foldlM_cons]
    exact (hstep _ _ _ _ hs hr).bind fun _ _ => ih

theorem Agree.parse {E : Rejection → Rejection → Prop} {R : List Token → List Token → Prop}
    {S : Unit → Unit → Prop} {vc vc' : VariableCase} {source source' : String}
    (h : Agree E R (tokenize vc source) (tokenize vc' source'))
    (hcheck : ∀ ts ts', R ts ts' → Agree E S (check ts source) (check ts' source')) :
    Agree E (fun f f' => R f.tokens f'.tokens) (Formula.parse vc source) (Formula.parse vc' source') := by
  rcases h.elim with ⟨ts, ts', ht, ht', hr⟩ | ⟨r, r', ht, ht', he⟩
  · rcases (hcheck ts ts' hr).elim with ⟨_, _, hc, hc', -⟩ | ⟨r, r', hc, hc', he⟩
    · rw [parse_of_check ht hc, parse_of_check ht' hc']
      exact .ok hr
    · rw [parse_of_check_error ht hc, parse_of_check_error ht' hc']
      exact .error he
  · rw [parse_of_tokenize_error ht, parse_of_tokenize_error ht']
    exact .error he

/-! ## Rejections alike -/

/-- Which fault it is, whatever it says of the text. -/
inductive FaultName where
  | empty
  | invalidToken
  | invalidNumber
  | unmatchedClose
  | unclosed
  | invalidFirst
  | invalidLast
  | missingOperand
  | missingOperator
deriving DecidableEq

namespace Fault

def name : Fault → FaultName
  | .empty => .empty
  | .invalidToken _ => .invalidToken
  | .invalidNumber _ => .invalidNumber
  | .unmatchedClose => .unmatchedClose
  | .unclosed _ => .unclosed
  | .invalidFirst _ => .invalidFirst
  | .invalidLast _ => .invalidLast
  | .missingOperand .. => .missingOperand
  | .missingOperator .. => .missingOperator

/-- The part of the source that is no token. -/
def text? : Fault → Option String
  | .invalidToken text | .invalidNumber text => some text
  | _ => none

def count? : Fault → Option Nat
  | .unclosed count => some count
  | _ => none

/-- The same fault but for token descriptions; `f` says what counts of a text that is no token. -/
structure Alike (f : String → String) (a b : Fault) : Prop where
  name : a.name = b.name
  text : a.text?.map f = b.text?.map f
  count : a.count? = b.count?

theorem Alike.rule {f : String → String} {a b : Fault} (h : a.Alike f b) : a.rule = b.rule := by
  have := h.name
  cases a <;> cases b <;> simp_all [Fault.name, Fault.rule]

end Fault

structure Rejection.Alike (f : String → String) (r r' : Rejection) : Prop where
  fault : r.fault.Alike f r'.fault
  span : r.span = r'.span
  notes : r.notes = r'.notes

/-! ## The check -/

section
variable (f : String → String) {source source' : String}

/-- All that the check looks at. -/
def Token.place (t : Token) : Kind × Span :=
  (t.kind, t.span)

def Progress.place (p : Progress) : Option (Kind × Span) × List Span :=
  (p.previous.map Token.place, p.opened)

theorem followFault?_alike {s s' : Option Token} {t t' : Token} (hs : s.map Token.place = s'.map Token.place)
    (ht : t.place = t'.place) :
    Option.Rel (fun a b => a.1.Alike f b.1 ∧ a.2 = b.2) (followFault? s t) (followFault? s' t') := by
  simp only [Token.place, Prod.mk.injEq] at ht
  cases s with
  | none =>
    cases s' with
    | none =>
      simp only [followFault?, ht.1]
      split
      · exact .none
      · exact .some ⟨⟨rfl, rfl, rfl⟩, rfl⟩
    | some s' => cases hs
  | some s =>
    cases s' with
    | none => cases hs
    | some s' =>
      simp only [Token.place, Option.map_some, Option.some.injEq, Prod.mk.injEq] at hs
      simp only [followFault?, ht.1, hs.1, hs.2]
      cases s'.kind.endsOperand <;> cases t'.kind.startsOperand
      · exact .some ⟨⟨rfl, rfl, rfl⟩, rfl⟩
      · exact .none
      · exact .none
      · exact .some ⟨⟨rfl, rfl, rfl⟩, rfl⟩

theorem step_agree {p p' : Progress} {t t' : Token} (hp : p.place = p'.place) (ht : t.place = t'.place) :
    Agree (Rejection.Alike f) (fun q q' => q.place = q'.place) (p.step source t) (p'.step source' t') := by
  have hfollow := followFault?_alike f (congrArg Prod.fst hp) ht
  have hopened : openAfter? p.opened t = openAfter? p'.opened t' := by
    simp only [Token.place, Prod.mk.injEq] at ht
    rw [show p.opened = p'.opened from congrArg Prod.snd hp]
    simp only [openAfter?, ht.1, ht.2]
  unfold Progress.step
  rw [hopened]
  generalize followFault? p.previous t = x at hfollow
  generalize followFault? p'.previous t' = y at hfollow
  cases hfollow with
  | some h => exact .error ⟨h.1, congrArg Prod.snd ht, h.2⟩
  | none =>
    cases openAfter? p'.opened t' with
    | none => exact .error ⟨⟨rfl, rfl, rfl⟩, congrArg Prod.snd ht, rfl⟩
    | some opened => exact .ok (by simp [Progress.place, ht])

theorem finish_agree (hs : byteLength source.toList = byteLength source'.toList) {p p' : Progress}
    (hp : p.place = p'.place) :
    Agree (Rejection.Alike f) (fun _ _ => True) (p.finish source) (p'.finish source') := by
  obtain ⟨s, opened⟩ := p
  obtain ⟨s', opened'⟩ := p'
  obtain ⟨hprevious, rfl⟩ := Prod.mk.inj hp
  cases s with
  | none =>
    cases s' with
    | none => exact .error ⟨⟨rfl, rfl, rfl⟩, by rw [hs], rfl⟩
    | some s' => cases hprevious
  | some s =>
    cases s' with
    | none => cases hprevious
    | some s' =>
      simp only [Token.place, Option.map_some, Option.some.injEq, Prod.mk.injEq] at hprevious
      simp only [Progress.finish, hprevious.1, hprevious.2]
      cases s'.kind.endsOperand with
      | false => exact .error ⟨⟨rfl, rfl, rfl⟩, rfl, rfl⟩
      | true =>
        cases opened with
        | nil => exact .ok trivial
        | cons innermost outer => exact .error ⟨⟨rfl, rfl, rfl⟩, rfl, rfl⟩

theorem check_agree (hs : byteLength source.toList = byteLength source'.toList) {ts ts' : List Token}
    (h : List.Forall₂ (fun t t' => t.place = t'.place) ts ts') :
    Agree (Rejection.Alike f) (fun _ _ => True) (check ts source) (check ts' source') := by
  unfold check
  have hrun : Agree (Rejection.Alike f) (fun p p' => p.place = p'.place)
      (ts.foldlM (Progress.step source) Progress.start) (ts'.foldlM (Progress.step source') Progress.start) :=
    Agree.foldlM h (fun p p' t t' hp ht => step_agree f hp ht) rfl
  exact hrun.bind fun p p' => finish_agree f hs

end

/-! ## Lexing -/

section
variable (f : String → String) (C : Kind × String → Kind × String → Prop) (vc vc' : VariableCase)

/-- Lexemes over as many bytes that are read as related contents or as faults alike. -/
def Lexeme.ReadAlike (l l' : Lexeme) : Prop :=
  byteLength l.text = byteLength l'.text ∧
    Option.Rel (Agree (Fault.Alike f) C) (l.read vc) (l'.read vc')

def Token.Like (t t' : Token) : Prop :=
  C t.content t'.content ∧ t.span = t'.span

theorem ofLexemes_agree {ls ls' : List Lexeme} (h : List.Forall₂ (Lexeme.ReadAlike f C vc vc') ls ls')
    (n : Nat) :
    List.Forall₂ (Token.Like C) (Lexing.ofLexemes vc n ls).tokens (Lexing.ofLexemes vc' n ls').tokens ∧
      Option.Rel (fun a b => a.1.Alike f b.1 ∧ a.2 = b.2) (Lexing.ofLexemes vc n ls).fault
        (Lexing.ofLexemes vc' n ls').fault := by
  induction h generalizing n with
  | nil => exact ⟨.nil, .none⟩
  | @cons l l' ls ls' hl _ ih =>
    obtain ⟨hlen, hread⟩ := hl
    simp only [Lexing.ofLexemes, hlen]
    generalize l.read vc = x at hread
    generalize l'.read vc' = y at hread
    cases hread with
    | none => exact ih _
    | some hread =>
      cases hread with
      | error hf => exact ⟨.nil, .some ⟨hf, rfl⟩⟩
      | ok hc => exact ⟨.cons ⟨hc, rfl⟩ (ih _).1, (ih _).2⟩

theorem tokenize_agree {source source' : String}
    (h : List.Forall₂ (Lexeme.ReadAlike f C vc vc') (lexemes source.toList) (lexemes source'.toList)) :
    Agree (Rejection.Alike f) (List.Forall₂ (Token.Like C)) (tokenize vc source) (tokenize vc' source') := by
  obtain ⟨htokens, hfault⟩ := ofLexemes_agree f C vc vc' h 0
  unfold tokenize Lexing.ofSource
  simp only
  generalize (Lexing.ofLexemes vc 0 (lexemes source.toList)).fault = x at hfault
  generalize (Lexing.ofLexemes vc' 0 (lexemes source'.toList)).fault = y at hfault
  cases hfault with
  | none => exact .ok htokens
  | some hf => exact .error ⟨hf.1, hf.2, rfl⟩

theorem parse_agree {source source' : String} (hkind : ∀ c c', C c c' → c.1 = c'.1)
    (hs : byteLength source.toList = byteLength source'.toList)
    (h : List.Forall₂ (Lexeme.ReadAlike f C vc vc') (lexemes source.toList) (lexemes source'.toList)) :
    Agree (Rejection.Alike f) (fun g g' => List.Forall₂ (Token.Like C) g.tokens g'.tokens)
      (Formula.parse vc source) (Formula.parse vc' source') := by
  apply (tokenize_agree f C vc vc' h).parse
  intro ts ts' hts
  have hplaces : List.Forall₂ (fun t t' => t.place = t'.place) ts ts' :=
    hts.imp fun t t' ht => Prod.mk.injEq .. ▸ ⟨hkind _ _ ht.1, ht.2⟩
  exact check_agree f hs hplaces

end

end SheetFormula
