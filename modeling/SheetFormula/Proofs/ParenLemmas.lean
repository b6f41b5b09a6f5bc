import SheetFormula.Check

/-!
# Parentheses left open

An opening parenthesis is left open if no stretch of the tokens right after it closes more than it opens.
`opens_add_unmatched`: together with the closing parentheses that have no partner these make up the
difference between opening and closing ones. `openAfter?_openSpans`: what the check keeps on its stack are
the parentheses left open so far.
-/

namespace SheetFormula

def opens (ts : List Token) : Nat :=
  ts.countP fun t => t.kind == .openParen

def closes (ts : List Token) : Nat :=
  ts.countP fun t => t.kind == .closeParen

/-- No beginning of the tokens closes more than it opens. -/
def ClosesWithin (ts : List Token) : Prop :=
  ∀ n ≤ ts.length, closes (ts.take n) ≤ opens (ts.take n)

instance (ts : List Token) : Decidable (ClosesWithin ts) :=
  inferInstanceAs (Decidable (∀ n ≤ ts.length, closes (ts.take n) ≤ opens (ts.take n)))

/-- The opening parentheses that are left open, the outermost first. -/
def leftOpen : List Token → List Token
  | [] => []
  | t :: ts => if t.kind = .openParen ∧ ClosesWithin ts then t :: leftOpen ts else leftOpen ts

/-! ## Closing parentheses without a partner -/

def unmatched : List Token → Nat
  | [] => 0
  | t :: ts =>
    match t.kind with
    | .openParen => unmatched ts - 1
    | .closeParen => unmatched ts + 1
    | _ => unmatched ts

@[simp] theorem opens_nil : opens [] = 0 := rfl

@[simp] theorem closes_nil : closes [] = 0 := rfl

@[simp] theorem opens_cons (t : Token) (ts : List Token) :
    opens (t :: ts) = opens ts + if t.kind = .openParen then 1 else 0 := by
  simp [opens, List.countP_cons]

@[simp] theorem closes_cons (t : Token) (ts : List Token) :
    closes (t :: ts) = closes ts + if t.kind = .closeParen then 1 else 0 := by
  simp [closes, List.countP_cons]

theorem opens_append (ts us : List Token) : opens (ts ++ us) = opens ts + opens us :=
  List.countP_append

theorem closes_append (ts us : List Token) : closes (ts ++ us) = closes ts + closes us :=
  List.countP_append

-- the excess `k` is what a closing parenthesis in front uses up and an opening one adds
theorem unmatched_le_iff (ts : List Token) (k : Nat) :
    unmatched ts ≤ k ↔ ∀ n ≤ ts.length, closes (ts.take n) ≤ opens (ts.take n) + k := by
  induction ts generalizing k with
  | nil => simp [unmatched]
  | cons t ts ih =>
    have hsplit : (∀ n ≤ (t :: ts).length, closes ((t :: ts).take n) ≤ opens ((t :: ts).take n) + k) ↔
        ∀ n ≤ ts.length, closes (t :: ts.take n) ≤ opens (t :: ts.take n) + k := by
      constructor
      · intro h n hn
        exact h (n + 1) (by simpa using hn)
      · intro h n hn
        cases n with
        | zero => simp
        | succ n => exact h n (by simpa using hn)
    rw [hsplit]
    cases hk : t.kind with
    | openParen =>
      simp only [unmatched, hk, closes_cons, opens_cons, reduceCtorEq, ite_true, ite_false]
      rw [show unmatched ts - 1 ≤ k ↔ unmatched ts ≤ k + 1 by omega, ih]
      grind
    | closeParen =>
      simp only [unmatched, hk, closes_cons, opens_cons, reduceCtorEq, ite_true, ite_false]
      cases k with
      | zero =>
        refine ⟨fun h => absurd h (by omega), fun h => ?_⟩
        have := h 0 (Nat.zero_le _)
        simp at this
      | succ k =>
        rw [Nat.add_le_add_iff_right, ih]
        grind
    | _ => simp [unmatched, hk, ih]

theorem closesWithin_iff (ts : List Token) : ClosesWithin ts ↔ unmatched ts = 0 := by
  rw [← Nat.le_zero, unmatched_le_iff]; rfl

theorem leftOpen_cons (t : Token) (ts : List Token) : leftOpen (t :: ts) =
    if t.kind = .openParen ∧ unmatched ts = 0 then t :: leftOpen ts else leftOpen ts := by
  simp only [leftOpen, closesWithin_iff]

theorem opens_add_unmatched (ts : List Token) :
    opens ts + unmatched ts = closes ts + (leftOpen ts).length := by
  induction ts with
  | nil => rfl
  | cons t ts ih =>
    rw [leftOpen_cons]
    cases hk : t.kind with
    | openParen =>
      by_cases hu : unmatched ts = 0
      · simp [unmatched, hk, hu]; omega
      · simp [unmatched, hk, hu]; omega
    | closeParen => simp [unmatched, hk]; omega
    | _ => simp [unmatched, hk, ih]

theorem leftOpen_sublist (ts : List Token) : (leftOpen ts).Sublist ts := by
  induction ts with
  | nil => exact .slnil
  | cons t ts ih =>
    rw [leftOpen_cons]
    split
    · exact ih.cons_cons t
    · exact ih.cons t

theorem kind_of_mem_leftOpen {t : Token} {ts : List Token} (h : t ∈ leftOpen ts) : t.kind = .openParen := by
  induction ts with
  | nil => cases h
  | cons s ts ih =>
    rw [leftOpen_cons] at h
    split at h
    · rename_i hs
      rcases List.mem_cons.mp h with rfl | h
      · exact hs.1
      · exact ih h
    · exact ih h

/-! ## One more token -/

theorem leftOpen_snoc_open {t : Token} (hk : t.kind = .openParen) (ts : List Token) :
    leftOpen (ts ++ [t]) = leftOpen ts ++ [t] ∧ unmatched (ts ++ [t]) = unmatched ts := by
  induction ts with
  | nil => simp [leftOpen_cons, unmatched, hk, leftOpen]
  | cons s ts ih =>
    rw [List.cons_append, leftOpen_cons, leftOpen_cons, ih.1, ih.2]
    refine ⟨by split <;> rfl, ?_⟩
    simp only [unmatched, ih.2]

theorem leftOpen_snoc_other {t : Token} (ho : t.kind ≠ .openParen) (hc : t.kind ≠ .closeParen)
    (ts : List Token) :
    leftOpen (ts ++ [t]) = leftOpen ts ∧ unmatched (ts ++ [t]) = unmatched ts := by
  induction ts with
  | nil => cases hk : t.kind <;> simp_all [leftOpen, unmatched]
  | cons s ts ih =>
    rw [List.cons_append, leftOpen_cons, leftOpen_cons, ih.1, ih.2]
    refine ⟨rfl, ?_⟩
    simp only [unmatched, ih.2]

-- a closing parenthesis takes away the innermost one left open, or else stays without partner
theorem leftOpen_snoc_close {t : Token} (hk : t.kind = .closeParen) (ts : List Token) :
    leftOpen (ts ++ [t]) = (leftOpen ts).dropLast ∧
      unmatched (ts ++ [t]) = if leftOpen ts = [] then unmatched ts + 1 else unmatched ts := by
  induction ts with
  | nil => simp [leftOpen_cons, unmatched, hk, leftOpen]
  | cons s ts ih =>
    rw [List.cons_append, leftOpen_cons, leftOpen_cons, ih.1]
    cases hs : s.kind with
    | openParen =>
      by_cases hl : leftOpen ts = []
      · by_cases hu : unmatched ts = 0
        · simp [unmatched, hs, ih.2, hl, hu]
        · simp [unmatched, hs, ih.2, hl, hu]; omega
      · by_cases hu : unmatched ts = 0
        · simp [unmatched, hs, ih.2, hl, hu, List.dropLast_cons_of_ne_nil]
        · simp [unmatched, hs, ih.2, hl, hu]
    | closeParen =>
      by_cases hl : leftOpen ts = [] <;> simp [unmatched, hs, ih.2, hl]
    | _ => simp [unmatched, hs, ih.2]

/-! ## The stack of the check -/

def openSpans (ts : List Token) : List Span :=
  ((leftOpen ts).map Token.span).reverse

theorem leftOpen_eq_nil_iff {ts : List Token} (h : unmatched ts = 0) :
    leftOpen ts = [] ↔ opens ts = closes ts := by
  have := opens_add_unmatched ts
  rw [← List.length_eq_zero_iff]; omega

theorem openAfter?_openSpans (ts : List Token) (t : Token) :
    openAfter? (openSpans ts) t =
      if t.kind = .closeParen ∧ leftOpen ts = [] then none else some (openSpans (ts ++ [t])) := by
  cases hk : t.kind with
  | openParen => simp [openAfter?, hk, openSpans, leftOpen_snoc_open hk ts]
  | closeParen =>
    simp only [openAfter?, hk, openSpans, (leftOpen_snoc_close hk ts).1, true_and]
    rcases List.eq_nil_or_concat (leftOpen ts) with hl | ⟨outer, innermost, hl⟩
    · simp [hl]
    · simp [hl]
  | _ => simp [openAfter?, openSpans, leftOpen_snoc_other, hk]

end SheetFormula
