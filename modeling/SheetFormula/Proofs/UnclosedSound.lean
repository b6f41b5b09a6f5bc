import SheetFormula.Proofs.BreachSound

/-!
# Which parentheses are never closed

`StaysOpen` says of an index, by counting behind it, that the parenthesis there is closed by no later one.
`map_leftOpen`: these are the parentheses on the stack of the check when it comes to the end. So a rejection
for them points at each one, from the outermost to the innermost: `check_unclosed`.
-/

namespace SheetFormula

/-- The tokens behind index `i`, up to index `j` and with that one. -/
def tokensBehind (ts : List Token) (i j : Nat) : List Token :=
  (ts.take (j + 1)).drop (i + 1)

/-- At `i` a parenthesis is opened, and behind it no stretch of tokens closes more than it opens. -/
def StaysOpen (ts : List Token) (i : Nat) : Prop :=
  (∃ t ∈ ts[i]?, t.kind = .openParen) ∧
    ∀ j < ts.length, i < j → closes (tokensBehind ts i j) ≤ opens (tokensBehind ts i j)

instance (ts : List Token) (i : Nat) : Decidable (StaysOpen ts i) :=
  inferInstanceAs (Decidable (_ ∧ ∀ j < ts.length, i < j →
    closes (tokensBehind ts i j) ≤ opens (tokensBehind ts i j)))

/-- Where the parentheses are that stay open, in ascending order. -/
def openIndices (ts : List Token) : List Nat :=
  (List.range ts.length).filter fun i => StaysOpen ts i

/-! ## One token in front -/

section
variable (t : Token) (ts : List Token)

theorem tokensBehind_zero (j : Nat) : tokensBehind (t :: ts) 0 j = ts.take j := rfl

theorem tokensBehind_succ (i j : Nat) : tokensBehind (t :: ts) (i + 1) (j + 1) = tokensBehind ts i j := rfl

theorem staysOpen_zero_iff : StaysOpen (t :: ts) 0 ↔ t.kind = .openParen ∧ ClosesWithin ts := by
  unfold StaysOpen ClosesWithin
  simp only [tokensBehind_zero, List.getElem?_cons_zero, Option.mem_some_iff, exists_eq_left', List.length_cons]
  apply and_congr_right
  intro _
  constructor
  · intro h n hn
    cases n with
    | zero => simp
    | succ n => exact h (n + 1) (by omega) (Nat.succ_pos n)
  · intro h j hj _
    exact h j (by omega)

theorem staysOpen_succ_iff (i : Nat) : StaysOpen (t :: ts) (i + 1) ↔ StaysOpen ts i := by
  unfold StaysOpen
  rw [List.getElem?_cons_succ, List.length_cons]
  apply and_congr_right
  intro _
  constructor
  · intro h j hj hij
    have := h (j + 1) (by omega) (by omega)
    rwa [tokensBehind_succ] at this
  · intro h j hj hij
    cases j with
    | zero => omega
    | succ j =>
      rw [tokensBehind_succ]
      exact h j (by omega) (by omega)

theorem openIndices_cons : openIndices (t :: ts) =
    if t.kind = .openParen ∧ ClosesWithin ts then 0 :: (openIndices ts).map (· + 1)
    else (openIndices ts).map (· + 1) := by
  unfold openIndices
  rw [List.length_cons, List.range_succ_eq_map, List.filter_cons, List.filter_map]
  simp only [Function.comp_def, staysOpen_zero_iff, staysOpen_succ_iff, decide_eq_true_eq]

end

/-! ## All of them -/

theorem map_leftOpen (ts : List Token) : (leftOpen ts).map some = (openIndices ts).map fun i => ts[i]? := by
  induction ts with
  | nil => rfl
  | cons t ts ih =>
    have hbehind : ((openIndices ts).map (· + 1)).map (fun i => (t :: ts)[i]?) = (leftOpen ts).map some := by
      rw [ih, List.map_map]
      rfl
    rw [openIndices_cons, leftOpen]
    by_cases hopen : t.kind = .openParen ∧ ClosesWithin ts
    · rw [if_pos hopen, if_pos hopen, List.map_cons, List.map_cons, hbehind]
      rfl
    · rw [if_neg hopen, if_neg hopen, hbehind]

theorem length_openIndices (ts : List Token) : (openIndices ts).length = (leftOpen ts).length := by
  have := congrArg List.length (map_leftOpen ts)
  rw [List.length_map, List.length_map] at this
  exact this.symm

theorem map_span_leftOpen (ts : List Token) :
    ((leftOpen ts).map Token.span).map some = (openIndices ts).map fun i => ts[i]?.map Token.span := by
  have := congrArg (List.map (Option.map Token.span)) (map_leftOpen ts)
  rw [List.map_map, List.map_map] at this
  rw [List.map_map]
  exact this

/-- **Unclosed parentheses are pointed at one by one.** Notes and fault together are at the parentheses that
stay open, in their order, and the count is what there are more opening than closing ones. -/
theorem check_unclosed {ts : List Token} {source source' : String} {count : Nat} {span : Span}
    {notes : List Note} (h : check ts source = .error ⟨.unclosed count, source', span, notes⟩) :
    ∃ outer, notes = outer.map Note.openedHere ∧
      (outer ++ [span]).map some = (openIndices ts).map (fun i => ts[i]?.map Token.span) ∧
      count = (openIndices ts).length ∧ closes ts + count = opens ts := by
  cases rejects_of_check h with
  | breach _ hb => cases hb.breach
  | @unclosed _ innermost outer hn _ _ ho =>
    have hu := unmatched_eq_zero hn
    have hcount := opens_add_unmatched ts
    refine ⟨outer.map Token.span, ?_, ?_, ?_, ?_⟩
    · rw [List.map_map]
      rfl
    · rw [← map_span_leftOpen, ho]
      simp
    · rw [length_openIndices, length_leftOpen hu]
    · omega

-- the second parenthesis is closed, the first and the third stay open
theorem check_unclosed_nested : ∃ ts outer,
    check ts "((1)+(2" = .error ⟨.unclosed 2, "((1)+(2", ⟨5, 6⟩, [.openedHere ⟨0, 1⟩]⟩ ∧
      openIndices ts = [0, 5] ∧ [Note.openedHere ⟨0, 1⟩] = outer.map Note.openedHere ∧
      (outer ++ [⟨5, 6⟩]).map some = (openIndices ts).map (fun i => ts[i]?.map Token.span) ∧
      2 = (openIndices ts).length ∧ closes ts + 2 = opens ts := by
  have h : check [⟨.openParen, "(", ⟨0, 1⟩⟩, ⟨.openParen, "(", ⟨1, 2⟩⟩, ⟨.number, "1", ⟨2, 3⟩⟩,
      ⟨.closeParen, ")", ⟨3, 4⟩⟩, ⟨.operator .add, "+", ⟨4, 5⟩⟩, ⟨.openParen, "(", ⟨5, 6⟩⟩,
      ⟨.number, "2", ⟨6, 7⟩⟩] "((1)+(2" =
      .error ⟨.unclosed 2, "((1)+(2", ⟨5, 6⟩, [.openedHere ⟨0, 1⟩]⟩ := rfl
  obtain ⟨outer, hunclosed⟩ := check_unclosed h
  exact ⟨_, outer, h, by decide +kernel, hunclosed⟩

end SheetFormula
