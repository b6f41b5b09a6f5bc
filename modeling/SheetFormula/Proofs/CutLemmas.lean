import SheetFormula.Proofs.LayoutSound

/-!
# Cutting a text between lexemes

A longest match looks ahead, but what it leaves over has no part in it: from every beginning of a text
that holds the first lexeme, the same lexeme is cut off (`firstShape_append`). So a text may end behind any
of its lexemes without a change to those before it (`lexemes_of_append`), and the two sides of a blank are
cut independently of each other (`lexemes_append_blank`).
-/

namespace SheetFormula

/-! ## Longest matches in a beginning -/

theorem numberLength_append_of_le {cs rest : List Char} (h : numberLength (cs ++ rest) ≤ cs.length) :
    numberLength (cs ++ rest) = numberLength cs := by
  apply Nat.le_antisymm
  · by_cases hz : numberLength (cs ++ rest) = 0
    · rw [hz]; exact Nat.zero_le _
    · have hnumber := isNumber_take hz
      rw [List.take_append_of_le_length h] at hnumber
      have hle := hnumber.length_le (cs.drop (numberLength (cs ++ rest)))
      rwa [List.take_append_drop, List.length_take, Nat.min_eq_left h] at hle
  · by_cases hz : numberLength cs = 0
    · rw [hz]; exact Nat.zero_le _
    · have hle := (isNumber_take hz).length_le (cs.drop (numberLength cs) ++ rest)
      rwa [← List.append_assoc, List.take_append_drop, List.length_take,
        Nat.min_eq_left (numberLength_le cs)] at hle

theorem runLength_append_of_le {cs rest : List Char} (h : runLength (cs ++ rest) ≤ cs.length) :
    runLength (cs ++ rest) = runLength cs := by
  unfold runLength at *
  rw [List.takeWhile_append] at h ⊢
  by_cases hall : (cs.takeWhile fun d => !isSeparator d).length = cs.length
  · rw [if_pos hall, List.length_append] at h ⊢
    omega
  · rw [if_neg hall]

theorem runLength_le (cs : List Char) : runLength cs ≤ cs.length :=
  (List.takeWhile_prefix _).length_le

/-! ## The first lexeme -/

theorem firstShape_le (c : Char) (cs : List Char) : (firstShape c cs).2 ≤ cs.length := by
  rcases separator_cases c with h | ⟨k, h⟩ | h
  · rw [firstShape_blank h]; exact Nat.zero_le _
  · rw [firstShape_mark h]; exact Nat.zero_le _
  · have hrun := runLength_le cs
    have hnumber := numberLength_le (c :: cs)
    rw [List.length_cons] at hnumber
    rw [firstShape_run h]
    by_cases hlt : runLength cs < numberLength (c :: cs)
    · rw [if_pos hlt]
      show numberLength (c :: cs) - 1 ≤ cs.length
      omega
    · rw [if_neg hlt]
      by_cases hv : isVariable (c :: cs.take (runLength cs)) = true
      · rw [if_pos hv]; exact hrun
      · rw [if_neg hv]; exact hrun

/-- The first lexeme is the same in every beginning of the text that holds it. -/
theorem firstShape_append {c : Char} {cs rest : List Char} (h : (firstShape c (cs ++ rest)).2 ≤ cs.length) :
    firstShape c (cs ++ rest) = firstShape c cs := by
  rcases separator_cases c with hc | ⟨k, hc⟩ | hc
  · rw [firstShape_blank hc, firstShape_blank hc]
  · rw [firstShape_mark hc, firstShape_mark hc]
  · rw [firstShape_run hc] at h
    -- neither the number nor the run reaches behind `cs`
    have hbounds : numberLength (c :: cs ++ rest) ≤ (c :: cs).length ∧ runLength (cs ++ rest) ≤ cs.length := by
      rw [List.cons_append, List.length_cons]
      by_cases hlt : runLength (cs ++ rest) < numberLength (c :: (cs ++ rest))
      · rw [if_pos hlt] at h
        simp only at h
        omega
      · rw [if_neg hlt, apply_ite Prod.snd, ite_self] at h
        omega
    have hnumber := numberLength_append_of_le hbounds.1
    have hrun := runLength_append_of_le hbounds.2
    rw [firstShape_run hc, firstShape_run hc, ← List.cons_append, hnumber, hrun,
      List.take_append_of_le_length (runLength_le cs)]

/-! ## All lexemes -/

theorem exists_firstShape {cs : List Char} {l : Lexeme} {ls : List Lexeme} (h : lexemes cs = l :: ls) :
    ∃ c r rest, cs = c :: (r ++ rest) ∧ l.text = c :: r ∧ firstShape c (r ++ rest) = (l.shape, r.length) ∧
      lexemes rest = ls := by
  cases cs with
  | nil => rw [lexemes] at h; cases h
  | cons c cs =>
    rw [lexemes_cons] at h
    obtain ⟨rfl, hls⟩ := List.cons.inj h
    refine ⟨c, cs.take (firstShape c cs).2, cs.drop (firstShape c cs).2, ?_, rfl, ?_, hls⟩
    · rw [List.take_append_drop]
    · rw [List.take_append_drop, List.length_take, Nat.min_eq_left (firstShape_le c cs)]

theorem Shape.Matches.not_isBlank_tail {s : Shape} {c : Char} {cs : List Char} (h : s.Matches (c :: cs)) :
    ∀ d ∈ cs, isBlank d = false := by
  intro d hd
  cases s with
  | blank => obtain ⟨_, -, heq⟩ := h; cases heq; cases hd
  | mark k => obtain ⟨_, -, heq⟩ := h; cases heq; cases hd
  | number => exact not_isBlank_of_isTokenChar (IsNumber.tokenChar h d (List.mem_cons_of_mem _ hd))
  | var => exact not_isBlank_of_not_isSeparator (IsName.not_isSeparator h d (List.mem_cons_of_mem _ hd))
  | unknown => exact not_isBlank_of_not_isSeparator (h.2 d (List.mem_cons_of_mem _ hd))

theorem firstShape_append_blank {b : Char} (hb : isBlank b = true) (c : Char) (cs rest : List Char) :
    firstShape c (cs ++ b :: rest) = firstShape c cs := by
  apply firstShape_append
  by_contra hlt
  obtain ⟨rest', htake⟩ := @take_append_cons cs rest b _ (Nat.lt_of_not_le hlt)
  have hm := firstShape_matches c (cs ++ b :: rest)
  rw [htake] at hm
  rw [hm.not_isBlank_tail b (by simp)] at hb
  cases hb

/-- A blank parts a text in two that are cut by themselves. -/
theorem lexemes_append_blank {b : Char} (hb : isBlank b = true) (cs rest : List Char) :
    lexemes (cs ++ b :: rest) = lexemes cs ++ ⟨.blank, [b]⟩ :: lexemes rest := by
  fun_induction lexemes cs with
  | case1 => exact lexemes_blank hb rest
  | case2 c cs first ih =>
    have hle := firstShape_le c cs
    rw [List.cons_append, lexemes_cons, firstShape_append_blank hb,
      List.take_append_of_le_length hle, List.drop_append_of_le_length hle, ih]
    rfl

end SheetFormula
