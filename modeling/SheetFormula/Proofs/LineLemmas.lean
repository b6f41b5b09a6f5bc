import SheetFormula.Proofs.WireSound
import SheetFormula.Text.Line

/-!
# Lines of a text and of its bytes

`isLines_iff`: the lines are found by their terminators, and in one way only. `byteLines_utf8Bytes`: in
UTF-8 the lines of the bytes are the bytes of the lines, since the bytes of a terminator occur in no other
character.
-/

namespace SheetFormula

/-! ## Terminators -/

/-- Up to each `lf` there is a line, without a `cr` right before the `lf`. What follows the last one is a
line too, unless it is nothing. -/
inductive IsLines {α : Type} (lf cr : α) : List α → List (List α) → Prop
  | nil : IsLines lf cr [] []
  | rest {l : List α} : l ≠ [] → lf ∉ l → IsLines lf cr l [l]
  | ended {l rest : List α} {ls : List (List α)} : lf ∉ l → l.getLast? ≠ some cr → IsLines lf cr rest ls →
      IsLines lf cr (l ++ lf :: rest) (l :: ls)
  | endedCr {l rest : List α} {ls : List (List α)} : lf ∉ l → IsLines lf cr rest ls →
      IsLines lf cr (l ++ cr :: lf :: rest) (l :: ls)

section
variable {α : Type} [DecidableEq α] {lf cr : α}

theorem linesFrom_append {l : List α} (h : lf ∉ l) (current rest : List α) :
    linesFrom lf cr current (l ++ rest) = linesFrom lf cr (l.reverse ++ current) rest := by
  induction l generalizing current with
  | nil => rfl
  | cons b l ih =>
    have hb : ¬ b = lf := fun hb => h (hb ▸ List.mem_cons_self)
    have hl : lf ∉ l := fun hl => h (List.mem_cons_of_mem _ hl)
    rw [List.cons_append, linesFrom, if_neg hb, ih hl, List.reverse_cons, List.append_assoc]
    rfl

theorem linesFrom_lf (current rest : List α) : linesFrom lf cr current (lf :: rest) =
    (if current.head? = some cr then current.tail else current).reverse :: linesFrom lf cr [] rest := by
  rw [linesFrom, if_pos rfl]

theorem isLines_linesFrom {current : List α} (h : lf ∉ current) (rest : List α) :
    IsLines lf cr (current.reverse ++ rest) (linesFrom lf cr current rest) := by
  induction rest generalizing current with
  | nil =>
    cases current with
    | nil => exact .nil
    | cons b current =>
      rw [List.append_nil]
      exact .rest (by simp) (by rwa [List.mem_reverse])
  | cons b rest ih =>
    by_cases hb : b = lf
    · subst hb
      rw [linesFrom_lf]
      by_cases hcr : current.head? = some cr
      · obtain ⟨tail, rfl⟩ := List.head?_eq_some_iff.mp hcr
        rw [if_pos hcr, List.reverse_cons, List.append_assoc]
        apply IsLines.endedCr
        · simpa using fun ht => h (List.mem_cons_of_mem _ ht)
        · exact ih List.not_mem_nil
      · rw [if_neg hcr]
        apply IsLines.ended
        · simpa using h
        · rwa [List.getLast?_reverse]
        · exact ih List.not_mem_nil
    · have hne : lf ∉ b :: current := by
        rw [List.mem_cons, not_or]
        exact ⟨fun he => hb he.symm, h⟩
      have := ih hne
      rw [List.reverse_cons, List.append_assoc] at this
      rw [linesFrom, if_neg hb]
      exact this

theorem IsLines.linesFrom_eq (hne : cr ≠ lf) {text : List α} {ls : List (List α)} (h : IsLines lf cr text ls) :
    linesFrom lf cr [] text = ls := by
  induction h with
  | nil => rfl
  | @rest l hl hlf =>
    have hl' : linesFrom lf cr [] (l ++ []) = _ := linesFrom_append hlf [] []
    rw [List.append_nil] at hl'
    rw [hl']
    simp [linesFrom, hl]
  | @ended l rest ls hlf hcr _ ih =>
    rw [linesFrom_append hlf, linesFrom_lf, List.append_nil, List.head?_reverse, if_neg hcr,
      List.reverse_reverse, ih]
  | @endedCr l rest ls hlf _ ih =>
    have hlf' : lf ∉ l ++ [cr] := by
      rw [List.mem_append, List.mem_singleton, not_or]
      exact ⟨hlf, hne.symm⟩
    rw [List.append_cons, linesFrom_append hlf', linesFrom_lf]
    simp [ih]

theorem isLines_iff (hne : cr ≠ lf) {text : List α} {ls : List (List α)} :
    IsLines lf cr text ls ↔ ls = linesFrom lf cr [] text := by
  constructor
  · intro h
    exact (h.linesFrom_eq hne).symm
  · rintro rfl
    exact isLines_linesFrom List.not_mem_nil text

/-- Behind a terminator the lines start anew. -/
theorem linesFrom_append_lf (a b current : List α) : linesFrom lf cr current (a ++ lf :: b) =
    linesFrom lf cr current (a ++ [lf]) ++ linesFrom lf cr [] b := by
  induction a generalizing current with
  | nil => rw [List.nil_append, List.nil_append, linesFrom_lf, linesFrom_lf]; rfl
  | cons c a ih =>
    rw [List.cons_append, List.cons_append]
    by_cases hc : c = lf
    · subst hc
      rw [linesFrom_lf, linesFrom_lf, ih, List.cons_append]
    · rw [linesFrom, linesFrom, if_neg hc, if_neg hc, ih]

end

/-- A text without terminator is one line when it is ended, less a carriage return at its end. -/
theorem textLines_lf {s : String} (h : '\n' ∉ s.toList) :
    ∃ line, textLines (s ++ "\n") = [line] ∧ (s = line ∨ s = line.push '\r') := by
  have hlines : linesFrom '\n' '\r' [] (s ++ "\n").toList =
      [(if s.toList.getLast? = some '\r' then s.toList.reverse.tail else s.toList.reverse).reverse] := by
    rw [String.toList_append, linesFrom_append h, List.append_nil, ← List.head?_reverse]
    exact linesFrom_lf ..
  rw [textLines, hlines]
  refine ⟨_, rfl, ?_⟩
  by_cases hcr : s.toList.getLast? = some '\r'
  · right
    rw [if_pos hcr]
    obtain ⟨line, hline⟩ := List.getLast?_eq_some_iff.mp hcr
    rw [← String.toList_inj, hline]
    simp
  · left
    rw [if_neg hcr]
    simp

/-! ## UTF-8 -/

/-- A character of one byte is that byte, and the bytes of other characters are all above those. -/
theorem utf8EncodeChar_cases (c : Char) :
    (c.toNat < 128 ∧ String.utf8EncodeChar c = [UInt8.ofNat c.toNat]) ∨
      128 ≤ c.toNat ∧ ∀ b ∈ String.utf8EncodeChar c, 128 ≤ b.toNat := by
  have hv : c.toNat = c.val.toNat := rfl
  fun_cases String.utf8EncodeChar
  case case1 v h =>
    left
    exact ⟨by omega, rfl⟩
  all_goals
    right
    simp only [List.forall_mem_cons, List.not_mem_nil, false_implies, implies_true, and_true, UInt8.toNat_ofNat',
      Nat.reducePow]
    omega

theorem toNat_of_mem_utf8EncodeChar {c : Char} {b : UInt8} (h : b ∈ String.utf8EncodeChar c)
    (hb : b.toNat < 128) : c.toNat = b.toNat := by
  rcases utf8EncodeChar_cases c with ⟨hc, heq⟩ | ⟨-, hall⟩
  · rw [heq, List.mem_singleton] at h
    rw [h, UInt8.toNat_ofNat', Nat.mod_eq_of_lt (by omega)]
  · have := hall b h
    omega

section
variable {cs : List Char}

theorem lf_not_mem_flatMap (h : '\n' ∉ cs) : (10 : UInt8) ∉ cs.flatMap String.utf8EncodeChar := by
  intro hmem
  obtain ⟨c, hc, hb⟩ := List.mem_flatMap.mp hmem
  have hn : c.toNat = '\n'.toNat := toNat_of_mem_utf8EncodeChar hb (by decide)
  exact h (Char.toNat_inj.mp hn ▸ hc)

theorem getLast?_flatMap_ne_cr (h : cs.getLast? ≠ some '\r') :
    (cs.flatMap String.utf8EncodeChar).getLast? ≠ some 13 := by
  intro hlast
  cases hcs : cs.reverse with
  | nil =>
    rw [List.reverse_eq_nil_iff] at hcs
    subst hcs
    cases hlast
  | cons c l =>
    obtain rfl : cs = l.reverse ++ [c] := by rw [← List.reverse_reverse cs, hcs, List.reverse_cons]
    rw [List.flatMap_append, List.flatMap_singleton,
      List.getLast?_append_of_ne_nil _ String.utf8EncodeChar_ne_nil] at hlast
    have hn : c.toNat = '\r'.toNat := toNat_of_mem_utf8EncodeChar (List.mem_of_getLast? hlast) (by decide)
    rw [List.getLast?_concat] at h
    exact h (congrArg some (Char.toNat_inj.mp hn))

end

theorem IsLines.utf8 {cs : List Char} {ls : List (List Char)} (h : IsLines '\n' '\r' cs ls) :
    IsLines 10 13 (cs.flatMap String.utf8EncodeChar) (ls.map fun l => l.flatMap String.utf8EncodeChar) := by
  induction h with
  | nil => exact .nil
  | @rest l hne hlf =>
    refine .rest ?_ (lf_not_mem_flatMap hlf)
    obtain ⟨c, l, rfl⟩ := List.exists_cons_of_ne_nil hne
    simp [String.utf8EncodeChar_ne_nil]
  | ended hlf hcr _ ih =>
    rw [List.flatMap_append]
    exact .ended (lf_not_mem_flatMap hlf) (getLast?_flatMap_ne_cr hcr) ih
  | endedCr hlf _ ih =>
    rw [List.flatMap_append]
    exact .endedCr (lf_not_mem_flatMap hlf) ih

/-- The lines of a text's bytes are the bytes of its lines. -/
theorem byteLines_utf8Bytes (text : String) : byteLines (utf8Bytes text) = (textLines text).map utf8Bytes := by
  have hlines : IsLines '\n' '\r' text.toList (linesFrom '\n' '\r' [] text.toList) :=
    (isLines_iff (by decide)).mpr rfl
  have := (isLines_iff (by decide)).mp hlines.utf8
  rw [byteLines, utf8Bytes, ← this, textLines, List.map_map]
  apply List.map_congr_left
  intro l _
  simp [utf8Bytes]

theorem utf8Text?_eq_some_iff {bytes : List UInt8} {text : String} :
    utf8Text? bytes = some text ↔ bytes = utf8Bytes text := by
  constructor
  · intro h
    unfold utf8Text? String.fromUTF8? at h
    split at h
    · rename_i hv
      cases h
      rw [utf8Bytes_eq]
      show bytes = bytes.toByteArray.data.toList
      rw [List.data_toByteArray]
    · cases h
  · rintro rfl
    exact utf8Text?_utf8Bytes text

end SheetFormula
