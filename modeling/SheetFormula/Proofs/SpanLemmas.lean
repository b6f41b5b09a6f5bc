import SheetFormula.Text.Span

/-!
# Slices of a text

`slice?_eq_some_iff`: a slice is what stands between the beginning and the end that the span leaves over.
`fits_iff_exists_slice?`: there is one exactly if the ends are in order, inside the text and between two
characters of its UTF-8.
-/

namespace SheetFormula

/-! ## Bytes of a list of characters -/

@[simp] theorem byteLength_nil : byteLength [] = 0 := rfl

@[simp] theorem byteLength_cons (c : Char) (cs : List Char) :
    byteLength (c :: cs) = c.utf8Size + byteLength cs := rfl

@[simp] theorem byteLength_append (cs ds : List Char) :
    byteLength (cs ++ ds) = byteLength cs + byteLength ds := by
  induction cs with
  | nil => simp
  | cons c cs ih => simp [ih, Nat.add_assoc]

theorem byteLength_eq_zero_iff {cs : List Char} : byteLength cs = 0 ↔ cs = [] := by
  cases cs with
  | nil => simp
  | cons c cs =>
    have := c.utf8Size_pos
    simp; omega

theorem length_le_byteLength (cs : List Char) : cs.length ≤ byteLength cs := by
  induction cs with
  | nil => exact Nat.le_refl _
  | cons c cs ih =>
    have := c.utf8Size_pos
    rw [byteLength_cons, List.length_cons]
    omega

theorem utf8Size_eq_one_iff {c : Char} : c.utf8Size = 1 ↔ c.toNat < 128 := by
  rw [Char.utf8Size_eq_one_iff, UInt32.le_iff_toNat_le]
  exact Nat.lt_succ_iff.symm

/-- As many bytes as characters are ASCII. -/
theorem byteLength_eq_length_iff {cs : List Char} :
    byteLength cs = cs.length ↔ ∀ c ∈ cs, c.toNat < 128 := by
  induction cs with
  | nil => simp
  | cons c cs ih =>
    have hle := length_le_byteLength cs
    have hpos := c.utf8Size_pos
    rw [List.forall_mem_cons, ← ih, ← utf8Size_eq_one_iff, byteLength_cons, List.length_cons]
    omega

theorem utf8ByteSize_ofList (cs : List Char) : (String.ofList cs).utf8ByteSize = byteLength cs := by
  induction cs with
  | nil => rfl
  | cons c cs ih => rw [String.ofList_cons, String.utf8ByteSize_append, ih]; simp

theorem utf8ByteSize_eq (text : String) : text.utf8ByteSize = byteLength text.toList := by
  rw [← utf8ByteSize_ofList, String.ofList_toList]

theorem byteLength_cons_eq_succ (c : Char) (cs : List Char) :
    ∃ n, byteLength (c :: cs) = n + 1 ∧ c.utf8Size ≤ n + 1 ∧ n + 1 - c.utf8Size = byteLength cs := by
  have := c.utf8Size_pos
  exact ⟨c.utf8Size + byteLength cs - 1, by rw [byteLength_cons]; omega, by omega, by omega⟩

theorem dropBytes?_append (pre rest : List Char) : dropBytes? (byteLength pre) (pre ++ rest) = some rest := by
  induction pre with
  | nil => simp [dropBytes?]
  | cons c pre ih =>
    obtain ⟨n, hn, hle, hsub⟩ := byteLength_cons_eq_succ c pre
    rw [hn, List.cons_append, dropBytes?, if_pos hle, hsub, ih]

theorem takeBytes?_append (r post : List Char) : takeBytes? (byteLength r) (r ++ post) = some r := by
  induction r with
  | nil => simp [takeBytes?]
  | cons c r ih =>
    obtain ⟨n, hn, hle, hsub⟩ := byteLength_cons_eq_succ c r
    rw [hn, List.cons_append, takeBytes?, if_pos hle, hsub, ih]
    rfl

theorem exists_of_dropBytes? {n : Nat} {cs rest : List Char} (h : dropBytes? n cs = some rest) :
    ∃ pre, cs = pre ++ rest ∧ byteLength pre = n := by
  fun_induction dropBytes? n cs with
  | case1 cs => cases h; exact ⟨[], rfl, rfl⟩
  | case2 => cases h
  | case3 n c cs hle ih =>
    obtain ⟨pre, rfl, hlen⟩ := ih h
    exact ⟨c :: pre, rfl, by rw [byteLength_cons]; omega⟩
  | case4 => cases h

theorem exists_of_takeBytes? {n : Nat} {cs r : List Char} (h : takeBytes? n cs = some r) :
    ∃ post, cs = r ++ post ∧ byteLength r = n := by
  fun_induction takeBytes? n cs generalizing r with
  | case1 cs => cases h; exact ⟨cs, rfl, rfl⟩
  | case2 => cases h
  | case3 n c cs hle ih =>
    obtain ⟨r, hr, rfl⟩ := Option.map_eq_some_iff.mp h
    obtain ⟨post, rfl, hlen⟩ := ih hr
    exact ⟨post, rfl, by rw [byteLength_cons]; omega⟩
  | case4 => cases h

/-! ## Slices -/

/-- In order, inside the text and between characters. -/
structure Span.Fits (s : Span) (text : String) : Prop where
  ordered : s.start ≤ s.stop
  inside : s.stop ≤ text.utf8ByteSize
  start_valid : String.Pos.Raw.IsValid text ⟨s.start⟩
  stop_valid : String.Pos.Raw.IsValid text ⟨s.stop⟩

theorem isValid_iff {text : String} {n : Nat} :
    String.Pos.Raw.IsValid text ⟨n⟩ ↔ ∃ pre post, text.toList = pre ++ post ∧ n = byteLength pre := by
  rw [String.Pos.Raw.isValid_iff_exists_append]
  constructor
  · rintro ⟨s₁, s₂, rfl, h⟩
    refine ⟨s₁.toList, s₂.toList, String.toList_append, ?_⟩
    rw [← utf8ByteSize_eq]
    exact congrArg String.Pos.Raw.byteIdx h
  · rintro ⟨pre, post, h, rfl⟩
    refine ⟨String.ofList pre, String.ofList post, ?_, ?_⟩
    · rw [← String.ofList_append, ← h, String.ofList_toList]
    · rw [String.Pos.Raw.ext_iff, String.byteIdx_rawEndPos, utf8ByteSize_ofList]

theorem slice?_eq_some_iff {s : Span} {text r : String} : s.slice? text = some r ↔
    ∃ pre post, text.toList = pre ++ r.toList ++ post ∧
      s = ⟨byteLength pre, byteLength pre + byteLength r.toList⟩ := by
  constructor
  · intro h
    unfold Span.slice? at h
    split at h
    · rename_i hle
      obtain ⟨r', hr, rfl⟩ := Option.map_eq_some_iff.mp h
      obtain ⟨rest, hdrop, htake⟩ := Option.bind_eq_some_iff.mp hr
      obtain ⟨pre, htext, hpre⟩ := exists_of_dropBytes? hdrop
      obtain ⟨post, rfl, hlen⟩ := exists_of_takeBytes? htake
      refine ⟨pre, post, ?_, ?_⟩
      · rw [htext, String.toList_ofList, List.append_assoc]
      · obtain ⟨start, stop⟩ := s
        simp only [Span.length] at hle hpre hlen
        simp only [String.toList_ofList, Span.mk.injEq]
        omega
    · cases h
  · rintro ⟨pre, post, htext, rfl⟩
    have hlength : Span.length ⟨byteLength pre, byteLength pre + byteLength r.toList⟩ = byteLength r.toList :=
      Nat.add_sub_cancel_left ..
    rw [Span.slice?, if_pos (Nat.le_add_right ..), hlength, htext, List.append_assoc, dropBytes?_append,
      Option.bind_some, takeBytes?_append, Option.map_some, String.ofList_toList]

theorem eq_append_of_byteLength_le {pre post pre' post' : List Char} (h : pre ++ post = pre' ++ post')
    (hle : byteLength pre ≤ byteLength pre') : ∃ mid, pre' = pre ++ mid ∧ post = mid ++ post' := by
  rcases List.append_eq_append_iff.mp h with ⟨mid, rfl, rfl⟩ | ⟨mid, rfl, rfl⟩
  · exact ⟨mid, rfl, rfl⟩
  · rw [byteLength_append] at hle
    have hmid : mid = [] := byteLength_eq_zero_iff.mp (by omega)
    exact ⟨[], by simp [hmid], by simp [hmid]⟩

theorem fits_iff_exists_slice? {s : Span} {text : String} :
    s.Fits text ↔ ∃ r, s.slice? text = some r := by
  constructor
  · rintro ⟨hle, -, hstart, hstop⟩
    obtain ⟨pre, post, htext, hpre⟩ := isValid_iff.mp hstart
    obtain ⟨pre', post', htext', hpre'⟩ := isValid_iff.mp hstop
    obtain ⟨mid, rfl, rfl⟩ := eq_append_of_byteLength_le (htext.symm.trans htext') (by omega)
    refine ⟨String.ofList mid, slice?_eq_some_iff.mpr ⟨pre, post', ?_, ?_⟩⟩
    · rw [htext, String.toList_ofList, List.append_assoc]
    · obtain ⟨start, stop⟩ := s
      rw [byteLength_append] at hpre'
      simp only [String.toList_ofList, Span.mk.injEq]
      exact ⟨hpre, hpre'⟩
  · rintro ⟨r, h⟩
    obtain ⟨pre, post, htext, rfl⟩ := slice?_eq_some_iff.mp h
    refine ⟨Nat.le_add_right .., ?_, ?_, ?_⟩
    · rw [utf8ByteSize_eq, htext, byteLength_append, byteLength_append]
      exact Nat.le_add_right ..
    · exact isValid_iff.mpr ⟨pre, r.toList ++ post, by rw [htext, List.append_assoc], rfl⟩
    · exact isValid_iff.mpr ⟨pre ++ r.toList, post, htext, (byteLength_append ..).symm⟩

end SheetFormula
