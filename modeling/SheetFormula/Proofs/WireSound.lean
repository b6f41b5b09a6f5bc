import SheetFormula.Proofs.CaseLemmas
import SheetFormula.Wire.Packet

/-!
# Formulas travel as bytes

A length is read back from the bytes it was written as, whatever follows them, and from no shorter
beginning of them (`IsVarint.read`, `IsVarint.read_truncated`). With the text behind it this gives the same
of texts, and since a normalized text is a formula again, of formulas: `ofBytes_toBytes`.
-/

namespace SheetFormula

/-! ## Lengths -/

/-- Seven bits to a byte, the lowest first; every byte but the last has its high bit set, and a last byte
that is not the only one is not zero. -/
inductive IsVarint : Nat → List UInt8 → Prop
  | last {b : UInt8} : b.toNat < 128 → IsVarint b.toNat [b]
  | more {b : UInt8} {n : Nat} {bs : List UInt8} : 128 ≤ b.toNat → 0 < n → IsVarint n bs →
      IsVarint (b.toNat - 128 + 128 * n) (b :: bs)

theorem toNat_toUInt8 {n : Nat} (h : n < 256) : n.toUInt8.toNat = n := by
  simp [Nat.mod_eq_of_lt h]

theorem isVarint_writeVarint (n : Nat) : IsVarint n (writeVarint n) := by
  fun_induction writeVarint n with
  | case1 n h =>
    have hb := toNat_toUInt8 (show n < 256 by omega)
    have := IsVarint.last (b := n.toUInt8) (by omega)
    rwa [hb] at this
  | case2 n h ih =>
    have hb := toNat_toUInt8 (show n % 128 + 128 < 256 by omega)
    have := IsVarint.more (b := (n % 128 + 128).toUInt8) (by omega) (by omega) ih
    rwa [hb, show n % 128 + 128 - 128 + 128 * (n / 128) = n by omega] at this

theorem lt_of_more {b n more : Nat} (h : b + 128 * n < 2 * 128 ^ (more + 1)) : n < 2 * 128 ^ more := by
  rw [Nat.pow_succ] at h
  omega

theorem IsVarint.read {n : Nat} {bs : List UInt8} (h : IsVarint n bs) (more : Nat) (hn : n < 2 * 128 ^ more)
    (rest : List UInt8) : readVarint more (bs ++ rest) = .ok (n, rest) := by
  induction h generalizing more with
  | @last b hb =>
    cases more with
    | zero => simp [readVarint, show b.toNat ≤ 1 by simp at hn; omega]
    | succ more => simp [readVarint, hb]
  | @more b n bs hb hpos _ ih =>
    cases more with
    | zero => simp at hn; omega
    | succ more =>
      have hrest := ih more (lt_of_more hn)
      simp [readVarint, show ¬ b.toNat < 128 by omega, hrest, Except.map]

theorem IsVarint.read_tooLong {n : Nat} {bs : List UInt8} (h : IsVarint n bs) (more : Nat)
    (hn : 2 * 128 ^ more ≤ n) (rest : List UInt8) : readVarint more (bs ++ rest) = .error .tooLong := by
  induction h generalizing more with
  | @last b hb =>
    cases more with
    | zero => simp [readVarint, show ¬ b.toNat ≤ 1 by simp at hn; omega]
    | succ more =>
      have := Nat.pos_of_ne_zero (show 128 ^ more ≠ 0 by simp)
      rw [Nat.pow_succ] at hn
      omega
  | @more b n bs hb hpos _ ih =>
    cases more with
    | zero => simp [readVarint, show ¬ b.toNat ≤ 1 by omega]
    | succ more =>
      have hrest := ih more (by rw [Nat.pow_succ] at hn; have := b.toNat_lt; omega)
      simp [readVarint, show ¬ b.toNat < 128 by omega, hrest, Except.map]

theorem readVarint_nil (more : Nat) : readVarint more [] = .error .unexpectedEnd := by
  cases more <;> rfl

theorem IsVarint.read_truncated {n : Nat} {bs : List UInt8} (h : IsVarint n bs) (more : Nat)
    (hn : n < 2 * 128 ^ more) {p : List UInt8} (hp : p <+: bs) (hne : p ≠ bs) :
    readVarint more p = .error .unexpectedEnd := by
  induction h generalizing more p with
  | @last b hb =>
    cases p with
    | nil => exact readVarint_nil more
    | cons c p =>
      obtain ⟨rfl, hp'⟩ := List.cons_prefix_cons.mp hp
      rw [List.prefix_nil.mp hp'] at hne
      exact absurd rfl hne
  | @more b n bs hb hpos _ ih =>
    cases p with
    | nil => exact readVarint_nil more
    | cons c p =>
      obtain ⟨rfl, hp'⟩ := List.cons_prefix_cons.mp hp
      cases more with
      | zero => simp at hn; omega
      | succ more =>
        have hrest := ih more (lt_of_more hn) hp' fun heq => hne (heq ▸ rfl)
        simp [readVarint, show ¬ c.toNat < 128 by omega, hrest, Except.map]

/-! ## Texts -/

theorem toByteArray_utf8Bytes (text : String) : (utf8Bytes text).toByteArray = text.toUTF8 := by
  rw [utf8Bytes, ← List.utf8Encode, String.utf8Encode_toList]
  rfl

theorem utf8Bytes_eq (text : String) : utf8Bytes text = text.toUTF8.data.toList := by
  rw [← toByteArray_utf8Bytes, List.data_toByteArray]

theorem length_utf8Bytes (text : String) : (utf8Bytes text).length = text.utf8ByteSize := by
  rw [← List.size_toByteArray, toByteArray_utf8Bytes, String.toUTF8_eq_toByteArray, String.size_toByteArray]

theorem utf8Text?_utf8Bytes (text : String) : utf8Text? (utf8Bytes text) = some text := by
  rw [utf8Text?, toByteArray_utf8Bytes, String.toUTF8_eq_toByteArray, String.fromUTF8?,
    dif_pos text.isValidUTF8]
  rfl

theorem writeText_eq (text : String) : writeText text = writeVarint text.utf8ByteSize ++ utf8Bytes text := by
  rw [writeText, length_utf8Bytes]

section
variable {text : String}

theorem readText_writeText (h : text.utf8ByteSize < 2 ^ 64) (rest : List UInt8) :
    readText (writeText text ++ rest) = .ok text := by
  have hread := (isVarint_writeVarint text.utf8ByteSize).read 9 (by omega) (utf8Bytes text ++ rest)
  have htake : (utf8Bytes text ++ rest).take text.utf8ByteSize = utf8Bytes text := by
    rw [← length_utf8Bytes, List.take_left]
  have hlength : ¬ (utf8Bytes text ++ rest).length < text.utf8ByteSize := by
    rw [List.length_append, length_utf8Bytes]; omega
  unfold readText
  rw [writeText_eq, List.append_assoc, hread]
  simp only [hlength, ite_false, htake, utf8Text?_utf8Bytes]

theorem readText_oversized (h : 2 ^ 64 ≤ text.utf8ByteSize) (rest : List UInt8) :
    readText (writeText text ++ rest) = .error .badLength := by
  have hread := (isVarint_writeVarint text.utf8ByteSize).read_tooLong 9 (by omega)
    (utf8Bytes text ++ rest)
  unfold readText
  rw [writeText_eq, List.append_assoc, hread]

-- the bytes end inside the length, or behind it and inside the text
theorem readText_truncated (h : text.utf8ByteSize < 2 ^ 64) {p : List UInt8} (hp : p <+: writeText text)
    (hne : p ≠ writeText text) : readText p = .error .unexpectedEnd := by
  have hvarint := isVarint_writeVarint text.utf8ByteSize
  rw [writeText_eq] at hp hne
  unfold readText
  by_cases hlength : p <+: writeVarint text.utf8ByteSize ∧ p ≠ writeVarint text.utf8ByteSize
  · rw [hvarint.read_truncated 9 (by omega) hlength.1 hlength.2]
  · obtain ⟨q, rfl⟩ : writeVarint text.utf8ByteSize <+: p := by
      rcases List.prefix_or_prefix_of_prefix hp (List.prefix_append _ _) with h' | h'
      · rw [not_and, not_not] at hlength
        rw [hlength h']
      · exact h'
    have hq : q <+: utf8Bytes text := (List.prefix_append_right_inj _).mp hp
    have hshort : q.length < text.utf8ByteSize := by
      rw [← length_utf8Bytes]
      refine lt_of_le_of_ne hq.length_le fun heq => hne ?_
      rw [hq.eq_of_length heq]
    rw [hvarint.read 9 (by omega)]
    simp only [hshort, ite_true]

end

/-! ## Formulas -/

theorem ofBytes_eq {bytes : List UInt8} {text : String} (h : readText bytes = .ok text) {g : Formula}
    (hg : Formula.parse .upper text = .ok g) : Formula.ofBytes bytes = .ok g := by
  simp only [Formula.ofBytes, h, hg]

/-- A normalized text is read with its letters in upper case. -/
theorem parse_upper_normalized (f : Formula) :
    ∃ g, Formula.parse .upper f.normalized = .ok g ∧ g.normalized = upperText f.normalized ∧
      g.tokens.map Token.kind = f.tokens.map Token.kind := by
  obtain ⟨g, hg, hcontent⟩ := parse_normalized f .upper
  refine ⟨g, hg, ?_, ?_⟩
  · apply normalized_eq_upperText
    have htexts := congrArg (List.map Prod.snd) hcontent
    simp only [List.map_map] at htexts
    refine htexts.trans (List.map_congr_left fun t ht => ?_)
    obtain ⟨_, r, hr, hs⟩ := f.exists_isLexeme ht
    exact recase_upper hr hs
  · have hkinds := congrArg (List.map Prod.fst) hcontent
    rwa [List.map_map, List.map_map] at hkinds

theorem upperText_normalized {source : String} {f : Formula} (h : Formula.parse .upper source = .ok f) :
    upperText f.normalized = f.normalized := by
  obtain ⟨htok, -, -⟩ := (parse_eq_ok_iff .upper source f).mp h
  refine (normalized_eq_upperText (List.map_congr_left fun t ht => ?_)).symm
  obtain ⟨r, hr, hs⟩ := isLexeme_of_mem_tokenize htok ht
  rw [← recase_upper hr hs, recase_normalText hs]

/-- What becomes of a formula that is sent as bytes. -/
structure Formula.Travels (f : Formula) : Prop where
  layout : ∃ length, IsVarint f.normalized.utf8ByteSize length ∧
    f.toBytes = length ++ f.normalized.toUTF8.data.toList
  arrives : ∀ rest, ∃ g, Formula.ofBytes (f.toBytes ++ rest) = .ok g ∧ g.source = f.normalized ∧
    g.normalized = upperText f.normalized ∧ g.tokens.map Token.kind = f.tokens.map Token.kind ∧
    ((g == f) = true ↔ ∀ c ∈ f.normalized.toList, c.isLower = false) ∧
    ∀ source, Formula.parse .upper source = .ok f → (g == f) = true
  truncated : ∀ bytes, bytes <+: f.toBytes → bytes ≠ f.toBytes →
    Formula.ofBytes bytes = .error .unexpectedEnd

section
variable {f : Formula}

-- a length of more than 64 bits is written, but not read
theorem ofBytes_toBytes_oversized (h : 2 ^ 64 ≤ f.normalized.utf8ByteSize) (rest : List UInt8) :
    Formula.ofBytes (f.toBytes ++ rest) = .error .badLength := by
  simp only [Formula.ofBytes, Formula.toBytes, readText_oversized h]

/-- **Formulas travel.** Lengths are 64-bit words, and every text that fits in memory has one; for longer
ones see `ofBytes_toBytes_oversized`. -/
theorem ofBytes_toBytes (hfit : f.normalized.utf8ByteSize < 2 ^ 64) : f.Travels := by
  refine ⟨?_, fun rest => ?_, fun bytes hp hne => ?_⟩
  · refine ⟨_, isVarint_writeVarint _, ?_⟩
    rw [Formula.toBytes, writeText_eq, utf8Bytes_eq]
  · obtain ⟨g, hg, hnormalized, hkinds⟩ := parse_upper_normalized f
    obtain ⟨-, -, hsource⟩ := (parse_eq_ok_iff ..).mp hg
    refine ⟨g, ofBytes_eq (readText_writeText hfit rest) hg, hsource, hnormalized, hkinds, ?_, ?_⟩
    · rw [beq_eq_true_iff, hnormalized, upperText_eq_self_iff]
    · intro source h
      rw [beq_eq_true_iff, hnormalized, upperText_normalized h]
  · simp only [Formula.ofBytes, readText_truncated hfit hp hne]

end

theorem ofBytes_toBytes_preserved : ∃ f, Formula.parse .preserve "a1 + 2e3" = .ok f ∧
    f.toBytes = [7, 97, 49, 43, 50, 48, 48, 48] ∧ f.Travels := by
  have htok : tokenize .preserve "a1 + 2e3" = .ok
      [⟨.var, "a1", ⟨0, 2⟩⟩, ⟨.operator .add, "+", ⟨3, 4⟩⟩, ⟨.number, "2000", ⟨5, 8⟩⟩] :=
    (tokenize_eq_ok_iff ..).mpr ⟨by decide +kernel, by decide +kernel⟩
  obtain ⟨f, hf, htokens⟩ := exists_formula htok rfl
  have hnormalized : f.normalized = "a1+2000" := by
    rw [Formula.normalized, htokens]
    decide +kernel
  refine ⟨f, hf, ?_, ofBytes_toBytes ?_⟩
  · rw [Formula.toBytes, hnormalized]
    decide +kernel
  · rw [hnormalized]
    decide +kernel

end SheetFormula
