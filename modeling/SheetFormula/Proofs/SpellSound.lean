import Mathlib.Data.List.Chain
import Mathlib.Tactic.Choose
import SheetFormula.Proofs.CheckSound
import SheetFormula.Proofs.LexingLemmas

/-!
# Spellings of formulas

A spelling writes lexemes one after the other with any blanks around them. Between the lexemes of an
expression no longest match goes astray: numbers and variables are followed by a mark, a blank or
nothing. `parse_spelling`: such a text is accepted, with the lexemes for its tokens.
`spelling_of_tokenize`: a text without fault is a spelling of its tokens. `parse_ok_iff_spelling` puts
both together.
-/

namespace SheetFormula

/-! ## Expressions alternate -/

/-- An operand ends with `a` or starts with `b`, but not both. -/
def Kind.MayPrecede (a b : Kind) : Prop :=
  a.endsOperand = !b.startsOperand

structure Alternates (w : List Kind) : Prop where
  first : ∃ k ∈ w.head?, k.startsOperand = true
  last : ∃ k ∈ w.getLast?, k.endsOperand = true
  chain : w.IsChain Kind.MayPrecede

theorem Alternates.binary {u v : List Kind} (hu : Alternates u) (hv : Alternates v) (op : Operator) :
    Alternates (u ++ .operator op :: v) := by
  obtain ⟨a, ha, ha'⟩ := hu.first
  obtain ⟨b, hb, hb'⟩ := hu.last
  obtain ⟨c, hc, hc'⟩ := hv.first
  obtain ⟨d, hd, hd'⟩ := hv.last
  have hhead : a ∈ (u ++ .operator op :: v).head? := by rw [List.head?_append]; simp [Option.mem_def.mp ha]
  have hlast : d ∈ (u ++ .operator op :: v).getLast? := by
    rw [List.getLast?_append, List.getLast?_cons, Option.mem_def.mp hd]; rfl
  refine ⟨⟨a, hhead, ha'⟩, ⟨d, hlast, hd'⟩, ?_⟩
  refine hu.chain.append (hv.chain.cons ?_) ?_
  · intro y hy
    cases (Option.mem_unique hc hy)
    rw [Kind.MayPrecede, hc']; rfl
  · intro x hx y hy
    cases (Option.mem_unique hb hx)
    cases hy
    rw [Kind.MayPrecede, hb']; rfl

theorem Alternates.group {w : List Kind} (hw : Alternates w) :
    Alternates (.openParen :: w ++ [.closeParen]) := by
  obtain ⟨a, ha, ha'⟩ := hw.first
  obtain ⟨b, hb, hb'⟩ := hw.last
  refine ⟨⟨.openParen, rfl, rfl⟩, ⟨.closeParen, List.getLast?_concat, rfl⟩, ?_⟩
  refine List.IsChain.append (hw.chain.cons ?_) (List.IsChain.singleton _) ?_
  · intro y hy
    cases (Option.mem_unique ha hy)
    rw [Kind.MayPrecede, ha']; rfl
  · intro x hx y hy
    have hx' : x ∈ w.getLast? := by
      rw [List.getLast?_cons, Option.mem_def.mp hb] at hx
      rw [Option.mem_def.mp hb]; exact hx
    cases (Option.mem_unique hb hx')
    cases hy
    rw [Kind.MayPrecede, hb']; rfl

mutual
theorem IsExpr.alternates {w : List Kind} (h : IsExpr w) : Alternates w := by
  match h with
  | .operand ho => exact ho.alternates
  | .binary op hu hv => exact hu.alternates.binary hv.alternates op

theorem IsOperand.alternates {w : List Kind} (h : IsOperand w) : Alternates w := by
  match h with
  | .number => exact ⟨⟨_, rfl, rfl⟩, ⟨_, rfl, rfl⟩, .singleton _⟩
  | .var => exact ⟨⟨_, rfl, rfl⟩, ⟨_, rfl, rfl⟩, .singleton _⟩
  | .group hw => exact hw.alternates.group
end

/-! ## Spellings -/

/-- A lexeme as it is written, and the blanks after it. -/
structure Piece where
  kind : Kind
  text : List Char
  blanks : List Char

/-- The text `w₀ r₁ w₁ … rₙ wₙ` of blanks `w` and lexemes `r`. -/
structure IsSpelling (text lead : List Char) (pieces : List Piece) : Prop where
  eq : text = lead ++ pieces.flatMap fun p => p.text ++ p.blanks
  lead_blank : ∀ c ∈ lead, isBlank c = true
  blanks_blank : ∀ p ∈ pieces, ∀ c ∈ p.blanks, isBlank c = true
  lexeme : ∀ p ∈ pieces, p.kind.IsLexeme p.text

def blankLexeme (c : Char) : Lexeme :=
  ⟨.blank, [c]⟩

def Piece.lexemes (p : Piece) : List Lexeme :=
  ⟨p.kind.shape, p.text⟩ :: p.blanks.map blankLexeme

theorem lexemes_blanks {blanks : List Char} (h : ∀ c ∈ blanks, isBlank c = true) (rest : List Char) :
    lexemes (blanks ++ rest) = blanks.map blankLexeme ++ lexemes rest := by
  induction blanks with
  | nil => rfl
  | cons c blanks ih =>
    rw [List.cons_append, lexemes_blank (h c (by simp)), ih fun d hd => h d (List.mem_cons_of_mem _ hd)]
    rfl

/-- After a number or variable of an alternating spelling comes a separator or nothing. -/
theorem startsSeparated_of_chain {p : Piece} {pieces : List Piece} (hb : ∀ c ∈ p.blanks, isBlank c = true)
    (hl : ∀ q ∈ pieces, q.kind.IsLexeme q.text)
    (hc : ((p :: pieces).map Piece.kind).IsChain Kind.MayPrecede)
    (hp : p.kind.isAtom = true) :
    StartsSeparated (p.blanks ++ pieces.flatMap fun q => q.text ++ q.blanks) := by
  cases hblanks : p.blanks with
  | cons c blanks =>
    intro d hd
    cases hd
    exact isSeparator_of_blank (hb c (by simp [hblanks]))
  | nil =>
    cases pieces with
    | nil => intro d hd; cases hd
    | cons q pieces =>
      have hends : p.kind.endsOperand = true := by
        cases hk : p.kind <;> rw [hk] at hp <;> first | rfl | cases hp
      have hstarts := (List.isChain_cons_cons.mp hc).1
      rw [Kind.MayPrecede, hends] at hstarts
      have hq : q.kind.isAtom = false := by
        cases hk : q.kind <;> rw [hk] at hstarts <;> first | rfl | cases hstarts
      obtain ⟨_, c, hmark, htext⟩ := (hl q (by simp)).mark hq
      intro d hd
      rw [List.nil_append, List.flatMap_cons, htext] at hd
      cases hd
      exact isSeparator_of_mark hmark

theorem lexemes_pieces {pieces : List Piece} (hb : ∀ p ∈ pieces, ∀ c ∈ p.blanks, isBlank c = true)
    (hl : ∀ p ∈ pieces, p.kind.IsLexeme p.text)
    (hc : (pieces.map Piece.kind).IsChain Kind.MayPrecede) :
    lexemes (pieces.flatMap fun p => p.text ++ p.blanks) = pieces.flatMap Piece.lexemes := by
  induction pieces with
  | nil => simp [lexemes]
  | cons p pieces ih =>
    have hb' : ∀ q ∈ pieces, ∀ c ∈ q.blanks, isBlank c = true := fun q hq => hb q (List.mem_cons_of_mem _ hq)
    have hl' : ∀ q ∈ pieces, q.kind.IsLexeme q.text := fun q hq => hl q (List.mem_cons_of_mem _ hq)
    have hsep := startsSeparated_of_chain (hb p (by simp)) hl' hc
    rw [List.flatMap_cons, List.append_assoc, lexemes_append (hl p (by simp)) hsep,
      lexemes_blanks (hb p (by simp)), ih hb' hl' hc.tail]
    rfl

/-- A spelling that alternates is cut where its lexemes end. -/
theorem lexemes_spelling {text lead : List Char} {pieces : List Piece} (h : IsSpelling text lead pieces)
    (hc : (pieces.map Piece.kind).IsChain Kind.MayPrecede) :
    lexemes text = lead.map blankLexeme ++ pieces.flatMap Piece.lexemes := by
  rw [h.eq, lexemes_blanks h.lead_blank, lexemes_pieces h.blanks_blank h.lexeme hc]

/-! ## From spellings to formulas -/

theorem filterMap_content?_blanks (vc : VariableCase) (blanks : List Char) :
    (blanks.map blankLexeme).filterMap (Lexeme.content? vc) = [] := by
  simp [blankLexeme, content?_blank]

theorem filterMap_content?_pieces {vc : VariableCase} {texts : Piece → String} {pieces : List Piece}
    (h : ∀ p ∈ pieces, p.kind.normalText? vc p.text = some (texts p)) :
    (pieces.flatMap Piece.lexemes).filterMap (Lexeme.content? vc) = pieces.map fun p => (p.kind, texts p) := by
  induction pieces with
  | nil => rfl
  | cons p pieces ih =>
    have hp : (⟨p.kind.shape, p.text⟩ : Lexeme).content? vc = some (p.kind, texts p) := by
      rw [content?_shape, h p (by simp)]; rfl
    have hpieces := ih fun q hq => h q (List.mem_cons_of_mem _ hq)
    rw [List.flatMap_cons, List.filterMap_append, hpieces, Piece.lexemes, List.filterMap_cons, hp,
      filterMap_content?_blanks]
    rfl

/-- Spelled lexemes become the tokens, if numbers have a value. -/
theorem tokenize_spelling {vc : VariableCase} {source : String} {lead : List Char} {pieces : List Piece}
    (h : IsSpelling source.toList lead pieces)
    (hc : (pieces.map Piece.kind).IsChain Kind.MayPrecede)
    {texts : Piece → String} (ht : ∀ p ∈ pieces, p.kind.normalText? vc p.text = some (texts p)) :
    ∃ tokens, tokenize vc source = .ok tokens ∧
      tokens.map Token.content = pieces.map fun p => (p.kind, texts p) := by
  have hlex := lexemes_spelling h hc
  have hfault : (Lexing.ofSource vc source).fault = none := by
    refine (ofLexemes_fault_eq_none_iff vc 0 _).mpr ?_
    rw [hlex]
    intro l hl fault
    simp only [List.mem_append, List.mem_map, List.mem_flatMap, Piece.lexemes, List.mem_cons] at hl
    rcases hl with ⟨c, _, rfl⟩ | ⟨p, hp, rfl | ⟨c, _, rfl⟩⟩
    · exact nofun
    · have hcontent : (⟨p.kind.shape, p.text⟩ : Lexeme).content? vc = some (p.kind, texts p) := by
        rw [content?_shape, ht p hp]; rfl
      rw [read_of_content? hcontent]; exact nofun
    · exact nofun
  refine ⟨_, (tokenize_eq_ok_iff vc source _).mpr ⟨hfault, rfl⟩, ?_⟩
  rw [Lexing.ofSource, map_content_ofLexemes vc 0 _ hfault, hlex, List.filterMap_append,
    filterMap_content?_blanks, filterMap_content?_pieces ht, List.nil_append]

theorem map_kind_of_content {tokens : List Token} {contents : List (Kind × String)}
    (h : tokens.map Token.content = contents) : tokens.map Token.kind = contents.map Prod.fst := by
  rw [← h, List.map_map]; rfl

/-- A spelling of an expression is accepted. -/
theorem parse_spelling {vc : VariableCase} {source : String} {lead : List Char} {pieces : List Piece}
    (h : IsSpelling source.toList lead pieces) (he : IsExpr (pieces.map Piece.kind))
    {texts : Piece → String} (ht : ∀ p ∈ pieces, p.kind.normalText? vc p.text = some (texts p)) :
    ∃ f, Formula.parse vc source = .ok f ∧
      f.tokens.map Token.content = pieces.map fun p => (p.kind, texts p) := by
  obtain ⟨tokens, htok, hcont⟩ := tokenize_spelling h he.alternates.chain ht
  have hkinds : tokens.map Token.kind = pieces.map Piece.kind := by
    rw [map_kind_of_content hcont, List.map_map]; rfl
  have hcheck := check_of_isExpr (hkinds ▸ he) source
  exact ⟨_, parse_of_check htok hcheck, hcont⟩

/-! ## From formulas to spellings -/

theorem Formula.isExpr (f : Formula) : IsExpr (f.tokens.map Token.kind) :=
  isExpr_of_check f.checked

theorem spelling_of_lexemes {vc : VariableCase} (ls : List Lexeme)
    (hm : ∀ l ∈ ls, l.shape.Matches l.text) (hf : ∀ l ∈ ls, ∀ fault, l.read vc ≠ some (.error fault)) :
    ∃ lead pieces, IsSpelling (ls.flatMap Lexeme.text) lead pieces ∧
      (ls.filterMap (Lexeme.content? vc)).map (fun c => (c.1, some c.2)) =
        pieces.map fun p => (p.kind, p.kind.normalText? vc p.text) := by
  induction ls with
  | nil => exact ⟨[], [], ⟨rfl, nofun, nofun, nofun⟩, rfl⟩
  | cons l ls ih =>
    obtain ⟨lead, pieces, hs, heq⟩ := ih
      (fun l hl => hm l (List.mem_cons_of_mem _ hl)) (fun l hl => hf l (List.mem_cons_of_mem _ hl))
    have hml := hm l (by simp)
    cases hc : l.content? vc with
    | none =>
      -- only a blank gives neither a token nor a fault
      obtain ⟨c, hblank, htext⟩ : ∃ c, isBlank c = true ∧ l.text = [c] := by
        have hread : l.read vc = none := by
          cases hr : l.read vc with
          | none => rfl
          | some read =>
            cases read with
            | error fault => exact absurd hr (hf l (by simp) fault)
            | ok content => simp [Lexeme.content?, hr] at hc
        obtain ⟨shape, r⟩ := l
        cases shape with
        | blank => exact hml
        | _ => simp [Lexeme.read] at hread
      refine ⟨c :: lead, pieces, ⟨?_, ?_, hs.blanks_blank, hs.lexeme⟩, ?_⟩
      · rw [List.flatMap_cons, hs.eq, htext]; rfl
      · exact List.forall_mem_cons.mpr ⟨hblank, hs.lead_blank⟩
      · rw [List.filterMap_cons, hc]; exact heq
    | some content =>
      obtain ⟨k, s⟩ := content
      obtain ⟨_, hk, hnormal⟩ := isLexeme_of_content? hml hc
      refine ⟨[], ⟨k, l.text, lead⟩ :: pieces, ⟨?_, nofun, ?_, ?_⟩, ?_⟩
      · rw [List.flatMap_cons, List.flatMap_cons, hs.eq, List.nil_append, List.append_assoc]
      · exact List.forall_mem_cons.mpr ⟨hs.lead_blank, hs.blanks_blank⟩
      · exact List.forall_mem_cons.mpr ⟨hk, hs.lexeme⟩
      · simp only [List.filterMap_cons, hc, List.map_cons, heq, hnormal]

/-- A text without fault spells its tokens. -/
theorem spelling_of_tokenize {vc : VariableCase} {source : String} {tokens : List Token}
    (h : tokenize vc source = .ok tokens) :
    ∃ lead pieces, IsSpelling source.toList lead pieces ∧
      tokens.map (fun t => (t.kind, some t.text)) =
        pieces.map fun p => (p.kind, p.kind.normalText? vc p.text) := by
  obtain ⟨hf, _⟩ := (tokenize_eq_ok_iff vc source tokens).mp h
  obtain ⟨lead, pieces, hs, heq⟩ := spelling_of_lexemes (lexemes source.toList) (lexemes_matches _)
    ((ofLexemes_fault_eq_none_iff vc 0 _).mp hf)
  rw [flatMap_text_lexemes] at hs
  rw [← map_content_tokenize h, List.map_map] at heq
  exact ⟨lead, pieces, hs, heq⟩

/-! ## The texts of formulas -/

/-- The text denotes a finite double. -/
def HasFiniteValue (r : List Char) : Prop :=
  ∃ negative rank, readDouble? (String.ofList r) = some (.finite negative rank)

theorem hasFiniteValue_iff {r : List Char} (vc : VariableCase) :
    HasFiniteValue r ↔ ∃ s, Kind.number.normalText? vc r = some s := by
  simp only [normalText?_number_eq_some_iff, normalizeNumber_eq_ok_iff]
  constructor
  · rintro ⟨negative, rank, h⟩; exact ⟨_, negative, rank, h, rfl⟩
  · rintro ⟨_, negative, rank, h, _⟩; exact ⟨negative, rank, h⟩

/-- **The formulas are the spelled expressions.** A source is accepted exactly if it is blanks and lexemes
whose kinds form an expression and whose numbers are finite, however it has been cut up. -/
theorem parse_ok_iff_spelling (vc : VariableCase) (source : String) :
    (∃ f, Formula.parse vc source = .ok f) ↔
      ∃ lead pieces, pieces ≠ [] ∧ IsSpelling source.toList lead pieces ∧
        (∀ p ∈ pieces, p.kind = .number → HasFiniteValue p.text) ∧ IsExpr (pieces.map Piece.kind) := by
  constructor
  · rintro ⟨f, hf⟩
    obtain ⟨htok, -, -⟩ := (parse_eq_ok_iff vc source f).mp hf
    obtain ⟨lead, pieces, hs, heq⟩ := spelling_of_tokenize htok
    have hkinds : f.tokens.map Token.kind = pieces.map Piece.kind := by
      have := congrArg (List.map Prod.fst) heq
      simpa [List.map_map, Function.comp_def] using this
    have he : IsExpr (pieces.map Piece.kind) := hkinds ▸ f.isExpr
    refine ⟨lead, pieces, ?_, hs, ?_, he⟩
    · rintro rfl
      obtain ⟨k, hk, _⟩ := he.alternates.first
      cases hk
    · intro p hp hnum
      have hmem : (p.kind, p.kind.normalText? vc p.text) ∈
          pieces.map fun p => (p.kind, p.kind.normalText? vc p.text) := List.mem_map_of_mem hp
      rw [← heq, List.mem_map] at hmem
      obtain ⟨t, _, ht⟩ := hmem
      refine (hasFiniteValue_iff vc).mpr ⟨t.text, ?_⟩
      rw [← hnum]; exact (Prod.ext_iff.mp ht).2.symm
  · rintro ⟨lead, pieces, _, hs, hfinite, he⟩
    have hnormal : ∀ p ∈ pieces, ∃ s, p.kind.normalText? vc p.text = some s := by
      intro p hp
      cases hk : p.kind with
      | number => exact (hasFiniteValue_iff vc).mp (hfinite p hp hk)
      | _ => exact ⟨_, rfl⟩
    choose! texts htexts using hnormal
    obtain ⟨f, hf, _⟩ := parse_spelling hs he htexts
    exact ⟨f, hf⟩

end SheetFormula
