import Mathlib
import SheetFormula.Catalog
import SheetFormula.Proofs.NameLemmas
import SheetFormula.Proofs.NormalSound

/-!
# What a catalog collects

A catalog compares normalized texts and nothing else. After any steps it holds each normalized text of the
accepted ones once (`ofSteps_holds`), and a normalized text stands for one sequence of tokens. So sizes and
reports count token sequences, in whatever order the steps were taken: `ofSteps_collects`.
-/

namespace SheetFormula

/-! ## Steps -/

structure Step where
  variableCase : VariableCase
  source : String
deriving DecidableEq

def Step.formula? (s : Step) : Option Formula :=
  (Formula.parse s.variableCase s.source).toOption

/-- The formulas of the accepted steps. -/
def formulas (steps : List Step) : List Formula :=
  steps.filterMap Step.formula?

namespace Catalog

def next (c : Catalog) (s : Step) : Catalog :=
  (c.add s.variableCase s.source).1

def ofSteps (steps : List Step) : Catalog :=
  steps.foldl next empty

end Catalog

/-! ## Normalized texts of a catalog -/

def texts (fs : List Formula) : List String :=
  fs.map Formula.normalized

theorem contains_iff {fs : List Formula} {f : Formula} :
    fs.contains f = true ↔ f.normalized ∈ texts fs := by
  simp only [texts, List.contains_iff_exists_mem_beq, beq_eq_true_iff, List.mem_map, @eq_comm _ f.normalized]

/-- The catalog has the normalized texts of `fs`, each once, and their variables. -/
structure Catalog.Holds (c : Catalog) (fs : List Formula) : Prop where
  nodup : (texts c.distinct).Nodup
  mem_iff : ∀ text, text ∈ texts c.distinct ↔ text ∈ texts fs
  names : c.variableNames = sortedNames (fs.flatMap Formula.variableNames)

section
variable {c : Catalog} {fs : List Formula}

theorem Catalog.Holds.insert (h : c.Holds fs) (f : Formula) : (c.insert f).Holds (fs ++ [f]) := by
  have hnames : (c.insert f).variableNames = sortedNames ((fs ++ [f]).flatMap Formula.variableNames) := by
    unfold Catalog.insert
    apply sortedNames_congr
    simp [h.names]
  by_cases hf : f.normalized ∈ texts c.distinct
  · have hdistinct : (c.insert f).distinct = c.distinct := by
      simp [Catalog.insert, contains_iff.mpr hf]
    refine ⟨by rw [hdistinct]; exact h.nodup, fun text => ?_, hnames⟩
    rw [hdistinct, h.mem_iff text]
    rw [h.mem_iff] at hf
    simp only [texts, List.map_append, List.map_cons, List.map_nil, List.mem_append, List.mem_singleton]
    exact ⟨.inl, fun ht => ht.elim id fun ht => ht ▸ hf⟩
  · have hdistinct : (c.insert f).distinct = c.distinct ++ [f] := by
      simp [Catalog.insert, mt contains_iff.mp hf]
    refine ⟨?_, fun text => ?_, hnames⟩
    · rw [hdistinct, texts, List.map_append]
      exact h.nodup.append (List.nodup_singleton _) (by simpa using hf)
    · have := h.mem_iff text
      simp only [texts] at this
      simp [hdistinct, texts, this]

theorem Catalog.Holds.next (h : c.Holds fs) (s : Step) : (c.next s).Holds (fs ++ s.formula?.toList) := by
  unfold Catalog.next Catalog.add Step.formula?
  cases Formula.parse s.variableCase s.source with
  | ok f => exact h.insert f
  | error r =>
    refine ⟨h.nodup, fun text => ?_, ?_⟩
    · simpa [Except.toOption] using h.mem_iff text
    · simpa [Except.toOption] using h.names

end

theorem ofSteps_holds (steps : List Step) : (Catalog.ofSteps steps).Holds (formulas steps) := by
  induction steps using List.reverseRecOn with
  | nil => exact ⟨.nil, fun _ => Iff.rfl, rfl⟩
  | append_singleton steps s ih =>
    have hformulas : formulas (steps ++ [s]) = formulas steps ++ s.formula?.toList := by
      unfold formulas
      cases hs : s.formula? <;> simp [hs]
    unfold Catalog.ofSteps at ih ⊢
    rw [List.foldl_append, hformulas]
    exact ih.next s

theorem Catalog.Holds.size_eq {c : Catalog} {fs : List Formula} (h : c.Holds fs) :
    c.size = (texts fs).toFinset.card := by
  have hset : (texts fs).toFinset = (texts c.distinct).toFinset := by
    ext text
    simp [h.mem_iff text]
  rw [hset, List.toFinset_card_of_nodup h.nodup, texts, List.length_map, Catalog.size]

/-! ## Hashed formulas -/

instance : Hashable Formula :=
  ⟨fun f => hash f.normalized⟩

instance : EquivBEq Formula where
  rfl := (beq_eq_true_iff ..).mpr rfl
  symm h := (beq_eq_true_iff ..).mpr ((beq_eq_true_iff ..).mp h).symm
  trans h h' := (beq_eq_true_iff ..).mpr (((beq_eq_true_iff ..).mp h).trans ((beq_eq_true_iff ..).mp h'))

instance : LawfulHashable Formula where
  hash_eq f g h := congrArg (hash : String → UInt64) ((beq_eq_true_iff f g).mp h)

/-- The set that the formulas make up when each is looked for under its hash only. -/
def hashed (fs : List Formula) : Std.HashSet Formula :=
  fs.foldl Std.HashSet.insert ∅

theorem contains_hashed (fs : List Formula) (f : Formula) :
    (hashed fs).contains f = true ↔ f.normalized ∈ texts fs := by
  induction fs using List.reverseRecOn with
  | nil => simp [hashed, texts]
  | append_singleton fs g ih =>
    unfold hashed texts at ih ⊢
    rw [List.foldl_append, List.foldl_cons, List.foldl_nil, Std.HashSet.contains_insert, Bool.or_eq_true, ih]
    simp only [beq_eq_true_iff, List.map_append, List.map_cons, List.map_nil, List.mem_append,
      List.mem_singleton, @eq_comm _ f.normalized]
    exact or_comm

theorem size_hashed (fs : List Formula) : (hashed fs).size = (texts fs).toFinset.card := by
  induction fs using List.reverseRecOn with
  | nil => rfl
  | append_singleton fs g ih =>
    have hmem : g ∈ hashed fs ↔ g.normalized ∈ (texts fs).toFinset := by
      rw [← Std.HashSet.contains_iff_mem, contains_hashed, List.mem_toFinset]
    have htexts : (texts (fs ++ [g])).toFinset = insert g.normalized (texts fs).toFinset := by
      ext text
      simp [texts]
    have hstep : hashed (fs ++ [g]) = (hashed fs).insert g := by simp [hashed]
    rw [hstep, Std.HashSet.size_insert, htexts, Finset.card_insert_eq_ite, ih]
    by_cases hg : g.normalized ∈ (texts fs).toFinset
    · rw [if_pos hg, if_pos (hmem.mpr hg)]
    · rw [if_neg hg, if_neg (mt hmem.mp hg)]

/-! ## Token sequences -/

/-- What the tokens say, wherever they stand. -/
def Formula.contents (f : Formula) : List (Kind × String) :=
  f.tokens.map Token.content

/-- Accepted steps have as many normalized texts as token sequences. -/
theorem card_texts (steps : List Step) :
    (texts (formulas steps)).toFinset.card = ((formulas steps).map Formula.contents).toFinset.card := by
  let join : List (Kind × String) → String := fun w => String.ofList (w.flatMap fun c => c.2.toList)
  have hjoin : ∀ f : Formula, f.normalized = join f.contents := by
    intro f
    simp only [join, Formula.contents, List.flatMap_map]
    rfl
  have himage : (texts (formulas steps)).toFinset =
      ((formulas steps).map Formula.contents).toFinset.image join := by
    ext text
    simp [texts, hjoin]
  rw [himage]
  apply Finset.card_image_of_injOn
  intro u hu v hv huv
  simp only [List.coe_toFinset, List.mem_map, Set.mem_ofPred_eq] at hu hv
  obtain ⟨f, -, rfl⟩ := hu
  obtain ⟨g, -, rfl⟩ := hv
  simp only [← hjoin] at huv
  exact content_eq_of_normalized huv

/-! ## Reports -/

/-- What a catalog says after the steps, and of the step after them. -/
structure Collects (steps : List Step) : Prop where
  accepted : ∀ vc source f, Formula.parse vc source = .ok f → ∃ equalTo isNew,
    ((Catalog.ofSteps steps).add vc source).2 = .accepted f equalTo isNew ∧
      (isNew = true ↔ ∀ g ∈ formulas steps, g.sameTokens f = false)
  rejected : ∀ vc source r, Formula.parse vc source = .error r →
    ((Catalog.ofSteps steps).add vc source).2 = .rejected r ∧
      ((Catalog.ofSteps steps).add vc source).1.size = (Catalog.ofSteps steps).size ∧
      ((Catalog.ofSteps steps).add vc source).1.variableNames = (Catalog.ofSteps steps).variableNames
  size : (Catalog.ofSteps steps).size = ((formulas steps).map Formula.contents).toFinset.card
  sorted : (Catalog.ofSteps steps).variableNames.Pairwise (· < ·)
  names : ∀ name, name ∈ (Catalog.ofSteps steps).variableNames ↔ ∃ f ∈ formulas steps, name ∈ f.variableNames
  reordered : ∀ steps', steps.Perm steps' → (Catalog.ofSteps steps').size = (Catalog.ofSteps steps).size ∧
    (Catalog.ofSteps steps').variableNames = (Catalog.ofSteps steps).variableNames
  hashed : (hashed (formulas steps)).size = (Catalog.ofSteps steps).size ∧
    ∀ f, (hashed (formulas steps)).contains f = (Catalog.ofSteps steps).distinct.contains f

/-- **Catalogs collect token sequences.** A step is new if no earlier one has the same tokens, the size is
the number of token sequences so far, and only the steps taken matter, not their order. -/
theorem ofSteps_collects (steps : List Step) : Collects steps := by
  have h := ofSteps_holds steps
  have hcontains : ∀ f, (Catalog.ofSteps steps).distinct.contains f = true ↔ f.normalized ∈ texts (formulas steps) :=
    fun f => contains_iff.trans (h.mem_iff _)
  refine ⟨fun vc source f hf => ?_, fun vc source r hr => ?_, ?_, ?_, fun name => ?_, fun steps' hp => ?_,
    ?_, fun f => ?_⟩
  · refine ⟨_, _, by simp only [Catalog.add, hf]; rfl, ?_⟩
    rw [Bool.not_eq_true', ← Bool.not_eq_true, hcontains, texts, List.mem_map]
    push Not
    refine forall₂_congr fun g _ => ?_
    rw [Ne, normalized_eq_iff_sameTokens, Bool.not_eq_true]
  · simp [Catalog.add, hr, Catalog.size]
  · rw [h.size_eq, card_texts]
  · rw [h.names]; exact pairwise_sortedNames _
  · rw [h.names, mem_sortedNames, List.mem_flatMap]
  · have hperm : (formulas steps').Perm (formulas steps) := (hp.filterMap _).symm
    have h' := ofSteps_holds steps'
    rw [h.size_eq, h'.size_eq, h.names, h'.names]
    refine ⟨?_, ?_⟩
    · unfold texts
      rw [List.toFinset_eq_of_perm _ _ (hperm.map Formula.normalized)]
    · exact sortedNames_congr fun name => (hperm.flatMap_right _).mem_iff
  · rw [size_hashed, h.size_eq]
  · rw [Bool.eq_iff_iff, contains_hashed, hcontains]

-- the second step spells the first one differently, the third is rejected
example : (Catalog.ofSteps [⟨.upper, "x1 + 2.0"⟩, ⟨.preserve, "X1+2"⟩, ⟨.upper, "x1 +"⟩,
    ⟨.preserve, "x1+2"⟩]).size = 2 := by decide +kernel

end SheetFormula
