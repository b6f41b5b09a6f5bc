import SheetFormula.Formula

/-!
# Catalogs of formulas

A catalog takes sources one after the other and keeps the distinct formulas among them.
-/

namespace SheetFormula

structure Catalog where
  /-- The number of sources so far. -/
  steps : Nat
  /-- Every accepted formula with the number of its step. -/
  accepted : List (Nat × Formula)
  distinct : List Formula
  variableNames : List String

/-- What adding a source reports. -/
inductive Entry where
  | accepted (formula : Formula) (equalTo : List Nat) (isNew : Bool)
  | rejected (rejection : Rejection)

namespace Catalog

def empty : Catalog :=
  ⟨0, [], [], []⟩

def size (c : Catalog) : Nat :=
  c.distinct.length

/-- The earlier steps that gave a formula equal to `f`. -/
def equalTo (c : Catalog) (f : Formula) : List Nat :=
  (c.accepted.filter fun p => p.2 == f).map Prod.fst

def insert (c : Catalog) (f : Formula) : Catalog where
  steps := c.steps + 1
  accepted := c.accepted ++ [(c.steps, f)]
  distinct := if c.distinct.contains f then c.distinct else c.distinct ++ [f]
  variableNames := sortedNames (c.variableNames ++ f.variableNames)

def add (c : Catalog) (vc : VariableCase) (source : String) : Catalog × Entry :=
  match Formula.parse vc source with
  | .ok f => (c.insert f, .accepted f (c.equalTo f) (!c.distinct.contains f))
  | .error r => ({ c with steps := c.steps + 1 }, .rejected r)

end Catalog

end SheetFormula
