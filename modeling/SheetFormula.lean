import SheetFormula.Catalog
import SheetFormula.Main
import SheetFormula.Proofs.ApartSound
import SheetFormula.Proofs.ArgumentSound
import SheetFormula.Proofs.BoundarySound
import SheetFormula.Proofs.CaseSound
import SheetFormula.Proofs.CatalogSound
import SheetFormula.Proofs.ComposeSound
import SheetFormula.Proofs.DrawingSound
import SheetFormula.Proofs.ExactSound
import SheetFormula.Proofs.GridLemmas
import SheetFormula.Proofs.LocationSound
import SheetFormula.Proofs.LongestSound
import SheetFormula.Proofs.NearestLemmas
import SheetFormula.Proofs.PlaceSound
import SheetFormula.Proofs.PrefixSound
import SheetFormula.Proofs.ShortestSound
import SheetFormula.Proofs.SpacingSound
import SheetFormula.Proofs.TraceSound
import SheetFormula.Proofs.UnclosedSound
import SheetFormula.Proofs.ValueSound
import SheetFormula.Proofs.WireSound
import SheetFormula.Trace
import SheetFormula.Wire.Value
