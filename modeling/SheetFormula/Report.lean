import SheetFormula.Diagnostic
import SheetFormula.Text.Position

/-!
# Drawn reports

A report shows the source with an arrow for each label. Spans are placed by counting characters where
their offsets count bytes, so location and arrows are off after characters of several bytes. The drawing
is defined for sources of tabs and printable ASCII, which are a single line.
-/

namespace SheetFormula

/-! ## Header and location -/

def Diagnostic.header (d : Diagnostic) : String :=
  s!"[{d.code}] Error: {d.message}"

/-- Where a report points; the start of a span may be past the source. -/
inductive Location where
  | known (position : Position)
  | unknown
deriving DecidableEq

def Location.text : Location → String
  | .known p => s!"{p.line}:{p.column}"
  | .unknown => "?:?"

/-- Whether a span can be placed in a source of `n` characters. -/
def Span.survives (n : Nat) (s : Span) : Bool :=
  s.start ≤ n && (s.stop ≤ s.start || s.stop - 1 ≤ n)

/-- The location of the primary span, unless no span can be placed. -/
def Diagnostic.location? (d : Diagnostic) (source : String) : Option Location :=
  let n := source.toList.length
  let start := d.span.start
  if d.labels.any fun l => l.span.survives n then
    some (if start ≤ n then .known (Position.ofOffset source.toList start) else .unknown)
  else
    none

/-! ## Cells -/

/-- Tabs and printable ASCII. -/
def isDrawable (source : String) : Bool :=
  source.toList.all fun c => c == '\t' || (0x20 ≤ c.toNat && c.toNat ≤ 0x7E)

/-- Without the blanks at the end. -/
def trimEnd (cs : List Char) : List Char :=
  (cs.reverse.dropWhile fun c => c == ' ' || c == '\t').reverse

/-- The width of a tab at character index `i`. -/
def tabWidth (i : Nat) : Nat :=
  (i / 4 + 1) * 4 - i

/-- The source line with its tabs filled up. -/
def expandTabs (cs : List Char) : List Char :=
  cs.zipIdx.flatMap fun p => if p.1 = '\t' then List.replicate (tabWidth p.2) ' ' else [p.1]

/-- The width of column `i` under the line `cs`. -/
def columnWidth (cs : List Char) (i : Nat) : Nat :=
  if cs[i]? = some '\t' then tabWidth i else 1

/-- A row of `n` columns, each one its first character and then its fill. -/
def drawRow (cs : List Char) (n : Nat) (cell : Nat → Char × Char) : List Char :=
  (List.range n).flatMap fun i =>
    (cell i).1 :: List.replicate (columnWidth cs i - 1) (cell i).2

/-! ## Arrows -/

namespace Label

/-- The column where the label's arrow starts. -/
def column (l : Label) : Nat :=
  (l.span.start + l.span.stop) / 2

def covers (l : Label) (i : Nat) : Bool :=
  l.span.start ≤ i && i < l.span.stop

end Label

/-- The labels from left to right by their columns. -/
def Diagnostic.sortedLabels (d : Diagnostic) : List Label :=
  d.labels.mergeSort fun l m => l.column ≤ m.column

/-- The row above the message of the first of `labels`: the arrows that go on below, and the spans of
`underlined`. -/
def markerCell (labels underlined : List Label) (i : Nat) : Char × Char :=
  match labels.any fun l => l.column == i, underlined.any fun l => l.covers i with
  | true, true => ('┬', '─')
  | true, false => ('│', ' ')
  | false, true => ('─', '─')
  | false, false => (' ', ' ')

/-- The row of a label's message: the corner of its arrow and the line to the message. -/
def cornerCell (l : Label) (i : Nat) : Char × Char :=
  if i = l.column then ('╰', '─') else if l.column < i then ('─', '─') else (' ', ' ')

/-- Two rows for each label; only the first row of all underlines the spans. -/
def arrowRows (cs : List Char) (n : Nat) : List Label → List Label → List (List Char)
  | _, [] => []
  | underlined, l :: rest =>
    drawRow cs n (markerCell (l :: rest) underlined)
      :: (drawRow cs n (cornerCell l) ++ ' ' :: l.message.toList)
      :: arrowRows cs n [] rest

/-- Two columns more than the labels reach. -/
def rowLength (labels : List Label) : Nat :=
  (labels.map fun l => l.span.stop).foldl max 0 + 2

/-! ## Reports -/

/-- The lines of the drawn report. -/
def Diagnostic.drawing (d : Diagnostic) (source : String) (location : Location) : List String :=
  let line := trimEnd source.toList
  let labels := d.sortedLabels
  let rows := arrowRows line (rowLength labels) labels labels
  [d.header, s!"   ╭─[ <formula>:{location.text} ]", "   │",
      " 1 │ " ++ String.ofList (expandTabs line)]
    ++ rows.map (fun row => "   │ " ++ String.ofList row)
    ++ ["   │ ", s!"   │ Help: {d.help}", "───╯"]

/-- The lines of the report, where it can be drawn. -/
def Diagnostic.report? (d : Diagnostic) (source : String) : Option (List String) :=
  if isDrawable source then
    some ((d.location? source).elim [d.header] (d.drawing source))
  else
    none

end SheetFormula
