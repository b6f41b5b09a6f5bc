import SheetFormula.Proofs.LabelSound
import SheetFormula.Proofs.LocationSound

/-!
# Arrows under the source line

The source line and the rows below it are drawn in cells, but in two different ways: tabs are filled up in the
one, and in the others every column is filled by itself. Up to the end of the text the widths agree
(`map_length_sourceCells`, `map_length_rowCells`), so a column begins below its character. The corners of the
arrows (`idxOf?_corner`) and the marks of the spans (`horizontal_iff`) are found by columns, and with that they
are where the text is that they are about: `report_aligned`.
-/

namespace SheetFormula

/-! ## Cells -/

/-- The cells of the source line, one for each character. A tab reaches up to the next multiple of four, counted
in characters. -/
def sourceCells (cs : List Char) : List (List Char) :=
  cs.zipIdx.map fun p => if p.1 = '\t' then List.replicate ((p.2 / 4 + 1) * 4 - p.2) ' ' else [p.1]

/-- The cells of a row of `n` columns. -/
def rowCells (cs : List Char) (n : Nat) (cell : Nat → Char × Char) : List (List Char) :=
  (List.range n).map fun i => (cell i).1 :: List.replicate (columnWidth cs i - 1) (cell i).2

section
variable (cs : List Char) (n : Nat) (cell : Nat → Char × Char)

theorem flatten_sourceCells : (sourceCells cs).flatten = expandTabs cs :=
  List.flatMap_def.symm

theorem flatten_rowCells : (rowCells cs n cell).flatten = drawRow cs n cell :=
  List.flatMap_def.symm

theorem columnWidth_pos (i : Nat) : 0 < columnWidth cs i := by
  unfold columnWidth tabWidth
  by_cases h : cs[i]? = some '\t'
  · simp only [h, ite_true]
    omega
  · simp [h]

theorem length_sourceCells : (sourceCells cs).length = cs.length := by
  simp [sourceCells]

theorem length_rowCells : (rowCells cs n cell).length = n := by
  simp [rowCells]

theorem map_length_rowCells : (rowCells cs n cell).map List.length = (List.range n).map (columnWidth cs) := by
  unfold rowCells
  rw [List.map_map]
  apply List.map_congr_left
  intro i _
  have := columnWidth_pos cs i
  simp
  omega

theorem map_length_sourceCells :
    (sourceCells cs).map List.length = (List.range cs.length).map (columnWidth cs) := by
  apply List.ext_getElem
  · simp [sourceCells]
  · intro i hi _
    have hi' : i < cs.length := by simpa [sourceCells] using hi
    by_cases h : cs[i] = '\t'
    · simp [sourceCells, columnWidth, tabWidth, hi', h]
    · simp [sourceCells, columnWidth, hi', h]

variable {cs n} {i : Nat}

/-- A column begins below the character that it belongs to. -/
theorem length_drawRow (h : i ≤ cs.length) :
    (drawRow cs i cell).length = ((sourceCells cs).take i).flatten.length := by
  rw [← flatten_rowCells, List.length_flatten, List.length_flatten, List.map_take, map_length_rowCells,
    map_length_sourceCells, ← List.map_take, List.take_range, Nat.min_eq_left h]

theorem columnWidth_eq : columnWidth cs i = (sourceCells cs)[i]?.elim 1 List.length := by
  by_cases h : i < cs.length
  · have hi : i < (sourceCells cs).length := by rwa [length_sourceCells]
    have hwidth := congrArg (·[i]?) (map_length_sourceCells cs)
    simp only [List.getElem?_map, List.getElem?_eq_getElem hi, List.getElem?_range h, Option.map_some,
      Option.some.injEq] at hwidth
    rw [List.getElem?_eq_getElem hi, Option.elim_some, hwidth]
  · simp [sourceCells, columnWidth, h]

theorem length_of_rowCells {mark : List Char} (h : (rowCells cs n cell)[i]? = some mark) :
    mark.length = (sourceCells cs)[i]?.elim 1 List.length := by
  have hwidth := congrArg (·[i]?) (map_length_rowCells cs n cell)
  simp only [List.getElem?_map, h, Option.map_some] at hwidth
  obtain ⟨j, hj, hwidth⟩ := Option.map_eq_some_iff.mp hwidth.symm
  obtain ⟨_, rfl⟩ := List.getElem?_eq_some_iff.mp hj
  rw [← hwidth, List.getElem_range, columnWidth_eq]

theorem drawRow_split (h : i < n) : ∃ after, drawRow cs n cell = drawRow cs i cell ++ (cell i).1 :: after := by
  obtain ⟨k, rfl⟩ : ∃ k, n = i + (k + 1) := ⟨n - i - 1, by omega⟩
  unfold drawRow
  rw [List.range_add, List.flatMap_append, List.range_succ_eq_map, List.map_cons, List.flatMap_cons]
  exact ⟨_, rfl⟩

end

/-! ## Corners -/

theorem idxOf?_append_cons {c : Char} {before : List Char} (h : c ∉ before) (after : List Char) :
    (before ++ c :: after).idxOf? c = some before.length := by
  apply List.idxOf?_eq_some_iff.mpr
  refine ⟨by simp, by simp, fun j hj => ?_⟩
  rw [List.getElem_append_left hj]
  exact fun heq => h (heq ▸ List.getElem_mem hj)

theorem blank_before_corner (cs : List Char) (l : Label) :
    ∀ c ∈ drawRow cs l.column (cornerCell l), c = ' ' := by
  intro c hc
  obtain ⟨i, hi, hc⟩ := List.mem_flatMap.mp hc
  have hlt : i < l.column := List.mem_range.mp hi
  have hcell : cornerCell l i = (' ', ' ') := by
    simp [cornerCell, Nat.ne_of_lt hlt, Nat.not_lt_of_lt hlt]
  rw [hcell] at hc
  rcases List.mem_cons.mp hc with rfl | hc
  · rfl
  · exact List.eq_of_mem_replicate hc

/-- The corner of an arrow is below the character where the arrow begins. -/
theorem idxOf?_corner {cs : List Char} {n : Nat} {l : Label} (hrow : l.column < n) (htext : l.column ≤ cs.length)
    {margin : List Char} (hmargin : '╰' ∉ margin) (rest : List Char) :
    (margin ++ (drawRow cs n (cornerCell l) ++ rest)).idxOf? '╰' =
      some (margin.length + ((sourceCells cs).take l.column).flatten.length) := by
  obtain ⟨after, hsplit⟩ := drawRow_split (cornerCell l) hrow
  have hcorner : (cornerCell l l.column).1 = '╰' := by simp [cornerCell]
  have hbefore : '╰' ∉ margin ++ drawRow cs l.column (cornerCell l) := by
    intro h
    rcases List.mem_append.mp h with h | h
    · exact hmargin h
    · exact absurd (blank_before_corner cs l _ h) (by decide)
  rw [hsplit, hcorner, List.append_assoc, List.cons_append, ← List.append_assoc, idxOf?_append_cons hbefore,
    List.length_append, length_drawRow (cornerCell l) htext]

/-! ## Marks -/

/-- The marks that are drawn along a span. -/
def isHorizontal (c : Char) : Bool :=
  c == '┬' || c == '─'

theorem isHorizontal_markerCell (labels underlined : List Label) (i : Nat) :
    isHorizontal (markerCell labels underlined i).1 = (underlined.any fun l => l.covers i) ∧
      isHorizontal (markerCell labels underlined i).2 = underlined.any fun l => l.covers i := by
  unfold markerCell
  cases labels.any fun l => l.column == i <;> cases underlined.any fun l => l.covers i <;> exact ⟨rfl, rfl⟩

theorem horizontal_iff {cs : List Char} {n i : Nat} {labels underlined : List Label} {mark : List Char}
    (h : (rowCells cs n (markerCell labels underlined))[i]? = some mark) {c : Char} (hc : c ∈ mark) :
    isHorizontal c = true ↔ ∃ l ∈ underlined, l.span.start ≤ i ∧ i < l.span.stop := by
  simp only [rowCells, List.getElem?_map, Option.map_eq_some_iff, List.getElem?_eq_some_iff] at h
  obtain ⟨_, ⟨_, rfl⟩, rfl⟩ := h
  rw [List.getElem_range] at hc
  obtain ⟨hfirst, hfill⟩ := isHorizontal_markerCell labels underlined i
  have hany : isHorizontal c = underlined.any fun l => l.covers i := by
    rcases List.mem_cons.mp hc with rfl | hc
    · exact hfirst
    · rw [List.eq_of_mem_replicate hc, hfill]
  rw [hany]
  simp [Label.covers]

/-! ## Trimmed text -/

/-- `text` is `cs` without the blanks at its end. -/
structure IsTrimmed (cs text : List Char) : Prop where
  split : ∃ blanks, cs = text ++ blanks ∧ ∀ c ∈ blanks, c = ' ' ∨ c = '\t'
  last : ∀ c ∈ text.getLast?, c ≠ ' ' ∧ c ≠ '\t'

theorem isTrimmed_trimEnd (cs : List Char) : IsTrimmed cs (trimEnd cs) := by
  have hsplit := List.takeWhile_append_dropWhile (p := fun c => c == ' ' || c == '\t') (l := cs.reverse)
  refine ⟨⟨(cs.reverse.takeWhile fun c => c == ' ' || c == '\t').reverse, ?_, fun c hc => ?_⟩, fun c hc => ?_⟩
  · rw [trimEnd, ← List.reverse_append, hsplit, List.reverse_reverse]
  · have := List.mem_takeWhile_imp (List.mem_reverse.mp hc)
    simpa using this
  · have hhead := List.head?_dropWhile_not (fun c => c == ' ' || c == '\t') cs.reverse
    rw [trimEnd, List.getLast?_reverse] at hc
    rw [Option.mem_def.mp hc] at hhead
    simpa using hhead

/-! ## The lines of a report -/

theorem arrowRows_message (cs : List Char) (n : Nat) {underlined labels : List Label} {k : Nat} {l : Label}
    (h : labels[k]? = some l) : (arrowRows cs n underlined labels)[2 * k + 1]? =
      some (drawRow cs n (cornerCell l) ++ ' ' :: l.message.toList) := by
  induction labels generalizing underlined k with
  | nil => cases h
  | cons m labels ih =>
    cases k with
    | zero => cases h; rfl
    | succ k => exact ih h

theorem arrowRows_marker (cs : List Char) (n : Nat) (underlined : List Label) {labels : List Label}
    (h : labels ≠ []) :
    (arrowRows cs n underlined labels)[0]? = some (drawRow cs n (markerCell labels underlined)) := by
  cases labels with
  | nil => exact absurd rfl h
  | cons l labels => rfl

theorem stop_lt_rowLength {labels : List Label} {l : Label} (h : l ∈ labels) : l.span.stop < rowLength labels := by
  have hmax : (0 :: labels.map fun l => l.span.stop).max? = some ((labels.map fun l => l.span.stop).foldl max 0) :=
    List.max?_cons'
  have hle := (List.max?_eq_some_iff.mp hmax).2 l.span.stop (List.mem_cons_of_mem _ (List.mem_map_of_mem h))
  unfold rowLength
  omega

theorem drawing_row {d : Diagnostic} {source : String} {location : Location} {k : Nat} {row : List Char}
    (h : (arrowRows (trimEnd source.toList) (rowLength d.sortedLabels) d.sortedLabels d.sortedLabels)[k]? =
      some row) : (d.drawing source location)[k + 4]? = some ("   │ " ++ String.ofList row) := by
  obtain ⟨hk, rfl⟩ := List.getElem?_eq_some_iff.mp h
  simp [Diagnostic.drawing, List.getElem?_append, hk]

/-- A report under the source line of `text`. The margin of every line has five characters. -/
structure Drawn (text : List Char) (labels : List Label) (lines : List String) : Prop where
  sourceLine : lines[3]? = some (" 1 │ " ++ String.ofList (sourceCells text).flatten)
  corner : ∀ k l, labels[k]? = some l → l.column < text.length → ∃ row, lines[2 * k + 5]? = some row ∧
    row.toList.idxOf? '╰' = some (5 + ((sourceCells text).take l.column).flatten.length) ∧
    ' ' :: l.message.toList <:+ row.toList
  marked : ∃ marks : List (List Char), lines[4]? = some ("   │ " ++ String.ofList marks.flatten) ∧
    (∀ l ∈ labels, l.span.stop ≤ marks.length) ∧
    ∀ i mark, marks[i]? = some mark → mark.length = (sourceCells text)[i]?.elim 1 List.length ∧
      ∀ c ∈ mark, isHorizontal c = true ↔ ∃ l ∈ labels, l.span.start ≤ i ∧ i < l.span.stop

theorem toList_margin : "   │ ".toList = [' ', ' ', ' ', '│', ' '] := by
  decide

theorem sortedLabels_ne_nil (d : Diagnostic) : d.sortedLabels ≠ [] := by
  intro hnil
  have := (sortedLabels_perm d).length_eq
  simp [hnil, Diagnostic.labels] at this

theorem drawn_drawing {d : Diagnostic} (hcolumn : ∀ l ∈ d.sortedLabels, l.column ≤ l.span.stop)
    (source : String) (location : Location) :
    Drawn (trimEnd source.toList) d.sortedLabels (d.drawing source location) := by
  refine ⟨?_, fun k l hk htext => ?_, ?_⟩
  · rw [flatten_sourceCells]
    rfl
  · refine ⟨_, drawing_row (arrowRows_message _ _ hk), ?_, ?_⟩
    · have hmem := List.mem_of_getElem? hk
      have hrow := Nat.lt_of_le_of_lt (hcolumn l hmem) (stop_lt_rowLength hmem)
      rw [String.toList_append, toList_margin, String.toList_ofList]
      exact idxOf?_corner hrow (Nat.le_of_lt htext) (by decide) _
    · rw [String.toList_append, toList_margin, String.toList_ofList, ← List.append_assoc]
      exact List.suffix_append _ _
  · refine ⟨rowCells (trimEnd source.toList) (rowLength d.sortedLabels) (markerCell d.sortedLabels d.sortedLabels),
      ?_, fun l hl => ?_, fun i mark hmark => ⟨length_of_rowCells _ hmark, fun c hc => horizontal_iff hmark hc⟩⟩
    · rw [flatten_rowCells]
      exact drawing_row (arrowRows_marker _ _ _ (sortedLabels_ne_nil d))
    · rw [length_rowCells]
      exact Nat.le_of_lt (stop_lt_rowLength hl)

/-! ## Rejected sources -/

theorem isDrawable_iff (source : String) : isDrawable source = true ↔
    ∀ c ∈ source.toList, c = '\t' ∨ 0x20 ≤ c.toNat ∧ c.toNat ≤ 0x7E := by
  simp [isDrawable]

section
variable {vc : VariableCase} {source : String} {r : Rejection} (h : Formula.parse vc source = .error r)
include h

theorem exists_location (hascii : ∀ c ∈ source.toList, c.toNat < 128) :
    ∃ location, r.diagnostic.location? source = some location := by
  obtain ⟨hordered, hinside, -⟩ := fits_of_parse_error h r.span (by simp)
  rw [utf8ByteSize_eq, byteLength_eq_length_iff.mpr hascii] at hinside
  have hstart := Nat.le_trans hordered hinside
  exact ⟨_, location?_eq_known_iff.mpr ⟨.inl (survives_of_stop_le hstart (Nat.le_succ_of_le hinside)), hstart, rfl⟩⟩

theorem column_le_stop : ∀ l ∈ r.orderedLabels, l.column ≤ l.span.stop := by
  intro l hl
  have hspan : l.span ∈ r.span :: r.notes.map Note.span := by
    rw [← (List.perm_append_singleton _ _).mem_iff, ← map_span_orderedLabels]
    exact List.mem_map_of_mem hl
  have := (fits_of_parse_error h l.span hspan).ordered
  unfold Label.column
  omega

/-- **Arrows line up.** In the report on a rejected source every arrow begins below the character that is at its
column, and the spans of the labels are marked from end to end and nothing else is. -/
theorem report_aligned (hdrawable : ∀ c ∈ source.toList, c = '\t' ∨ 0x20 ≤ c.toNat ∧ c.toNat ≤ 0x7E) :
    ∃ text lines, IsTrimmed source.toList text ∧ r.diagnostic.report? r.source = some lines ∧
      Drawn text r.orderedLabels lines := by
  have hascii : ∀ c ∈ source.toList, c.toNat < 128 := by
    intro c hc
    rcases hdrawable c hc with rfl | hc
    · decide
    · omega
  obtain ⟨location, hlocation⟩ := exists_location h hascii
  refine ⟨_, r.diagnostic.drawing source location, isTrimmed_trimEnd _, ?_, ?_⟩
  · rw [source_of_parse_error h, Diagnostic.report?, if_pos ((isDrawable_iff source).mpr hdrawable), hlocation]
    rfl
  · rw [← sortedLabels_eq h]
    apply drawn_drawing
    rw [sortedLabels_eq h]
    exact column_le_stop h

end

-- the tabs before the fault, which is the eighth character, are drawn as four, three and two blanks
theorem report_aligned_tabs : ∃ r, Formula.parse .upper "\ta1 +\t\t* 2\t" = .error r ∧
    (∀ c ∈ "\ta1 +\t\t* 2\t".toList, c = '\t' ∨ 0x20 ≤ c.toNat ∧ c.toNat ≤ 0x7E) ∧
    r.orderedLabels.map Label.column = [4, 7] ∧
    ((sourceCells "\ta1 +\t\t* 2".toList).take 7).flatten.length = 13 ∧
    ∃ text lines, IsTrimmed "\ta1 +\t\t* 2\t".toList text ∧ r.diagnostic.report? r.source = some lines ∧
      Drawn text r.orderedLabels lines := by
  have htok : tokenize .upper "\ta1 +\t\t* 2\t" = .ok [⟨.var, "A1", ⟨1, 3⟩⟩, ⟨.operator .add, "+", ⟨4, 5⟩⟩,
      ⟨.operator .mul, "*", ⟨7, 8⟩⟩, ⟨.number, "2", ⟨9, 10⟩⟩] :=
    (tokenize_eq_ok_iff ..).mpr ⟨by decide +kernel, by decide +kernel⟩
  have h := (parse_eq_error_iff .upper _ _).mpr (.inr ⟨_, htok, rfl⟩)
  have hdrawable := (isDrawable_iff "\ta1 +\t\t* 2\t").mp (by decide +kernel)
  exact ⟨_, h, hdrawable, rfl, by decide +kernel, report_aligned h hdrawable⟩

end SheetFormula
