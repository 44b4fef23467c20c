import Footprint.Proofs.Rendering
import Footprint.Proofs.SizeText
import Footprint.Table

/-!
# Reading results

Reading undoes writing: however the rows of some records are written (`ResultsText`), reading the
text gives the table of these records. A row that is no record stops the reading, and the error
names the first such row by the line on which it starts, whatever text follows (`Table.read_bad`).
Every text is either read or refused in this way.
-/

namespace Footprint

open Row

/-- a row that holds a record, as it is written: three cells, of which the third is a size, and any
number of others -/
structure Record.Draft where
  file : Cell
  optimization : Cell
  size : Cell
  others : List Cell
  value : Float
  accepted : Size.read? size.content = some value

namespace Record.Draft

def row (d : Record.Draft) : Row.Draft where
  cells := d.file :: d.optimization :: d.size :: d.others
  visible := by
    rw [rowText_cons_cons]
    exact List.append_ne_nil_of_right_ne_nil _ (List.cons_ne_nil _ _)

/-- the record that is read -/
def record (d : Record.Draft) : Record := ⟨d.file.field, d.optimization.field, d.value⟩

theorem ofRow_row (d : Record.Draft) (n : Nat) : Record.ofRow ⟨n, d.row.fields⟩ = .ok d.record := by
  have h : Size.read? d.size.field = some d.value :=
    (Size.read?_unifyEnds d.size.content).trans d.accepted
  simp only [Record.ofRow, row, Row.Draft.fields, List.map_cons, h, record]

end Record.Draft

/-- complete lines with rows that hold records -/
abbrev RecordLines := List (Line Record.Draft)

namespace RecordLines

def text (lines : RecordLines) : Bytes := linesText (lines.map (Line.map Record.Draft.row))

def records (lines : RecordLines) : List Record :=
  (lines.filterMap Line.row?).map Record.Draft.record

end RecordLines

/-- a results text: complete lines, and a last row whose line end is missing, if there is one -/
structure ResultsText where
  lines : RecordLines
  last : Option Record.Draft

namespace ResultsText

def text (r : ResultsText) : Bytes :=
  r.lines.text ++ (r.last.map fun d => d.row.text).getD []

def records (r : ResultsText) : List Record :=
  r.lines.records ++ (r.last.map Record.Draft.record).toList

end ResultsText

namespace Table

/-! ### rows that are records -/

theorem addRows_rowsFrom (t : Table) (n : Nat) (lines : RecordLines) (rest : List Row) :
    t.addRows (rowsFrom n (lines.map (Line.map Record.Draft.row)) ++ rest) =
      (t.addAll lines.records).addRows rest := by
  induction lines generalizing t n with
  | nil => rfl
  | cons l lines ih =>
    cases l with
    | blank ending => exact ih t _
    | row d ending =>
      show t.addRows (⟨n, d.row.fields⟩ ::
        (rowsFrom _ (lines.map (Line.map Record.Draft.row)) ++ rest)) = _
      rw [addRows, d.ofRow_row]
      exact ih (t.add d.record) _

/-- **Reading undoes writing.** A line end in a name is read as a newline; other names are read as
they are. -/
theorem read_written (r : ResultsText) :
    Table.read r.text = .ok (empty.addAll r.records) ∧
      ∀ c : Cell, ¬ [Bytes.carriageReturn, Bytes.newline] <:+: c.content → c.field = c.content := by
  refine ⟨?_, fun c hc => unifyEnds_of_not_infix hc⟩
  obtain ⟨lines, last⟩ := r
  -- a last row without a line end is read as a complete line
  cases last with
  | none =>
    have h := addRows_rowsFrom empty 1 lines []
    rw [List.append_nil] at h
    show empty.addRows (readAll (lines.text ++ [])) = .ok (empty.addAll (lines.records ++ []))
    rw [List.append_nil, List.append_nil, RecordLines.text, readAll_linesText, h]
    rfl
  | some d =>
    have h := addRows_rowsFrom empty 1 (lines ++ [.row d .newline]) []
    rw [List.append_nil, List.map_append] at h
    have hrecords : RecordLines.records (lines ++ [.row d .newline]) =
        lines.records ++ [d.record] := by
      simp [RecordLines.records, Line.row?]
    show empty.addRows (readAll (lines.text ++ d.row.text)) =
      .ok (empty.addAll (lines.records ++ [d.record]))
    rw [RecordLines.text, readAll_linesText_draft, ← hrecords]
    exact h

/-- a name with a line end and a quote in it, a blank line, and a last row without a line end -/
def sampleText : ResultsText where
  lines := [
    .row ⟨⟨Bytes.ofString "a\r\n\"b", true, Bool.noConfusion⟩,
      ⟨Bytes.ofString "O1", true, Bool.noConfusion⟩,
      ⟨Bytes.ofString " -inf\r\n", true, Bool.noConfusion⟩, [], Binary64.infinity true,
      rfl⟩ .returnNewline,
    .blank .returnNewline]
  last := some ⟨⟨[], true, Bool.noConfusion⟩,
    ⟨Bytes.ofString "O\"2", false, fun _ => ⟨by decide, by decide, by decide, by decide⟩⟩,
    ⟨Bytes.ofString "inf", false, fun _ => ⟨by decide, by decide, by decide, by decide⟩⟩,
    [⟨Bytes.ofString ",", true, Bool.noConfusion⟩], Binary64.infinity false, rfl⟩

theorem read_written_sample :
    Table.read (Bytes.ofString
        "\"a\r\n\"\"b\",\"O1\",\" -inf\r\n\"\r\n\r\n\"\",O\"2,inf,\",\"") =
      .ok (empty.addAll [
        ⟨Bytes.ofString "a\n\"b", Bytes.ofString "O1", Binary64.infinity true⟩,
        ⟨[], Bytes.ofString "O\"2", Binary64.infinity false⟩]) := by
  have htext : sampleText.text = Bytes.ofString
      "\"a\r\n\"\"b\",\"O1\",\" -inf\r\n\"\r\n\r\n\"\",O\"2,inf,\",\"" := by decide
  rw [← htext]
  exact (read_written sampleText).1

/-! ### rows that are no records -/

/-- the rows behind a bad row have no part in the error -/
theorem read_bad (good : RecordLines) (bad : Row.Draft) (ending : LineEnd) (s : Bytes)
    {e : RowError} (he : Record.ofRow ⟨good.text.count Bytes.newline + 1, bad.fields⟩ = .error e) :
    Table.read (good.text ++ (bad.text ++ ending.text) ++ s) = .error e := by
  have htext : good.text ++ (bad.text ++ ending.text) =
      linesText (good.map (Line.map Record.Draft.row) ++ [.row bad ending]) := by
    simp [RecordLines.text, linesText, Line.text]
  obtain ⟨later, hrows⟩ :=
    readAll_rows_first (good.map (Line.map Record.Draft.row) ++ [.row bad ending]) s
  rw [Table.read, htext, hrows, rowsFrom_append, List.append_assoc, addRows_rowsFrom,
    Nat.add_comm 1]
  show (empty.addAll good.records).addRows
    (⟨good.text.count Bytes.newline + 1, bad.fields⟩ :: later) = .error e
  rw [addRows, he]

theorem exists_row_of_addRows {t : Table} {rows : List Row} {e : RowError}
    (h : t.addRows rows = .error e) : ∃ row ∈ rows, Record.ofRow row = .error e := by
  induction rows generalizing t with
  | nil => cases h
  | cons row rest ih =>
    rw [addRows] at h
    cases hrow : Record.ofRow row with
    | ok r =>
      rw [hrow] at h
      obtain ⟨row', hmem, he⟩ := ih h
      exact ⟨row', List.mem_cons_of_mem row hmem, he⟩
    | error e' =>
      rw [hrow] at h
      cases h
      exact ⟨row, List.mem_cons_self, hrow⟩

end Table

/-- what a fault says is so of some row -/
def RowFault.Genuine : RowFault → Prop
  | .columns count => 1 ≤ count ∧ count < 3
  | .size text => Size.read? text = none

namespace Record

theorem ofRow_columns (n : Nat) {fields : List Bytes} (h : fields.length < 3) :
    ofRow ⟨n, fields⟩ = .error ⟨n, .columns fields.length⟩ := by
  match fields, h with
  | [], _ => rfl
  | [_], _ => rfl
  | [_, _], _ => rfl
  | _ :: _ :: _ :: rest, h => simp at h; omega

theorem ofRow_size (n : Nat) {fields : List Bytes} {text : Bytes} (h : fields[2]? = some text)
    (hs : Size.read? text = none) : ofRow ⟨n, fields⟩ = .error ⟨n, .size text⟩ := by
  match fields, h with
  | _ :: _ :: _ :: _, h =>
    cases h
    simp only [ofRow, hs]

/-- a row that has fields is either a record or has a genuine fault -/
theorem genuine_of_ofRow {row : Row} {e : RowError} (hne : row.fields ≠ [])
    (h : ofRow row = .error e) : e.line = row.line ∧ e.fault.Genuine := by
  obtain ⟨line, fields⟩ := row
  match fields, hne with
  | [_], _ =>
    cases h
    exact ⟨rfl, by simp [RowFault.Genuine]⟩
  | [_, _], _ =>
    cases h
    exact ⟨rfl, by simp [RowFault.Genuine]⟩
  | _ :: _ :: text :: _, _ =>
    cases hs : Size.read? text with
    | none =>
      rw [ofRow_size line rfl hs] at h
      cases h
      exact ⟨rfl, hs⟩
    | some size =>
      simp only [ofRow, hs] at h
      cases h

end Record

/-! ### the words of an error -/

theorem decimal_eq_ofString (n : Nat) : decimal n = Bytes.ofString (toString n) := by
  have hdigit : ∀ c ∈ Nat.toDigits 10 n, [UInt8.ofNat c.toNat] = String.utf8EncodeChar c := by
    intro c hc
    have h := Nat.isDigit_of_mem_toDigits (by decide) (by decide) hc
    have hlt : c.val.toNat ≤ 127 := by
      simp only [Char.isDigit, Bool.and_eq_true, decide_eq_true_eq, UInt32.le_iff_toNat_le] at h
      exact h.2.trans (by decide)
    simp only [String.utf8EncodeChar, if_pos hlt]
    rfl
  have htext : (toString n).toList = Nat.toDigits 10 n := String.toList_ofList
  rw [Bytes.ofString, htext, decimal, List.map_eq_flatMap]
  exact List.flatMap_congr hdigit

namespace RowError

theorem message_columns (n k : Nat) : (⟨n, .columns k⟩ : RowError).message =
    Bytes.ofString ("line " ++ toString n ++ ": want 3 columns, have " ++ toString k) := by
  have h : Bytes.ofString ": want 3 columns, have " =
      Bytes.ofString ": " ++ Bytes.ofString "want 3 columns, have " := by decide
  simp only [message, RowFault.message, decimal_eq_ofString, Bytes.ofString_append, h,
    List.append_assoc]

theorem message_size (n : Nat) (text : Bytes) : (⟨n, .size text⟩ : RowError).message =
    Bytes.ofString ("line " ++ toString n ++ ": invalid size ") ++ quote text := by
  have h : Bytes.ofString ": invalid size " =
      Bytes.ofString ": " ++ Bytes.ofString "invalid size " := by decide
  simp only [message, RowFault.message, Size.complaint, decimal_eq_ofString,
    Bytes.ofString_append, h, List.append_assoc]

end RowError

/-- **The error names the first row that is no record.** The first two parts hold for every text
behind that row; the third one is about every text, however malformed. -/
theorem Table.read_refused :
    (∀ (good : RecordLines) (bad : Row.Draft) (ending : LineEnd) (s : Bytes),
      bad.cells.length < 3 →
        Table.read (good.text ++ (bad.text ++ ending.text) ++ s) =
          .error ⟨good.text.count Bytes.newline + 1, .columns bad.cells.length⟩) ∧
    (∀ (good : RecordLines) (bad : Row.Draft) (ending : LineEnd) (s : Bytes) (third : Cell),
      bad.cells[2]? = some third → Size.read? third.content = none →
        Table.read (good.text ++ (bad.text ++ ending.text) ++ s) =
          .error ⟨good.text.count Bytes.newline + 1, .size third.field⟩) ∧
    (∀ s : Bytes, (∃ t, Table.read s = .ok t) ∨
      ∃ e, Table.read s = .error e ∧ 1 ≤ e.line ∧ e.line ≤ lineCount s ∧ e.fault.Genuine) ∧
    (∀ n k : Nat, (⟨n, .columns k⟩ : RowError).message =
      Bytes.ofString ("line " ++ toString n ++ ": want 3 columns, have " ++ toString k)) ∧
    (∀ (n : Nat) (text : Bytes), (⟨n, .size text⟩ : RowError).message =
      Bytes.ofString ("line " ++ toString n ++ ": invalid size ") ++ quote text) := by
  refine ⟨?_, ?_, ?_, RowError.message_columns, RowError.message_size⟩
  · intro good bad ending s hlen
    have hfields : bad.fields.length = bad.cells.length := List.length_map Cell.field
    have h := Record.ofRow_columns (good.text.count Bytes.newline + 1) (hfields ▸ hlen)
    exact Table.read_bad good bad ending s (hfields ▸ h)
  · intro good bad ending s third hthird hsize
    have hfield : bad.fields[2]? = some third.field := by
      rw [Row.Draft.fields, List.getElem?_map, hthird]
      rfl
    have hread : Size.read? third.field = none := (Size.read?_unifyEnds third.content).trans hsize
    exact Table.read_bad good bad ending s (Record.ofRow_size _ hfield hread)
  · intro s
    cases h : Table.read s with
    | ok t => exact .inl ⟨t, rfl⟩
    | error e =>
      obtain ⟨row, hmem, hrow⟩ := Table.exists_row_of_addRows h
      obtain ⟨hfirst, hlast, hne⟩ := line_of_mem_readAll hmem
      obtain ⟨hline, hfault⟩ := Record.genuine_of_ofRow hne hrow
      exact .inr ⟨e, rfl, hline ▸ hfirst, hline ▸ hlast, hfault⟩

/-- a row of one field that goes on over two lines -/
def Table.sampleShort : Row.Draft := ⟨[⟨Bytes.ofString "x\ny", true, Bool.noConfusion⟩], by decide⟩

/-- a row whose third field goes on over two lines and is no size -/
def Table.sampleUnsized : Row.Draft :=
  ⟨[⟨[], true, Bool.noConfusion⟩, ⟨[], true, Bool.noConfusion⟩,
    ⟨Bytes.ofString "1\r\n2", true, Bool.noConfusion⟩], by decide⟩

theorem Table.read_refused_sample :
    Table.read (sampleText.lines.text ++ (sampleShort.text ++ LineEnd.newline.text) ++
        Bytes.ofString "\"a,b") = .error ⟨5, .columns 1⟩ ∧
      Table.read (sampleText.lines.text ++ (sampleUnsized.text ++ LineEnd.newline.text) ++
        Bytes.ofString "\"a,b") = .error ⟨5, .size (Bytes.ofString "1\n2")⟩ ∧
      (⟨5, .columns 1⟩ : RowError).message = Bytes.ofString "line 5: want 3 columns, have 1" := by
  obtain ⟨hcolumns, hsize, -, hmessage, -⟩ := read_refused
  refine ⟨hcolumns sampleText.lines sampleShort .newline _ (by decide),
    hsize sampleText.lines sampleUnsized .newline _ _ rfl rfl, ?_⟩
  rw [hmessage]
  decide

end Footprint
