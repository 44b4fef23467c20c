import Footprint.Proofs.Reader

/-!
# Rows as they are written

The same rows may be written in many ways. A field stands between quotes, with the quotes inside it
doubled, or without them, if nothing in it would then be misread (`Cell`). A line ends in a newline
or in a carriage return and a newline (`LineEnd`), and blank lines may stand anywhere (`Line`).
Reading finds the rows of every such text, each under the line on which it starts
(`readAll_linesText`, `readAll_rows_first`, `readAll_linesText_draft`); in the fields a line end has
become a newline (`Cell.field`).
-/

namespace Footprint.Row

inductive LineEnd where
  | newline
  | returnNewline
  deriving DecidableEq

def LineEnd.text : LineEnd → Bytes
  | .newline => [Bytes.newline]
  | .returnNewline => [Bytes.carriageReturn, Bytes.newline]

theorem LineEnd.unifyEnds_text (e : LineEnd) : unifyEnds e.text = [Bytes.newline] := by
  cases e <;> rfl

theorem LineEnd.count_text (e : LineEnd) : e.text.count Bytes.newline = 1 := by
  cases e <;> rfl

/-- content that may be written without quotes around it -/
structure Plain (s : Bytes) : Prop where
  comma : Bytes.comma ∉ s
  newline : Bytes.newline ∉ s
  head : s.head? ≠ some Bytes.quote
  last : s.getLast? ≠ some Bytes.carriageReturn

/-- a field as it is written -/
structure Cell where
  content : Bytes
  quoted : Bool
  plain : quoted = false → Plain content

namespace Cell

/-- every quote written twice -/
def doubled (s : Bytes) : Bytes :=
  s.flatMap fun b => if b = Bytes.quote then [Bytes.quote, Bytes.quote] else [b]

def text (c : Cell) : Bytes :=
  if c.quoted then Bytes.quote :: (doubled c.content ++ [Bytes.quote]) else c.content

/-- the field that is read -/
def field (c : Cell) : Bytes := unifyEnds c.content

theorem doubled_quote (s : Bytes) :
    doubled (Bytes.quote :: s) = Bytes.quote :: Bytes.quote :: doubled s := rfl

theorem doubled_cons {b : UInt8} (s : Bytes) (h : b ≠ Bytes.quote) :
    doubled (b :: s) = b :: doubled s := by
  simp [doubled, h]

theorem head?_doubled (s : Bytes) : (doubled s).head? = s.head? := by
  cases s with
  | nil => rfl
  | cons b rest =>
    by_cases h : b = Bytes.quote
    · rw [h]; rfl
    · rw [doubled_cons rest h]; rfl

theorem count_newline_doubled (s : Bytes) :
    (doubled s).count Bytes.newline = s.count Bytes.newline := by
  induction s with
  | nil => rfl
  | cons b rest ih =>
    by_cases h : b = Bytes.quote
    · have hq : Bytes.quote ≠ Bytes.newline := by decide
      rw [h, doubled_quote, List.count_cons_of_ne hq, List.count_cons_of_ne hq,
        List.count_cons_of_ne hq, ih]
    · rw [doubled_cons rest h, List.count_cons, List.count_cons, ih]

/-- doubling does not touch line ends -/
theorem unifyEnds_doubled (s : Bytes) : unifyEnds (doubled s) = doubled (unifyEnds s) := by
  induction s with
  | nil => rfl
  | cons b rest ih =>
    have hhead : (b = Bytes.carriageReturn ∧ (doubled rest).head? = some Bytes.newline) =
        (b = Bytes.carriageReturn ∧ rest.head? = some Bytes.newline) := by
      rw [head?_doubled]
    by_cases hb : b = Bytes.carriageReturn ∧ rest.head? = some Bytes.newline
    · have hq : b ≠ Bytes.quote := by rw [hb.1]; decide
      rw [doubled_cons rest hq, unifyEnds, dropBefore_of_before hb,
        dropBefore_of_before (hhead ▸ hb)]
      exact ih
    · by_cases h : b = Bytes.quote
      · subst h
        rw [doubled_quote, unifyEnds_cons_of_ne _ (by decide), unifyEnds_cons_of_ne _ (by decide),
          unifyEnds_cons_of_ne _ (by decide), doubled_quote, ih]
      · rw [doubled_cons rest h, unifyEnds, dropBefore_cons hb, dropBefore_cons (hhead ▸ hb),
          doubled_cons _ h]
        exact congrArg (b :: ·) ih

theorem text_quoted {c : Cell} (h : c.quoted = true) :
    c.text = Bytes.quote :: (doubled c.content ++ [Bytes.quote]) := by
  rw [text, if_pos h]

theorem text_bare {c : Cell} (h : c.quoted = false) : c.text = c.content := by
  rw [text, h]; rfl

theorem getLast?_text (c : Cell) : c.text.getLast? ≠ some Bytes.carriageReturn := by
  cases h : c.quoted with
  | true =>
    rw [text_quoted h, ← List.cons_append, List.getLast?_concat]
    decide
  | false =>
    rw [text_bare h]
    exact (c.plain h).last

theorem unifyEnds_text_quoted {c : Cell} (h : c.quoted = true) :
    unifyEnds c.text = Bytes.quote :: (doubled c.field ++ [Bytes.quote]) := by
  have hq : Bytes.quote ≠ Bytes.carriageReturn := by decide
  have hl : [Bytes.quote].head? ≠ some Bytes.newline := by decide
  rw [text_quoted h, unifyEnds_cons_of_ne _ hq, unifyEnds_append _ _ (.inr hl), unifyEnds_doubled]
  rfl

theorem unifyEnds_text_bare {c : Cell} (h : c.quoted = false) : unifyEnds c.text = c.content := by
  rw [text_bare h, unifyEnds_of_not_mem (c.plain h).newline]

theorem field_bare {c : Cell} (h : c.quoted = false) : c.field = c.content :=
  unifyEnds_of_not_mem (c.plain h).newline

end Cell

/-- the cells of a row with commas between them -/
def rowText (cells : List Cell) : Bytes := [Bytes.comma].intercalate (cells.map Cell.text)

theorem rowText_singleton (c : Cell) : rowText [c] = c.text := List.intercalate_singleton

theorem rowText_cons_cons (c d : Cell) (rest : List Cell) :
    rowText (c :: d :: rest) = c.text ++ Bytes.comma :: rowText (d :: rest) := by
  unfold rowText
  rw [List.map_cons, List.map_cons, List.intercalate_cons_cons, List.append_assoc]
  rfl

theorem getLast?_rowText (cells : List Cell) :
    (rowText cells).getLast? ≠ some Bytes.carriageReturn := by
  induction cells with
  | nil => exact (Option.some_ne_none _).symm
  | cons c cells ih =>
    cases cells with
    | nil => rw [rowText_singleton]; exact c.getLast?_text
    | cons d rest =>
      rw [rowText_cons_cons, List.getLast?_append, List.getLast?_cons]
      cases h : (rowText (d :: rest)).getLast? with
      | none => show some Bytes.comma ≠ some Bytes.carriageReturn; decide
      | some b => exact fun e => ih (h.trans e)

/-- a row as it is written; without any byte it would be a blank line -/
structure Draft where
  cells : List Cell
  visible : rowText cells ≠ []

namespace Draft

def text (d : Draft) : Bytes := rowText d.cells

/-- the fields that are read -/
def fields (d : Draft) : List Bytes := d.cells.map Cell.field

end Draft

/-- a line that is blank or holds a row; the row may go on over further lines -/
inductive Line (ρ : Type) where
  | blank (ending : LineEnd)
  | row (content : ρ) (ending : LineEnd)

namespace Line

variable {ρ σ : Type}

def map (f : ρ → σ) : Line ρ → Line σ
  | .blank ending => .blank ending
  | .row content ending => .row (f content) ending

def row? : Line ρ → Option ρ
  | .blank _ => none
  | .row content _ => some content

def text : Line Draft → Bytes
  | .blank ending => ending.text
  | .row d ending => d.text ++ ending.text

/-- the row of a line that has number `n` -/
def rowAt (n : Nat) : Line Draft → Option Row
  | .blank _ => none
  | .row d _ => some ⟨n, d.fields⟩

end Line

def linesText (lines : List (Line Draft)) : Bytes := lines.flatMap Line.text

theorem Line.getLast?_text (l : Line Draft) : l.text.getLast? ≠ some Bytes.carriageReturn := by
  have h : l.text.getLast? = some Bytes.newline := by
    cases l with
    | blank ending => cases ending <;> rfl
    | row d ending => cases ending <;> simp [Line.text, LineEnd.text]
  rw [h]
  decide

theorem linesText_cons (l : Line Draft) (lines : List (Line Draft)) :
    linesText (l :: lines) = l.text ++ linesText lines := rfl

theorem getLast?_linesText (lines : List (Line Draft)) :
    (linesText lines).getLast? ≠ some Bytes.carriageReturn := by
  induction lines with
  | nil => exact (Option.some_ne_none _).symm
  | cons l lines ih =>
    rw [linesText_cons, List.getLast?_append]
    cases h : (linesText lines).getLast? with
    | none => exact l.getLast?_text
    | some b => exact fun e => ih (h.trans e)

/-- the rows of lines of which the first one has number `n` -/
def rowsFrom : Nat → List (Line Draft) → List Row
  | _, [] => []
  | n, line :: rest =>
    (line.rowAt n).toList ++ rowsFrom (n + line.text.count Bytes.newline) rest

theorem rowsFrom_append (n : Nat) (a b : List (Line Draft)) :
    rowsFrom n (a ++ b) = rowsFrom n a ++ rowsFrom (n + (linesText a).count Bytes.newline) b := by
  induction a generalizing n with
  | nil => rfl
  | cons l a ih =>
    rw [List.cons_append, rowsFrom, rowsFrom, ih, linesText_cons, List.count_append,
      List.append_assoc, Nat.add_assoc]

/-! ### reading a cell -/

namespace Reader

variable (line start : Nat) (field : Bytes) (fields : List Bytes) (rows : List Row)

theorem run_bare (s : Bytes) (hc : Bytes.comma ∉ s) (hn : Bytes.newline ∉ s) :
    (⟨.bare, line, start, field, fields, rows⟩ : Reader).run s =
      ⟨.bare, line, start, s.reverse ++ field, fields, rows⟩ := by
  induction s generalizing field with
  | nil => rfl
  | cons b rest ih =>
    have hb : ¬ b = Bytes.comma := fun e => hc (e ▸ List.mem_cons_self)
    have hb' : ¬ b = Bytes.newline := fun e => hn (e ▸ List.mem_cons_self)
    have hstep : (⟨.bare, line, start, field, fields, rows⟩ : Reader).step b =
        ⟨.bare, line, start, b :: field, fields, rows⟩ := by
      simp [step, hb, hb', push]
    rw [run_cons, hstep, ih _ (fun h => hc (List.mem_cons_of_mem b h))
      (fun h => hn (List.mem_cons_of_mem b h)), List.reverse_cons, List.append_assoc]
    rfl

theorem run_doubled (s : Bytes) :
    (⟨.quoted, line, start, field, fields, rows⟩ : Reader).run (Cell.doubled s) =
      ⟨.quoted, line + s.count Bytes.newline, start, s.reverse ++ field, fields, rows⟩ := by
  induction s generalizing line field with
  | nil => rfl
  | cons b rest ih =>
    by_cases hq : b = Bytes.quote
    · subst hq
      rw [Cell.doubled_quote, List.count_cons_of_ne (by decide), List.reverse_cons,
        List.append_assoc]
      exact ih line (Bytes.quote :: field)
    · rw [Cell.doubled_cons rest hq, run_cons, List.reverse_cons, List.append_assoc]
      by_cases hn : b = Bytes.newline
      · subst hn
        rw [List.count_cons_self, Nat.add_comm _ 1, ← Nat.add_assoc]
        exact ih (line + 1) (Bytes.newline :: field)
      · have hstep : (⟨.quoted, line, start, field, fields, rows⟩ : Reader).step b =
            ⟨.quoted, line, start, b :: field, fields, rows⟩ := by
          simp [step, hq, hn, push]
        rw [hstep, ih, List.count_cons_of_ne hn]
        rfl

/-- behind a cell the reader holds its field; it is between rows only if nothing was written -/
theorem run_cell (place : Place) (hp : place = .between ∨ place = .fieldStart) (c : Cell) :
    ∃ behind, behind ≠ .quoted ∧ (behind = .between → place = .between ∧ c.text = []) ∧
      (⟨place, line, start, [], fields, rows⟩ : Reader).run (unifyEnds c.text) =
        ⟨behind, line + c.text.count Bytes.newline, start, c.field.reverse, fields, rows⟩ := by
  cases h : c.quoted with
  | true =>
    refine ⟨.closing, Place.noConfusion, Place.noConfusion, ?_⟩
    have hopen : (⟨place, line, start, [], fields, rows⟩ : Reader).step Bytes.quote =
        ⟨.quoted, line, start, [], fields, rows⟩ := by
      rcases hp with rfl | rfl
      · rfl
      · rfl
    have hcount : c.text.count Bytes.newline = c.field.count Bytes.newline := by
      rw [← count_newline_unifyEnds, Cell.unifyEnds_text_quoted h,
        List.count_cons_of_ne (by decide), List.count_append, Cell.count_newline_doubled]
      rfl
    rw [Cell.unifyEnds_text_quoted h, run_cons, hopen, run_append, run_doubled, hcount,
      List.append_nil]
    rfl
  | false =>
    obtain ⟨hc, hn, hq, _⟩ := c.plain h
    rw [Cell.unifyEnds_text_bare h, Cell.text_bare h, Cell.field_bare h, List.count_eq_zero.mpr hn]
    -- the first byte opens the field, so an empty cell leaves the reader where it is
    cases hs : c.content with
    | nil =>
      refine ⟨place, ?_, fun e => ⟨e, rfl⟩, rfl⟩
      rcases hp with rfl | rfl
      · exact Place.noConfusion
      · exact Place.noConfusion
    | cons b rest =>
      rw [hs] at hc hn hq
      have hb : ¬ b = Bytes.comma := fun e => hc (e ▸ List.mem_cons_self)
      have hb' : ¬ b = Bytes.newline := fun e => hn (e ▸ List.mem_cons_self)
      have hb'' : ¬ b = Bytes.quote := fun e => hq (e ▸ rfl)
      have hstep : (⟨place, line, start, [], fields, rows⟩ : Reader).step b =
          ⟨.bare, line, start, [b], fields, rows⟩ := by
        rcases hp with rfl | rfl
        · simp [step, startField, hb, hb', hb'', push]
        · simp [step, startField, hb, hb', hb'', push]
      refine ⟨.bare, Place.noConfusion, Place.noConfusion, ?_⟩
      rw [run_cons, hstep, run_bare _ _ _ _ _ rest (fun h => hc (List.mem_cons_of_mem b h))
        (fun h => hn (List.mem_cons_of_mem b h)), List.reverse_cons]
      rfl

/-! ### reading rows and lines -/

/-- the cells of a row and a newline; the first cell of a row must not stand alone and empty -/
theorem run_cells (c : Cell) (cells : List Cell) (place : Place)
    (hp : place = .fieldStart ∨ place = .between ∧ rowText (c :: cells) ≠ []) :
    ((⟨place, line, start, [], fields, rows⟩ : Reader).run
        (unifyEnds (rowText (c :: cells)))).step Bytes.newline =
      atLine (line + (rowText (c :: cells)).count Bytes.newline + 1)
        (⟨start, fields.reverse ++ (c :: cells).map Cell.field⟩ :: rows) := by
  have hplace : place = .between ∨ place = .fieldStart := hp.symm.imp_left And.left
  induction cells generalizing c place line fields with
  | nil =>
    obtain ⟨behind, hq, hb, hrun⟩ := run_cell line start fields rows place hplace c
    rw [rowText_singleton] at hp ⊢
    have hb' : behind ≠ .between := by
      intro e
      obtain ⟨e', ht⟩ := hb e
      rcases hp with hp | ⟨_, hne⟩
      · exact Place.noConfusion (hp.symm.trans e')
      · exact hne ht
    rw [hrun, step_newline _ hb' hq]
    simp [nextLine, endRow, atLine]
  | cons d rest ih =>
    obtain ⟨behind, hq, -, hrun⟩ := run_cell line start fields rows place hplace c
    rw [rowText_cons_cons, unifyEnds_append _ _ (.inl c.getLast?_text),
      unifyEnds_cons_of_ne _ (by decide), run_append, hrun, run_cons, step_comma _ hq]
    -- behind a comma a field starts, so the next cell may be empty
    have e := ih (line + c.text.count Bytes.newline) (c.field :: fields) d .fieldStart (.inl rfl)
      (.inr rfl)
    simp only [endField, List.reverse_reverse]
    rw [e, List.count_append, List.count_cons_of_ne (by decide)]
    simp [Nat.add_assoc]

theorem run_line (n : Nat) (rows : List Row) (l : Line Draft) :
    (atLine n rows).run (unifyEnds l.text) =
      atLine (n + l.text.count Bytes.newline) ((l.rowAt n).toList ++ rows) := by
  cases l with
  | blank ending =>
    cases ending with
    | newline => rfl
    | returnNewline => rfl
  | row d ending =>
    obtain ⟨cells, hv⟩ := d
    cases cells with
    | nil => exact absurd rfl hv
    | cons c cells =>
      have hrun := run_cells n n [] rows c cells .between (.inr ⟨rfl, hv⟩)
      show (atLine n rows).run (unifyEnds (rowText (c :: cells) ++ ending.text)) =
        atLine (n + (rowText (c :: cells) ++ ending.text).count Bytes.newline)
          (⟨n, (c :: cells).map Cell.field⟩ :: rows)
      rw [unifyEnds_append _ _ (.inl (getLast?_rowText _)), ending.unifyEnds_text,
        List.count_append, ending.count_text, run_append, ← Nat.add_assoc]
      exact hrun

theorem run_lines (n : Nat) (rows : List Row) (lines : List (Line Draft)) :
    (atLine n rows).run (unifyEnds (linesText lines)) =
      atLine (n + (linesText lines).count Bytes.newline) ((rowsFrom n lines).reverse ++ rows) := by
  induction lines generalizing n rows with
  | nil => rfl
  | cons l lines ih =>
    rw [linesText_cons, unifyEnds_append _ _ (.inl l.getLast?_text), run_append, run_line, ih,
      List.count_append, Nat.add_assoc, rowsFrom, List.reverse_append, List.append_assoc]
    congr 2
    cases l.rowAt n with
    | none => rfl
    | some row => rfl

end Reader

/-- complete lines are read on their own, and the text behind them from the line below -/
theorem readAll_linesText_append (lines : List (Line Draft)) (s : Bytes) :
    readAll (linesText lines ++ s) =
      ((Reader.atLine (1 + (linesText lines).count Bytes.newline) (rowsFrom 1 lines).reverse).run
        (normalize s)).finish := by
  rw [readAll, normalize_append _ _ (getLast?_linesText lines), Reader.run_append,
    Reader.initial_eq_atLine, Reader.run_lines, List.append_nil]

theorem readAll_linesText (lines : List (Line Draft)) :
    readAll (linesText lines) = rowsFrom 1 lines := by
  have e := readAll_linesText_append lines []
  rw [List.append_nil] at e
  exact e.trans (List.reverse_reverse _)

/-- the rows of complete lines come first, whatever text follows them -/
theorem readAll_rows_first (lines : List (Line Draft)) (s : Bytes) :
    ∃ later, readAll (linesText lines ++ s) = rowsFrom 1 lines ++ later := by
  rw [readAll_linesText_append]
  obtain ⟨later, h⟩ := Reader.finish_run_eq
    (Reader.atLine (1 + (linesText lines).count Bytes.newline) (rowsFrom 1 lines).reverse)
    (normalize s)
  exact ⟨later, h.trans (congrArg (· ++ later) (List.reverse_reverse _))⟩

/-- the last row may lack its line end -/
theorem readAll_linesText_draft (lines : List (Line Draft)) (d : Draft) :
    readAll (linesText lines ++ d.text) = rowsFrom 1 (lines ++ [.row d .newline]) := by
  have e : linesText (lines ++ [.row d .newline]) =
      (linesText lines ++ d.text) ++ [Bytes.newline] := by
    simp [linesText, Line.text, LineEnd.text]
  have hrun := Reader.run_lines 1 [] (lines ++ [.row d .newline])
  rw [e, unifyEnds_append_newline, Reader.run_append] at hrun
  rw [← readAll_linesText, e, readAll, readAll, normalize_append_newline, Reader.run_append]
  exact Reader.finish_of_step_newline _ (congrArg Reader.place hrun)

end Footprint.Row
