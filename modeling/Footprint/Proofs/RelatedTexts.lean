import Mathlib.Data.List.Forall2
import Footprint.Proofs.Reader
import Footprint.Proofs.Table

/-!
# Texts that are read alike

How the reading of one text follows from that of another.

* `Row.normalize_returnEnds`: a carriage return before every newline changes nothing.
* `Row.readAll_append`, `Table.read_append`: behind a text that ends where a row may start
  (`Row.Complete`), a second text is read as it is read on its own, further down by the lines of the
  first one.

Both hold of every text, whether its rows are records or not and however its quotes stand.
-/

namespace Footprint

namespace Row

/-! ### line ends -/

/-- a carriage return put before every newline -/
def returnEnds (s : Bytes) : Bytes :=
  s.flatMap fun b => if b = Bytes.newline then [Bytes.carriageReturn, Bytes.newline] else [b]

theorem returnEnds_newline (s : Bytes) : returnEnds (Bytes.newline :: s) =
    Bytes.carriageReturn :: Bytes.newline :: returnEnds s := rfl

theorem returnEnds_cons {b : UInt8} (s : Bytes) (h : b ≠ Bytes.newline) :
    returnEnds (b :: s) = b :: returnEnds s := by
  simp [returnEnds, h]

theorem normalize_return_newline (s : Bytes) :
    normalize (Bytes.carriageReturn :: Bytes.newline :: s) = Bytes.newline :: normalize s := by
  rw [normalize, if_pos ⟨rfl, rfl⟩]

theorem normalize_cons_cons {b c : UInt8} (s : Bytes)
    (h : ¬ (b = Bytes.carriageReturn ∧ c = Bytes.newline)) :
    normalize (b :: c :: s) = b :: normalize (c :: s) := by
  rw [normalize, if_neg h]

theorem normalize_cons_of_ne {b : UInt8} (s : Bytes) (h : b ≠ Bytes.carriageReturn) :
    normalize (b :: s) = b :: normalize s := by
  cases s with
  | nil =>
    show normalize [b] = [b]
    rw [normalize, if_neg h]
  | cons c rest => exact normalize_cons_cons rest fun hbc => h hbc.1

theorem normalize_returnEnds {s : Bytes} (h : ¬ [Bytes.carriageReturn, Bytes.newline] <:+: s) :
    normalize (returnEnds s) = normalize s := by
  induction s with
  | nil => rfl
  | cons b rest ih =>
    have ih' := ih fun hr => h (hr.trans (List.suffix_cons b rest).isInfix)
    by_cases hn : b = Bytes.newline
    · subst hn
      rw [returnEnds_newline, normalize_return_newline, normalize_cons_of_ne rest (by decide), ih']
    · rw [returnEnds_cons rest hn]
      by_cases hr : b = Bytes.carriageReturn
      · -- a carriage return is data unless a newline or nothing follows, and no newline does
        subst hr
        cases rest with
        | nil => rfl
        | cons c tail =>
          have hc : c ≠ Bytes.newline := by
            rintro rfl
            exact h (List.prefix_append _ tail).isInfix
          rw [returnEnds_cons tail hc] at ih' ⊢
          rw [normalize_cons_cons _ fun hbc => hc hbc.2, normalize_cons_cons _ fun hbc => hc hbc.2,
            ih']
      · rw [normalize_cons_of_ne _ hr, normalize_cons_of_ne _ hr, ih']

/-! ### reading further down -/

/-- the row found `k` lines further down -/
def lower (k : Nat) (row : Row) : Row := { row with line := row.line + k }

namespace Reader

variable (k : Nat) (above : List Row)

/-- the reader `k` lines further down, with rows read before -/
def below (r : Reader) : Reader :=
  { r with line := r.line + k, start := r.start + k, rows := r.rows.map (lower k) ++ above }

theorem below_push (r : Reader) (place : Place) (b : UInt8) :
    (r.below k above).push place b = (r.push place b).below k above := rfl

theorem below_endRow (r : Reader) : (r.below k above).endRow = r.endRow.below k above := rfl

theorem below_nextLine (r : Reader) :
    (r.below k above).nextLine = r.nextLine.below k above := by
  unfold nextLine below
  simp only [Nat.add_right_comm]

theorem below_startField (r : Reader) (b : UInt8) :
    (r.below k above).startField b = (r.startField b).below k above := by
  unfold startField
  split
  · rfl
  · split
    · rw [below_nextLine, below_endRow]
    · split
      · rfl
      · rfl

/-- what a byte does to the reader does not depend on the line and the rows above -/
theorem below_step (r : Reader) (b : UInt8) :
    (r.below k above).step b = (r.step b).below k above := by
  unfold step
  rw [show (r.below k above).place = r.place from rfl]
  cases r.place with
  | between =>
    dsimp only
    split
    · simp only [nextLine, below, Nat.add_right_comm]
    · exact below_startField k above r b
  | fieldStart => exact below_startField k above r b
  | bare =>
    dsimp only
    split
    · rfl
    · split
      · rw [below_nextLine, below_endRow]
      · rfl
  | quoted =>
    dsimp only
    split
    · rfl
    · split
      · rw [below_nextLine, below_push]
      · rfl
  | closing =>
    dsimp only
    split
    · rfl
    · split
      · rfl
      · split
        · rw [below_nextLine, below_endRow]
        · rfl

theorem below_run (r : Reader) (s : Bytes) :
    (r.below k above).run s = (r.run s).below k above := by
  induction s generalizing r with
  | nil => rfl
  | cons b rest ih => rw [run_cons, run_cons, below_step, ih]

theorem below_finish (r : Reader) :
    (r.below k above).finish = above.reverse ++ r.finish.map (lower k) := by
  obtain ⟨place, line, start, field, fields, rows⟩ := r
  cases place with
  | between => simp [below, finish]
  | fieldStart => simp [below, finish, endRow, lower]
  | bare => simp [below, finish, endRow, lower]
  | quoted => simp [below, finish, endRow, lower]
  | closing => simp [below, finish, endRow, lower]

/-! ### where a row may start -/

/-- between rows nothing is left over from the row before -/
def Clear (r : Reader) : Prop := r.place = .between → r = atLine r.line r.rows

theorem clear_step {r : Reader} (h : r.Clear) (b : UInt8) : (r.step b).Clear := by
  intro hplace
  rcases r.step_cases b with ⟨hp, _, e⟩ | ⟨_, _, e⟩ | ⟨_, _, e⟩ | ⟨_, e⟩ | ⟨_, p, f, hp, e⟩
  · rw [e, h hp]
    rfl
  · rw [e]
    rfl
  · rw [e] at hplace
    cases hplace
  · rw [e] at hplace
    cases hplace
  · rw [e] at hplace
    exact absurd hplace hp

theorem clear_run {r : Reader} (h : r.Clear) (s : Bytes) : (r.run s).Clear := by
  induction s generalizing r with
  | nil => exact h
  | cons b rest ih => exact ih (clear_step h b)

/-- behind a newline the reader is between rows unless a quoted field is open -/
theorem between_of_step_newline (r : Reader) (h : (r.step Bytes.newline).place ≠ .quoted) :
    (r.step Bytes.newline).place = .between := by
  rcases r.step_cases Bytes.newline with ⟨hp, _, e⟩ | ⟨_, _, e⟩ | ⟨_, _, e⟩ | ⟨hn, _⟩ | ⟨hn, _⟩
  · rw [e]
    exact hp
  · rw [e]
    rfl
  · rw [e] at h
    exact absurd rfl h
  · exact absurd rfl hn
  · exact absurd rfl hn

end Reader

/-- a text that is empty or ends in a newline, with no quoted field open there -/
def Complete (s : Bytes) : Prop :=
  s = [] ∨ s.getLast? = some Bytes.newline ∧ (Reader.initial.run (normalize s)).place ≠ .quoted

variable {s : Bytes}

theorem Complete.between (h : Complete s) :
    (Reader.initial.run (normalize s)).place = .between := by
  rcases h with rfl | ⟨hlast, hopen⟩
  · rfl
  · obtain ⟨t, rfl⟩ := List.getLast?_eq_some_iff.mp hlast
    rw [normalize_append_newline, Reader.run_append] at hopen ⊢
    exact Reader.between_of_step_newline _ hopen

/-- the reader is as at the start, but for the lines and rows above -/
theorem Complete.run_eq (h : Complete s) :
    Reader.initial.run (normalize s) =
      Reader.initial.below (s.count Bytes.newline) (readAll s).reverse := by
  have hclear := Reader.clear_run (fun _ => rfl : Reader.initial.Clear) (normalize s) h.between
  have hrows : (readAll s).reverse = (Reader.initial.run (normalize s)).rows := by
    rw [readAll, Reader.finish, h.between, List.reverse_reverse]
  rw [hclear, Reader.line_run, count_newline_normalize, ← hrows]
  rfl

theorem Complete.normalize_append (h : Complete s) (t : Bytes) :
    normalize (s ++ t) = normalize s ++ normalize t := by
  have hlast : s.getLast? ≠ some Bytes.carriageReturn := by
    rcases h with rfl | ⟨hlast, -⟩
    · exact (Option.some_ne_none _).symm
    · rw [hlast]
      decide
  have e := Row.normalize_append s [] hlast
  rw [List.append_nil] at e
  rw [Row.normalize_append s t hlast, e]
  simp [normalize]

/-- the rows behind a complete text are those of the rest on its own, further down -/
theorem readAll_append (h : Complete s) (t : Bytes) :
    readAll (s ++ t) = readAll s ++ (readAll t).map (lower (s.count Bytes.newline)) := by
  rw [readAll, h.normalize_append, Reader.run_append, h.run_eq, Reader.below_run,
    Reader.below_finish, List.reverse_reverse]
  rfl

end Row

/-! ### tables of texts -/

/-- the rows are records, and these are the records -/
def Record.OfRows (rows : List Row) (rs : List Record) : Prop :=
  List.Forall₂ (fun row r => Record.ofRow row = .ok r) rows rs

/-- the error found `k` lines further down -/
def RowError.lower (k : Nat) (e : RowError) : RowError := { e with line := e.line + k }

theorem Record.ofRow_lower (k : Nat) (row : Row) :
    Record.ofRow (row.lower k) = (Record.ofRow row).mapError (RowError.lower k) := by
  obtain ⟨line, fields⟩ := row
  match fields with
  | [] => rfl
  | [_] => rfl
  | [_, _] => rfl
  | _ :: _ :: text :: _ =>
    simp only [Record.ofRow, Row.lower]
    cases Size.read? text with
    | none => rfl
    | some size => rfl

namespace Table

theorem addRows_append (t : Table) (a b : List Row) :
    t.addRows (a ++ b) = (t.addRows a).bind fun u => u.addRows b := by
  induction a generalizing t with
  | nil => rfl
  | cons row rest ih =>
    rw [List.cons_append, addRows, addRows]
    cases Record.ofRow row with
    | ok r => exact ih (t.add r)
    | error e => rfl

theorem addRows_lower (t : Table) (k : Nat) (rows : List Row) :
    t.addRows (rows.map (Row.lower k)) = (t.addRows rows).mapError (RowError.lower k) := by
  induction rows generalizing t with
  | nil => rfl
  | cons row rest ih =>
    rw [List.map_cons, addRows, addRows, Record.ofRow_lower]
    cases Record.ofRow row with
    | ok r => exact ih (t.add r)
    | error e => rfl

theorem addRows_of_rows {rows : List Row} {rs : List Record} (h : Record.OfRows rows rs)
    (t : Table) : t.addRows rows = .ok (t.addAll rs) := by
  unfold Record.OfRows at h
  induction h generalizing t with
  | nil => rfl
  | @cons row r _ _ hrow _ ih =>
    rw [addRows, hrow]
    exact ih (t.add r)

/-- which table the rows are added to decides neither whether they are records nor the error -/
theorem addRows_cases (rows : List Row) :
    (∃ rs, Record.OfRows rows rs) ∨ ∃ e, ∀ t : Table, t.addRows rows = .error e := by
  induction rows with
  | nil => exact .inl ⟨[], .nil⟩
  | cons row rest ih =>
    cases hrow : Record.ofRow row with
    | error e =>
      refine .inr ⟨e, fun t => ?_⟩
      rw [addRows, hrow]
    | ok r =>
      rcases ih with ⟨rs, hrs⟩ | ⟨e, he⟩
      · exact .inl ⟨r :: rs, .cons hrow hrs⟩
      · refine .inr ⟨e, fun t => ?_⟩
        rw [addRows, hrow]
        exact he (t.add r)

/-- **Line ends do not matter.** If no carriage return stands before a newline, one may be put
before every newline: the table, or the error with its line and its text, stays the same. -/
theorem read_returnEnds (s : Bytes) (h : ¬ [Bytes.carriageReturn, Bytes.newline] <:+: s) :
    Table.read (Row.returnEnds s) = Table.read s := by
  rw [Table.read, Table.read, Row.readAll, Row.readAll, Row.normalize_returnEnds h]

/-- a name that goes on over two lines, a blank line, a carriage return as data and a quote that is
never closed -/
def sampleEnds : Bytes := Bytes.ofString "\"a\nb\",O1,inf\n\nx\ry,\"O\n"

theorem read_returnEnds_sample :
    ¬ [Bytes.carriageReturn, Bytes.newline] <:+: sampleEnds ∧
      Table.read (Bytes.ofString "\"a\r\nb\",O1,inf\r\n\r\nx\ry,\"O\r\n") =
        Table.read sampleEnds ∧
      Table.read sampleEnds = .error ⟨4, .columns 2⟩ := by
  have hends : ¬ [Bytes.carriageReturn, Bytes.newline] <:+: sampleEnds := by decide +kernel
  have htext : Row.returnEnds sampleEnds =
      Bytes.ofString "\"a\r\nb\",O1,inf\r\n\r\nx\ry,\"O\r\n" := by decide +kernel
  have hrows : Row.readAll sampleEnds =
      [⟨1, [Bytes.ofString "a\nb", Bytes.ofString "O1", Bytes.ofString "inf"]⟩,
        ⟨4, [Bytes.ofString "x\ry", Bytes.ofString "O\n"]⟩] := by decide +kernel
  refine ⟨hends, htext ▸ read_returnEnds sampleEnds hends, ?_⟩
  rw [Table.read, hrows]
  rfl

/-! ### one text behind another -/

theorem read_append (s t : Bytes) (h : Row.Complete s) :
    Table.read (s ++ t) = (Table.read s).bind fun u =>
      (u.addRows (Row.readAll t)).mapError (RowError.lower (s.count Bytes.newline)) := by
  rw [Table.read, Row.readAll_append h, addRows_append]
  simp only [addRows_lower]
  rfl

theorem ofRows_iff_read (s : Bytes) :
    (∃ rs, Record.OfRows (Row.readAll s) rs) ↔ ∃ t, Table.read s = .ok t := by
  constructor
  · rintro ⟨rs, hrs⟩
    exact ⟨_, addRows_of_rows hrs empty⟩
  · rintro ⟨t, ht⟩
    rcases addRows_cases (Row.readAll s) with hrs | ⟨e, he⟩
    · exact hrs
    · cases ht.symm.trans (he empty)

theorem read_twice (s : Bytes) (h : Row.Complete s) : Table.read (s ++ s) = Table.read s := by
  rw [read_append s s h]
  rcases addRows_cases (Row.readAll s) with ⟨rs, hrs⟩ | ⟨e, he⟩
  · have hread : Table.read s = .ok (empty.addAll rs) := addRows_of_rows hrs empty
    rw [hread]
    show ((empty.addAll rs).addRows (Row.readAll s)).mapError _ = _
    rw [addRows_of_rows hrs, addAll_again]
    rfl
  · have hread : Table.read s = .error e := he empty
    rw [hread]
    rfl

/-- **A text behind a complete one is read in sequence with it.** An error of the first text stays.
If the first text gives a table, the records of the second one are added to it, so that they win
over the earlier ones and their new files come last, or the error of the second one is found further
down by the lines of the first. So a complete text may stand twice. -/
theorem read_in_sequence (s t : Bytes) (h : Row.Complete s) :
    (∀ e, Table.read s = .error e → Table.read (s ++ t) = .error e) ∧
    (∀ u, Table.read s = .ok u →
      (∀ rs, Record.OfRows (Row.readAll t) rs →
        Table.read (s ++ t) = .ok (u.addAll rs) ∧ u.files <+: (u.addAll rs).files ∧
        ∀ file optimization, (u.addAll rs).size? file optimization =
          (lastSize? rs file optimization).or (u.size? file optimization)) ∧
      ∀ e, Table.read t = .error e →
        Table.read (s ++ t) = .error ⟨e.line + s.count Bytes.newline, e.fault⟩) ∧
    ((∃ rs, Record.OfRows (Row.readAll t) rs) ↔ ∃ u, Table.read t = .ok u) ∧
    Table.read (s ++ s) = Table.read s := by
  have happend := read_append s t h
  refine ⟨?_, ?_, ofRows_iff_read t, read_twice s h⟩
  · intro e he
    rw [happend, he]
    rfl
  · intro u hu
    rw [hu] at happend
    constructor
    · intro rs hrs
      refine ⟨?_, u.files_prefix_addAll rs, u.size?_addAll rs⟩
      rw [happend]
      show (u.addRows (Row.readAll t)).mapError _ = _
      rw [addRows_of_rows hrs]
      rfl
    · intro e he
      rcases addRows_cases (Row.readAll t) with ⟨rs, hrs⟩ | ⟨e', he'⟩
      · cases he.symm.trans (addRows_of_rows hrs empty)
      · cases he.symm.trans (he' empty)
        rw [happend]
        show (u.addRows (Row.readAll t)).mapError _ = _
        rw [he']
        rfl

/-- the second row goes on over two lines -/
def sampleComplete : Bytes := Bytes.ofString "f,O1,inf\n\"x\ny\",O1,inf\r\n"

/-- a row of the same file and optimization, and one with an open quote at the end of the text -/
def sampleBehind : Bytes := Bytes.ofString "f,O1,-inf\ng,O2,inf,\""

theorem read_in_sequence_sample :
    Row.Complete sampleComplete ∧
      Table.read (sampleComplete ++ sampleBehind) =
        .ok ((empty.addAll [⟨Bytes.ofString "f", Bytes.ofString "O1", Binary64.infinity false⟩,
          ⟨Bytes.ofString "x\ny", Bytes.ofString "O1", Binary64.infinity false⟩]).addAll [
          ⟨Bytes.ofString "f", Bytes.ofString "O1", Binary64.infinity true⟩,
          ⟨Bytes.ofString "g", Bytes.ofString "O2", Binary64.infinity false⟩]) ∧
      Table.read (sampleComplete ++ Bytes.ofString "\ng,O2\n") = .error ⟨5, .columns 2⟩ ∧
      Table.read (sampleComplete ++ sampleComplete) = Table.read sampleComplete := by
  have h : Row.Complete sampleComplete := .inr (by decide +kernel)
  have hrows : Row.readAll sampleComplete =
      [⟨1, [Bytes.ofString "f", Bytes.ofString "O1", Bytes.ofString "inf"]⟩,
        ⟨2, [Bytes.ofString "x\ny", Bytes.ofString "O1", Bytes.ofString "inf"]⟩] := by
    decide +kernel
  have hbehind : Row.readAll sampleBehind =
      [⟨1, [Bytes.ofString "f", Bytes.ofString "O1", Bytes.ofString "-inf"]⟩,
        ⟨2, [Bytes.ofString "g", Bytes.ofString "O2", Bytes.ofString "inf", []]⟩] := by
    decide +kernel
  have hread : Table.read sampleComplete = .ok (empty.addAll [
      ⟨Bytes.ofString "f", Bytes.ofString "O1", Binary64.infinity false⟩,
      ⟨Bytes.ofString "x\ny", Bytes.ofString "O1", Binary64.infinity false⟩]) := by
    rw [Table.read, hrows]
    rfl
  have herror : Table.read (Bytes.ofString "\ng,O2\n") = .error ⟨2, .columns 2⟩ := by
    have e : Row.readAll (Bytes.ofString "\ng,O2\n") =
        [⟨2, [Bytes.ofString "g", Bytes.ofString "O2"]⟩] := by decide +kernel
    rw [Table.read, e]
    rfl
  obtain ⟨-, hok, -, htwice⟩ := read_in_sequence sampleComplete sampleBehind h
  obtain ⟨-, hbad, -, -⟩ := read_in_sequence sampleComplete (Bytes.ofString "\ng,O2\n") h
  refine ⟨h, ((hok _ hread).1 _ ?_).1, (hbad _ hread).2 _ herror, htwice⟩
  rw [hbehind]
  exact .cons rfl (.cons rfl .nil)

end Table

end Footprint
