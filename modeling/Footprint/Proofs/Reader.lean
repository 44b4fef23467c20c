import Mathlib.Data.List.Induction
import Footprint.Proofs.LineEnds

/-!
# What the reader of rows can do

`Reader.step_cases` lists the effects that one byte can have. Everything that holds along a whole
text is derived from it: the reader counts the newlines it has read (`line_run`), rows that are
complete stay (`finish_run_eq`), and a row starts on a line that the text has (`Tracks`).
-/

namespace Footprint.Row

/-- the number of lines of a text; the last one may lack its newline -/
def lineCount (s : Bytes) : Nat :=
  s.count Bytes.newline + if s.getLast?.all (· = Bytes.newline) then 0 else 1

theorem lineCount_concat (s : Bytes) (b : UInt8) :
    lineCount (s ++ [b]) = s.count Bytes.newline + 1 := by
  unfold lineCount
  rw [List.getLast?_concat, List.count_append]
  by_cases h : b = Bytes.newline
  · simp [h]
  · simp [h]

theorem lineCount_normalize_le (s : Bytes) : lineCount (normalize s) ≤ lineCount s := by
  rcases List.eq_nil_or_concat s with rfl | ⟨t, b, rfl⟩
  · exact Nat.le_refl _
  · rw [List.concat_eq_append, lineCount_concat]
    by_cases hb : b = Bytes.newline
    · apply Nat.le_of_eq
      rw [hb, normalize_append_newline, lineCount_concat, count_newline_normalize]
    · have h : lineCount (normalize (t ++ [b])) ≤ (t ++ [b]).count Bytes.newline + 1 := by
        rw [← count_newline_normalize]
        unfold lineCount
        split <;> omega
      rwa [List.count_append, List.count_singleton, beq_false_of_ne hb] at h

namespace Reader

/-- before a row on line `n`, with the rows above it -/
def atLine (n : Nat) (rows : List Row) : Reader := ⟨.between, n, n, [], [], rows⟩

theorem initial_eq_atLine : initial = atLine 1 [] := rfl

/-! ### one byte -/

/-- the effects of a byte: a blank line passes, a row ends, a newline is data, a field ends, or
only the open field and the place change -/
theorem step_cases (r : Reader) (b : UInt8) :
    (r.place = .between ∧ b = Bytes.newline ∧
      r.step b = { r.nextLine with start := r.line + 1 }) ∨
    (r.place ≠ .between ∧ b = Bytes.newline ∧ r.step b = r.nextLine.endRow) ∨
    (r.place = .quoted ∧ b = Bytes.newline ∧ r.step b = r.nextLine.push .quoted b) ∨
    (b ≠ Bytes.newline ∧ r.step b = r.endField) ∨
    (b ≠ Bytes.newline ∧ ∃ place field, place ≠ .between ∧ r.step b = { r with place, field }) := by
  obtain ⟨place, line, start, field, fields, rows⟩ := r
  by_cases hn : b = Bytes.newline
  · subst hn
    cases place with
    | between => exact .inl ⟨rfl, rfl, rfl⟩
    | quoted => exact .inr (.inr (.inl ⟨rfl, rfl, rfl⟩))
    | fieldStart => exact .inr (.inl ⟨Place.noConfusion, rfl, rfl⟩)
    | bare => exact .inr (.inl ⟨Place.noConfusion, rfl, rfl⟩)
    | closing => exact .inr (.inl ⟨Place.noConfusion, rfl, rfl⟩)
  · refine .inr (.inr (.inr ?_))
    by_cases hc : b = Bytes.comma
    · subst hc
      cases place with
      | quoted => exact .inr ⟨hn, .quoted, _, Place.noConfusion, rfl⟩
      | between => exact .inl ⟨hn, rfl⟩
      | fieldStart => exact .inl ⟨hn, rfl⟩
      | bare => exact .inl ⟨hn, rfl⟩
      | closing => exact .inl ⟨hn, rfl⟩
    · refine .inr ⟨hn, ?_⟩
      by_cases hq : b = Bytes.quote
      · subst hq
        cases place with
        | between => exact ⟨.quoted, _, Place.noConfusion, rfl⟩
        | fieldStart => exact ⟨.quoted, _, Place.noConfusion, rfl⟩
        | bare => exact ⟨.bare, _, Place.noConfusion, rfl⟩
        | quoted => exact ⟨.closing, _, Place.noConfusion, rfl⟩
        | closing => exact ⟨.quoted, _, Place.noConfusion, rfl⟩
      · cases place with
        | between =>
          refine ⟨.bare, b :: field, Place.noConfusion, ?_⟩
          simp [step, startField, push, hn, hc, hq]
        | fieldStart =>
          refine ⟨.bare, b :: field, Place.noConfusion, ?_⟩
          simp [step, startField, push, hn, hc, hq]
        | bare =>
          refine ⟨.bare, b :: field, Place.noConfusion, ?_⟩
          simp [step, push, hn, hc]
        | quoted =>
          refine ⟨.quoted, b :: field, Place.noConfusion, ?_⟩
          simp [step, push, hn, hq]
        | closing =>
          refine ⟨.quoted, b :: Bytes.quote :: field, Place.noConfusion, ?_⟩
          simp [step, push, hn, hc, hq]

theorem step_comma (r : Reader) (h : r.place ≠ .quoted) : r.step Bytes.comma = r.endField := by
  obtain ⟨place, line, start, field, fields, rows⟩ := r
  cases place with
  | quoted => exact absurd rfl h
  | between => rfl
  | fieldStart => rfl
  | bare => rfl
  | closing => rfl

theorem step_newline (r : Reader) (hb : r.place ≠ .between) (hq : r.place ≠ .quoted) :
    r.step Bytes.newline = r.nextLine.endRow := by
  obtain ⟨place, line, start, field, fields, rows⟩ := r
  cases place with
  | between => exact absurd rfl hb
  | quoted => exact absurd rfl hq
  | fieldStart => rfl
  | bare => rfl
  | closing => rfl

theorem line_step (r : Reader) (b : UInt8) :
    (r.step b).line = r.line + [b].count Bytes.newline := by
  rcases r.step_cases b with ⟨_, rfl, h⟩ | ⟨_, rfl, h⟩ | ⟨_, rfl, h⟩ | ⟨hb, h⟩ | ⟨hb, p, f, _, h⟩
  · rw [h]; rfl
  · rw [h]; rfl
  · rw [h]; rfl
  · rw [h, List.count_cons_of_ne hb]; rfl
  · rw [h, List.count_cons_of_ne hb]; rfl

theorem line_run (r : Reader) (s : Bytes) : (r.run s).line = r.line + s.count Bytes.newline := by
  induction s generalizing r with
  | nil => rfl
  | cons b rest ih =>
    rw [run_cons, ih, line_step]
    simp only [List.count_cons, List.count_nil]
    omega

/-! ### complete rows stay -/

theorem rows_step (r : Reader) (b : UInt8) : r.rows <:+ (r.step b).rows := by
  rcases r.step_cases b with ⟨_, _, h⟩ | ⟨_, _, h⟩ | ⟨_, _, h⟩ | ⟨_, h⟩ | ⟨_, p, f, _, h⟩
  · exact h ▸ List.suffix_refl _
  · exact h ▸ List.suffix_cons _ _
  · exact h ▸ List.suffix_refl _
  · exact h ▸ List.suffix_refl _
  · exact h ▸ List.suffix_refl _

theorem rows_run (r : Reader) (s : Bytes) : r.rows <:+ (r.run s).rows := by
  induction s generalizing r with
  | nil => exact List.suffix_refl _
  | cons b rest ih => exact (rows_step r b).trans (ih (r.step b))

theorem rows_finish (r : Reader) : r.rows.reverse <+: r.finish := by
  obtain ⟨place, line, start, field, fields, rows⟩ := r
  have h : rows.reverse <+: (⟨start, (field.reverse :: fields).reverse⟩ :: rows).reverse := by
    rw [List.reverse_cons]; exact List.prefix_append _ _
  cases place with
  | between => exact List.prefix_refl _
  | fieldStart => exact h
  | bare => exact h
  | quoted => exact h
  | closing => exact h

/-- rows that are complete are read whatever follows -/
theorem finish_run_eq (r : Reader) (s : Bytes) :
    ∃ later, (r.run s).finish = r.rows.reverse ++ later := by
  obtain ⟨later, h⟩ := (List.reverse_prefix.mpr (rows_run r s)).trans (rows_finish (r.run s))
  exact ⟨later, h.symm⟩

/-- a newline that brings the reader between rows adds nothing to what the end of the text gives -/
theorem finish_of_step_newline (r : Reader) (h : (r.step Bytes.newline).place = .between) :
    r.finish = (r.step Bytes.newline).finish := by
  obtain ⟨place, line, start, field, fields, rows⟩ := r
  cases place with
  | quoted => cases h
  | between => rfl
  | fieldStart => rfl
  | bare => rfl
  | closing => rfl

/-! ### where rows start -/

/-- the state `r` of a reader that has read `s` -/
structure Tracks (s : Bytes) (r : Reader) : Prop where
  line : r.line = s.count Bytes.newline + 1
  /-- the open row, or the next one, starts on a line that is there -/
  pos : 1 ≤ r.start
  fresh : r.place = .between → r.start = r.line
  opened : r.place ≠ .between → r.start ≤ lineCount s
  rows : ∀ row ∈ r.rows, 1 ≤ row.line ∧ row.line ≤ lineCount s ∧ row.fields ≠ []

theorem tracks_initial : Tracks [] initial :=
  ⟨rfl, Nat.le_refl 1, fun _ => rfl, fun h => absurd rfl h, fun _ h => absurd h List.not_mem_nil⟩

theorem Tracks.start_le {s : Bytes} {r : Reader} (h : Tracks s r) :
    r.start ≤ s.count Bytes.newline + 1 := by
  by_cases hp : r.place = .between
  · exact Nat.le_of_eq ((h.fresh hp).trans h.line)
  · refine Nat.le_trans (h.opened hp) ?_
    unfold lineCount
    split <;> omega

theorem tracks_step {s : Bytes} {r : Reader} (h : Tracks s r) (b : UInt8) :
    Tracks (s ++ [b]) (r.step b) := by
  have hstart : r.start ≤ lineCount (s ++ [b]) := by
    rw [lineCount_concat]; exact h.start_le
  have hrows : ∀ row ∈ r.rows,
      1 ≤ row.line ∧ row.line ≤ lineCount (s ++ [b]) ∧ row.fields ≠ [] := by
    intro row hrow
    obtain ⟨h1, h2, h3⟩ := h.rows row hrow
    refine ⟨h1, Nat.le_trans h2 ?_, h3⟩
    rw [lineCount_concat]
    unfold lineCount
    split <;> omega
  have hline : (r.step b).line = (s ++ [b]).count Bytes.newline + 1 := by
    rw [line_step, h.line, List.count_append]; omega
  -- only the end of a row adds one, and that row started where the reader said
  rcases r.step_cases b with ⟨_, _, e⟩ | ⟨_, _, e⟩ | ⟨_, _, e⟩ | ⟨_, e⟩ | ⟨_, p, f, hp, e⟩
  · rw [e] at hline ⊢
    exact ⟨hline, Nat.succ_le_succ (Nat.zero_le _), fun _ => rfl,
      fun hp => absurd ‹r.place = .between› hp, hrows⟩
  · rw [e] at hline ⊢
    refine ⟨hline, Nat.succ_le_succ (Nat.zero_le _), fun _ => rfl, fun hp => absurd rfl hp, ?_⟩
    intro row hrow
    rcases List.mem_cons.mp hrow with rfl | hrow
    · exact ⟨h.pos, hstart, by simp⟩
    · exact hrows row hrow
  · rw [e] at hline ⊢
    exact ⟨hline, h.pos, fun hp => Place.noConfusion hp, fun _ => hstart, hrows⟩
  · rw [e] at hline ⊢
    exact ⟨hline, h.pos, fun hp => Place.noConfusion hp, fun _ => hstart, hrows⟩
  · rw [e] at hline ⊢
    exact ⟨hline, h.pos, fun h => absurd h hp, fun _ => hstart, hrows⟩

theorem tracks_run (s : Bytes) : Tracks s (initial.run s) := by
  induction s using List.reverseRecOn with
  | nil => exact tracks_initial
  | append_singleton t b ih =>
    rw [run_append]
    exact tracks_step ih b

theorem tracks_finish {s : Bytes} {r : Reader} (h : Tracks s r) :
    ∀ row ∈ r.finish, 1 ≤ row.line ∧ row.line ≤ lineCount s ∧ row.fields ≠ [] := by
  intro row hrow
  by_cases hp : r.place = .between
  · rw [finish, hp] at hrow
    exact h.rows row (List.mem_reverse.mp hrow)
  · have e : r.finish = r.endRow.rows.reverse := by
      unfold finish
      split
      · next hb => exact absurd hb hp
      · rfl
    rw [e, List.mem_reverse] at hrow
    rcases List.mem_cons.mp hrow with rfl | hrow
    · exact ⟨h.pos, h.opened hp, by simp⟩
    · exact h.rows row hrow

end Reader

/-- every row of a text has a field and starts on a line of the text -/
theorem line_of_mem_readAll {s : Bytes} {row : Row} (h : row ∈ readAll s) :
    1 ≤ row.line ∧ row.line ≤ lineCount s ∧ row.fields ≠ [] := by
  obtain ⟨h1, h2, h3⟩ := Reader.tracks_finish (Reader.tracks_run (normalize s)) row h
  exact ⟨h1, Nat.le_trans h2 (lineCount_normalize_le s), h3⟩

end Footprint.Row
