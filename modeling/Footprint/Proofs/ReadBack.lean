import Mathlib.Data.List.DropRight
import Mathlib.Data.List.Forall2
import Footprint.Proofs.FixedText
import Footprint.Proofs.Trimming

/-!
# Printed reports can be read back

A row is a name and words behind it, with blanks before each word. A name may imitate all of that,
and columns may be too narrow for what stands in them, but words have no blanks, and a row of one
kind always has the same number of them. So a row is read from its end, word by word
(`Listing.cutWords`), and what is left is the name, provided that it does not end in a blank itself.

* `Listing.Words.cutWords_eq`  the words behind a name, and the name, are found again;
* `Listing.readDelta_row`      a row of a comparison says what it was printed from;
* `Listing.linesOf_text`       lines are found again;
* `Listing.readDeltas_text`, `Listing.readSummary_text`  so are the rows of whole reports.
-/

namespace Footprint

/-! ### printed numbers are words -/

/-- a text without blanks and line ends -/
def Word (w : Bytes) : Prop := w ≠ [] ∧ ∀ b ∈ w, Visible b

theorem word_of_all {w : Bytes} (hne : w.isEmpty = false)
    (h : (w.all fun b => decide (Visible b)) = true) : Word w :=
  ⟨List.isEmpty_eq_false_iff.mp hne, fun b hb => of_decide_eq_true (List.all_eq_true.mp h b hb)⟩

theorem not_visible_space : ¬ Visible Bytes.space := by decide

theorem not_visible_newline : ¬ Visible Bytes.newline := by decide

theorem Word.not_mem {w : Bytes} (hw : Word w) {b : UInt8} (hb : ¬ Visible b) : b ∉ w :=
  fun hmem => hb (hw.2 b hmem)

theorem Word.append {s w : Bytes} (hs : ∀ b ∈ s, Visible b) (hw : Word w) : Word (s ++ w) := by
  refine ⟨List.append_ne_nil_of_right_ne_nil s hw.1, fun b hb => ?_⟩
  exact (List.mem_append.mp hb).elim (hs b) (hw.2 b)

theorem Spells.visible {s : Bytes} {n : ℕ} (h : Spells s n) : ∀ b ∈ s, Visible b := by
  intro b hb
  have hdigit := (Radix.isDigit_decimal_iff b).mp (h.digits b hb)
  unfold Visible
  omega

theorem SignStyle.visible_text (style : SignStyle) (negative : Bool) :
    ∀ b ∈ style.text negative, Visible b := by
  cases negative with
  | true => exact (word_of_all rfl rfl : Word [Bytes.minus]).2
  | false =>
    cases style with
    | onlyMinus => exact nofun
    | always => exact (word_of_all rfl rfl : Word [Bytes.plus]).2

namespace Fixed

theorem word_magnitude (n : ℕ) : Word (magnitude n) := by
  have h := writes_magnitude n
  generalize magnitude n = text at h
  cases h with
  | mk hwhole _ _ hplaces _ =>
    refine Word.append hwhole.visible ⟨List.cons_ne_nil _ _, List.forall_mem_cons.mpr ⟨?_, ?_⟩⟩
    · decide
    · exact hplaces.visible

theorem word_render (style : SignStyle) (x : Number) : Word (render style x) := by
  cases x with
  | nan => exact Word.append (style.visible_text false) (word_of_all rfl rfl)
  | infinite negative =>
    exact Word.append (SignStyle.always.visible_text negative) (word_of_all rfl rfl)
  | finite negative units =>
    exact Word.append (style.visible_text negative) (word_magnitude _)

theorem getLast?_magnitude (n : ℕ) :
    ∃ b, (magnitude n).getLast? = some b ∧ 48 ≤ b.toNat ∧ b.toNat ≤ 57 := by
  refine ⟨UInt8.ofNat (48 + n % 100 % 10), ?_, ?_⟩
  · unfold magnitude
    rw [List.getLast?_append_of_ne_nil _ (List.cons_ne_nil _ _)]
    rfl
  · rw [UInt8.toNat_ofNat']
    omega

/-- a printed number ends in a digit or in a letter -/
theorem getLast?_render (style : SignStyle) (x : Number) :
    ∃ b, (render style x).getLast? = some b ∧
      (48 ≤ b.toNat ∧ b.toNat ≤ 57 ∨ 65 ≤ b.toNat) := by
  cases x with
  | nan =>
    refine ⟨78, ?_, by decide⟩
    show (style.text false ++ Bytes.ofString "NaN").getLast? = some 78
    rw [List.getLast?_append_of_ne_nil _ (by decide)]
    decide
  | infinite negative =>
    refine ⟨102, ?_, by decide⟩
    show (SignStyle.always.text negative ++ Bytes.ofString "Inf").getLast? = some 102
    rw [List.getLast?_append_of_ne_nil _ (by decide)]
    decide
  | finite negative units =>
    obtain ⟨b, hlast, hdigit⟩ := getLast?_magnitude (hundredths units)
    refine ⟨b, ?_, .inl hdigit⟩
    show (style.text negative ++ magnitude (hundredths units)).getLast? = some b
    rw [List.getLast?_append_of_ne_nil _ (word_magnitude _).1, hlast]

end Fixed

theorem word_fixed (x : Float) : Word (fixed x) := Fixed.word_render _ _

theorem word_signedFixed (x : Float) : Word (signedFixed x) := Fixed.word_render _ _

namespace Listing

theorem word_percentage (x : Float) : Word (percentage x) :=
  Word.append (word_signedFixed x).2 (word_of_all rfl rfl)

/-! ### rows of words -/

def Spaces (s : Bytes) : Prop := ∀ b ∈ s, b = Bytes.space

/-- blanks between two words -/
def Gap (s : Bytes) : Prop := s ≠ [] ∧ Spaces s

/-- a row: a name, and words with blanks before each of them -/
inductive Words (name : Bytes) : List Bytes → Bytes → Prop where
  | name : Words name [] name
  | word {ws : List Bytes} {front gap w : Bytes} : Words name ws front → Gap gap → Word w →
    Words name (ws ++ [w]) (front ++ (gap ++ w))

/-- the last word of a row, and what stands before it and its blanks -/
def cutWord (s : Bytes) : Bytes × Bytes :=
  ((s.rdropWhile (· != Bytes.space)).rdropWhile (· == Bytes.space),
    s.rtakeWhile (· != Bytes.space))

/-- the last `k` words of a row, and what stands before them -/
def cutWords : Nat → Bytes → Bytes × List Bytes
  | 0, s => (s, [])
  | k + 1, s =>
    let (front, w) := cutWord s
    let (name, ws) := cutWords k front
    (name, ws ++ [w])

theorem rdropWhile_of_getLast? {p : UInt8 → Bool} {s : Bytes}
    (h : ∀ b, s.getLast? = some b → p b = false) : s.rdropWhile p = s := by
  rw [List.rdropWhile_eq_self_iff]
  intro hne
  rw [h _ (List.getLast?_eq_some_getLast hne)]
  exact Bool.false_ne_true

theorem cutWord_append {front gap w : Bytes} (hfront : front.getLast? ≠ some Bytes.space)
    (hgap : Gap gap) (hw : Word w) : cutWord (front ++ (gap ++ w)) = (front, w) := by
  have hnospace : ∀ b ∈ w, (b != Bytes.space) = true := by
    intro b hb
    rw [bne_iff_ne]
    rintro rfl
    exact hw.not_mem not_visible_space hb
  -- what the word leaves ends in a blank, as the gap is not empty
  have hleft : (front ++ (gap ++ w)).rdropWhile (· != Bytes.space) = front ++ gap := by
    rw [← List.append_assoc, rdropWhile_append_of_pos hnospace]
    apply rdropWhile_of_getLast?
    intro b hb
    rw [List.getLast?_append_of_ne_nil _ hgap.1] at hb
    rw [hgap.2 b (List.mem_of_getLast? hb)]
    decide
  have hword : (front ++ (gap ++ w)).rtakeWhile (· != Bytes.space) = w := by
    have hparts := List.rdropWhile_append_rtakeWhile (p := (· != Bytes.space))
      (l := front ++ (gap ++ w))
    rw [hleft] at hparts
    exact List.append_cancel_left (hparts.trans (List.append_assoc _ _ _).symm)
  unfold cutWord
  rw [hleft, hword, rdropWhile_append_of_pos fun b hb => by rw [hgap.2 b hb]; decide]
  rw [rdropWhile_of_getLast?]
  intro b hb
  rw [beq_eq_false_iff_ne]
  rintro rfl
  exact hfront hb

namespace Words

variable {name : Bytes} {ws : List Bytes} {row : Bytes}

theorem getLast?_ne (h : Words name ws row) (hname : name.getLast? ≠ some Bytes.space) :
    row.getLast? ≠ some Bytes.space := by
  cases h with
  | name => exact hname
  | word _ _ hw =>
    rw [← List.append_assoc, List.getLast?_append_of_ne_nil _ hw.1]
    intro hlast
    exact hw.not_mem not_visible_space (List.mem_of_getLast? hlast)

/-- **Words are found again** from the end of a row, and then the name. -/
theorem cutWords_eq (h : Words name ws row) (hname : name.getLast? ≠ some Bytes.space) :
    cutWords ws.length row = (name, ws) := by
  induction h with
  | name => rfl
  | word hfront hgap hw ih =>
    rw [List.length_append, List.length_singleton, cutWords,
      cutWord_append (hfront.getLast?_ne hname) hgap hw]
    dsimp only
    rw [ih]

theorem newline_not_mem (h : Words name ws row) (hname : Bytes.newline ∉ name) :
    Bytes.newline ∉ row := by
  induction h with
  | name => exact hname
  | word _ hgap hw ih =>
    intro hmem
    rcases List.mem_append.mp hmem with hmem | hmem
    · exact ih hmem
    · rcases List.mem_append.mp hmem with hmem | hmem
      · exact absurd (hgap.2 _ hmem) (by decide)
      · exact hw.not_mem not_visible_newline hmem

theorem cutWord_eq {w : Bytes} (h : Words name [w] row)
    (hname : name.getLast? ≠ some Bytes.space) : cutWord row = (name, w) := by
  have hcut : ((cutWord row).1, [(cutWord row).2]) = (name, [w]) := h.cutWords_eq hname
  obtain ⟨hfront, hword⟩ := Prod.mk.inj hcut
  exact Prod.ext hfront (List.singleton_inj.mp hword)

theorem cutWord_snd {w : Bytes} (h : Words name ws row) (hlast : ws.getLast? = some w)
    (hname : name.getLast? ≠ some Bytes.space) : (cutWord row).2 = w := by
  obtain ⟨front, rfl⟩ := List.getLast?_eq_some_iff.mp hlast
  have hcut := h.cutWords_eq hname
  rw [List.length_append, List.length_singleton, cutWords] at hcut
  exact List.singleton_inj.mp (List.append_inj_right' (Prod.mk.inj hcut).2 rfl)

end Words

/-! ### columns -/

theorem spaces_replicate (n : Nat) : Spaces (List.replicate n Bytes.space) :=
  fun _ hb => List.eq_of_mem_replicate hb

theorem Spaces.append {s t : Bytes} (hs : Spaces s) (ht : Spaces t) : Spaces (s ++ t) :=
  fun b hb => (List.mem_append.mp hb).elim (hs b) (ht b)

theorem gap_space : Gap [Bytes.space] :=
  ⟨List.cons_ne_nil _ _, fun _ hb => List.mem_singleton.mp hb⟩

theorem Gap.append_left {s t : Bytes} (hs : Spaces s) (ht : Gap t) : Gap (s ++ t) :=
  ⟨List.append_ne_nil_of_right_ne_nil s ht.1, hs.append ht.2⟩

theorem Gap.append_right {s t : Bytes} (hs : Gap s) (ht : Spaces t) : Gap (s ++ t) :=
  ⟨List.append_ne_nil_of_left_ne_nil hs.1 t, hs.2.append ht⟩

theorem exists_gap_nameColumn (name : Bytes) : ∃ gap, Gap gap ∧ nameColumn name = name ++ gap :=
  ⟨_, Gap.append_left (spaces_replicate _) gap_space, List.append_assoc _ _ _⟩

theorem exists_spaces_sizeColumn (x : Float) :
    ∃ blanks, Spaces blanks ∧ sizeColumn x = blanks ++ fixed x :=
  ⟨_, spaces_replicate _, rfl⟩

theorem spaces_noSize : Spaces noSize := (spaces_replicate _).append nofun

/-- a name that a row shows in full -/
structure Listable (name : Bytes) : Prop where
  newline : Bytes.newline ∉ name
  space : name.getLast? ≠ some Bytes.space

theorem words_sizeRow (s : Stat) : Words s.name [fixed s.value] (sizeRow s) := by
  obtain ⟨gap, hgap, hcolumn⟩ := exists_gap_nameColumn s.name
  unfold sizeRow
  rw [hcolumn, List.append_assoc]
  exact .word .name hgap (word_fixed s.value)

theorem words_decreaseRow (s : Stat) : Words s.name [percentage s.value] (decreaseRow s) := by
  obtain ⟨gap, hgap, hcolumn⟩ := exists_gap_nameColumn s.name
  unfold decreaseRow
  rw [hcolumn, List.append_assoc]
  exact .word .name hgap (word_percentage s.value)

/-! ### rows of a comparison -/

/-- what a row of a comparison says about a name: on which side it is, and the printed numbers -/
inductive Entry where
  | onlyA (a : Bytes)
  | onlyB (b : Bytes)
  | both (a b change : Bytes)
  deriving DecidableEq

/-- the words of a row behind its name -/
def Entry.words : Entry → List Bytes
  | .onlyA a => [a, Bytes.ofString "only", Bytes.ofString "in", Bytes.ofString "A"]
  | .onlyB b => [b, Bytes.ofString "only", Bytes.ofString "in", Bytes.ofString "B"]
  | .both a b change => [a, b, change ++ [Bytes.percent]]

/-- what a delta says; being only in A wins over being only in B -/
def entry (d : Delta) : Entry :=
  if d.onlyA then .onlyA (fixed d.a)
  else if d.onlyB then .onlyB (fixed d.b)
  else .both (fixed d.a) (fixed d.b) (signedFixed d.change)

theorem Words.only {name x row gap side : Bytes} (h : Words name [x] row) (hgap : Gap gap)
    (hside : Word side) :
    Words name [x, Bytes.ofString "only", Bytes.ofString "in", side]
      (row ++ (gap ++ (Bytes.ofString "only in " ++ side))) := by
  have honly : Word (Bytes.ofString "only") := word_of_all rfl rfl
  have hin : Word (Bytes.ofString "in") := word_of_all rfl rfl
  have hwords : Words name [x, Bytes.ofString "only", Bytes.ofString "in", side] _ :=
    .word (.word (.word h hgap honly) gap_space hin) gap_space hside
  have htext : Bytes.ofString "only in " = Bytes.ofString "only" ++
      ([Bytes.space] ++ (Bytes.ofString "in" ++ [Bytes.space])) := by decide
  rw [htext]
  simpa only [List.append_assoc] using hwords

theorem words_deltaRow (d : Delta) : Words d.name (entry d).words (deltaRow d) := by
  obtain ⟨gap, hgap, hcolumn⟩ := exists_gap_nameColumn d.name
  obtain ⟨blanksA, hblanksA, hsizeA⟩ := exists_spaces_sizeColumn d.a
  obtain ⟨blanksB, hblanksB, hsizeB⟩ := exists_spaces_sizeColumn d.b
  have htwo : Gap (Bytes.ofString "  ") := gap_space.append_right gap_space.2
  have hfirst : Words d.name [fixed d.a] (d.name ++ (gap ++ blanksA ++ fixed d.a)) :=
    .word .name (hgap.append_right hblanksA) (word_fixed d.a)
  unfold deltaRow entry
  rw [hcolumn, hsizeA, hsizeB]
  split
  · show Words d.name [fixed d.a, _, _, _] _
    have hA : Word (Bytes.ofString "A") := word_of_all rfl rfl
    have hrow := hfirst.only ((gap_space.append_right spaces_noSize).append_right htwo.2) hA
    have htail : Bytes.ofString "  only in A" =
        Bytes.ofString "  " ++ (Bytes.ofString "only in " ++ Bytes.ofString "A") := by decide
    rw [htail]
    simpa only [List.append_assoc] using hrow
  · split
    · show Words d.name [fixed d.b, _, _, _] _
      have hB : Word (Bytes.ofString "B") := word_of_all rfl rfl
      have hcolumns := ((hgap.append_right spaces_noSize).append_right gap_space.2).append_right
        hblanksB
      have hsecond : Words d.name [fixed d.b] _ := .word .name hcolumns (word_fixed d.b)
      have hrow := hsecond.only htwo hB
      have htail : Bytes.ofString "  only in B" =
          Bytes.ofString "  " ++ (Bytes.ofString "only in " ++ Bytes.ofString "B") := by decide
      rw [htail]
      simpa only [List.append_assoc] using hrow
    · show Words d.name [fixed d.a, fixed d.b, percentage d.change] _
      have hrow : Words d.name [fixed d.a, fixed d.b, percentage d.change] _ :=
        .word (.word hfirst (gap_space.append_right hblanksB) (word_fixed d.b)) htwo
          (word_percentage d.change)
      simpa only [List.append_assoc] using hrow

/-- what the words of a row say -/
def Entry.ofWords : List Bytes → Entry
  | [x, _, _, side] => if side = Bytes.ofString "A" then .onlyA x else .onlyB x
  | words => .both (words.getD 0 []) (words.getD 1 []) (words.getD 2 []).dropLast

theorem Entry.ofWords_words (e : Entry) : Entry.ofWords e.words = e := by
  cases e with
  | onlyA a => rfl
  | onlyB b => rfl
  | both a b change =>
    show Entry.both a b (change ++ [Bytes.percent]).dropLast = .both a b change
    rw [List.dropLast_concat]

/-- how many words stand behind a name, by the last of them -/
def Entry.countOf (last : Bytes) : Nat :=
  if last = Bytes.ofString "A" ∨ last = Bytes.ofString "B" then 4 else 3

theorem Entry.exists_last (e : Entry) :
    ∃ last, e.words.getLast? = some last ∧ Entry.countOf last = e.words.length := by
  cases e with
  | onlyA a => exact ⟨_, rfl, if_pos (.inl rfl)⟩
  | onlyB b => exact ⟨_, rfl, if_pos (.inr rfl)⟩
  | both a b change =>
    have hpercent : ∀ x ≠ Bytes.percent, change ++ [Bytes.percent] ≠ [x] := by
      intro x hx heq
      have hlast := congrArg List.getLast? heq
      rw [List.getLast?_concat] at hlast
      exact hx (Option.some.inj hlast).symm
    exact ⟨_, rfl, if_neg (not_or.mpr ⟨hpercent 65 (by decide), hpercent 66 (by decide)⟩)⟩

def readDelta (row : Bytes) : Bytes × Entry :=
  let (name, words) := cutWords (Entry.countOf (cutWord row).2) row
  (name, .ofWords words)

/-- **A row of a comparison can be read back**, whatever its name imitates. -/
theorem readDelta_row {d : Delta} (h : Listable d.name) :
    readDelta (deltaRow d) = (d.name, entry d) := by
  have hwords := words_deltaRow d
  obtain ⟨last, hlast, hcount⟩ := (entry d).exists_last
  unfold readDelta
  rw [hwords.cutWord_snd hlast h.space, hcount, hwords.cutWords_eq h.space]
  show (d.name, Entry.ofWords (entry d).words) = (d.name, entry d)
  rw [Entry.ofWords_words]

/-! ### lines -/

/-- the lines of a text -/
def linesOf (s : Bytes) : List Bytes := (s.splitOnP (· == Bytes.newline)).dropLast

theorem linesOf_text {rows : List Bytes} (h : ∀ row ∈ rows, Bytes.newline ∉ row) :
    linesOf (text (rows.map line)) = rows := by
  induction rows with
  | nil => rfl
  | cons row rows ih =>
    obtain ⟨hrow, hrows⟩ := List.forall_mem_cons.mp h
    have hfree : ∀ b ∈ row, (b == Bytes.newline) = false := by
      intro b hb
      rw [beq_eq_false_iff_ne]
      rintro rfl
      exact hrow hb
    have htext : text ((row :: rows).map line) =
        row ++ Bytes.newline :: text (rows.map line) := List.append_assoc row [Bytes.newline] _
    unfold linesOf
    rw [htext, List.splitOnP_append_cons_of_forall_mem hfree _ (by decide),
      List.dropLast_cons_of_ne_nil (List.splitOnP_ne_nil _ _)]
    exact congrArg (row :: ·) (ih hrows)

/-! ### comparisons -/

/-- the rows of a comparison of two reports, behind its heading -/
def readDeltas (nameA nameB s : Bytes) : List (Bytes × Entry) :=
  (linesOf (s.drop (text (deltas nameA nameB [])).length)).map readDelta

theorem readDeltas_text (nameA nameB : Bytes) {ds : List Delta}
    (h : ∀ d ∈ ds, Listable d.name) :
    readDeltas nameA nameB (text (deltas nameA nameB ds)) = ds.map fun d => (d.name, entry d) := by
  have htext : text (deltas nameA nameB ds) =
      text (deltas nameA nameB []) ++ text ((ds.map deltaRow).map line) := by
    unfold deltas text
    rw [List.flatten_append, List.flatten_append, List.map_map]
    simp only [List.map_nil, List.flatten_nil, List.append_nil]
    rfl
  have hrows : ∀ row ∈ ds.map deltaRow, Bytes.newline ∉ row := by
    intro row hrow
    obtain ⟨d, hd, rfl⟩ := List.mem_map.mp hrow
    exact (words_deltaRow d).newline_not_mem (h d hd).newline
  unfold readDeltas
  rw [htext, List.drop_left, linesOf_text hrows, List.map_map]
  exact List.map_congr_left fun d hd => readDelta_row (h d hd)

/-- **A comparison can be read back.** If two lists of deltas are printed alike under the same
report names, they have the same names row by row, on the same sides, with the same printed numbers.
Names may be anything without a line end that does not end in a blank, and numbers may be of any
width, NaN and infinities included. -/
theorem deltas_text_inj {nameA nameB : Bytes} {ds es : List Delta}
    (hds : ∀ d ∈ ds, Listable d.name) (hes : ∀ e ∈ es, Listable e.name)
    (h : text (deltas nameA nameB ds) = text (deltas nameA nameB es)) :
    List.Forall₂ (fun d e => d.name = e.name ∧ entry d = entry e) ds es := by
  have hread : ds.map (fun d => (d.name, entry d)) = es.map fun e => (e.name, entry e) := by
    rw [← readDeltas_text nameA nameB hds, h, readDeltas_text nameA nameB hes]
  have hrows : List.Forall₂ (fun d e => (d.name, entry d) = (e.name, entry e)) ds es :=
    List.forall₂_map_left_iff.mp (List.forall₂_map_right_iff.mp (hread ▸ List.forall₂_refl _))
  exact hrows.imp fun d e hrow => Prod.mk.inj hrow

/-- a name that imitates the end of a row, and two deltas that differ in what is not printed -/
theorem deltas_text_inj_sample :
    let d : Delta := ⟨Bytes.ofString "12.00  only in A", 1, 0, true, false⟩
    let e : Delta := ⟨Bytes.ofString "12.00  only in A", 1, 2, true, true⟩
    (Listable d.name ∧ text (deltas [] [] [d]) = text (deltas [] [] [e])) ∧
      List.Forall₂ (fun d e => d.name = e.name ∧ entry d = entry e) [d] [e] := by
  intro d e
  have hname : Listable (Bytes.ofString "12.00  only in A") := ⟨by decide, by decide⟩
  have hrow : deltaRow d = deltaRow e := by
    unfold deltaRow
    rw [if_pos rfl, if_pos rfl]
  have htext : text (deltas [] [] [d]) = text (deltas [] [] [e]) := by
    unfold deltas deltaLine
    rw [List.map_singleton, List.map_singleton, hrow]
  exact ⟨⟨hname, htext⟩, deltas_text_inj (List.forall_mem_singleton.mpr hname)
    (List.forall_mem_singleton.mpr hname) htext⟩

/-! ### summaries -/

/-- the rows of the two tables of a summary, which an empty line parts -/
def readSummary (s : Bytes) : List (Bytes × Bytes) × List (Bytes × Bytes) :=
  let rows := (linesOf s).drop 2
  ((rows.takeWhile fun row => !row.isEmpty).map cutWord,
    ((rows.dropWhile fun row => !row.isEmpty).drop 3).map fun row =>
      ((cutWord row).1, (cutWord row).2.dropLast))

def sizesHeading : Bytes := Bytes.ofString "Geometric Mean Sizes:"

def decreasesHeading : Bytes :=
  Bytes.ofString "Percentage Decrease from Baseline (averaged per-entry):"

def dashes : Bytes := List.replicate 50 Bytes.minus

theorem summary_eq (s : Summary) : summary s =
    (sizesHeading :: dashes :: (s.sizes.map sizeRow ++
      [] :: decreasesHeading :: dashes :: s.decreases.map decreaseRow)).map line := by
  unfold summary
  simp only [List.map_cons, List.map_append, List.map_map, List.append_assoc, List.cons_append,
    List.nil_append]
  rfl

theorem sizeRow_ne_nil (r : Stat) : sizeRow r ≠ [] :=
  List.append_ne_nil_of_right_ne_nil _ (word_fixed r.value).1

theorem readSummary_text {s : Summary} (hsizes : ∀ r ∈ s.sizes, Listable r.name)
    (hdecreases : ∀ r ∈ s.decreases, Listable r.name) :
    readSummary (text (summary s)) =
      (s.sizes.map fun r => (r.name, fixed r.value),
        s.decreases.map fun r => (r.name, signedFixed r.value)) := by
  have hlines : linesOf (text (summary s)) = sizesHeading :: dashes :: (s.sizes.map sizeRow ++
      [] :: decreasesHeading :: dashes :: s.decreases.map decreaseRow) := by
    rw [summary_eq]
    apply linesOf_text
    simp only [List.forall_mem_cons, List.forall_mem_append, List.forall_mem_map]
    refine ⟨by decide, by decide, fun r hr => ?_, by decide, by decide, by decide, fun r hr => ?_⟩
    · exact (words_sizeRow r).newline_not_mem (hsizes r hr).newline
    · exact (words_decreaseRow r).newline_not_mem (hdecreases r hr).newline
  have hfull : ∀ row ∈ s.sizes.map sizeRow, (!row.isEmpty) = true := by
    intro row hrow
    obtain ⟨r, -, rfl⟩ := List.mem_map.mp hrow
    rw [Bool.not_eq_true', List.isEmpty_eq_false_iff]
    exact sizeRow_ne_nil r
  have hrows : (linesOf (text (summary s))).drop 2 = s.sizes.map sizeRow ++
      [] :: decreasesHeading :: dashes :: s.decreases.map decreaseRow := by
    rw [hlines]
    rfl
  unfold readSummary
  dsimp only
  rw [hrows, List.takeWhile_append_of_pos hfull, List.dropWhile_append_of_pos hfull,
    List.takeWhile_cons_of_neg (by decide), List.dropWhile_cons_of_neg (by decide), List.append_nil]
  show ((s.sizes.map sizeRow).map cutWord, (s.decreases.map decreaseRow).map _) = _
  rw [List.map_map, List.map_map]
  refine Prod.ext (List.map_congr_left fun r hr => ?_) (List.map_congr_left fun r hr => ?_)
  · exact (words_sizeRow r).cutWord_eq (hsizes r hr).space
  · show ((cutWord (decreaseRow r)).1, (cutWord (decreaseRow r)).2.dropLast) = _
    rw [(words_decreaseRow r).cutWord_eq (hdecreases r hr).space]
    show (r.name, (signedFixed r.value ++ [Bytes.percent]).dropLast) = _
    rw [List.dropLast_concat]

/-! ### rows and headings -/

theorem getLast?_sizeRow (r : Stat) :
    ∃ b, (sizeRow r).getLast? = some b ∧ (48 ≤ b.toNat ∧ b.toNat ≤ 57 ∨ 65 ≤ b.toNat) := by
  unfold sizeRow
  rw [List.getLast?_append_of_ne_nil _ (word_fixed r.value).1]
  exact Fixed.getLast?_render _ _

theorem getLast?_decreaseRow (r : Stat) : (decreaseRow r).getLast? = some Bytes.percent := by
  show (nameColumn r.name ++ (signedFixed r.value ++ [Bytes.percent])).getLast? = _
  rw [← List.append_assoc, List.getLast?_concat]

theorem line_inj {s t : Bytes} (h : line s = line t) : s = t := List.append_cancel_right h

/-- the lines of a summary that are not rows -/
def fixedLines : List Bytes := [line [], line sizesHeading, line decreasesHeading, separator]

theorem getLast?_of_mem_fixedLines {row : Bytes} (h : line row ∈ fixedLines) :
    row.getLast? ∈ [none, some 58, some Bytes.minus] := by
  have hlines : fixedLines = [[], sizesHeading, decreasesHeading, dashes].map line := rfl
  rw [hlines] at h
  obtain ⟨_, hmem, heq⟩ := List.mem_map.mp h
  rw [line_inj heq] at hmem
  simp only [List.mem_cons, List.not_mem_nil, or_false] at hmem
  rcases hmem with rfl | rfl | rfl | rfl <;> decide

/-- **A summary can be read back.** If two summaries are printed alike, their sizes have the same
names in the same order with the same printed numbers, and so have their decreases. No row, whatever
its name, is one of the lines around the two tables, and no row of one table is one of the other. -/
theorem summary_text_inj {s t : Summary} (hs : ∀ r ∈ s.sizes ++ s.decreases, Listable r.name)
    (ht : ∀ r ∈ t.sizes ++ t.decreases, Listable r.name)
    (h : text (summary s) = text (summary t)) :
    (s.sizes.map (fun r => (r.name, fixed r.value)) =
        t.sizes.map (fun r => (r.name, fixed r.value)) ∧
      s.decreases.map (fun r => (r.name, signedFixed r.value)) =
        t.decreases.map (fun r => (r.name, signedFixed r.value))) ∧
    ∀ r q : Stat, sizeLine r ∉ fixedLines ∧ decreaseLine r ∉ fixedLines ∧
      sizeLine r ≠ decreaseLine q := by
  obtain ⟨hssizes, hsdecreases⟩ := List.forall_mem_append.mp hs
  obtain ⟨htsizes, htdecreases⟩ := List.forall_mem_append.mp ht
  have hread := congrArg readSummary h
  rw [readSummary_text hssizes hsdecreases, readSummary_text htsizes htdecreases] at hread
  refine ⟨Prod.mk.inj hread, fun r q => ⟨?_, ?_, ?_⟩⟩
  · intro hmem
    obtain ⟨b, hlast, hb⟩ := getLast?_sizeRow r
    have hfixed := getLast?_of_mem_fixedLines hmem
    rw [hlast] at hfixed
    simp only [List.mem_cons, List.not_mem_nil, or_false, reduceCtorEq, false_or,
      Option.some.injEq] at hfixed
    rcases hfixed with rfl | rfl
    · exact absurd hb (by decide)
    · exact absurd hb (by decide)
  · intro hmem
    have hfixed := getLast?_of_mem_fixedLines hmem
    rw [getLast?_decreaseRow] at hfixed
    exact absurd hfixed (by decide)
  · intro heq
    obtain ⟨b, hlast, hb⟩ := getLast?_sizeRow r
    rw [line_inj heq, getLast?_decreaseRow] at hlast
    obtain rfl := Option.some.inj hlast
    exact absurd hb (by decide)

/-- names that imitate a heading and a row of the other table, and two numbers that are printed
alike -/
theorem summary_text_inj_sample :
    let x := Float.ofBits 0x3ff0000000000000
    let y := Float.ofBits 0x3ff0000000000001
    let s : Summary := ⟨[⟨sizesHeading, x⟩], [⟨Bytes.ofString "O2  1.00", x⟩]⟩
    let t : Summary := ⟨[⟨sizesHeading, y⟩], [⟨Bytes.ofString "O2  1.00", x⟩]⟩
    (Listable sizesHeading ∧ Listable (Bytes.ofString "O2  1.00") ∧
      text (summary s) = text (summary t)) ∧
    s.sizes.map (fun r => (r.name, fixed r.value)) =
      t.sizes.map fun r => (r.name, fixed r.value) := by
  intro x y s t
  have hheading : Listable sizesHeading := ⟨by decide, by decide⟩
  have hrow : Listable (Bytes.ofString "O2  1.00") := ⟨by decide, by decide⟩
  have hprinted : fixed x = fixed y := by decide +kernel
  have htext : text (summary s) = text (summary t) := by
    unfold summary
    have hsizes : s.sizes.map sizeLine = t.sizes.map sizeLine := by
      show [line (nameColumn sizesHeading ++ fixed x)] = [line (nameColumn sizesHeading ++ fixed y)]
      rw [hprinted]
    rw [hsizes]
  have hnames : ∀ v : Float, ∀ r ∈ [(⟨sizesHeading, v⟩ : Stat), ⟨Bytes.ofString "O2  1.00", x⟩],
      Listable r.name := by
    intro v
    simp only [List.forall_mem_cons]
    exact ⟨hheading, hrow, nofun⟩
  have hread := summary_text_inj (s := s) (t := t) (hnames x) (hnames y) htext
  exact ⟨⟨hheading, hrow, htext⟩, hread.1.1⟩

end Listing

end Footprint
