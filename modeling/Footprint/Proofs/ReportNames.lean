import Footprint.Proofs.Loading

/-!
# The name of a report

The last element and the extension of a path are found by two scans that know nothing of each
other, and the name is the one without the other. Both stop at the last slash: what stands before
it changes neither (`Path.last_append`, `Path.extension_append`), and behind it the extension is
what follows the last point (`Path.extension_split`). So the extension of a path is an ending of its
last element, and the name is what is left (`Report.name_exact`).
-/

namespace Footprint

namespace Path

variable {d b : Bytes}

/-- what can stand before the last element of a path: nothing, or a text that ends in a slash -/
def Directory (d : Bytes) : Prop := d = [] ∨ d.getLast? = some Bytes.slash

theorem directory_nil : Directory [] := .inl rfl

theorem bne_of_mem_reverse {c : UInt8} (h : c ∉ b) : ∀ x ∈ b.reverse, (x != c) = true := by
  intro x hx
  rw [bne_iff_ne]
  rintro rfl
  exact h (List.mem_reverse.mp hx)

/-- a scan from the end stops at the directory -/
theorem takeWhile_reverse_append (hd : Directory d) (hslash : Bytes.slash ∉ b) :
    (d ++ b).reverse.takeWhile (· != Bytes.slash) = b.reverse := by
  rw [List.reverse_append, List.takeWhile_append_of_pos (bne_of_mem_reverse hslash)]
  rcases hd with rfl | hlast
  · exact List.append_nil _
  · obtain ⟨front, rfl⟩ := List.getLast?_eq_some_iff.mp hlast
    rw [List.reverse_append]
    exact List.append_nil _

theorem takeWhile_reverse (hslash : Bytes.slash ∉ b) :
    b.reverse.takeWhile (· != Bytes.slash) = b.reverse :=
  takeWhile_reverse_append directory_nil hslash

theorem last_append (hd : Directory d) (hne : b ≠ []) (hslash : Bytes.slash ∉ b) :
    last (d ++ b) = b := by
  -- the last byte is no slash, so that none is dropped at the end
  have hdrop : (d ++ b).reverse.dropWhile (· == Bytes.slash) = (d ++ b).reverse := by
    obtain ⟨front, c, hb⟩ := (List.eq_nil_or_concat b).resolve_left hne
    rw [List.concat_eq_append] at hb
    subst hb
    have hc : (c == Bytes.slash) = false := by
      rw [beq_eq_false_iff_ne]
      rintro rfl
      exact hslash (List.mem_append_right _ List.mem_cons_self)
    rw [← List.append_assoc, List.reverse_append]
    show (c :: _).dropWhile _ = _
    rw [List.dropWhile_cons_of_neg (by rw [hc]; decide)]
    rfl
  have hempty : (d ++ b).isEmpty = false := by
    rw [List.isEmpty_eq_false_iff]
    exact List.append_ne_nil_of_right_ne_nil d hne
  have hreverse : (d ++ b).reverse ≠ [] := by
    rw [Ne, List.reverse_eq_nil_iff]
    exact List.append_ne_nil_of_right_ne_nil d hne
  unfold last
  rw [hempty, hdrop, if_neg Bool.false_ne_true]
  split
  · next h => exact absurd h hreverse
  · rw [takeWhile_reverse_append hd hslash, List.reverse_reverse]

theorem extension_append (hd : Directory d) (hslash : Bytes.slash ∉ b) :
    extension (d ++ b) = extension b := by
  unfold extension
  rw [takeWhile_reverse_append hd hslash, takeWhile_reverse hslash]

theorem extension_of_not_mem (hslash : Bytes.slash ∉ b) (hpoint : Bytes.point ∉ b) :
    extension b = [] := by
  unfold extension
  dsimp only
  rw [takeWhile_reverse hslash, if_neg]
  rwa [List.contains_iff_mem, List.mem_reverse]

theorem extension_split {front back : Bytes} (hslash : Bytes.slash ∉ front ++ Bytes.point :: back)
    (hpoint : Bytes.point ∉ back) :
    extension (front ++ Bytes.point :: back) = Bytes.point :: back := by
  have hmem : (front ++ Bytes.point :: back).reverse.contains Bytes.point = true := by
    rw [List.contains_iff_mem, List.mem_reverse]
    exact List.mem_append_right _ List.mem_cons_self
  unfold extension
  dsimp only
  rw [takeWhile_reverse hslash, if_pos hmem, List.reverse_append, List.reverse_cons,
    List.append_assoc, List.takeWhile_append_of_pos (bne_of_mem_reverse hpoint)]
  show Bytes.point :: (back.reverse ++ []).reverse = _
  rw [List.append_nil, List.reverse_reverse]

theorem exists_last_point (h : Bytes.point ∈ b) :
    ∃ front back, b = front ++ Bytes.point :: back ∧ Bytes.point ∉ back := by
  obtain ⟨back, front, hb, hback⟩ := List.eq_append_cons_of_mem (List.mem_reverse.mpr h)
  refine ⟨front.reverse, back.reverse, ?_, by rwa [List.mem_reverse]⟩
  rw [← List.reverse_reverse b, hb, List.reverse_append, List.reverse_cons, List.append_assoc]
  rfl

theorem trimEnding_append (s ending : Bytes) : trimEnding (s ++ ending) ending = s := by
  rw [trimEnding, if_pos (List.isSuffixOf_iff_suffix.mpr (List.suffix_append s ending)),
    List.length_append, Nat.add_sub_cancel, List.take_left]

section
variable (hd : Directory d) (hne : b ≠ []) (hslash : Bytes.slash ∉ b)
include hd hne hslash

theorem stem_of_no_point (hpoint : Bytes.point ∉ b) : stem (d ++ b) = b := by
  rw [stem, last_append hd hne hslash, extension_append hd hslash,
    extension_of_not_mem hslash hpoint]
  simpa using trimEnding_append b []

theorem stem_of_split {front back : Bytes} (hb : b = front ++ Bytes.point :: back)
    (hpoint : Bytes.point ∉ back) : stem (d ++ b) = front := by
  rw [stem, last_append hd hne hslash, extension_append hd hslash]
  subst hb
  rw [extension_split hslash hpoint, trimEnding_append]

theorem stem_append_extension : stem (d ++ b) ++ extension (d ++ b) = b := by
  rw [extension_append hd hslash]
  by_cases hmem : Bytes.point ∈ b
  · obtain ⟨front, back, hb, hpoint⟩ := exists_last_point hmem
    rw [stem_of_split hd hne hslash hb hpoint]
    subst hb
    rw [extension_split hslash hpoint]
  · rw [stem_of_no_point hd hne hslash hmem, extension_of_not_mem hslash hmem, List.append_nil]

end

end Path

/-! ### names of loaded reports -/

theorem Report.readFile_eq_map (read : FileReader) (path : Path) :
    Report.readFile read path = (Table.readFile read path).map fun table => ⟨path.stem, table⟩ := by
  rw [Report.readFile]
  cases Table.readFile read path with
  | error e => rfl
  | ok table => rfl

/-- the report of a path that was loaded among others -/
theorem Loading.Possible.report_eq {read : FileReader} {paths : List Path} {outside : Prop}
    {reports : List Report} (h : Possible read paths outside (.ok reports)) {i : Nat} {path : Path}
    (hi : paths[i]? = some path) :
    ∃ table, Table.readFile read path = .ok table ∧ reports[i]? = some ⟨path.stem, table⟩ := by
  cases h with
  | complete table htable =>
    refine ⟨table path, htable path (List.mem_of_getElem? hi), ?_⟩
    rw [List.getElem?_map, hi]
    rfl

/-- **A report is named by the last element of its path without the extension.** The name is the
part of the element before its last point, or all of it if there is none, whatever stands before
the last slash. It is completed to the element by the extension of the whole path. Under this name
the file is read, and listed among the reports that are loaded with it, in every order of steps. -/
theorem Report.name_exact {d b : Bytes} (hd : Path.Directory d) (hne : b ≠ [])
    (hslash : Bytes.slash ∉ b) :
    let path : Path := d ++ b
    path.stem = Path.stem b ∧
    (Bytes.point ∉ b → path.stem = b) ∧
    (∀ front back, b = front ++ Bytes.point :: back → Bytes.point ∉ back → path.stem = front) ∧
    path.last = b ∧ path.extension <:+ path.last ∧ path.stem ++ path.extension = b ∧
    ∀ read : FileReader,
      Report.readFile read path =
        (Table.readFile read path).map (fun table => Report.mk path.stem table) ∧
      ∀ canceled paths reports (i : Nat), paths[i]? = some path →
        (Report.loadAll read canceled paths = .ok reports ∨
          ∃ events, (Loading.after read canceled paths events).Ended ∧
            (Loading.after read canceled paths events).outcome = .ok reports) →
        ∃ table, Table.readFile read path = .ok table ∧
          reports[i]? = some (Report.mk path.stem table) := by
  intro path
  have hwhole : path.stem ++ path.extension = b := Path.stem_append_extension hd hne hslash
  have hlast : path.last = b := Path.last_append hd hne hslash
  refine ⟨?_, Path.stem_of_no_point hd hne hslash, fun _ _ => Path.stem_of_split hd hne hslash,
    hlast, hlast.symm ▸ ⟨path.stem, hwhole⟩, hwhole, fun read => ⟨readFile_eq_map read path, ?_⟩⟩
  · have hbare : Path.stem b ++ path.extension = b := by
      rw [Path.extension_append hd hslash]
      exact Path.stem_append_extension Path.directory_nil hne hslash
    exact List.append_cancel_right (hwhole.trans hbare.symm)
  · intro canceled paths reports i hi hloaded
    -- loading one file after the other is one of the orders
    obtain ⟨events, hend, houtcome⟩ : ∃ events, (Loading.after read canceled paths events).Ended ∧
        (Loading.after read canceled paths events).outcome = .ok reports := by
      refine hloaded.elim (fun hok => ⟨Loading.inTurn paths.length, ?_, hok⟩) id
      exact Loading.Group.ended_of_turns canceled paths _ fun _ => Loading.three_turns_inTurn
    have hpossible := (Loading.settled_of_ended hend).possible
    rw [houtcome] at hpossible
    exact hpossible.report_eq hi

/-- points and slashes before the last slash, a leading point and two more behind it -/
theorem Report.name_exact_sample :
    let path : Path := Bytes.ofString "a.b//../" ++ Bytes.ofString ".c.tar.gz"
    path.stem = Bytes.ofString ".c.tar" ∧
    path.stem ++ path.extension = Bytes.ofString ".c.tar.gz" ∧
    Report.readFile (fun _ => .ok []) path = .ok ⟨Bytes.ofString ".c.tar", Table.empty⟩ := by
  intro path
  have hd : Path.Directory (Bytes.ofString "a.b//../") := .inr (by decide)
  have hne : Bytes.ofString ".c.tar.gz" ≠ [] := by decide
  have hslash : Bytes.slash ∉ Bytes.ofString ".c.tar.gz" := by decide
  have hb : Bytes.ofString ".c.tar.gz" =
      Bytes.ofString ".c.tar" ++ Bytes.point :: Bytes.ofString "gz" := by decide
  obtain ⟨-, -, hsplit, -, -, hwhole, hread⟩ := Report.name_exact hd hne hslash
  have hstem : path.stem = Bytes.ofString ".c.tar" := hsplit _ _ hb (by decide)
  have hfile := (hread fun _ => .ok []).1
  rw [hstem] at hfile
  exact ⟨hstem, hwhole, hfile⟩

end Footprint
