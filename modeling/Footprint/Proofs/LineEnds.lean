import Footprint.Row

/-!
# Line ends

A line ends in a newline, with or without a carriage return before it. `unifyEnds` drops those
carriage returns and nothing else, and the normal form of a text is its unified form up to a
carriage return at the very end (`unifyEnds_append_newline`). So texts may be unified piece by
piece wherever no line end is cut (`unifyEnds_append`, `normalize_append`).

Characters may be unified as well as bytes, so the operation is stated for any two symbols
(`dropBefore`).
-/

namespace Footprint

section
variable {α : Type} [DecidableEq α] {x y : α}

/-- every `x` that stands before a `y` dropped -/
def dropBefore (x y : α) : List α → List α
  | [] => []
  | a :: rest =>
    if a = x ∧ rest.head? = some y then dropBefore x y rest else a :: dropBefore x y rest

theorem dropBefore_of_before {a : α} {l : List α} (h : a = x ∧ l.head? = some y) :
    dropBefore x y (a :: l) = dropBefore x y l := by
  rw [dropBefore, if_pos h]

theorem dropBefore_cons {a : α} {l : List α} (h : ¬ (a = x ∧ l.head? = some y)) :
    dropBefore x y (a :: l) = a :: dropBefore x y l := by
  rw [dropBefore, if_neg h]

theorem dropBefore_of_not_infix {l : List α} (h : ¬ [x, y] <:+: l) : dropBefore x y l = l := by
  induction l with
  | nil => rfl
  | cons a rest ih =>
    have ha : ¬ (a = x ∧ rest.head? = some y) := by
      rintro ⟨rfl, hr⟩
      cases rest with
      | nil => cases hr
      | cons c tail =>
        cases Option.some.inj hr
        exact h (List.prefix_append _ tail).isInfix
    rw [dropBefore_cons ha, ih fun hr => h (hr.trans (List.suffix_cons a rest).isInfix)]

theorem mem_dropBefore {z : α} (hz : z ≠ x) (l : List α) : z ∈ dropBefore x y l ↔ z ∈ l := by
  induction l with
  | nil => rfl
  | cons a rest ih =>
    by_cases h : a = x ∧ rest.head? = some y
    · have ha : z ≠ a := h.1 ▸ hz
      rw [dropBefore_of_before h, ih, List.mem_cons, or_iff_right ha]
    · rw [dropBefore_cons h, List.mem_cons, List.mem_cons, ih]

theorem count_dropBefore {z : α} (hz : z ≠ x) (l : List α) :
    (dropBefore x y l).count z = l.count z := by
  induction l with
  | nil => rfl
  | cons a rest ih =>
    by_cases h : a = x ∧ rest.head? = some y
    · have ha : a ≠ z := h.1 ▸ hz.symm
      rw [dropBefore_of_before h, ih, List.count_cons_of_ne ha]
    · rw [dropBefore_cons h, List.count_cons, List.count_cons, ih]

theorem dropBefore_eq_nil {l : List α} : dropBefore x y l = [] ↔ l = [] := by
  refine ⟨fun h => ?_, fun h => by rw [h]; rfl⟩
  induction l with
  | nil => rfl
  | cons a rest ih =>
    by_cases ha : a = x ∧ rest.head? = some y
    · rw [dropBefore_of_before ha] at h
      rw [ih h] at ha
      exact absurd ha.2 (Option.some_ne_none y).symm
    · rw [dropBefore_cons ha] at h
      exact absurd h (List.cons_ne_nil _ _)

/-- pieces may be treated on their own unless an `x` and its `y` are cut -/
theorem dropBefore_append (s t : List α) (h : s.getLast? ≠ some x ∨ t.head? ≠ some y) :
    dropBefore x y (s ++ t) = dropBefore x y s ++ dropBefore x y t := by
  induction s with
  | nil => rfl
  | cons a rest ih =>
    cases rest with
    | nil =>
      have ha : ¬ (a = x ∧ t.head? = some y) := by
        rintro ⟨rfl, ht⟩
        exact h.elim (fun hs => hs rfl) (fun hn => hn ht)
      have hnil : ¬ (a = x ∧ [].head? = some y) := fun e => absurd e.2 (Option.some_ne_none y).symm
      rw [dropBefore_cons hnil]
      exact dropBefore_cons ha
    | cons c tail =>
      have ih' := ih (by rwa [List.getLast?_cons_cons] at h)
      by_cases ha : a = x ∧ (c :: tail).head? = some y
      · rw [dropBefore_of_before ha, List.cons_append, ← ih']
        exact dropBefore_of_before ha
      · have ha' : ¬ (a = x ∧ (c :: tail ++ t).head? = some y) := ha
        rw [dropBefore_cons ha]
        exact (dropBefore_cons ha').trans (congrArg (a :: ·) ih')

/-- a start without a `y` is untouched -/
theorem prefix_of_prefix_dropBefore {p l : List α} (hp : y ∉ p) (h : p <+: dropBefore x y l) :
    p <+: l := by
  induction l generalizing p with
  | nil => exact h
  | cons b rest ih =>
    cases p with
    | nil => exact List.nil_prefix
    | cons a p =>
      by_cases hb : b = x ∧ rest.head? = some y
      · -- what is dropped stands before a `y`, so `p` would have to start with a `y`
        exfalso
        rw [dropBefore_of_before hb] at h
        have hpre := ih hp h
        cases rest with
        | nil => cases hb.2
        | cons c tail =>
          cases Option.some.inj hb.2
          exact hp ((List.cons_prefix_cons.mp hpre).1 ▸ List.mem_cons_self)
      · rw [dropBefore_cons hb] at h
        obtain ⟨rfl, ht⟩ := List.cons_prefix_cons.mp h
        exact List.cons_prefix_cons.mpr ⟨rfl, ih (fun hy => hp (List.mem_cons_of_mem _ hy)) ht⟩

end

namespace Row

/-- every carriage return that stands before a newline dropped -/
def unifyEnds : Bytes → Bytes := dropBefore Bytes.carriageReturn Bytes.newline

theorem unifyEnds_cons_of_ne {b : UInt8} (s : Bytes) (h : b ≠ Bytes.carriageReturn) :
    unifyEnds (b :: s) = b :: unifyEnds s :=
  dropBefore_cons fun hb => h hb.1

/-- text without a carriage return before a newline is left as it is -/
theorem unifyEnds_of_not_infix {s : Bytes}
    (h : ¬ [Bytes.carriageReturn, Bytes.newline] <:+: s) : unifyEnds s = s :=
  dropBefore_of_not_infix h

theorem unifyEnds_of_not_mem {s : Bytes} (h : Bytes.newline ∉ s) : unifyEnds s = s := by
  apply unifyEnds_of_not_infix
  intro hs
  exact h (hs.subset (by simp))

theorem count_newline_unifyEnds (s : Bytes) :
    (unifyEnds s).count Bytes.newline = s.count Bytes.newline :=
  count_dropBefore (by decide) s

theorem unifyEnds_append (s t : Bytes)
    (h : s.getLast? ≠ some Bytes.carriageReturn ∨ t.head? ≠ some Bytes.newline) :
    unifyEnds (s ++ t) = unifyEnds s ++ unifyEnds t :=
  dropBefore_append s t h

/-! ### the normal form -/

/-- the normal form is what unification leaves before a newline put at the end -/
theorem unifyEnds_append_newline (s : Bytes) :
    unifyEnds (s ++ [Bytes.newline]) = normalize s ++ [Bytes.newline] := by
  fun_induction normalize s with
  | case1 => rfl
  | case2 => rfl
  | case3 b hb => rw [List.singleton_append, unifyEnds_cons_of_ne _ hb]; rfl
  | case4 b c rest h ih =>
    obtain ⟨rfl, rfl⟩ := h
    show Bytes.newline :: unifyEnds (rest ++ [Bytes.newline]) = _
    rw [ih]
    rfl
  | case5 b c rest h ih =>
    have hb : ¬ (b = Bytes.carriageReturn ∧ (c :: rest ++ [Bytes.newline]).head? =
        some Bytes.newline) := fun e => h ⟨e.1, Option.some.inj e.2⟩
    exact (dropBefore_cons hb).trans (congrArg (b :: ·) ih)

theorem normalize_append (s t : Bytes) (h : s.getLast? ≠ some Bytes.carriageReturn) :
    normalize (s ++ t) = unifyEnds s ++ normalize t := by
  have e : normalize (s ++ t) ++ [Bytes.newline] =
      (unifyEnds s ++ normalize t) ++ [Bytes.newline] := by
    rw [← unifyEnds_append_newline, List.append_assoc, unifyEnds_append s _ (.inl h),
      unifyEnds_append_newline, List.append_assoc]
  exact List.append_cancel_right e

theorem normalize_append_newline (s : Bytes) :
    normalize (s ++ [Bytes.newline]) = normalize s ++ [Bytes.newline] := by
  have h : (s ++ [Bytes.newline]).getLast? ≠ some Bytes.carriageReturn := by
    rw [List.getLast?_concat]; decide
  have e := normalize_append (s ++ [Bytes.newline]) [] h
  rw [List.append_nil] at e
  rw [e, unifyEnds_append_newline]
  exact List.append_nil _

theorem count_newline_normalize (s : Bytes) :
    (normalize s).count Bytes.newline = s.count Bytes.newline := by
  have e := congrArg (List.count Bytes.newline) (unifyEnds_append_newline s)
  rw [count_newline_unifyEnds, List.count_append, List.count_append] at e
  exact (Nat.add_right_cancel e).symm

end Row

end Footprint
