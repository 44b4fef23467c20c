import Mathlib.Algebra.Group.Nat.Defs
import Footprint.Proofs.SizeGrammar

/-!
# Quoted text can be read back

`unescape` reads the text between two quotes: an escape stands for a byte or for the encoding of a
character, and everything else for itself. What is written for a glyph is one of three kinds of
pieces (`Quoted.Piece`), and all that is proved about quoted text is proved for each kind:

* `Quoted.piece_glyph`      what is written for a glyph is such a piece;
* `Quoted.Piece.unescape`   a piece is read as the bytes of its glyph, whatever follows;
* `Quoted.Piece.guarded`    it has no quote of its own, and no backslash for what follows;
* `Quoted.Piece.shown`      it is made of characters none of which is a control.
-/

namespace Footprint

namespace Quoted

/-! ### escapes -/

/-- the byte that a letter behind a backslash stands for -/
def ofLetter? (x : UInt8) : Option UInt8 :=
  match x.toNat with
  | 97 => some 7
  | 98 => some 8
  | 102 => some 12
  | 110 => some 10
  | 114 => some 13
  | 116 => some 9
  | 118 => some 11
  | 34 => some Bytes.quote
  | 92 => some Bytes.backslash
  | _ => none

/-- the encoding of the character with a given number -/
def ofNumber? (n : Nat) : Option Bytes :=
  if n.isValidChar then some (String.utf8EncodeChar (Char.ofNat n)) else none

/-- the digits behind `\x`, `\u` and `\U`, and what their number stands for -/
def ofMark? (mark : UInt8) : Option (Nat × (Nat → Option Bytes)) :=
  match mark.toNat with
  | 120 => some (2, fun n => some [UInt8.ofNat n])
  | 117 => some (4, ofNumber?)
  | 85 => some (8, ofNumber?)
  | _ => none

/-- the number that hexadecimal digits spell -/
def number? (s : Bytes) : Option Nat :=
  s.foldlM (fun n b => (Bytes.hexValue? b).map (n * 16 + ·)) 0

/-- the escape of a backslash, a mark and what follows: the bytes that it stands for, and its
length -/
def marked? (mark : UInt8) (rest : Bytes) : Option (Bytes × Nat) :=
  match ofLetter? mark, ofMark? mark with
  | some x, _ => some ([x], 2)
  | none, some (width, meaning) =>
    if rest.length < width then none
    else ((number? (rest.take width)).bind meaning).map (·, width + 2)
  | none, none => none

/-- the escape at the front of a text -/
def escape? : Bytes → Option (Bytes × Nat)
  | b :: mark :: rest => if b = Bytes.backslash then marked? mark rest else none
  | _ => none

/-- what a text stands for after the next `skip` bytes, which belong to an escape already read -/
def unescapeAfter : Nat → Bytes → Bytes
  | _, [] => []
  | skip + 1, _ :: rest => unescapeAfter skip rest
  | 0, b :: rest =>
    match escape? (b :: rest) with
    | some (bytes, length) => bytes ++ unescapeAfter (length - 1) rest
    | none => b :: unescapeAfter 0 rest

/-- what the text between two quotes stands for -/
def unescape (s : Bytes) : Bytes := unescapeAfter 0 s

theorem unescapeAfter_eq (skip : Nat) (s : Bytes) :
    unescapeAfter skip s = unescape (s.drop skip) := by
  induction skip generalizing s with
  | zero => rfl
  | succ skip ih =>
    cases s with
    | nil => rfl
    | cons b rest => exact ih rest

theorem unescape_of_escape {b : UInt8} {s bytes rest : Bytes}
    (h : escape? (b :: s ++ rest) = some (bytes, (b :: s).length)) :
    unescape (b :: s ++ rest) = bytes ++ unescape rest := by
  have hdrop : (s ++ rest).drop ((b :: s).length - 1) = rest := List.drop_left
  rw [List.cons_append] at h ⊢
  show unescapeAfter 0 (b :: (s ++ rest)) = _
  simp only [unescapeAfter, h, unescapeAfter_eq, hdrop]

theorem unescape_cons {b : UInt8} (hb : b ≠ Bytes.backslash) (rest : Bytes) :
    unescape (b :: rest) = b :: unescape rest := by
  have hnone : escape? (b :: rest) = none := by
    cases rest with
    | nil => rfl
    | cons mark rest => exact if_neg hb
  show unescapeAfter 0 (b :: rest) = _
  simp only [unescapeAfter, hnone]
  rfl

theorem unescape_append {s : Bytes} (h : Bytes.backslash ∉ s) (rest : Bytes) :
    unescape (s ++ rest) = s ++ unescape rest := by
  induction s with
  | nil => rfl
  | cons b s ih =>
    have hb : b ≠ Bytes.backslash := (List.ne_of_not_mem_cons h).symm
    rw [List.cons_append, unescape_cons hb, ih (List.not_mem_of_not_mem_cons h)]
    rfl

/-! ### hexadecimal digits -/

theorem hexValue?_hexDigit : ∀ d < 16, Bytes.hexValue? (Bytes.hexDigit d) = some d := by decide

theorem number?_hex {width n : Nat} (h : n < 16 ^ width) :
    number? (Bytes.hex width n) = some n := by
  induction width generalizing n with
  | zero =>
    obtain rfl : n = 0 := by
      rw [pow_zero] at h
      omega
    rfl
  | succ width ih =>
    have hfront : n / 16 < 16 ^ width := by
      rw [pow_succ] at h
      omega
    have hdigit := hexValue?_hexDigit (n % 16) (Nat.mod_lt n (by decide))
    have hnumber : number? (Bytes.hex (width + 1) n) =
        (number? (Bytes.hex width (n / 16))).bind fun m =>
          (Bytes.hexValue? (Bytes.hexDigit (n % 16))).map (m * 16 + ·) := by
      unfold number?
      rw [Bytes.hex, List.foldlM_append]
      simp only [List.foldlM_cons, List.foldlM_nil, bind_pure]
      rfl
    rw [hnumber, ih hfront, hdigit]
    show some (n / 16 * 16 + n % 16) = some n
    rw [Nat.div_add_mod']

theorem exists_hexDigit_of_mem {width n : Nat} {b : UInt8} (h : b ∈ Bytes.hex width n) :
    ∃ d < 16, b = Bytes.hexDigit d := by
  induction width generalizing n with
  | zero => cases h
  | succ width ih =>
    rw [Bytes.hex, List.mem_append, List.mem_singleton] at h
    rcases h with h | h
    · exact ih h
    · exact ⟨_, Nat.mod_lt n (by decide), h⟩

/-! ### pieces -/

/-- what stands between the quotes for one glyph: the text, and the bytes of the glyph -/
inductive Piece (printable : Char → Bool) : Bytes → Bytes → Prop where
  | literal {c : Char} : c ≠ '"' → c ≠ '\\' → printable c = true →
    Piece printable (String.utf8EncodeChar c) (String.utf8EncodeChar c)
  | letter {x b : UInt8} : ofLetter? x = some b → Piece printable [Bytes.backslash, x] [b]
  | number {mark : UInt8} {width n : Nat} {meaning : Nat → Option Bytes} {bytes : Bytes} :
    ofMark? mark = some (width, meaning) → n < 16 ^ width → meaning n = some bytes →
    Piece printable (Bytes.backslash :: mark :: Bytes.hex width n) bytes

variable {printable : Char → Bool}

theorem encode_of_lt {c : Char} (h : c.toNat < 128) :
    String.utf8EncodeChar c = [UInt8.ofNat c.toNat] := by
  have h : c.val.toNat ≤ 127 := Nat.le_of_lt_succ h
  unfold String.utf8EncodeChar
  simp only [h, if_true]
  rfl

theorem ofNumber?_toNat (c : Char) : ofNumber? c.toNat = some (String.utf8EncodeChar c) := by
  have hvalid : c.toNat.isValidChar := c.valid
  unfold ofNumber?
  rw [if_pos hvalid, Char.ofNat_toNat]

theorem piece_byteEscape (b : UInt8) : Piece printable (byteEscape b.toNat) [b] := by
  have hmark : ofMark? 120 = some (2, fun n => some [UInt8.ofNat n]) := rfl
  refine .number hmark b.toNat_lt ?_
  rw [UInt8.ofNat_toNat]

theorem piece_numberEscape (c : Char) :
    Piece printable (numberEscape c) (String.utf8EncodeChar c) := by
  unfold numberEscape
  split
  · next hcontrol =>
    have hlt : c.toNat < 128 := by omega
    have hcode : (UInt8.ofNat c.toNat).toNat = c.toNat := by
      rw [UInt8.toNat_ofNat']
      omega
    rw [encode_of_lt hlt]
    nth_rewrite 1 [← hcode]
    exact piece_byteEscape _
  · split
    · next hlt =>
      have hmark : ofMark? 117 = some (4, ofNumber?) := rfl
      exact .number hmark hlt (ofNumber?_toNat c)
    · have hmark : ofMark? 85 = some (8, ofNumber?) := rfl
      have hlt : c.toNat < 16 ^ 8 := (Glyph.toNat_val_lt c).trans (by decide)
      exact .number hmark hlt (ofNumber?_toNat c)

theorem piece_letter {c : Char} {x : UInt8} (h : letter? c = some x) :
    Piece printable [Bytes.backslash, x] (String.utf8EncodeChar c) := by
  have hletter : ofLetter? x = some (UInt8.ofNat c.toNat) ∧ c.toNat < 128 := by
    unfold letter? at h
    split at h
    case h_8 => cases h
    all_goals
      next hcode =>
      cases h
      rw [hcode]
      decide
  rw [encode_of_lt hletter.2]
  exact .letter hletter.1

theorem piece_glyph (g : Glyph) : Piece printable (glyph printable g) g.bytes := by
  cases g with
  | stray b => exact piece_byteEscape b
  | char c =>
    show Piece printable (glyph printable (.char c)) (String.utf8EncodeChar c)
    unfold glyph
    dsimp only
    split
    · next hc =>
      rcases hc with rfl | rfl
      · exact .letter rfl
      · exact .letter rfl
    · next hc =>
      obtain ⟨hquote, hbackslash⟩ := not_or.mp hc
      split
      · next hprintable => exact .literal hquote hbackslash hprintable
      · split
        · next x hx => exact piece_letter hx
        · exact piece_numberEscape c

/-! ### reading a piece -/

theorem eq_of_mem_encode {c d : Char} (hd : d.toNat < 128)
    (h : UInt8.ofNat d.toNat ∈ String.utf8EncodeChar c) : c = d := by
  have hlow : (UInt8.ofNat d.toNat).toNat < 128 := by
    rw [UInt8.toNat_ofNat']
    omega
  apply Glyph.encode_append_inj (s := []) (t := [])
  rw [Glyph.encode_of_mem h hlow, encode_of_lt hd]

theorem ofLetter?_of_ofMark? {mark : UInt8} {m : Nat × (Nat → Option Bytes)}
    (h : ofMark? mark = some m) : ofLetter? mark = none := by
  unfold ofMark? at h
  unfold ofLetter?
  split at h
  case h_4 => cases h
  all_goals
    next hmark =>
    rw [hmark]
    rfl

theorem Piece.unescape {text bytes : Bytes} (h : Piece printable text bytes) (rest : Bytes) :
    unescape (text ++ rest) = bytes ++ Quoted.unescape rest := by
  cases h with
  | literal _ hbackslash _ =>
    exact unescape_append (fun hmem => hbackslash (eq_of_mem_encode (by decide) hmem)) rest
  | @letter x b hletter =>
    apply unescape_of_escape
    show marked? x rest = some ([b], 2)
    unfold marked?
    rw [hletter]
  | @number mark width n meaning _ hmark hlt hmeaning =>
    apply unescape_of_escape
    show marked? mark (Bytes.hex width n ++ rest) = some (bytes, (Bytes.hex width n).length + 2)
    have hlong : ¬ (Bytes.hex width n ++ rest).length < width := by
      rw [List.length_append, Bytes.length_hex]
      omega
    have htake : (Bytes.hex width n ++ rest).take width = Bytes.hex width n :=
      List.take_left' (Bytes.length_hex width n)
    unfold marked?
    rw [ofLetter?_of_ofMark? hmark, hmark]
    dsimp only
    rw [if_neg hlong, htake, number?_hex hlt, Option.bind_some, hmeaning, Bytes.length_hex]
    rfl

theorem unescape_glyphs (gs : List Glyph) :
    unescape (gs.flatMap (glyph printable)) = flatten gs := by
  induction gs with
  | nil => rfl
  | cons g gs ih => rw [List.flatMap_cons, (piece_glyph g).unescape, ih, flatten_cons]

/-! ### the quotes around the text -/

/-- every quote and every backslash has a backslash of its own before it, and no backslash is left
for what follows -/
inductive Guarded : Bytes → Prop where
  | nil : Guarded []
  | byte {b : UInt8} {s : Bytes} : b ≠ Bytes.quote → b ≠ Bytes.backslash → Guarded s →
    Guarded (b :: s)
  | escape {x : UInt8} {s : Bytes} : Guarded s → Guarded (Bytes.backslash :: x :: s)

theorem Guarded.append {s t : Bytes} (hs : Guarded s) (ht : Guarded t) : Guarded (s ++ t) := by
  induction hs with
  | nil => exact ht
  | byte hquote hbackslash _ ih => exact .byte hquote hbackslash ih
  | escape _ ih => exact .escape ih

theorem guarded_of_not_mem {s : Bytes} (hquote : Bytes.quote ∉ s)
    (hbackslash : Bytes.backslash ∉ s) : Guarded s := by
  induction s with
  | nil => exact .nil
  | cons b s ih =>
    exact .byte (List.ne_of_not_mem_cons hquote).symm (List.ne_of_not_mem_cons hbackslash).symm
      (ih (List.not_mem_of_not_mem_cons hquote) (List.not_mem_of_not_mem_cons hbackslash))

theorem not_mem_hex {b : UInt8} (h : ∀ d < 16, b ≠ Bytes.hexDigit d) (width n : Nat) :
    b ∉ Bytes.hex width n := by
  intro hb
  obtain ⟨d, hd, rfl⟩ := exists_hexDigit_of_mem hb
  exact h d hd rfl

theorem Piece.guarded {text bytes : Bytes} (h : Piece printable text bytes) : Guarded text := by
  cases h with
  | literal hquote hbackslash _ =>
    exact guarded_of_not_mem (fun hmem => hquote (eq_of_mem_encode (by decide) hmem))
      fun hmem => hbackslash (eq_of_mem_encode (by decide) hmem)
  | letter _ => exact .escape .nil
  | number _ _ _ =>
    exact .escape (guarded_of_not_mem (not_mem_hex (by decide) _ _) (not_mem_hex (by decide) _ _))

theorem guarded_glyphs (gs : List Glyph) : Guarded (gs.flatMap (glyph printable)) := by
  induction gs with
  | nil => exact .nil
  | cons g gs ih =>
    rw [List.flatMap_cons]
    exact (piece_glyph g).guarded.append ih

/-! ### controls -/

def Control (c : Char) : Prop := c.toNat < 32 ∨ 127 ≤ c.toNat ∧ c.toNat < 160

/-- a text of characters that are no controls -/
def Shown (s : Bytes) : Prop :=
  ∃ cs : List Char, s = cs.flatMap String.utf8EncodeChar ∧ ∀ c ∈ cs, ¬ Control c

theorem Shown.append {s t : Bytes} (hs : Shown s) (ht : Shown t) : Shown (s ++ t) := by
  obtain ⟨cs, rfl, hcs⟩ := hs
  obtain ⟨ds, rfl, hds⟩ := ht
  refine ⟨cs ++ ds, List.flatMap_append.symm, fun c hc => ?_⟩
  exact (List.mem_append.mp hc).elim (hcs c) (hds c)

theorem shown_of_ascii {s : Bytes} (h : ∀ b ∈ s, 32 ≤ b.toNat ∧ b.toNat < 127) : Shown s := by
  induction s with
  | nil => exact ⟨[], rfl, nofun⟩
  | cons b s ih =>
    obtain ⟨hlow, hhigh⟩ := h b List.mem_cons_self
    have hvalid : b.toNat.isValidChar := .inl (by omega)
    have hcode : (Char.ofNat b.toNat).toNat = b.toNat := by
      unfold Char.ofNat
      rw [dif_pos hvalid]
      rfl
    have hb : Shown [b] := by
      refine ⟨[Char.ofNat b.toNat], ?_, List.forall_mem_singleton.mpr ?_⟩
      · rw [List.flatMap_singleton, encode_of_lt (by omega), hcode, UInt8.ofNat_toNat]
      · unfold Control
        omega
    exact hb.append (ih fun x hx => h x (List.mem_cons_of_mem b hx))

theorem newline_not_mem_of_shown {s : Bytes} (h : Shown s) : Bytes.newline ∉ s := by
  obtain ⟨cs, rfl, hcs⟩ := h
  intro hmem
  obtain ⟨c, hc, hnewline⟩ := List.mem_flatMap.mp hmem
  obtain rfl : c = '\n' := eq_of_mem_encode (by decide) hnewline
  exact hcs _ hc (.inl (by decide))

theorem ascii_of_ofLetter? {x b : UInt8} (h : ofLetter? x = some b) :
    32 ≤ x.toNat ∧ x.toNat < 127 := by
  unfold ofLetter? at h
  split at h
  case h_10 => cases h
  all_goals omega

theorem ascii_of_ofMark? {mark : UInt8} {m : Nat × (Nat → Option Bytes)}
    (h : ofMark? mark = some m) : 32 ≤ mark.toNat ∧ mark.toNat < 127 := by
  unfold ofMark? at h
  split at h
  case h_4 => cases h
  all_goals omega

theorem ascii_hexDigit : ∀ d < 16,
    32 ≤ (Bytes.hexDigit d).toNat ∧ (Bytes.hexDigit d).toNat < 127 := by decide

theorem Piece.shown {text bytes : Bytes} (h : Piece printable text bytes)
    (hprintable : ∀ c, printable c = true → ¬ Control c) : Shown text := by
  have hbackslash : 32 ≤ Bytes.backslash.toNat ∧ Bytes.backslash.toNat < 127 := by decide
  cases h with
  | @literal c _ _ hc =>
    exact ⟨[c], (List.flatMap_singleton _ c).symm,
      List.forall_mem_singleton.mpr (hprintable c hc)⟩
  | letter hletter =>
    apply shown_of_ascii
    simp only [List.forall_mem_cons]
    exact ⟨hbackslash, ascii_of_ofLetter? hletter, nofun⟩
  | number hmark _ _ =>
    apply shown_of_ascii
    simp only [List.forall_mem_cons]
    refine ⟨hbackslash, ascii_of_ofMark? hmark, fun b hb => ?_⟩
    obtain ⟨d, hd, rfl⟩ := exists_hexDigit_of_mem hb
    exact ascii_hexDigit d hd

theorem shown_glyphs (hprintable : ∀ c, printable c = true → ¬ Control c) (gs : List Glyph) :
    Shown (gs.flatMap (glyph printable)) := by
  induction gs with
  | nil => exact ⟨[], rfl, nofun⟩
  | cons g gs ih =>
    rw [List.flatMap_cons]
    exact ((piece_glyph g).shown hprintable).append ih

theorem ranges_above_controls :
    (Printable.ranges.all fun r => decide (32 ≤ r.1 ∧ (r.2 < 127 ∨ 160 ≤ r.1))) = true := by
  decide +kernel

theorem not_control_of_isPrintable (c : Char) (h : isPrintable c = true) : ¬ Control c := by
  obtain ⟨r, hr, hc⟩ := List.any_eq_true.mp h
  have hrange := of_decide_eq_true (List.all_eq_true.mp ranges_above_controls r hr)
  simp only [Bool.and_eq_true, decide_eq_true_eq] at hc
  unfold Control
  omega

/-! ### whole texts -/

theorem unescape_body (printable : Char → Bool) (s : Bytes) :
    unescape ((glyphs s).flatMap (glyph printable)) = s := by
  rw [unescape_glyphs, flatten_glyphs]

theorem quoteWith_inj {s t : Bytes} (h : quoteWith printable s = quoteWith printable t) :
    s = t := by
  obtain ⟨-, hbodies⟩ := List.cons.inj h
  rw [← unescape_body printable s, List.append_cancel_right hbodies, unescape_body]

end Quoted

namespace Size

/-- **The text quoted in a complaint can be recovered.** A text that denotes no size is complained
about in double quotes. Between them stand no control and no quote without a backslash, and reading
the escapes gives the text back. So no two texts share a complaint, whatever is printable. -/
theorem parse_error_recoverable {s message : Bytes} (h : parse s = .error message) :
    (∃ body, message = Bytes.ofString "invalid size " ++ (Bytes.quote :: body ++ [Bytes.quote]) ∧
      Quoted.Shown body ∧ Bytes.newline ∉ body ∧ Quoted.Guarded body ∧
      Quoted.unescape body = s) ∧
    (∀ t, parse t = .error message → t = s) ∧
    ∀ printable,
      (∃ body, Quoted.quoteWith printable s = Bytes.quote :: body ++ [Bytes.quote] ∧
        Quoted.Guarded body ∧ Quoted.unescape body = s) ∧
      ∀ t, Bytes.ofString "invalid size " ++ Quoted.quoteWith printable t =
        Bytes.ofString "invalid size " ++ Quoted.quoteWith printable s → t = s := by
  have hshown := Quoted.shown_glyphs Quoted.not_control_of_isPrintable (glyphs s)
  have hmessage : message = complaint s := parse_eq_error h
  have hcommon : ∀ printable t, Bytes.ofString "invalid size " ++ Quoted.quoteWith printable t =
      Bytes.ofString "invalid size " ++ Quoted.quoteWith printable s → t = s :=
    fun printable t heq => Quoted.quoteWith_inj (List.append_cancel_left heq)
  refine ⟨⟨_, hmessage, hshown, Quoted.newline_not_mem_of_shown hshown, Quoted.guarded_glyphs _,
    Quoted.unescape_body _ s⟩, fun t ht => ?_, fun printable => ⟨?_, hcommon printable⟩⟩
  · exact hcommon isPrintable t ((parse_eq_error ht).symm.trans hmessage)
  · exact ⟨_, rfl, Quoted.guarded_glyphs _, Quoted.unescape_body _ s⟩

/-- a stray byte, the character of the same number, a quote, a backslash and a line end -/
theorem parse_error_recoverable_sample :
    parse [128, 194, 128, 34, 92, 10] =
        .error (Bytes.ofString "invalid size \"\\x80\\u0080\\\"\\\\\\n\"") ∧
      (∃ body, Bytes.ofString "invalid size \"\\x80\\u0080\\\"\\\\\\n\"" =
          Bytes.ofString "invalid size " ++ (Bytes.quote :: body ++ [Bytes.quote]) ∧
        Quoted.unescape body = [128, 194, 128, 34, 92, 10]) := by
  have hread : read? [128, 194, 128, 34, 92, 10] = none :=
    Option.isNone_iff_eq_none.mp (by decide +kernel)
  have herror : parse [128, 194, 128, 34, 92, 10] =
      .error (Bytes.ofString "invalid size \"\\x80\\u0080\\\"\\\\\\n\"") := by
    unfold parse
    rw [hread]
    exact congrArg Except.error (by decide +kernel)
  obtain ⟨⟨body, hbody, -, -, -, hunescape⟩, -⟩ := parse_error_recoverable herror
  exact ⟨herror, body, hbody, hunescape⟩

end Size

end Footprint
