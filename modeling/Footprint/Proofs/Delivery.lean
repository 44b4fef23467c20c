import Footprint.Listing

/-!
# What a failing sink receives

A text is written in pieces, a buffer regroups them, and the sink may fail inside any of them. After
every piece one of two things holds (`Writer.Follows`): the sink has taken in all it was given, and
the rest of the text so far waits in the buffer; or the text so far exceeds the limit, the sink
holds as much of it as fits, and its error is kept.

* `Writer.follows_pass`       what a write past the buffer leads to;
* `Writer.Follows.flush`      what emptying the buffer keeps;
* `Writer.Follows.write`      what a piece adds, and `Writer.Follows.foldl_write` all pieces;
* `deliverTo_ofLimit`         what has reached the sink in the end, and the error reported.
-/

namespace Footprint

variable {ε : Type} {limit : Option Nat} {e : ε}

namespace Sink

/-! ### texts and limits -/

def Fits : Option Nat → Bytes → Prop
  | none, _ => True
  | some n, s => s.length ≤ n

/-- as much of a text as a limit leaves -/
def within : Option Nat → Bytes → Bytes
  | none, s => s
  | some n, s => s.take n

theorem within_of_fits {s : Bytes} (h : Fits limit s) : within limit s = s := by
  cases limit with
  | none => rfl
  | some n => exact List.take_of_length_le h

theorem not_fits_append {s : Bytes} (h : ¬ Fits limit s) (t : Bytes) : ¬ Fits limit (s ++ t) := by
  cases limit with
  | none => exact h
  | some n =>
    have h : ¬ s.length ≤ n := h
    show ¬ (s ++ t).length ≤ n
    rw [List.length_append]
    omega

theorem within_append {s : Bytes} (h : ¬ Fits limit s) (t : Bytes) :
    within limit (s ++ t) = within limit s := by
  cases limit with
  | none => exact absurd trivial h
  | some n =>
    have h : ¬ s.length ≤ n := h
    exact List.take_append_of_le_length (by omega)

/-- the sink behind a limit after it has taken in `s` -/
def holding (limit : Option Nat) (e : ε) (s : Bytes) : Sink ε := ⟨s, limit.map (· - s.length), e⟩

theorem accepts_holding {s bs : Bytes} (h : Fits limit (s ++ bs)) :
    (holding limit e s).accepts bs.length = bs.length := by
  cases limit with
  | none => rfl
  | some n =>
    have h : (s ++ bs).length ≤ n := h
    rw [List.length_append] at h
    show min bs.length (n - s.length) = bs.length
    omega

theorem write_holding {s bs : Bytes} (h : Fits limit (s ++ bs)) :
    (holding limit e s).write bs = holding limit e (s ++ bs) := by
  unfold write
  rw [accepts_holding h, List.take_length]
  show (⟨s ++ bs, (limit.map (· - s.length)).map (· - bs.length), e⟩ : Sink ε) =
    ⟨s ++ bs, limit.map (· - (s ++ bs).length), e⟩
  cases limit with
  | none => rfl
  | some n => simp only [Option.map_some, List.length_append, Nat.sub_sub]

theorem answer_holding {s bs : Bytes} (h : Fits limit (s ++ bs)) :
    (holding limit e s).answer bs = none := by
  unfold answer
  rw [accepts_holding h, if_neg (Nat.lt_irrefl _)]

/-- the write that exceeds the limit is taken in up to it -/
theorem overflow_holding {s bs : Bytes} (hs : Fits limit s) (h : ¬ Fits limit (s ++ bs)) :
    ((holding limit e s).write bs).received = within limit (s ++ bs) ∧
      (holding limit e s).answer bs = some e := by
  cases limit with
  | none => exact absurd trivial h
  | some n =>
    have hs : s.length ≤ n := hs
    have h : ¬ (s ++ bs).length ≤ n := h
    rw [List.length_append] at h
    have haccepts : (holding (some n) e s).accepts bs.length = n - s.length := by
      show min bs.length (n - s.length) = n - s.length
      omega
    constructor
    · show s ++ bs.take ((holding (some n) e s).accepts bs.length) = (s ++ bs).take n
      rw [haccepts, List.take_append, List.take_of_length_le hs]
    · unfold answer
      rw [haccepts, if_pos (by omega)]
      rfl

end Sink

namespace Writer

/-- how far a writer has come with a text: all of it is in the sink and in the buffer, or the sink
has failed at the limit -/
inductive Follows (limit : Option Nat) (e : ε) : Writer ε → Bytes → Prop where
  | going {received pending : Bytes} : Sink.Fits limit received → pending.length ≤ capacity →
    Follows limit e ⟨Sink.holding limit e received, pending, none⟩ (received ++ pending)
  | stopped {w : Writer ε} {s : Bytes} : w.error = some e → w.sink.received = Sink.within limit s →
    ¬ Sink.Fits limit s → Follows limit e w s

theorem follows_pass {received : Bytes} (h : Sink.Fits limit received) (bs : Bytes) :
    let sink := Sink.holding limit e received
    Follows limit e ⟨sink.write bs, [], sink.answer bs⟩ (received ++ bs) := by
  intro sink
  by_cases hfits : Sink.Fits limit (received ++ bs)
  · have hgoing : Follows limit e ⟨Sink.holding limit e (received ++ bs), [], none⟩
        (received ++ bs ++ []) := .going hfits (Nat.zero_le capacity)
    rw [List.append_nil] at hgoing
    show Follows limit e ⟨sink.write bs, [], sink.answer bs⟩ (received ++ bs)
    rwa [Sink.write_holding hfits, Sink.answer_holding hfits]
  · obtain ⟨hreceived, hanswer⟩ := Sink.overflow_holding (e := e) h hfits
    exact .stopped hanswer hreceived hfits

variable {w : Writer ε} {s : Bytes}

/-- after a failure nothing changes -/
theorem follows_of_stopped (herror : w.error = some e)
    (hreceived : w.sink.received = Sink.within limit s) (hfits : ¬ Sink.Fits limit s)
    (piece : Bytes) : Follows limit e w (s ++ piece) := by
  refine .stopped herror ?_ (Sink.not_fits_append hfits piece)
  rw [Sink.within_append hfits]
  exact hreceived

namespace Follows

theorem flush (h : Follows limit e w s) :
    Follows limit e w.flush s ∧ (w.flush.error = none → w.flush.pending = []) := by
  unfold Writer.flush
  cases h with
  | stopped herror hreceived hfits =>
    rw [herror]
    exact ⟨.stopped herror hreceived hfits, fun hnone => by cases herror.symm.trans hnone⟩
  | @going received pending hfits hpending =>
    cases pending with
    | nil => exact ⟨.going hfits hpending, fun _ => rfl⟩
    | cons b rest => exact ⟨follows_pass hfits (b :: rest), fun _ => rfl⟩

theorem writeFresh (h : Follows limit e w s) (hempty : w.error = none → w.pending = [])
    (piece : Bytes) : Follows limit e (w.writeFresh piece) (s ++ piece) := by
  unfold Writer.writeFresh
  cases h with
  | stopped herror hreceived hfits =>
    rw [herror]
    exact follows_of_stopped herror hreceived hfits piece
  | @going received pending hfits hpending =>
    obtain rfl : pending = [] := hempty rfl
    rw [List.append_nil]
    show Follows limit e (if piece.length ≤ capacity then _ else _) _
    split
    · next hsmall => exact .going hfits hsmall
    · exact follows_pass hfits piece

theorem write (h : Follows limit e w s) (piece : Bytes) :
    Follows limit e (w.write piece) (s ++ piece) := by
  unfold Writer.write
  cases h with
  | stopped herror hreceived hfits =>
    rw [herror]
    exact follows_of_stopped herror hreceived hfits piece
  | @going received pending hfits hpending =>
    show Follows limit e (if piece.length ≤ capacity - pending.length then _
      else if pending.isEmpty then _ else _) _
    split
    · next hsmall =>
      rw [List.append_assoc]
      refine .going hfits ?_
      show (pending ++ piece).length ≤ capacity
      rw [List.length_append]
      omega
    · next hlarge =>
      split
      · next hnil =>
        obtain rfl : pending = [] := List.isEmpty_iff.mp hnil
        rw [List.append_nil]
        exact follows_pass hfits piece
      · -- the buffer is filled up, emptied, and takes the rest of the piece
        have hfilled : Follows limit e
            ⟨Sink.holding limit e received,
              pending ++ piece.take (capacity - pending.length), none⟩
            (received ++ (pending ++ piece.take (capacity - pending.length))) := by
          refine .going hfits ?_
          rw [List.length_append, List.length_take]
          omega
        obtain ⟨hflushed, hempty⟩ := hfilled.flush
        have hrest := hflushed.writeFresh hempty (piece.drop (capacity - pending.length))
        rwa [List.append_assoc, List.append_assoc, List.take_append_drop, ← List.append_assoc]
          at hrest

theorem foldl_write (h : Follows limit e w s) (pieces : List Bytes) :
    Follows limit e (pieces.foldl Writer.write w) (s ++ pieces.flatten) := by
  induction pieces generalizing w s with
  | nil => rwa [List.flatten_nil, List.append_nil]
  | cons piece pieces ih =>
    rw [List.foldl_cons, List.flatten_cons, ← List.append_assoc]
    exact ih (h.write piece)

end Follows

theorem follows_ofSink (limit : Option Nat) (e : ε) :
    Follows limit e (ofSink (Sink.ofLimit limit e)) [] := by
  have hfits : Sink.Fits limit [] := by
    cases limit with
    | none => trivial
    | some n => exact Nat.zero_le n
  have hstart : ofSink (Sink.ofLimit limit e) = ⟨Sink.holding limit e [], [], none⟩ := by
    cases limit <;> rfl
  rw [hstart]
  exact .going hfits (Nat.zero_le capacity)

end Writer

/-- what has reached the sink in the end, and the error that is reported -/
theorem deliverTo_ofLimit (limit : Option Nat) (e : ε) (pieces : List Bytes) :
    (deliverTo (Sink.ofLimit limit e) pieces).1 = Sink.within limit pieces.flatten ∧
      ((deliverTo (Sink.ofLimit limit e) pieces).2 = some e ∧ ¬ Sink.Fits limit pieces.flatten ∨
        (deliverTo (Sink.ofLimit limit e) pieces).2 = none ∧ Sink.Fits limit pieces.flatten) := by
  obtain ⟨hend, hempty⟩ := ((Writer.follows_ofSink limit e).foldl_write pieces).flush
  unfold deliverTo Writer.writeAll
  generalize (pieces.foldl Writer.write (Writer.ofSink (Sink.ofLimit limit e))).flush = w
    at hend hempty ⊢
  rw [List.nil_append] at hend
  generalize pieces.flatten = text at hend ⊢
  cases hend with
  | stopped herror hreceived hfits => exact ⟨hreceived, .inl ⟨herror, hfits⟩⟩
  | @going received pending hfits hpending =>
    obtain rfl : pending = [] := hempty rfl
    rw [List.append_nil, Sink.within_of_fits hfits]
    exact ⟨rfl, .inr ⟨rfl, hfits⟩⟩

namespace Listing

/-- pieces written to a sink that takes in `n` bytes and then fails with `e`: it receives the start
of what an unlimited sink receives, and fails if and only if that is longer -/
structure Truncates (e : ε) (n : Nat) (pieces : List Bytes) : Prop where
  unlimited : deliverTo (Sink.ofLimit none e) pieces = (text pieces, none)
  received : (deliverTo (Sink.ofLimit (some n) e) pieces).1 =
    (text pieces).take (min n (text pieces).length)
  failed : (deliverTo (Sink.ofLimit (some n) e) pieces).2 = some e ↔ n < (text pieces).length
  unfailed : (deliverTo (Sink.ofLimit (some n) e) pieces).2 = none ↔ (text pieces).length ≤ n

/-- **A failing sink is never missed, and never receives anything but the start of the text.** This
holds for every summary and every comparison, whatever the limit and the error, although no write
but the last one is asked for its result. -/
theorem truncates_reports (e : ε) (n : Nat) :
    (∀ s, Truncates e n (summary s)) ∧ ∀ nameA nameB ds, Truncates e n (deltas nameA nameB ds) := by
  have hpieces : ∀ pieces, Truncates e n pieces := by
    intro pieces
    obtain ⟨hfull, ⟨-, hnever⟩ | ⟨hsilent, -⟩⟩ := deliverTo_ofLimit none e pieces
    · exact absurd trivial hnever
    obtain ⟨hreceived, herror⟩ := deliverTo_ofLimit (some n) e pieces
    change _ = (text pieces).take n at hreceived
    change _ ∧ ¬ (text pieces).length ≤ n ∨ _ ∧ (text pieces).length ≤ n at herror
    refine ⟨Prod.ext hfull hsilent, ?_, ?_, ?_⟩
    · rw [hreceived, List.take_eq_take_iff]
      omega
    · rcases herror with ⟨hsome, hlong⟩ | ⟨hnone, hshort⟩
      · exact ⟨fun _ => by omega, fun _ => hsome⟩
      · rw [hnone]
        exact ⟨nofun, fun _ => by omega⟩
    · rcases herror with ⟨hsome, hlong⟩ | ⟨hnone, hshort⟩
      · rw [hsome]
        exact ⟨nofun, fun _ => by omega⟩
      · exact ⟨fun _ => hshort, fun _ => hnone⟩
  exact ⟨fun s => hpieces _, fun nameA nameB ds => hpieces _⟩

end Listing

end Footprint
