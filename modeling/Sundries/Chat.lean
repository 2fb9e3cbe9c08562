import Mathlib.Data.List.TakeWhile
import Sundries.Framing
import Sundries.Istream

/-!
# The messages of the chat and how they are sent

`chat_message`, and what the server's sessions and the client have in common: each keeps a queue
of the messages it has to write and writes one at a time.  What a message holds behind its body
is never read and left out.
-/
namespace Sundries.Chat

/-- `header_length` -/
def headerLength : ℕ := 4

/-- `max_body_length` -/
def maxBodyLength : ℕ := 512

/-- `atoi` of the first characters, up to a zero. -/
def atoi (s : List Char) : ℤ :=
  ((Istream.integer 10 (s.takeWhile (· ≠ '\x00'))).map Prod.fst).getD 0

/-- `decode_header`: a negative length is a large one. -/
def decodeHeader (data : List Char) : Option ℕ :=
  let bodyLength := atoi (data.take headerLength)
  if 0 ≤ bodyLength ∧ bodyLength ≤ maxBodyLength then some bodyLength.toNat else none

/-- `encode_header` -/
def encodeHeader (bodyLength : ℕ) : List Char :=
  let digits := Nat.toDigits 10 bodyLength
  (List.replicate (headerLength - digits.length) ' ' ++ digits).take headerLength

def framing : Framing Char := ⟨headerLength, decodeHeader, by decide⟩

/-- `chat_message` -/
abbrev Message := Frame framing

theorem length_toDigits {n : ℕ} (h : n ≤ maxBodyLength) :
    (Nat.toDigits 10 n).length ≤ headerLength :=
  (Nat.length_toDigits_le_iff (by decide) (by decide)).mpr (Nat.lt_of_le_of_lt h (by decide))

theorem length_encodeHeader {n : ℕ} (h : n ≤ maxBodyLength) :
    (encodeHeader n).length = headerLength := by
  have hle := length_toDigits h
  simp only [encodeHeader, List.length_take, List.length_append, List.length_replicate]
  omega

/-- **A header says the length it was made for.** -/
theorem decodeHeader_encodeHeader {n : ℕ} (h : n ≤ maxBodyLength) :
    decodeHeader (encodeHeader n) = some n := by
  have hle := length_toDigits h
  have hfull : encodeHeader n =
      List.replicate (headerLength - (Nat.toDigits 10 n).length) ' ' ++ Nat.toDigits 10 n := by
    rw [encodeHeader, List.take_of_length_le]
    simp only [List.length_append, List.length_replicate]
    omega
  have hspaces : ∀ c ∈ List.replicate (headerLength - (Nat.toDigits 10 n).length) ' ',
      Istream.isSpace c = true := by
    intro c hc
    rw [List.eq_of_mem_replicate hc]
    rfl
  have hzero : ∀ c ∈ encodeHeader n, decide (c ≠ '\x00') = true := by
    intro c hc
    rw [decide_eq_true_iff]
    rintro rfl
    rcases List.mem_append.mp (hfull ▸ hc) with hc | hc
    · exact absurd (List.eq_of_mem_replicate hc) (by decide)
    · exact absurd (Nat.isDigit_of_mem_toDigits (by decide) (by decide) hc) (by decide)
  have hatoi : atoi ((encodeHeader n).take headerLength) = n := by
    have hinteger : Istream.integer 10 (encodeHeader n) = some ((n : ℤ), []) := by
      rw [hfull, ← List.append_nil (_ ++ _)]
      exact Istream.integer_toDigits n hspaces (by simp)
    rw [List.take_of_length_le (length_encodeHeader h).le, atoi,
      List.takeWhile_eq_self_iff.mpr hzero, hinteger]
    rfl
  simp only [decodeHeader, hatoi]
  rw [if_pos ⟨Int.natCast_nonneg n, Int.ofNat_le.mpr h⟩, Int.toNat_natCast]

/-- The message of a line, as `main` of the client makes it. -/
def messageOf (line : List Char) : Message :=
  let body := (line.takeWhile (· ≠ '\x00')).take maxBodyLength
  have hle : body.length ≤ maxBodyLength := List.length_take_le ..
  ⟨⟨encodeHeader body.length, body.length, length_encodeHeader hle, decodeHeader_encodeHeader hle⟩,
    body, rfl⟩

/-! ## One write at a time -/

/-- `write_msgs_`, and whether an `async_write` of its front is under way. -/
structure Writer where
  writeMsgs : List Message
  writing : Bool

namespace Writer

def start : Writer := ⟨[], false⟩

/-- `deliver` of a session and `do_write` of the client. -/
def deliver (w : Writer) (m : Message) : Writer :=
  let writeInProgress := !w.writeMsgs.isEmpty
  ⟨w.writeMsgs ++ [m], if writeInProgress then w.writing else true⟩

/-- `handle_write` without an error, with the message that has been written. -/
def handleWrite (w : Writer) : Option (Message × Writer) :=
  match w.writing, w.writeMsgs with
  | true, m :: ms => some (m, ⟨ms, !ms.isEmpty⟩)
  | _, _ => none

/-- `handle_write` with an error, with the message of which a part may have been written. -/
def failWrite (w : Writer) : Option (Message × Writer) :=
  match w.writing, w.writeMsgs with
  | true, m :: ms => some (m, ⟨m :: ms, false⟩)
  | _, _ => none

/-- What is being written.  Any part of it may have been sent already. -/
def underWay (w : Writer) : List Char :=
  match w.writing, w.writeMsgs with
  | true, m :: _ => m.data
  | _, _ => []

theorem underWay_of_not_writing {w : Writer} (h : w.writing = false) : w.underWay = [] := by
  rw [underWay, h]

theorem underWay_of_writing {w : Writer} {m : Message} {ms : List Message}
    (h : w.writing = true) (hmsgs : w.writeMsgs = m :: ms) : w.underWay = m.data := by
  rw [underWay, h, hmsgs]

theorem handleWrite_cases {w w' : Writer} {m : Message} (h : w.handleWrite = some (m, w')) :
    w.writing = true ∧ w.writeMsgs = m :: w'.writeMsgs ∧
      w'.writing = !w'.writeMsgs.isEmpty := by
  obtain ⟨msgs, writing⟩ := w
  cases writing with
  | false => simp [handleWrite] at h
  | true =>
    cases msgs with
    | nil => simp [handleWrite] at h
    | cons m' ms =>
      cases h
      exact ⟨rfl, rfl, rfl⟩

theorem failWrite_cases {w w' : Writer} {m : Message} (h : w.failWrite = some (m, w')) :
    w.writing = true ∧ w'.writeMsgs = w.writeMsgs ∧ w'.writing = false ∧
      ∃ ms, w.writeMsgs = m :: ms := by
  obtain ⟨msgs, writing⟩ := w
  cases writing with
  | false => simp [failWrite] at h
  | true =>
    cases msgs with
    | nil => simp [failWrite] at h
    | cons m' ms =>
      cases h
      exact ⟨rfl, rfl, rfl, ms, rfl⟩

/-- A write is under way as long as there is something to write. -/
def Busy (w : Writer) : Prop := w.writing = !w.writeMsgs.isEmpty

/-- What the handled writes have sent is the beginning of the messages `ms`, and until a write fails
the rest of them is in the queue. -/
structure Sends (w : Writer) (sent : List Char) (ms : List Message) : Prop where
  begun : sent <+: Frame.bytes ms
  rest : w.Busy → sent ++ Frame.bytes w.writeMsgs = Frame.bytes ms
  queued : w.writing = true → w.Busy

theorem Busy.start : start.Busy := rfl

theorem Busy.deliver {w : Writer} (h : w.Busy) (m : Message) : (w.deliver m).Busy := by
  obtain ⟨msgs, writing⟩ := w
  cases msgs with
  | nil => rfl
  | cons m' ms => exact h

theorem busy_of_deliver {w : Writer} {m : Message} (hqueued : w.writing = true → w.Busy)
    (h : (w.deliver m).Busy) : w.Busy := by
  obtain ⟨msgs, writing⟩ := w
  cases msgs with
  | nil =>
    cases writing with
    | false => rfl
    | true => exact hqueued rfl
  | cons m' ms => exact h

theorem Sends.start : start.Sends [] [] := ⟨List.nil_prefix, fun _ => rfl, nofun⟩

variable {w w' : Writer} {sent : List Char} {ms : List Message} {m : Message}

theorem Sends.deliver (h : w.Sends sent ms) (m : Message) : (w.deliver m).Sends sent (ms ++ [m]) where
  begun := by
    rw [Frame.bytes_append]
    exact h.begun.trans (List.prefix_append ..)
  rest hbusy := by
    have hrest := h.rest (busy_of_deliver h.queued hbusy)
    rw [Writer.deliver, Frame.bytes_append, Frame.bytes_append, ← hrest, List.append_assoc]
  queued hwriting := by
    obtain ⟨msgs, writing⟩ := w
    cases msgs with
    | nil => rfl
    | cons m' ms => exact h.queued hwriting

/-- What has been sent by a write that is not handled yet belongs to the messages as well. -/
theorem Sends.underWay (h : w.Sends sent ms) : sent ++ w.underWay <+: Frame.bytes ms := by
  cases hwriting : w.writing with
  | false =>
    rw [underWay_of_not_writing hwriting, List.append_nil]
    exact h.begun
  | true =>
    have hrest := h.rest (h.queued hwriting)
    cases hmsgs : w.writeMsgs with
    | nil =>
      rw [Writer.underWay, hwriting, hmsgs, List.append_nil]
      exact h.begun
    | cons m ms' =>
      rw [hmsgs, Frame.bytes_cons, ← List.append_assoc] at hrest
      rw [underWay_of_writing hwriting hmsgs]
      exact ⟨_, hrest⟩

/-- A message that is added to the queue changes nothing of what is being written. -/
theorem underWay_deliver (w : Writer) (m : Message) :
    w.underWay <+: (w.deliver m).underWay := by
  obtain ⟨msgs, writing⟩ := w
  cases msgs with
  | nil => cases writing <;> exact List.nil_prefix
  | cons m' ms => cases writing <;> exact List.prefix_rfl

theorem Sends.handleWrite (h : w.Sends sent ms) (hw : w.handleWrite = some (m, w')) :
    w'.Sends (sent ++ m.data) ms ∧ w'.Busy := by
  obtain ⟨hwriting, hmsgs, hbusy⟩ := handleWrite_cases hw
  have hrest := h.rest (h.queued hwriting)
  rw [hmsgs, Frame.bytes_cons, ← List.append_assoc] at hrest
  exact ⟨⟨⟨_, hrest⟩, fun _ => hrest, fun _ => hbusy⟩, hbusy⟩

theorem Sends.failWrite (h : w.Sends sent ms) (hw : w.failWrite = some (m, w')) (n : ℕ) :
    w'.Sends (sent ++ m.data.take n) ms := by
  obtain ⟨hwriting, hmsgs, hstopped, ms', hfront⟩ := failWrite_cases hw
  have hrest := h.rest (h.queued hwriting)
  rw [hfront, Frame.bytes_cons] at hrest
  refine ⟨⟨m.data.drop n ++ Frame.bytes ms', ?_⟩, fun hbusy => ?_, fun hon => ?_⟩
  · rw [← hrest]
    simp only [List.append_assoc, List.append_cancel_left_eq]
    rw [← List.append_assoc, List.take_append_drop]
  · rw [Busy, hstopped, hmsgs, hfront] at hbusy
    cases hbusy
  · rw [hstopped] at hon
    cases hon

end Writer
end Sundries.Chat
