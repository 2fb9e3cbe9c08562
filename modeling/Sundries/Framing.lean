import Mathlib.Data.List.Infix

/-!
# Framed streams

A frame is a header of fixed length, which says how long the body is, and the body.  A stream of
frames can be cut up in one way only (`isPrefix_of_bytes`), and a `Reader` that takes a header off
the stream, then the body it announces, and so on, cuts it up so: the frames it has taken are
always the first ones of the stream (`Reader.Follows`), and when it has to wait there is no other
one in it (`Reader.Follows.complete`).
-/
namespace Sundries

/-- How the header of a frame is read. -/
structure Framing (A : Type*) where
  headerLength : ℕ
  decodeHeader : List A → Option ℕ
  pos : 0 < headerLength

variable {A : Type*} {F : Framing A}

/-- A header that can be decoded. -/
structure Header (F : Framing A) where
  data : List A
  bodyLength : ℕ
  length_data : data.length = F.headerLength
  decode : F.decodeHeader data = some bodyLength

structure Frame (F : Framing A) where
  header : Header F
  body : List A
  length_body : body.length = header.bodyLength

theorem Header.eq_of_data {h k : Header F} (heq : h.data = k.data) : h = k := by
  obtain ⟨data, n, hlength, hn⟩ := h
  obtain ⟨data', m, hlength', hm⟩ := k
  obtain rfl : data = data' := heq
  obtain rfl : n = m := Option.some.inj (hn.symm.trans hm)
  rfl

/-- A header, if the characters are one. -/
def Framing.header (F : Framing A) (data : List A) : Option (Header F) :=
  if hlength : data.length = F.headerLength then
    match hdecode : F.decodeHeader data with
    | some n => some ⟨data, n, hlength, hdecode⟩
    | none => none
  else none

theorem Framing.data_of_header {data : List A} {h : Header F} (hh : F.header data = some h) :
    h.data = data := by
  rw [header] at hh
  split at hh
  · split at hh
    · cases hh
      rfl
    · cases hh
  · cases hh

namespace Frame

/-- A frame as it stands in a stream. -/
def data (f : Frame F) : List A := f.header.data ++ f.body

@[simp] theorem length_data (f : Frame F) :
    f.data.length = F.headerLength + f.header.bodyLength := by
  rw [data, List.length_append, f.header.length_data, f.length_body]

/-- **A frame ends where its header says.** -/
theorem eq_of_data_append {f g : Frame F} {as bs : List A}
    (h : f.data ++ as = g.data ++ bs) : f = g ∧ as = bs := by
  obtain ⟨header, body, hbody⟩ := f
  obtain ⟨header', body', hbody'⟩ := g
  simp only [data, List.append_assoc] at h
  obtain ⟨hheader, hrest⟩ :=
    List.append_inj h (header.length_data.trans header'.length_data.symm)
  obtain rfl := Header.eq_of_data hheader
  obtain ⟨rfl, rfl⟩ := List.append_inj hrest (hbody.trans hbody'.symm)
  exact ⟨rfl, rfl⟩

/-- A stream of frames. -/
def bytes (fs : List (Frame F)) : List A := fs.flatMap data

@[simp] theorem bytes_nil : bytes ([] : List (Frame F)) = [] := rfl

@[simp] theorem bytes_cons (f : Frame F) (fs : List (Frame F)) :
    bytes (f :: fs) = f.data ++ bytes fs := List.flatMap_cons

@[simp] theorem bytes_append (fs gs : List (Frame F)) :
    bytes (fs ++ gs) = bytes fs ++ bytes gs := List.flatMap_append

theorem data_ne_nil (f : Frame F) : f.data ≠ [] := by
  intro h
  have hlength := f.length_data
  rw [h] at hlength
  have := F.pos
  simp at hlength
  omega

/-- **A stream of frames is cut up in one way only.** -/
theorem isPrefix_of_bytes {fs gs : List (Frame F)} (h : bytes fs <+: bytes gs) : fs <+: gs := by
  induction fs generalizing gs with
  | nil => exact List.nil_prefix
  | cons f fs ih =>
    obtain ⟨bs, h⟩ := h
    rw [bytes_cons, List.append_assoc] at h
    cases gs with
    | nil => exact absurd (List.append_eq_nil_iff.mp h).1 f.data_ne_nil
    | cons g gs =>
      rw [bytes_cons] at h
      obtain ⟨rfl, hrest⟩ := eq_of_data_append h
      obtain ⟨hs, rfl⟩ := ih ⟨bs, hrest⟩
      exact ⟨hs, rfl⟩

end Frame

/-! ## A reader -/

/-- What is read next. -/
inductive Reading (F : Framing A) where
  | header
  | body (h : Header F)
  | ended

/-- `inbox` is what has arrived and has not been read. -/
structure Reader (F : Framing A) where
  reading : Reading F
  inbox : List A

namespace Reader

def start (F : Framing A) : Reader F := ⟨.header, []⟩

/-- More of the stream arrives. -/
def receive (r : Reader F) (as : List A) : Reader F := { r with inbox := r.inbox ++ as }

/-- A header is read. -/
def readHeader (r : Reader F) : Option (Reader F) :=
  match r.reading with
  | .header =>
    if F.headerLength ≤ r.inbox.length then
      let rest := r.inbox.drop F.headerLength
      match F.header (r.inbox.take F.headerLength) with
      | some h => some ⟨.body h, rest⟩
      | none => some ⟨.ended, rest⟩
    else none
  | _ => none

/-- A body is read. -/
def readBody (r : Reader F) : Option (Frame F × Reader F) :=
  match r.reading with
  | .body h =>
    if hlength : h.bodyLength ≤ r.inbox.length then
      some (⟨h, r.inbox.take h.bodyLength, List.length_take_of_le hlength⟩,
        ⟨.header, r.inbox.drop h.bodyLength⟩)
    else none
  | _ => none

/-- Nothing more is read. -/
def stop (r : Reader F) : Reader F := { r with reading := .ended }

def ended (r : Reader F) : Bool :=
  match r.reading with
  | .ended => true
  | _ => false

theorem readHeader_cases {r r' : Reader F} (h : r.readHeader = some r') :
    r.reading = .header ∧ (r'.reading = .ended ∨
      ∃ k : Header F, r'.reading = .body k ∧ r.inbox = k.data ++ r'.inbox) := by
  rw [readHeader] at h
  split at h
  · rename_i hreading
    split at h
    · refine ⟨hreading, ?_⟩
      split at h <;> cases h
      · rename_i k hk
        exact .inr ⟨k, rfl, by rw [Framing.data_of_header hk, List.take_append_drop]⟩
      · exact .inl rfl
    · cases h
  · cases h

theorem readBody_cases {r r' : Reader F} {f : Frame F} (h : r.readBody = some (f, r')) :
    r.reading = .body f.header ∧ r'.reading = .header ∧ r.inbox = f.body ++ r'.inbox := by
  rw [readBody] at h
  split at h
  · rename_i k hreading
    split at h
    · cases h
      exact ⟨hreading, rfl, (List.take_append_drop ..).symm⟩
    · cases h
  · cases h

/-- The reader has begun to read and cannot go on before more arrives. -/
def Waits (r : Reader F) : Prop :=
  (r.reading = .header ∧ r.inbox.length < F.headerLength) ∨
    ∃ h : Header F, r.reading = .body h ∧ r.inbox.length < h.bodyLength

/-- What has been read of a frame that is not there yet. -/
def taken (r : Reader F) : List A :=
  match r.reading with
  | .body h => h.data
  | _ => []

/-- The frames read are the first ones of what has arrived. -/
structure Follows (r : Reader F) (stream : List A) (fs : List (Frame F)) : Prop where
  begun : Frame.bytes fs <+: stream
  rest : r.reading = .ended ∨ stream = Frame.bytes fs ++ r.taken ++ r.inbox

theorem Follows.start : (start F).Follows [] [] := ⟨List.nil_prefix, .inr rfl⟩

variable {r r' : Reader F} {stream : List A} {fs : List (Frame F)}

theorem Follows.receive (h : r.Follows stream fs) (as : List A) :
    (r.receive as).Follows (stream ++ as) fs := by
  refine ⟨h.begun.trans (List.prefix_append ..), h.rest.imp id ?_⟩
  intro hstream
  calc stream ++ as = Frame.bytes fs ++ r.taken ++ r.inbox ++ as := by rw [hstream]
    _ = Frame.bytes fs ++ (r.receive as).taken ++ (r.receive as).inbox := List.append_assoc ..

theorem Follows.stop (h : r.Follows stream fs) : r.stop.Follows stream fs := ⟨h.begun, .inl rfl⟩

theorem Follows.readHeader (h : r.Follows stream fs) (hr : r.readHeader = some r') :
    r'.Follows stream fs := by
  obtain ⟨hreading, hended | ⟨k, hbody, hinbox⟩⟩ := readHeader_cases hr
  · exact ⟨h.begun, .inl hended⟩
  · rcases h.rest with hended | hstream
    · rw [hreading] at hended
      cases hended
    · refine ⟨h.begun, .inr ?_⟩
      simp only [taken, hreading, List.append_nil] at hstream
      simp only [taken, hbody]
      rw [hstream, hinbox, List.append_assoc]

theorem Follows.readBody (h : r.Follows stream fs) {f : Frame F}
    (hr : r.readBody = some (f, r')) : r'.Follows stream (fs ++ [f]) := by
  obtain ⟨hreading, hheader, hinbox⟩ := readBody_cases hr
  rcases h.rest with hended | hstream
  · rw [hreading] at hended
    cases hended
  · simp only [taken, hreading] at hstream
    have hnext : stream = Frame.bytes (fs ++ [f]) ++ r'.inbox := by
      simp [hstream, hinbox, Frame.data]
    exact ⟨⟨r'.inbox, hnext.symm⟩, .inr (by simpa [taken, hheader] using hnext)⟩

/-- **A reader that waits has read every frame that has arrived.** -/
theorem Follows.complete (h : r.Follows stream fs) (hwaits : r.Waits) {gs : List (Frame F)}
    (hgs : Frame.bytes gs <+: stream) : gs <+: fs := by
  rcases List.prefix_or_prefix_of_prefix hgs h.begun with hle | hle
  · exact Frame.isPrefix_of_bytes hle
  · obtain ⟨hs, rfl⟩ := Frame.isPrefix_of_bytes hle
    cases hs with
    | nil => rw [List.append_nil]
    | cons g hs =>
      -- the frame `g` would have to be in what the reader still has
      exfalso
      have hrest : stream = Frame.bytes fs ++ r.taken ++ r.inbox := by
        rcases h.rest with hended | hstream
        · obtain ⟨hheader, -⟩ | ⟨k, hbody, -⟩ := hwaits
          · rw [hheader] at hended
            cases hended
          · rw [hbody] at hended
            cases hended
        · exact hstream
      obtain ⟨bs, hbs⟩ := hgs
      rw [hrest, Frame.bytes_append, Frame.bytes_cons, List.append_assoc, List.append_assoc,
        List.append_assoc] at hbs
      have hbs := List.append_cancel_left hbs
      obtain ⟨hheader, hlt⟩ | ⟨k, hbody, hlt⟩ := hwaits
      · have hlength := congrArg List.length hbs
        simp only [taken, hheader, List.length_append, Frame.length_data, List.length_nil]
          at hlength
        omega
      · simp only [taken, hbody, Frame.data, List.append_assoc] at hbs
        obtain ⟨hk, hbs⟩ :=
          List.append_inj hbs (g.header.length_data.trans k.length_data.symm)
        have hlength := congrArg List.length hbs
        rw [List.length_append, g.length_body, Header.eq_of_data hk] at hlength
        omega

end Reader
end Sundries
