import Sundries.IcmpHeader

/-!
# What a received packet says

`ipv4_header` and the part of `handle_receive` that looks for the reply to the last request.
-/
namespace Sundries.Ping

/-- `ipv4_header` -/
structure Ipv4Header where
  rep : List UInt8
  length_rep : rep.length = 60
  deriving DecidableEq

/-- `version` of the bytes read so far. -/
def version (rep : List UInt8) : UInt8 := rep.getD 0 0 >>> 4 &&& 0xF

/-- `header_length` of the bytes read so far. -/
def headerLength (rep : List UInt8) : ℕ := (rep.getD 0 0 &&& 0xF).toNat * 4

namespace Ipv4Header

def timeToLive (h : Ipv4Header) : ℕ := (h.rep.getD 8 0).toNat

def sourceAddress (h : Ipv4Header) : List UInt8 := (h.rep.drop 12).take 4

/-- `operator>>`, with what is left of the stream: when a check has failed nothing more is read. -/
def read (s : List UInt8) : Option (Ipv4Header × List UInt8) :=
  if s.length < 20 then none
  else if version s ≠ 4 then none
  else if h : headerLength s < 20 ∨ 60 < headerLength s ∨ s.length < headerLength s then none
  else
    some (⟨s.take (headerLength s) ++ List.replicate (60 - headerLength s) 0, by
      simp only [List.length_append, List.length_take, List.length_replicate]
      omega⟩, s.drop (headerLength s))

end Ipv4Header

/-- A line of output; the time is in milliseconds. -/
inductive Line where
  | timedOut
  | reply (bytes : ℕ) (source : List UInt8) (icmpSeq : UInt16) (ttl time : ℕ)
  deriving DecidableEq

/-- A millisecond, in the nanoseconds of the clock. -/
def millisecond : ℕ := 1000000

/-- What `handle_receive` prints for a packet that comes `elapsed` after the request was sent. -/
def answer (identifier sequenceNumber : UInt16) (packet : List UInt8) (elapsed : ℕ) :
    Option Line :=
  (Ipv4Header.read packet).bind fun (ipv4, rest) =>
    (IcmpHeader.read rest).bind fun (icmp, _) =>
      if icmp.type = IcmpHeader.echoReply ∧ icmp.identifier = identifier ∧
          icmp.sequenceNumber = sequenceNumber then
        some (.reply (packet.length - headerLength ipv4.rep) ipv4.sourceAddress
          icmp.sequenceNumber ipv4.timeToLive (elapsed / millisecond))
      else none

/-- An ICMP echo reply as it comes in an IPv4 packet. -/
structure EchoReply where
  ipv4 : List UInt8
  options : List UInt8
  code : UInt8
  checksum : UInt16
  body : List UInt8
  length_ipv4 : ipv4.length = 20
  version_ipv4 : version ipv4 = 4
  headerLength_ipv4 : headerLength ipv4 = 20 + options.length

namespace EchoReply

def icmp (r : EchoReply) (identifier sequenceNumber : UInt16) : IcmpHeader :=
  ⟨[IcmpHeader.echoReply, r.code, highByte r.checksum, lowByte r.checksum, highByte identifier,
    lowByte identifier, highByte sequenceNumber, lowByte sequenceNumber], rfl⟩

def packet (r : EchoReply) (identifier sequenceNumber : UInt16) : List UInt8 :=
  r.ipv4 ++ r.options ++ ((r.icmp identifier sequenceNumber).rep ++ r.body)

def line (r : EchoReply) (sequenceNumber : UInt16) (elapsed : ℕ) : Line :=
  .reply (8 + r.body.length) ((r.ipv4.drop 12).take 4) sequenceNumber (r.ipv4.getD 8 0).toNat
    (elapsed / millisecond)

end EchoReply

/-! ## The checks -/

theorem getD_append_left {s t : List UInt8} {i : ℕ} (hi : i < s.length) :
    (s ++ t).getD i 0 = s.getD i 0 := by
  rw [List.getD_eq_getElem?_getD, List.getD_eq_getElem?_getD, List.getElem?_append_left hi]

/-- Only the first byte counts. -/
theorem headerLength_append {s : List UInt8} (hs : 0 < s.length) (t : List UInt8) :
    headerLength (s ++ t) = headerLength s := by
  rw [headerLength, getD_append_left hs, headerLength]

theorem version_append {s : List UInt8} (hs : 0 < s.length) (t : List UInt8) :
    version (s ++ t) = version s := by
  rw [version, getD_append_left hs, version]

theorem headerLength_le (s : List UInt8) : headerLength s ≤ 60 := by
  have hle : (s.getD 0 0 &&& 0xF).toNat ≤ 15 := by
    rw [UInt8.toNat_and]
    exact Nat.and_le_right
  rw [headerLength]
  omega

/-- **A header is read exactly off a stream that begins with one.** -/
theorem read_eq_some_iff {s rest : List UInt8} {h : Ipv4Header} :
    Ipv4Header.read s = some (h, rest) ↔ ∃ ipv4 options : List UInt8, ipv4.length = 20 ∧
      version ipv4 = 4 ∧ headerLength ipv4 = 20 + options.length ∧ s = ipv4 ++ options ++ rest ∧
      h.rep = ipv4 ++ options ++ List.replicate (60 - headerLength ipv4) 0 := by
  constructor
  · intro hread
    rw [Ipv4Header.read] at hread
    obtain ⟨hlength, hread⟩ := Option.ite_none_left_eq_some.mp hread
    obtain ⟨hversion, hread⟩ := Option.ite_none_left_eq_some.mp hread
    obtain ⟨hbounds, hread⟩ := Option.dite_none_left_eq_some.mp hread
    cases hread
    have hsplit : s = s.take 20 ++ s.drop 20 := (List.take_append_drop ..).symm
    have hpos : 0 < (s.take 20).length := by
      rw [List.length_take]
      omega
    have hhead : headerLength (s.take 20) = headerLength s := by
      conv_rhs => rw [hsplit, headerLength_append hpos]
    have hvers : version (s.take 20) = version s := by
      conv_rhs => rw [hsplit, version_append hpos]
    have htake : s.take (headerLength s) = s.take 20 ++ (s.drop 20).take (headerLength s - 20) := by
      rw [← List.take_add]
      congr 1
      omega
    refine ⟨s.take 20, (s.drop 20).take (headerLength s - 20), ?_, ?_, ?_, ?_, ?_⟩
    · rw [List.length_take]
      omega
    · rw [hvers]
      exact not_not.mp hversion
    · rw [hhead, List.length_take, List.length_drop]
      omega
    · rw [← htake, List.take_append_drop]
    · rw [hhead, ← htake]
  · rintro ⟨ipv4, options, hlength, hversion, hhead, rfl, hrep⟩
    have hpos : 0 < ipv4.length := by omega
    have hhead' : headerLength (ipv4 ++ options ++ rest) = (ipv4 ++ options).length := by
      rw [List.append_assoc, headerLength_append hpos, hhead, List.length_append, hlength]
    have hversion' : version (ipv4 ++ options ++ rest) = 4 := by
      rw [List.append_assoc, version_append hpos, hversion]
    have hle := headerLength_le ipv4
    have hlong : ¬ (ipv4 ++ options ++ rest).length < 20 := by
      simp only [List.length_append]
      omega
    have hbounds : ¬ (headerLength (ipv4 ++ options ++ rest) < 20 ∨
        60 < headerLength (ipv4 ++ options ++ rest) ∨
          (ipv4 ++ options ++ rest).length < headerLength (ipv4 ++ options ++ rest)) := by
      rw [hhead']
      simp only [List.length_append]
      omega
    obtain ⟨rep, hrep60⟩ := h
    rw [Ipv4Header.read, if_neg hlong, if_neg (by simpa using hversion'), dif_neg hbounds]
    simp only [hhead', List.take_left, List.drop_left, Option.some.injEq, Prod.mk.injEq, and_true,
      Ipv4Header.mk.injEq]
    rw [List.length_append, hlength, ← hhead]
    exact hrep.symm

/-- The bytes of a header of which the fields that `handle_receive` looks at are known. -/
theorem rep_iff {h : IcmpHeader} {identifier sequenceNumber : UInt16} :
    (h.type = IcmpHeader.echoReply ∧ h.identifier = identifier ∧
        h.sequenceNumber = sequenceNumber) ↔
      ∃ (code : UInt8) (checksum : UInt16), h.rep =
        [IcmpHeader.echoReply, code, highByte checksum, lowByte checksum, highByte identifier,
          lowByte identifier, highByte sequenceNumber, lowByte sequenceNumber] := by
  constructor
  · rintro ⟨htype, rfl, rfl⟩
    refine ⟨h.code, h.checksum, ?_⟩
    rw [← htype]
    simp only [IcmpHeader.checksum, IcmpHeader.identifier, IcmpHeader.sequenceNumber,
      IcmpHeader.decode, highByte_word, lowByte_word]
    exact h.rep_eq
  · rintro ⟨code, checksum, hrep⟩
    simp [IcmpHeader.type, IcmpHeader.identifier, IcmpHeader.sequenceNumber, IcmpHeader.decode,
      IcmpHeader.byte, hrep]

/-- **A line is printed exactly for an echo reply** to the request with this number, and says what
stands in it. -/
theorem answer_eq_some_iff {identifier sequenceNumber : UInt16} {packet : List UInt8}
    {elapsed : ℕ} {l : Line} :
    answer identifier sequenceNumber packet elapsed = some l ↔
      ∃ r : EchoReply, r.packet identifier sequenceNumber = packet ∧
        r.line sequenceNumber elapsed = l := by
  -- what is read off the header in `rep_` stands in the first twenty bytes
  have hfields : ∀ (h : Ipv4Header) (ipv4 options : List UInt8), ipv4.length = 20 →
      h.rep = ipv4 ++ options ++ List.replicate (60 - headerLength ipv4) 0 →
      headerLength h.rep = headerLength ipv4 ∧ h.timeToLive = (ipv4.getD 8 0).toNat ∧
        h.sourceAddress = (ipv4.drop 12).take 4 := by
    intro h ipv4 options hlength hrep
    rw [Ipv4Header.timeToLive, Ipv4Header.sourceAddress, hrep, List.append_assoc,
      headerLength_append (by omega), getD_append_left (by omega),
      List.drop_append_of_le_length (by omega), List.take_append_of_le_length (by simp; omega)]
    exact ⟨rfl, rfl, rfl⟩
  constructor
  · intro hanswer
    obtain ⟨⟨ipv4, rest⟩, hread, hanswer⟩ := Option.bind_eq_some_iff.mp hanswer
    obtain ⟨⟨icmp, body⟩, hicmp, hanswer⟩ := Option.bind_eq_some_iff.mp hanswer
    obtain ⟨hfilter, hl⟩ := Option.ite_none_right_eq_some.mp hanswer
    obtain rfl := Option.some.inj hl
    obtain ⟨header, options, hlength, hversion, hhead, rfl, hrep⟩ := read_eq_some_iff.mp hread
    obtain ⟨hhead', httl, hsource⟩ := hfields ipv4 header options hlength hrep
    obtain ⟨code, checksum, hbytes⟩ := rep_iff.mp hfilter
    obtain ⟨hle, hicmp⟩ := Option.dite_none_right_eq_some.mp hicmp
    cases hicmp
    refine ⟨⟨header, options, code, checksum, rest.drop 8, hlength, hversion, hhead⟩, ?_, ?_⟩
    · have hicmp : rest.take 8 ++ rest.drop 8 = rest := List.take_append_drop 8 rest
      have hpacket := congrArg (fun bytes => header ++ options ++ (bytes ++ rest.drop 8)) hbytes
      exact hpacket.symm.trans (congrArg (header ++ options ++ ·) hicmp)
    · rw [EchoReply.line, hhead', httl, hsource, hhead, hfilter.2.2]
      congr 1
      simp only [List.length_append, List.length_drop]
      omega
  · rintro ⟨r, rfl, rfl⟩
    obtain ⟨h, hh⟩ : ∃ h : Ipv4Header, h.rep =
        r.ipv4 ++ r.options ++ List.replicate (60 - headerLength r.ipv4) 0 := by
      refine ⟨⟨_, ?_⟩, rfl⟩
      have := headerLength_le r.ipv4
      simp only [List.length_append, List.length_replicate, r.length_ipv4, r.headerLength_ipv4]
        at *
      omega
    obtain ⟨hhead, httl, hsource⟩ := hfields h r.ipv4 r.options r.length_ipv4 hh
    have hread : Ipv4Header.read (r.packet identifier sequenceNumber) =
        some (h, (r.icmp identifier sequenceNumber).rep ++ r.body) :=
      read_eq_some_iff.mpr ⟨r.ipv4, r.options, r.length_ipv4, r.version_ipv4,
        r.headerLength_ipv4, rfl, hh⟩
    have hicmp : IcmpHeader.read ((r.icmp identifier sequenceNumber).rep ++ r.body) =
        some (r.icmp identifier sequenceNumber, r.body) := by
      simp [IcmpHeader.read, EchoReply.icmp]
    have hfilter := rep_iff.mpr
      ⟨r.code, r.checksum, (rfl : (r.icmp identifier sequenceNumber).rep = _)⟩
    have hbytes : (r.packet identifier sequenceNumber).length - headerLength r.ipv4 =
        8 + r.body.length := by
      simp only [EchoReply.packet, List.length_append, r.length_ipv4, r.headerLength_ipv4,
        (r.icmp identifier sequenceNumber).length_rep]
      omega
    simp only [answer, hread, Option.bind_some, hicmp, if_pos hfilter]
    rw [hfilter.2.2, hhead, hbytes, httl, hsource, EchoReply.line]

end Sundries.Ping
