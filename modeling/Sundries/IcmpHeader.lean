import Mathlib.Data.List.Basic
import Sundries.OnesComplement

/-!
# The ICMP header and its checksum

`icmp_header` keeps the eight bytes as they stand in a packet.  `compute_checksum` makes a packet
of which the sixteen-bit words, the checksum among them, add up to all ones when the carry is
taken round; this is what a receiver checks.
-/
namespace Sundries.Ping

/-- `icmp_header` -/
structure IcmpHeader where
  rep : List UInt8
  length_rep : rep.length = 8
  deriving DecidableEq

/-- A word of two bytes, the high one first. -/
def word (a b : UInt8) : UInt16 := a.toUInt16 <<< 8 + b.toUInt16

def highByte (n : UInt16) : UInt8 := (n >>> 8).toUInt8

def lowByte (n : UInt16) : UInt8 := (n &&& 0xFF).toUInt8

namespace IcmpHeader

def echoReply : UInt8 := 0
def echoRequest : UInt8 := 8

def new : IcmpHeader := ⟨List.replicate 8 0, rfl⟩

/-- `rep_[i]`; each `i` in use is less than eight. -/
def byte (h : IcmpHeader) (i : ℕ) : UInt8 := h.rep.getD i 0

def setByte (h : IcmpHeader) (i : ℕ) (n : UInt8) : IcmpHeader :=
  ⟨h.rep.set i n, by rw [List.length_set, h.length_rep]⟩

def decode (h : IcmpHeader) (a b : ℕ) : UInt16 := word (h.byte a) (h.byte b)

def encode (h : IcmpHeader) (a b : ℕ) (n : UInt16) : IcmpHeader :=
  (h.setByte a (highByte n)).setByte b (lowByte n)

def type (h : IcmpHeader) : UInt8 := h.byte 0
def code (h : IcmpHeader) : UInt8 := h.byte 1
def checksum (h : IcmpHeader) : UInt16 := h.decode 2 3
def identifier (h : IcmpHeader) : UInt16 := h.decode 4 5
def sequenceNumber (h : IcmpHeader) : UInt16 := h.decode 6 7

def setType (h : IcmpHeader) (n : UInt8) : IcmpHeader := h.setByte 0 n
def setCode (h : IcmpHeader) (n : UInt8) : IcmpHeader := h.setByte 1 n
def setChecksum (h : IcmpHeader) (n : UInt16) : IcmpHeader := h.encode 2 3 n
def setIdentifier (h : IcmpHeader) (n : UInt16) : IcmpHeader := h.encode 4 5 n
def setSequenceNumber (h : IcmpHeader) (n : UInt16) : IcmpHeader := h.encode 6 7 n

/-- `operator>>`, with what is left of the stream. -/
def read (s : List UInt8) : Option (IcmpHeader × List UInt8) :=
  if h : 8 ≤ s.length then some (⟨s.take 8, List.length_take_of_le h⟩, s.drop 8) else none

/-- The loop over the body. -/
def sumBody : UInt32 → List UInt8 → UInt32
  | sum, [] => sum
  | sum, [a] => sum + a.toUInt32 <<< 8
  | sum, a :: b :: body => sumBody (sum + a.toUInt32 <<< 8 + b.toUInt32) body

/-- `compute_checksum` -/
def computeChecksum (h : IcmpHeader) (body : List UInt8) : IcmpHeader :=
  let sum := h.type.toUInt32 <<< 8 + h.code.toUInt32 + h.identifier.toUInt32 +
    h.sequenceNumber.toUInt32
  let sum := sumBody sum body
  let sum := sum >>> 16 + (sum &&& 0xFFFF)
  let sum := sum + sum >>> 16
  h.setChecksum (~~~sum).toUInt16

end IcmpHeader

/-! ## Words -/

theorem toNat_word (a b : UInt8) : (word a b).toNat = a.toNat * 256 + b.toNat := by
  have ha := a.toNat_lt
  have hb := b.toNat_lt
  simp only [word, UInt16.toNat_add, UInt16.toNat_shiftLeft, UInt8.toNat_toUInt16,
    UInt16.reduceToNat, Nat.shiftLeft_eq, Nat.reduceMod, Nat.reducePow] at *
  omega

theorem toNat_highByte (n : UInt16) : (highByte n).toNat = n.toNat / 256 := by
  have hn := n.toNat_lt
  simp only [highByte, UInt16.toNat_toUInt8, UInt16.toNat_shiftRight, UInt16.reduceToNat,
    Nat.shiftRight_eq_div_pow, Nat.reduceMod, Nat.reducePow] at *
  omega

theorem toNat_lowByte (n : UInt16) : (lowByte n).toNat = n.toNat % 256 := by
  simp only [lowByte, UInt16.toNat_toUInt8, UInt16.toNat_and, UInt16.reduceToNat]
  rw [Nat.and_two_pow_sub_one_eq_mod _ 8]
  omega

@[simp] theorem word_bytes (n : UInt16) : word (highByte n) (lowByte n) = n := by
  rw [← UInt16.toNat_inj, toNat_word, toNat_highByte, toNat_lowByte]
  omega

theorem highByte_word (a b : UInt8) : highByte (word a b) = a := by
  have hb := b.toNat_lt
  rw [← UInt8.toNat_inj, toNat_highByte, toNat_word]
  simp only [Nat.reducePow] at hb
  omega

theorem lowByte_word (a b : UInt8) : lowByte (word a b) = b := by
  have hb := b.toNat_lt
  rw [← UInt8.toNat_inj, toNat_lowByte, toNat_word]
  simp only [Nat.reducePow] at hb
  omega

/-- The sixteen-bit words of a packet; an odd byte at the end is the high one of a word. -/
def words : List UInt8 → List ℕ
  | [] => []
  | [a] => [a.toNat * 256]
  | a :: b :: bytes => (a.toNat * 256 + b.toNat) :: words bytes

/-- What a receiver checks: the words add up to all ones. -/
def Verifies (packet : List UInt8) : Prop := OnesComplement.sum 65536 (words packet) = 65535

theorem words_lt (bytes : List UInt8) : ∀ w ∈ words bytes, w < 65536 := by
  induction bytes using words.induct with
  | case1 => simp [words]
  | case2 a =>
    have := a.toNat_lt
    simp only [words, List.mem_singleton, forall_eq, Nat.reducePow] at *
    omega
  | case3 a b bytes ih =>
    have := a.toNat_lt
    have := b.toNat_lt
    simp only [words, List.mem_cons, forall_eq_or_imp, Nat.reducePow] at *
    exact ⟨by omega, ih⟩

theorem length_words (bytes : List UInt8) : (words bytes).length = (bytes.length + 1) / 2 := by
  induction bytes using words.induct with
  | case1 => rfl
  | case2 a => simp [words]
  | case3 a b bytes ih =>
    simp only [words, List.length_cons, ih]
    omega

namespace IcmpHeader

theorem rep_eq (h : IcmpHeader) :
    h.rep = [h.byte 0, h.byte 1, h.byte 2, h.byte 3, h.byte 4, h.byte 5, h.byte 6, h.byte 7] := by
  obtain ⟨rep, hrep⟩ := h
  rcases rep with _ | ⟨a, _ | ⟨b, _ | ⟨c, _ | ⟨d, _ | ⟨e, _ | ⟨f, _ | ⟨g, _ | ⟨h, _ | ⟨i, rep⟩⟩⟩⟩⟩⟩⟩⟩⟩
  case cons.cons.cons.cons.cons.cons.cons.cons.nil => rfl
  all_goals simp at hrep

/-- The loop adds up the words of the body, as long as nothing is lost. -/
theorem toNat_sumBody {sum : UInt32} {body : List UInt8}
    (h : sum.toNat + OnesComplement.total (words body) < 4294967296) :
    (sumBody sum body).toNat = sum.toNat + OnesComplement.total (words body) := by
  induction sum, body using sumBody.induct with
  | case1 sum => rfl
  | case2 sum a =>
    simp only [words, OnesComplement.total_cons, OnesComplement.total_nil] at h
    simp only [sumBody, words, OnesComplement.total_cons, OnesComplement.total_nil,
      UInt32.toNat_add, UInt32.toNat_shiftLeft, UInt8.toNat_toUInt32, UInt32.reduceToNat,
      Nat.shiftLeft_eq, Nat.reduceMod, Nat.reducePow] at *
    omega
  | case3 sum a b body ih =>
    simp only [words, OnesComplement.total_cons] at h
    have hsum : (sum + a.toUInt32 <<< 8 + b.toUInt32).toNat =
        sum.toNat + (a.toNat * 256 + b.toNat) := by
      simp only [UInt32.toNat_add, UInt32.toNat_shiftLeft, UInt8.toNat_toUInt32,
        UInt32.reduceToNat, Nat.shiftLeft_eq, Nat.reduceMod, Nat.reducePow] at *
      omega
    rw [sumBody, ih (by omega), hsum, words, OnesComplement.total_cons]
    omega

/-- What `compute_checksum` adds up. -/
def words (h : IcmpHeader) : List ℕ :=
  [(word h.type h.code).toNat, h.identifier.toNat, h.sequenceNumber.toNat]

/-- The bytes of a header with another checksum. -/
theorem rep_setChecksum (h : IcmpHeader) (n : UInt16) :
    (h.setChecksum n).rep = [h.type, h.code, highByte n, lowByte n, h.byte 4, h.byte 5, h.byte 6,
      h.byte 7] := by
  rw [setChecksum, encode, setByte, setByte]
  simp only
  rw [h.rep_eq]
  rfl

/-- Two carries are enough: the complement of the folded sum makes it a multiple of all ones. -/
theorem exists_add_complement {s t : ℕ} (hs : s < 4294967296) (ht : t = s / 65536 + s % 65536) :
    ∃ k, s + (4294967295 - (t + t / 65536)) % 65536 = 65535 * (k + 1) := by
  have hc : (4294967295 - (t + t / 65536)) % 65536 = 65535 - (t + t / 65536) % 65536 := by omega
  rcases Nat.lt_or_ge t 65536 with hlt | hge
  · refine ⟨s / 65536, ?_⟩
    rw [hc, Nat.div_eq_of_lt hlt, Nat.add_zero, Nat.mod_eq_of_lt hlt]
    omega
  · have hdiv : t / 65536 = 1 := by omega
    have hmod : (t + 1) % 65536 = t - 65535 := by omega
    refine ⟨s / 65536 + 1, ?_⟩
    rw [hc, hdiv, hmod]
    omega

/-- **The checksum** is the complement of the words' sum, the carry taken round. -/
theorem toNat_checksum (h : IcmpHeader) {body : List UInt8}
    (hsum : OnesComplement.total (h.words ++ Ping.words body) < 4294967296) :
    ∃ (n : UInt16) (k : ℕ), h.computeChecksum body = h.setChecksum n ∧
      OnesComplement.total (h.words ++ Ping.words body) + n.toNat = 65535 * (k + 1) := by
  have hstart : (h.type.toUInt32 <<< 8 + h.code.toUInt32 + h.identifier.toUInt32 +
      h.sequenceNumber.toUInt32).toNat = OnesComplement.total h.words := by
    have htype := h.type.toNat_lt
    have hcode := h.code.toNat_lt
    have hidentifier := h.identifier.toNat_lt
    have hnumber := h.sequenceNumber.toNat_lt
    simp only [words, OnesComplement.total_cons, OnesComplement.total_nil, toNat_word,
      UInt32.toNat_add, UInt32.toNat_shiftLeft, UInt8.toNat_toUInt32, UInt16.toNat_toUInt32,
      UInt32.reduceToNat, Nat.shiftLeft_eq, Nat.reduceMod, Nat.reducePow] at *
    omega
  rw [OnesComplement.total_append, ← hstart] at hsum ⊢
  have hbody := toNat_sumBody hsum
  rw [computeChecksum, ← hbody]
  generalize sumBody _ body = sum
  have hlt := sum.toNat_lt
  have hfold : (sum >>> 16 + (sum &&& 0xFFFF)).toNat =
      sum.toNat / 65536 + sum.toNat % 65536 := by
    simp only [UInt32.toNat_add, UInt32.toNat_shiftRight, UInt32.toNat_and, UInt32.reduceToNat,
      Nat.shiftRight_eq_div_pow, Nat.reduceMod, Nat.reducePow] at *
    rw [Nat.and_two_pow_sub_one_eq_mod _ 16]
    omega
  generalize sum >>> 16 + (sum &&& 0xFFFF) = folded at *
  have htwice : (folded + folded >>> 16).toNat = folded.toNat + folded.toNat / 65536 := by
    simp only [UInt32.toNat_add, UInt32.toNat_shiftRight, UInt32.reduceToNat,
      Nat.shiftRight_eq_div_pow, Nat.reduceMod, Nat.reducePow] at *
    omega
  obtain ⟨k, hk⟩ := exists_add_complement hlt hfold
  refine ⟨_, k, rfl, ?_⟩
  rw [UInt32.toNat_toUInt16, UInt32.toNat_not, htwice]
  exact hk

end IcmpHeader

/-- **A receiver accepts the packet and notices when one word of it has changed**, unless the change
is from one zero to the other. -/
theorem checksum_verifies (h : IcmpHeader) {body : List UInt8} (hlength : body.length ≤ 131068) :
    Verifies ((h.computeChecksum body).rep ++ body) ∧
    ∀ i v w : ℕ, (words ((h.computeChecksum body).rep ++ body))[i]? = some v → w < 65536 →
      OnesComplement.sum 65536 ((words ((h.computeChecksum body).rep ++ body)).set i w) = 65535 →
      w = v ∨ (w = 0 ∧ v = 65535) ∨ (w = 65535 ∧ v = 0) := by
  have hle : OnesComplement.total (h.words ++ words body) ≤ (3 + (body.length + 1) / 2) * 65535 := by
    have hall : ∀ w ∈ h.words ++ words body, w ≤ 65535 := by
      intro w hw
      rcases List.mem_append.mp hw with hw | hw
      · simp only [IcmpHeader.words, List.mem_cons, List.not_mem_nil, or_false] at hw
        rcases hw with rfl | rfl | rfl <;> exact Nat.le_of_lt_succ (UInt16.toNat_lt _)
      · exact Nat.le_of_lt_succ (words_lt body w hw)
    have htotal := OnesComplement.total_le hall
    rwa [List.length_append, length_words] at htotal
  have hbound : OnesComplement.total (h.words ++ words body) < 4294967296 := by omega
  obtain ⟨n, k, hn, hsum⟩ := h.toNat_checksum hbound
  have hwords : words ((h.computeChecksum body).rep ++ body) = (word h.type h.code).toNat ::
      n.toNat :: h.identifier.toNat :: h.sequenceNumber.toNat :: words body := by
    rw [hn, h.rep_setChecksum]
    simp only [List.cons_append, List.nil_append, words, toNat_word, toNat_highByte,
      toNat_lowByte, IcmpHeader.identifier, IcmpHeader.sequenceNumber, IcmpHeader.decode]
    rw [Nat.div_add_mod']
  have hverifies : Verifies ((h.computeChecksum body).rep ++ body) := by
    refine (OnesComplement.sum_eq_top_iff (by decide) (words_lt _)).mpr ?_
    simp only [IcmpHeader.words, List.cons_append, List.nil_append, OnesComplement.total_cons]
      at hsum
    have htotal : OnesComplement.total (words ((h.computeChecksum body).rep ++ body)) =
        65535 * (k + 1) := by
      rw [hwords]
      simp only [OnesComplement.total_cons]
      omega
    rw [htotal, Nat.mul_mod_right]
    exact ⟨rfl, by omega⟩
  exact ⟨hverifies, fun i v w hv hw hsum =>
    OnesComplement.eq_of_sum_set (by decide) (words_lt _) hverifies hv hw hsum⟩

/-- The body of a request. -/
def hello : List UInt8 := "\"Hello!\" from Asio ping.".toList.map fun c => UInt8.ofNat c.toNat

theorem hello_verifies :
    Verifies ((IcmpHeader.new.computeChecksum hello).rep ++ hello) ∧
    ∀ i v w : ℕ, (words ((IcmpHeader.new.computeChecksum hello).rep ++ hello))[i]? = some v →
      w < 65536 →
      OnesComplement.sum 65536
        ((words ((IcmpHeader.new.computeChecksum hello).rep ++ hello)).set i w) = 65535 →
      w = v ∨ (w = 0 ∧ v = 65535) ∨ (w = 65535 ∧ v = 0) :=
  checksum_verifies IcmpHeader.new (by decide)

end Sundries.Ping
