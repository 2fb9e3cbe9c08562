import Mathlib.Data.List.Basic
import Mathlib.Data.Int.Basic

/-!
# Formatted input

What `operator>>` and `std::getline` take off a stream, in the C locale.  A stream is the
characters that are left in it; `none` is a stream that has failed.
-/
namespace Sundries.Istream

/-- `std::isspace` -/
def isSpace (c : Char) : Bool := c = ' ' || ('\t'.toNat ≤ c.toNat && c.toNat ≤ '\r'.toNat)

/-- The value of a digit of a number in base `16`. -/
def hexValue (c : Char) : Option ℕ :=
  if '0'.toNat ≤ c.toNat ∧ c.toNat ≤ '9'.toNat then some (c.toNat - '0'.toNat)
  else if 'a'.toNat ≤ c.toNat ∧ c.toNat ≤ 'f'.toNat then some (c.toNat - 'a'.toNat + 10)
  else if 'A'.toNat ≤ c.toNat ∧ c.toNat ≤ 'F'.toNat then some (c.toNat - 'A'.toNat + 10)
  else none

/-- The value of a digit in a base up to `16`. -/
def digitValue (base : ℕ) (c : Char) : Option ℕ := (hexValue c).filter (· < base)

/-- The number that digits stand for. -/
def value (base : ℕ) (ds : List Char) : ℕ :=
  ds.foldl (fun n c => n * base + (digitValue base c).getD 0) 0

/-- An optional sign. -/
def sign : List Char → Int × List Char
  | '-' :: s => (-1, s)
  | '+' :: s => (1, s)
  | s => (1, s)

/-- The `0x` that may stand before the digits in base `16`. -/
def skipBase (base : ℕ) : List Char → List Char
  | '0' :: 'x' :: s => if base = 16 then s else '0' :: 'x' :: s
  | '0' :: 'X' :: s => if base = 16 then s else '0' :: 'X' :: s
  | s => s

/-- `>>` into an integer that no number overflows. -/
def integer (base : ℕ) (s : List Char) : Option (Int × List Char) :=
  let signed := sign (s.dropWhile isSpace)
  let s := skipBase base signed.2
  let digits := s.takeWhile fun c => (digitValue base c).isSome
  if digits = [] then none
  else some (signed.1 * value base digits, s.dropWhile fun c => (digitValue base c).isSome)

/-- `>>` into an unsigned integer with values below `bound`: a number with a minus is taken modulo
`bound`. -/
def unsigned (bound : ℕ) (s : List Char) : Option (ℕ × List Char) :=
  (integer 10 s).bind fun (n, rest) =>
    if n.natAbs < bound then some ((n % bound).toNat, rest) else none

/-- `>>` into a string. -/
def word (s : List Char) : Option (List Char × List Char) :=
  let s := s.dropWhile isSpace
  let w := s.takeWhile fun c => !isSpace c
  if w = [] then none else some (w, s.dropWhile fun c => !isSpace c)

/-- `std::getline`: the line feed is taken off the stream and left out. -/
def getline (s : List Char) : Option (List Char × List Char) :=
  if s = [] then none
  else some (s.takeWhile (· ≠ '\n'), (s.dropWhile (· ≠ '\n')).drop 1)

/-- `istream::getline` into an array with room for `n` characters and the final zero: a longer line
fails. -/
def getlineInto (n : ℕ) (s : List Char) : Option (List Char × List Char) :=
  (getline s).filter fun p => p.1.length ≤ n

/-- A check of the characters of a text, one after the other. -/
theorem forall_of_all {s : List Char} {P : Char → Prop} [DecidablePred P]
    (h : s.all (fun c => decide (P c)) = true) : ∀ c ∈ s, P c :=
  fun c hc => of_decide_eq_true (List.all_eq_true.mp h c hc)

section
variable {c : Char} {x : ℕ} (h : hexValue c = some x)
include h

theorem hexValue_lt : x < 16 := by
  simp only [hexValue] at h
  split at h
  · cases h
    simp only [Char.reduceToNat] at *
    omega
  · split at h
    · cases h
      simp only [Char.reduceToNat] at *
      omega
    · split at h
      · cases h
        simp only [Char.reduceToNat] at *
        omega
      · cases h

theorem toNat_of_hexValue : 48 ≤ c.toNat ∧ c.toNat ≤ 102 := by
  simp only [hexValue, Char.reduceToNat] at h
  split at h
  · omega
  · split at h
    · omega
    · split at h
      · omega
      · cases h

theorem isSpace_of_hexValue : isSpace c = false := by
  have hc := toNat_of_hexValue h
  have hblank : c ≠ ' ' := by
    rintro rfl
    simp at hc
  simp only [isSpace, hblank, decide_false, Bool.false_or, Char.reduceToNat]
  simp
  omega

end

theorem sign_of_hexValue {c : Char} {x : ℕ} (h : hexValue c = some x) (s : List Char) :
    sign (c :: s) = (1, c :: s) := by
  have hc := toNat_of_hexValue h
  unfold sign
  split
  · rename_i heq
    cases heq
    simp at hc
  · rename_i heq
    cases heq
    simp at hc
  · rfl

theorem skipBase_of_hexValue {c d : Char} {y : ℕ} (h : hexValue d = some y) (base : ℕ)
    (s : List Char) : skipBase base (c :: d :: s) = c :: d :: s := by
  unfold skipBase
  split
  · rename_i heq
    cases heq
    exact absurd h (by simp [hexValue])
  · rename_i heq
    cases heq
    exact absurd h (by simp [hexValue])
  · rfl

/-- Two digits in base `16`. -/
theorem integer_hex {a b : Char} {x y : ℕ} (ha : hexValue a = some x) (hb : hexValue b = some y) :
    integer 16 [a, b] = some (((16 * x + y : ℕ) : Int), []) := by
  have hdigit : ∀ {c : Char} {n : ℕ}, hexValue c = some n → digitValue 16 c = some n := by
    intro c n h
    simp [digitValue, h, hexValue_lt h]
  simp only [integer]
  rw [List.dropWhile_cons_of_neg (by simp [isSpace_of_hexValue ha]), sign_of_hexValue ha,
    skipBase_of_hexValue hb]
  simp [value, hdigit ha, hdigit hb, Nat.mul_comm]

theorem getline_append {line : List Char} (h : '\n' ∉ line) (rest : List Char) :
    getline (line ++ '\n' :: rest) = some (line, rest) := by
  have hline : ∀ c ∈ line, decide (c ≠ '\n') = true := by
    intro c hc
    have : c ≠ '\n' := by
      rintro rfl
      exact h hc
    simpa using this
  rw [getline, if_neg (by simp), List.takeWhile_append_of_pos hline,
    List.dropWhile_append_of_pos hline]
  simp

theorem length_of_getline {s line rest : List Char} (h : getline s = some (line, rest)) :
    rest.length < s.length := by
  rw [getline] at h
  split at h
  · cases h
  · rename_i hne
    cases h
    have hle := (List.dropWhile_suffix (l := s) (p := (· ≠ '\n'))).length_le
    have hpos := List.length_pos_iff.mpr hne
    simp only [List.length_drop]
    omega

theorem word_append {w : List Char} (hne : w ≠ []) (h : ∀ c ∈ w, isSpace c = false) {d : Char}
    (hd : isSpace d = true) (rest : List Char) : word (w ++ d :: rest) = some (w, d :: rest) := by
  obtain ⟨a, as, rfl⟩ := List.exists_cons_of_ne_nil hne
  have hstart : (a :: as ++ d :: rest).dropWhile isSpace = a :: as ++ d :: rest := by
    simp [h a List.mem_cons_self]
  have hword : ∀ c ∈ a :: as, (!isSpace c) = true := by
    intro c hc
    rw [h c hc]
    rfl
  simp only [word]
  rw [hstart, List.takeWhile_append_of_pos hword, List.dropWhile_append_of_pos hword]
  simp [hd]

/-! ## Numbers in base `10` -/

theorem digitValue_ten {c : Char} (h : c.isDigit = true) :
    digitValue 10 c = some (c.toNat - '0'.toNat) := by
  have hc := Char.isDigit_iff_toNat.mp h
  have hlt : c.toNat - '0'.toNat < 10 := by
    simp only [Char.reduceToNat] at hc ⊢
    omega
  rw [digitValue, hexValue, if_pos hc, Option.filter_some, if_pos (by simpa using hlt)]

theorem isSpace_of_isDigit {c : Char} (h : c.isDigit = true) : isSpace c = false := by
  have hc := Char.isDigit_iff_toNat.mp h
  refine isSpace_of_hexValue (x := c.toNat - '0'.toNat) ?_
  rw [hexValue, if_pos hc]

theorem sign_of_isDigit {c : Char} (h : c.isDigit = true) (s : List Char) :
    sign (c :: s) = (1, c :: s) := by
  have hc := Char.isDigit_iff_toNat.mp h
  refine sign_of_hexValue (x := c.toNat - '0'.toNat) ?_ s
  rw [hexValue, if_pos hc]

theorem skipBase_ten (s : List Char) : skipBase 10 s = s := by
  unfold skipBase
  split <;> simp

theorem value_ten {ds : List Char} (h : ∀ c ∈ ds, c.isDigit = true) :
    value 10 ds = Nat.ofDigitChars 10 ds 0 := by
  suffices key : ∀ m : ℕ, ds.foldl (fun n c => n * 10 + (digitValue 10 c).getD 0) m =
      Nat.ofDigitChars 10 ds m from key 0
  induction ds with
  | nil => exact fun m => by rw [List.foldl_nil, Nat.ofDigitChars_nil]
  | cons c ds ih =>
    intro m
    rw [List.foldl_cons, ih (fun x hx => h x (List.mem_cons_of_mem c hx)), Nat.ofDigitChars_cons,
      digitValue_ten (h c List.mem_cons_self), Option.getD_some, Nat.mul_comm]

/-- A number is read up to the first character that is no digit. -/
theorem integer_toDigits (n : ℕ) {s : List Char} (hs : ∀ c ∈ s, isSpace c = true) {rest : List Char}
    (hrest : ∀ c ∈ rest.head?, digitValue 10 c = none) :
    integer 10 (s ++ Nat.toDigits 10 n ++ rest) = some ((n : Int), rest) := by
  have hdigit : ∀ c ∈ Nat.toDigits 10 n, c.isDigit = true :=
    fun c hc => Nat.isDigit_of_mem_toDigits (by decide) (by decide) hc
  obtain ⟨a, as, ha⟩ := List.exists_cons_of_ne_nil (Nat.toDigits_ne_nil (n := n) (b := 10))
  have hfirst : a.isDigit = true := hdigit a (by rw [ha]; exact List.mem_cons_self)
  have hspaces : (s ++ Nat.toDigits 10 n ++ rest).dropWhile isSpace =
      Nat.toDigits 10 n ++ rest := by
    rw [List.append_assoc, List.dropWhile_append_of_pos hs, ha, List.cons_append,
      List.dropWhile_cons_of_neg (by simp [isSpace_of_isDigit hfirst])]
  have hsign : sign (Nat.toDigits 10 n ++ rest) = (1, Nat.toDigits 10 n ++ rest) := by
    rw [ha]
    exact sign_of_isDigit hfirst _
  have hsome : ∀ c ∈ Nat.toDigits 10 n, (digitValue 10 c).isSome = true := by
    intro c hc
    rw [digitValue_ten (hdigit c hc)]
    rfl
  have htake : rest.takeWhile (fun c => (digitValue 10 c).isSome) = [] := by
    cases rest with
    | nil => rfl
    | cons d rest => simp [hrest d rfl]
  have hdrop : rest.dropWhile (fun c => (digitValue 10 c).isSome) = rest := by
    cases rest with
    | nil => rfl
    | cons d rest => simp [hrest d rfl]
  simp only [integer, hspaces, hsign, skipBase_ten]
  rw [List.takeWhile_append_of_pos hsome, List.dropWhile_append_of_pos hsome, htake, hdrop,
    List.append_nil, if_neg Nat.toDigits_ne_nil, value_ten hdigit, Nat.ofDigitChars_ten_toDigits,
    Int.one_mul]

theorem unsigned_toDigits {n bound : ℕ} (h : n < bound) {s : List Char}
    (hs : ∀ c ∈ s, isSpace c = true) {rest : List Char}
    (hrest : ∀ c ∈ rest.head?, digitValue 10 c = none) :
    unsigned bound (s ++ Nat.toDigits 10 n ++ rest) = some (n, rest) := by
  have hmod : ((n : Int) % bound).toNat = n := by
    rw [Int.emod_eq_of_lt (by omega) (by omega)]
    rfl
  simp only [unsigned, integer_toDigits n hs hrest, Option.bind_some, Int.natAbs_natCast, if_pos h,
    hmod]

end Sundries.Istream
