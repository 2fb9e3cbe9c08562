import Mathlib.Data.List.Basic

/-!
# Requests and their texts

A `request` as the HTTP servers keep it, and the grammar of the texts that stand for one: a
request line, header lines, which may be folded over several lines, and an empty line.  A
`char` is a `Char` here; nothing looks at the ones above `255`.
-/
namespace Sundries.Http

structure Header where
  name : List Char
  value : List Char
  deriving DecidableEq

/-- A `request`. -/
structure Request where
  method : List Char
  uri : List Char
  httpVersionMajor : Int32
  httpVersionMinor : Int32
  headers : List Header
  deriving DecidableEq

/-- `headers.back()` is changed. -/
def onBack (f : Header → Header) (hs : List Header) : List Header :=
  hs.dropLast ++ hs.getLast?.toList.map f

@[simp] theorem onBack_concat (f : Header → Header) (hs : List Header) (h : Header) :
    onBack f (hs ++ [h]) = hs ++ [f h] := by
  simp [onBack]

namespace Request

/-- `headers.back().name.push_back(c)` -/
def pushName (r : Request) (c : Char) : Request :=
  { r with headers := onBack (fun h => { h with name := h.name ++ [c] }) r.headers }

/-- `headers.back().value.push_back(c)` -/
def pushValue (r : Request) (c : Char) : Request :=
  { r with headers := onBack (fun h => { h with value := h.value ++ [c] }) r.headers }

end Request

/-! ## Characters -/

/-- `c >= 0 && c <= 127`: the codes from `128` on are negative as a `char`. -/
def isChar (c : Char) : Bool := c.toNat ≤ 127

def isCtl (c : Char) : Bool := c.toNat ≤ 31 || c.toNat = 127

def isTspecial (c : Char) : Bool :=
  c ∈ ['(', ')', '<', '>', '@', ',', ';', ':', '\\', '"', '/', '[', ']', '?', '=', '\x7b', '\x7d',
    ' ', '\t']

def isDigit (c : Char) : Bool := '0'.toNat ≤ c.toNat && c.toNat ≤ '9'.toNat

/-- A character of a method or a header's name. -/
def isToken (c : Char) : Bool := isChar c && !isCtl c && !isTspecial c

def isLws (c : Char) : Bool := c = ' ' || c = '\t'

/-- A version number with one more digit.  An `int` that overflows, which the source leaves
undefined, wraps around here. -/
def addDigit (n : Int32) (c : Char) : Int32 := n * 10 + Int32.ofNat c.toNat - Int32.ofNat '0'.toNat

/-- The number that digits stand for. -/
def decimal (digits : List Char) : ℕ :=
  digits.foldl (fun n c => n * 10 + (c.toNat - '0'.toNat)) 0

/-- It as an `int`. -/
def number (digits : List Char) : Int32 := Int32.ofNat (decimal digits)

/-! ## Texts -/

/-- A method or the name of a header. -/
structure Token where
  chars : List Char
  ne_nil : chars ≠ []
  token : ∀ c ∈ chars, isToken c = true

structure Digits where
  chars : List Char
  ne_nil : chars ≠ []
  digits : ∀ c ∈ chars, isDigit c = true

/-- A line that continues a header: white space and then text, which does not begin with more
of it. -/
structure Fold where
  lws : List Char
  text : List Char
  ne_nil : lws ≠ []
  white : ∀ c ∈ lws, isLws c = true
  head : text.head?.all fun c => !isLws c
  plain : ∀ c ∈ text, isCtl c = false

def Fold.render (f : Fold) : List Char := f.lws ++ f.text ++ ['\r', '\n']

/-- A header: its name, the text on the first line and the lines that continue it. -/
structure HeaderText where
  name : Token
  first : List Char
  plain : ∀ c ∈ first, isCtl c = false
  folds : List Fold

namespace HeaderText

def render (h : HeaderText) : List Char :=
  h.name.chars ++ [':', ' '] ++ h.first ++ ['\r', '\n'] ++ h.folds.flatMap Fold.render

/-- The header it stands for: the lines' texts are joined without anything between them. -/
def header (h : HeaderText) : Header := ⟨h.name.chars, h.first ++ h.folds.flatMap Fold.text⟩

end HeaderText

/-- A request. -/
structure RequestText where
  method : Token
  uri : List Char
  uriPlain : ∀ c ∈ uri, isCtl c = false ∧ c ≠ ' '
  major : Digits
  minor : Digits
  headers : List HeaderText

/-- The text before the headers. -/
def startLine (method uri major minor : List Char) : List Char :=
  method ++ ' ' :: uri ++ [' ', 'H', 'T', 'T', 'P', '/'] ++ major ++ '.' :: minor ++ ['\r', '\n']

namespace RequestText

/-- The text without the empty line at its end. -/
def lines (t : RequestText) : List Char :=
  startLine t.method.chars t.uri t.major.chars t.minor.chars ++
    t.headers.flatMap HeaderText.render

def render (t : RequestText) : List Char := t.lines ++ ['\r', '\n']

def request (t : RequestText) : Request where
  method := t.method.chars
  uri := t.uri
  httpVersionMajor := number t.major.chars
  httpVersionMinor := number t.minor.chars
  headers := t.headers.map HeaderText.header

/-- Its version numbers can be `int`s. -/
def Fits (t : RequestText) : Prop :=
  decimal t.major.chars < 2147483648 ∧ decimal t.minor.chars < 2147483648

/-- One more header. -/
def add (t : RequestText) (h : HeaderText) : RequestText := { t with headers := t.headers ++ [h] }

@[simp] theorem lines_add (t : RequestText) (h : HeaderText) :
    (t.add h).lines = t.lines ++ h.render := by
  simp [lines, add]

@[simp] theorem request_add (t : RequestText) (h : HeaderText) :
    (t.add h).request = { t.request with headers := t.request.headers ++ [h.header] } := by
  simp [request, add]

end RequestText

/-! ## A header line that is being read -/

/-- What has been read of a header's value on the present line: the first one, or one that
continues the header `h`. -/
inductive OpenLine where
  | first (name : Token) (text : List Char) (plain : ∀ c ∈ text, isCtl c = false)
  | folded (h : HeaderText) (f : Fold)

namespace OpenLine

def text : OpenLine → List Char
  | first name text _ => name.chars ++ [':', ' '] ++ text
  | folded h f => h.render ++ f.lws ++ f.text

def header : OpenLine → Header
  | first name text _ => ⟨name.chars, text⟩
  | folded h f => { h.header with value := h.header.value ++ f.text }

/-- The header when the line has come to its end. -/
def close : OpenLine → HeaderText
  | first name text plain => ⟨name, text, plain, []⟩
  | folded h f => { h with folds := h.folds ++ [f] }

theorem render_close (o : OpenLine) : o.close.render = o.text ++ ['\r', '\n'] := by
  cases o with
  | first => simp [close, OpenLine.text, HeaderText.render]
  | folded => simp [close, OpenLine.text, HeaderText.render, Fold.render]

theorem header_close (o : OpenLine) : o.close.header = o.header := by
  cases o with
  | first => simp [close, header, HeaderText.header]
  | folded => simp [close, header, HeaderText.header]

/-- A line that continues a header has come to its text. -/
def Started : OpenLine → Prop
  | first .. => True
  | folded _ f => f.text ≠ []

/-- The line with one more character. -/
theorem Started.exists_snoc {o : OpenLine} (h : o.Started) {c : Char} (hc : isCtl c = false) :
    ∃ o' : OpenLine, o'.text = o.text ++ [c] ∧
      o'.header = { o.header with value := o.header.value ++ [c] } ∧ o'.Started := by
  have hplain : ∀ {l : List Char}, (∀ x ∈ l, isCtl x = false) → ∀ x ∈ l ++ [c], isCtl x = false := by
    intro l hl x hx
    rcases List.mem_append.mp hx with hx | hx
    · exact hl x hx
    · exact List.mem_singleton.mp hx ▸ hc
  cases o with
  | first name text plain =>
    exact ⟨first name (text ++ [c]) (hplain plain), by simp [OpenLine.text], rfl, trivial⟩
  | folded hd f =>
    have hhead : (f.text ++ [c]).head?.all fun c => !isLws c := by
      rw [List.head?_append_of_ne_nil _ h]
      exact f.head
    refine ⟨folded hd ⟨f.lws, f.text ++ [c], f.ne_nil, f.white, hhead, hplain f.plain⟩, ?_, ?_, ?_⟩
    · simp [OpenLine.text]
    · simp [header]
    · simp [Started]

end OpenLine

namespace Token

def snoc (t : Token) (c : Char) (h : isToken c = true) : Token where
  chars := t.chars ++ [c]
  ne_nil := by simp
  token := by
    intro x hx
    rcases List.mem_append.mp hx with hx | hx
    · exact t.token x hx
    · exact List.mem_singleton.mp hx ▸ h

/-- One character. -/
def single (c : Char) (h : isToken c = true) : Token :=
  ⟨[c], by simp, fun _ hx => List.mem_singleton.mp hx ▸ h⟩

end Token

namespace Digits

def snoc (d : Digits) (c : Char) (h : isDigit c = true) : Digits where
  chars := d.chars ++ [c]
  ne_nil := by simp
  digits := by
    intro x hx
    rcases List.mem_append.mp hx with hx | hx
    · exact d.digits x hx
    · exact List.mem_singleton.mp hx ▸ h

def single (c : Char) (h : isDigit c = true) : Digits :=
  ⟨[c], by simp, fun _ hx => List.mem_singleton.mp hx ▸ h⟩

end Digits

/-! ## Version numbers -/

theorem number_snoc (ds : List Char) {c : Char} (hc : isDigit c = true) :
    number (ds ++ [c]) = addDigit (number ds) c := by
  have hdigit : '0'.toNat ≤ c.toNat := of_decide_eq_true (Bool.and_eq_true_iff.mp hc).1
  have hdecimal : decimal (ds ++ [c]) = decimal ds * 10 + c.toNat - '0'.toNat := by
    rw [decimal, List.foldl_concat, Nat.add_sub_assoc hdigit]
    rfl
  rw [number, hdecimal, Int32.ofNat_sub _ _ (Nat.le_add_left_of_le hdigit), Int32.ofNat_add,
    Int32.ofNat_mul]
  rfl

theorem number_single {c : Char} (hc : isDigit c = true) : number [c] = addDigit 0 c :=
  number_snoc [] hc

/-- Digit after digit. -/
theorem foldl_addDigit (ds : List Char) {as : List Char} (h : ∀ c ∈ as, isDigit c = true) :
    as.foldl addDigit (number ds) = number (ds ++ as) := by
  induction as generalizing ds with
  | nil => rw [List.foldl_nil, List.append_nil]
  | cons a as ih =>
    rw [List.foldl_cons, ← number_snoc ds (h a List.mem_cons_self),
      ih (ds ++ [a]) (fun c hc => h c (List.mem_cons_of_mem a hc)), List.append_assoc]
    rfl

theorem foldl_digits {a : Char} {as : List Char} (h : ∀ c ∈ a :: as, isDigit c = true) :
    as.foldl addDigit (addDigit 0 a) = number (a :: as) := by
  rw [← number_single (h a List.mem_cons_self)]
  exact foldl_addDigit [a] fun c hc => h c (List.mem_cons_of_mem a hc)

/-- Below `2147483648` nothing overflows. -/
theorem RequestText.Fits.version {t : RequestText} (h : t.Fits) :
    t.request.httpVersionMajor.toInt = decimal t.major.chars ∧
      t.request.httpVersionMinor.toInt = decimal t.minor.chars :=
  ⟨Int32.toInt_ofNat_of_lt h.1, Int32.toInt_ofNat_of_lt h.2⟩

end Sundries.Http
