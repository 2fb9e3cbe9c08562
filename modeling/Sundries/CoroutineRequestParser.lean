import Sundries.RequestParser

/-!
# `request_parser` of the fourth HTTP server

The same texts are read by a coroutine, which is resumed with each character.  It differs from the
state machine in three points: a URI may not be empty, a header's value is ASCII, and after the
empty line come as many characters of content as the last `Content-Length` header says.

`lexicalCast` stands for `boost::lexical_cast<std::size_t>`.
-/
namespace Sundries.Http.Server4

/-- A `request` with content. -/
structure Request extends Http.Request where
  content : List Char
  deriving DecidableEq

/-- Where the coroutine goes on when it is entered: the check that follows the last `yield`. -/
inductive Resume where
  | start | method | uri | protocolH | protocolT1 | protocolT2 | protocolP | slash | majorStart
  | major | minorStart | minor | newline1 | headers | whitespace | name | space | value | newline2
  | newline3 | content | done
  deriving DecidableEq

/-- A `request_parser` together with the request it is given. -/
structure Parser where
  resume : Resume
  contentLength : ℕ
  req : Request
  deriving DecidableEq

namespace Parser

/-- `yield return boost::indeterminate` -/
def yield (p : Parser) (resume : Resume) : Verdict × Parser := (.more, { p with resume := resume })

/-- `return false`; it ends the coroutine. -/
def fail (p : Parser) : Verdict × Parser := (.reject, { p with resume := .done })

/-- The end of the coroutine. -/
def finish (p : Parser) : Verdict × Parser := (.accept, { p with resume := .done })

/-- The fields that every `request` has are changed. -/
def update (p : Parser) (f : Http.Request → Http.Request) : Parser :=
  { p with req := { p.req with toRequest := f p.req.toRequest } }

end Parser

/-- `request_parser::headers_equal` -/
def headersEqual (a b : List Char) : Bool :=
  a.length == b.length && (a.zip b).all fun (x, y) => x.toLower = y.toLower

/-- `content_length_name_` -/
def contentLengthName : List Char := "Content-Length".toList

/-- The check for `Content-Length` headers: the last one counts, and none may be bad. -/
def contentLength (lexicalCast : List Char → Option ℕ) (headers : List Header) : Option ℕ :=
  headers.foldlM (fun n h => if headersEqual h.name contentLengthName then lexicalCast h.value
    else some n) 0

/-! ## The code from one `yield` to the next

Each definition is the code from a check on: what falls through goes to the next one with the same
character. -/

section
variable (lexicalCast : List Char → Option ℕ) (p : Parser) (c : Char)

def atContent : Verdict × Parser :=
  if p.req.content.length < p.contentLength then p.yield .content else p.finish

def afterHeaders : Verdict × Parser :=
  match contentLength lexicalCast p.req.headers with
  | none => p.fail
  | some n => atContent { p with contentLength := n }

def atValue : Verdict × Parser :=
  if isChar c && !isCtl c && c ≠ '\r' then (p.update (·.pushValue c)).yield .value
  else if c ≠ '\r' then p.fail
  else p.yield .newline2

def atName : Verdict × Parser :=
  if isChar c && !isCtl c && !isTspecial c && c ≠ ':' then (p.update (·.pushName c)).yield .name
  else if c ≠ ':' then p.fail
  else p.yield .space

def atWhitespace : Verdict × Parser :=
  if c = ' ' || c = '\t' then p.yield .whitespace else atValue p c

def atHeaders : Verdict × Parser :=
  if (isChar c && !isCtl c && !isTspecial c && c ≠ '\r') || (c = ' ' || c = '\t') then
    if c = ' ' || c = '\t' then
      if p.req.headers.isEmpty then p.fail else atWhitespace p c
    else atName (p.update fun r => { r with headers := r.headers ++ [⟨[], []⟩] }) c
  else if c ≠ '\r' then p.fail
  else p.yield .newline3

def atMinor : Verdict × Parser :=
  if isDigit c then
    (p.update fun r => { r with httpVersionMinor := addDigit r.httpVersionMinor c }).yield .minor
  else if c ≠ '\r' then p.fail
  else p.yield .newline1

def atMajor : Verdict × Parser :=
  if isDigit c then
    (p.update fun r => { r with httpVersionMajor := addDigit r.httpVersionMajor c }).yield .major
  else if c ≠ '.' then p.fail
  else p.yield .minorStart

def atUri : Verdict × Parser :=
  if !isCtl c && c ≠ ' ' then (p.update fun r => { r with uri := r.uri ++ [c] }).yield .uri
  else if p.req.uri.isEmpty then p.fail
  else if c ≠ ' ' then p.fail
  else p.yield .protocolH

def atMethod : Verdict × Parser :=
  if isChar c && !isCtl c && !isTspecial c && c ≠ ' ' then
    (p.update fun r => { r with method := r.method ++ [c] }).yield .method
  else if p.req.method.isEmpty then p.fail
  else if c ≠ ' ' then p.fail
  else p.yield .uri

/-- A character that must be there. -/
def expect (p : Parser) (wanted c : Char) (resume : Resume) : Verdict × Parser :=
  if c ≠ wanted then p.fail else p.yield resume

/-- The fields are cleared when the coroutine starts. -/
def Parser.clear : Parser where
  resume := p.resume
  contentLength := 0
  req := ⟨⟨[], [], 0, 0, []⟩, []⟩

/-- `request_parser::consume` -/
def consume : Verdict × Parser :=
  match p.resume with
  | .start => atMethod p.clear c
  | .method => atMethod p c
  | .uri => atUri p c
  | .protocolH => expect p 'H' c .protocolT1
  | .protocolT1 => expect p 'T' c .protocolT2
  | .protocolT2 => expect p 'T' c .protocolP
  | .protocolP => expect p 'P' c .slash
  | .slash => expect p '/' c .majorStart
  | .majorStart => if !isDigit c then p.fail else atMajor p c
  | .major => atMajor p c
  | .minorStart => if !isDigit c then p.fail else atMinor p c
  | .minor => atMinor p c
  | .newline1 => expect p '\n' c .headers
  | .headers => atHeaders p c
  | .whitespace => atWhitespace p c
  | .name => atName p c
  | .space => expect p ' ' c .value
  | .value => atValue p c
  | .newline2 => expect p '\n' c .headers
  | .newline3 => if c ≠ '\n' then p.fail else afterHeaders lexicalCast p
  | .content => atContent { p with req := { p.req with content := p.req.content ++ [c] } }
  -- a coroutine that has ended is not entered again
  | .done => (.accept, p)

end

def parser (lexicalCast : List Char → Option ℕ) : Scanner Parser Char := ⟨consume lexicalCast⟩

/-- `request_parser::parse` of a new parser, with whatever is in the request and in
`content_length_`. -/
def parse (lexicalCast : List Char → Option ℕ) (n : ℕ) (req : Request) (text : List Char) :
    Verdict × Parser × List Char :=
  (parser lexicalCast).scan ⟨.start, n, req⟩ text

/-! ## The part before the content

There the coroutine reads what the state machine reads, but for what it refuses. -/

/-- What is refused of the texts that the state machine accepts. -/
def refuses : State × Http.Request → Char → Bool
  | (.uri, r), c => c = ' ' && r.uri.isEmpty
  | (.headerLws, _), c | (.headerValue, _), c => !isChar c
  | _, _ => false

def strictParser : Scanner (State × Http.Request) Char := Http.parser.restrict refuses

/-- The states in which the URI is not complete. -/
def inUri : State → Bool
  | .methodStart | .method | .uri => true
  | _ => false

/-- The values of the headers are ASCII. -/
def AsciiValues (hs : List Header) : Prop := ∀ h ∈ hs, ∀ c ∈ h.value, isChar c = true

/-- Nothing has been refused. -/
def Plain (p : State × Http.Request) : Prop :=
  (inUri p.1 = false → p.2.uri ≠ []) ∧ AsciiValues p.2.headers

/-- There is a header when its value is read. -/
def HasHeader (p : State × Http.Request) : Prop :=
  match p.1 with
  | .headerLws | .headerName | .spaceBeforeHeaderValue | .headerValue => p.2.headers ≠ []
  | _ => True

theorem onBack_ne_nil {f : Header → Header} {hs : List Header} (h : hs ≠ []) :
    onBack f hs ≠ [] := by
  obtain ⟨as, a, rfl⟩ := List.eq_nil_or_concat' hs |>.resolve_left h
  simp

theorem hasHeader_step (p : State × Http.Request) (c : Char) (p' : State × Http.Request)
    (h : HasHeader p) (hstep : Http.consume p c = (.more, p')) : HasHeader p' := by
  obtain ⟨state, r⟩ := p
  cases state <;> simp only [Http.consume] at hstep
  case headerLineStart =>
    split at hstep
    · cases hstep
      trivial
    · split at hstep
      · rename_i hfold
        cases hstep
        simp only [Bool.and_eq_true, Bool.not_eq_true', List.isEmpty_eq_false_iff] at hfold
        exact hfold.1
      · split at hstep <;> cases hstep
        simp [HasHeader, Request.pushName]
  all_goals repeat' split at hstep
  all_goals cases hstep
  all_goals first | trivial | exact h | exact onBack_ne_nil h

theorem asciiValues_concat {hs : List Header} {h : Header} :
    AsciiValues (hs ++ [h]) ↔ AsciiValues hs ∧ ∀ c ∈ h.value, isChar c = true := by
  simp only [AsciiValues, List.forall_mem_append, List.forall_mem_singleton]

@[simp] theorem asciiValues_pushName (r : Http.Request) (c : Char) :
    AsciiValues (r.pushName c).headers ↔ AsciiValues r.headers := by
  obtain hnil | ⟨hs, h, hlast⟩ := List.eq_nil_or_concat' r.headers
  · simp [Request.pushName, hnil, onBack]
  · simp [Request.pushName, hlast, asciiValues_concat]

theorem asciiValues_pushValue {r : Http.Request} (hne : r.headers ≠ []) (c : Char) :
    AsciiValues (r.pushValue c).headers ↔ AsciiValues r.headers ∧ isChar c = true := by
  obtain ⟨hs, h, hlast⟩ := (List.eq_nil_or_concat' r.headers).resolve_left hne
  simp only [Request.pushValue, hlast, onBack_concat, asciiValues_concat, List.forall_mem_append,
    List.forall_mem_singleton, and_assoc]

theorem isChar_of_lws {c : Char} (h : (c = ' ' || c = '\t') = true) : isChar c = true := by
  simp only [Bool.or_eq_true, decide_eq_true_eq] at h
  rcases h with rfl | rfl <;> rfl

/-- One more character of a value. -/
theorem plain_pushValue {r : Http.Request} (hne : r.headers ≠ []) (c : Char) :
    Plain (.headerValue, r.pushValue c) ↔
      Plain (.headerValue, r) ∧ refuses (.headerValue, r) c = false := by
  have hvalues := asciiValues_pushValue hne c
  simp only [Plain, hvalues, refuses, Bool.not_eq_false']
  exact ⟨fun ⟨hu, hv, hc⟩ => ⟨⟨hu, hv⟩, hc⟩, fun ⟨⟨hu, hv⟩, hc⟩ => ⟨hu, hv, hc⟩⟩

theorem plain_step (p : State × Http.Request) (c : Char) (v : Verdict) (p' : State × Http.Request)
    (h : HasHeader p) (hstep : Http.consume p c = (v, p')) (hv : v ≠ .reject) :
    Plain p' ↔ Plain p ∧ refuses p c = false := by
  obtain ⟨state, r⟩ := p
  cases state <;> simp only [Http.consume] at hstep
  case uri =>
    split at hstep
    · cases hstep
      subst c
      simp [Plain, refuses, inUri, and_comm]
    · split at hstep <;> cases hstep
      · exact absurd rfl hv
      · rename_i hspace hctl
        simp [Plain, refuses, inUri, hspace]
  case headerLineStart =>
    split at hstep
    · cases hstep
      simp [Plain, refuses, inUri]
    · split at hstep
      · cases hstep
        simp [Plain, refuses, inUri]
      · split at hstep <;> cases hstep
        · exact absurd rfl hv
        · simp [Plain, refuses, inUri, asciiValues_concat, Request.pushName]
  case headerName =>
    split at hstep
    · cases hstep
      simp [Plain, refuses, inUri]
    · split at hstep <;> cases hstep
      · exact absurd rfl hv
      · simp only [Plain, refuses, asciiValues_pushName, and_true]
        rfl
  case headerLws =>
    split at hstep
    · cases hstep
      subst c
      exact ⟨fun h => ⟨h, rfl⟩, And.left⟩
    · split at hstep
      · rename_i hlws
        cases hstep
        exact ⟨fun h => ⟨h, by simp [refuses, isChar_of_lws hlws]⟩, And.left⟩
      · split at hstep <;> cases hstep
        · exact absurd rfl hv
        · exact plain_pushValue h c
  case headerValue =>
    split at hstep
    · cases hstep
      subst c
      exact ⟨fun h => ⟨h, rfl⟩, And.left⟩
    · split at hstep <;> cases hstep
      · exact absurd rfl hv
      · exact plain_pushValue h c
  all_goals repeat' split at hstep
  all_goals cases hstep
  all_goals first | exact absurd rfl hv | simp [Plain, refuses, inUri]

/-- The state of the state machine when the coroutine goes on there. -/
def Resume.state : Resume → Option State
  | .method => some .method
  | .uri => some .uri
  | .protocolH => some .httpVersionH
  | .protocolT1 => some .httpVersionT1
  | .protocolT2 => some .httpVersionT2
  | .protocolP => some .httpVersionP
  | .slash => some .httpVersionSlash
  | .majorStart => some .httpVersionMajorStart
  | .major => some .httpVersionMajor
  | .minorStart => some .httpVersionMinorStart
  | .minor => some .httpVersionMinor
  | .newline1 => some .expectingNewline1
  | .headers => some .headerLineStart
  | .whitespace => some .headerLws
  | .name => some .headerName
  | .space => some .spaceBeforeHeaderValue
  | .value => some .headerValue
  | .newline2 => some .expectingNewline2
  | .newline3 => some .expectingNewline3
  | .start | .content | .done => none

/-- The states before the version numbers are set to `0`. -/
def beforeVersion : State → Bool
  | .method | .uri | .httpVersionH | .httpVersionT1 | .httpVersionT2 | .httpVersionP
  | .httpVersionSlash => true
  | _ => false

/-- The coroutine has read what the state machine has read. -/
inductive Follows : Parser → State × Http.Request → Prop
  | start (n : ℕ) (req : Request) : Follows ⟨.start, n, req⟩ (.methodStart, .new 0 0)
  | running {resume : Resume} {state : State} {r : Http.Request}
      (hstate : resume.state = some state) (hmethod : state = .method → r.method ≠ [])
      (hversion : beforeVersion state = true → r.httpVersionMajor = 0 ∧ r.httpVersionMinor = 0) :
      Follows ⟨resume, 0, ⟨r, []⟩⟩ (state, r)

/-- What the coroutine makes of a character when the state machine has made `x` of it. -/
def Agrees (x : Verdict × Parser) (lexicalCast : List Char → Option ℕ) :
    Verdict × State × Http.Request → Prop
  | (.more, q) => ∃ p, x = (.more, p) ∧ Follows p q
  | (.reject, _) => x.1 = .reject
  | (.accept, q) => x = afterHeaders lexicalCast ⟨.newline3, 0, ⟨q.2, []⟩⟩

section
variable {lexicalCast : List Char → Option ℕ} {p : Parser} {q : State × Http.Request}

theorem agrees_fail : Agrees p.fail lexicalCast (.reject, q) := rfl

theorem agrees_yield {resume : Resume} (h : Follows { p with resume := resume } q) :
    Agrees (p.yield resume) lexicalCast (.more, q) := ⟨_, rfl, h⟩

end

section
variable {lexicalCast : List Char → Option ℕ} {r : Http.Request} {resume next : Resume}
  {state now : State}

theorem agrees_expect {wanted : Char} (hstate : next.state = some state) (hne : state ≠ .method)
    (hversion : beforeVersion state = true → r.httpVersionMajor = 0 ∧ r.httpVersionMinor = 0)
    (c : Char) :
    Agrees (expect ⟨resume, 0, ⟨r, []⟩⟩ wanted c next) lexicalCast
      (if c = wanted then (.more, state, r) else (.reject, now, r)) := by
  rw [expect]
  by_cases hc : c = wanted
  · rw [if_neg (not_not.mpr hc), if_pos hc]
    exact agrees_yield (.running hstate (fun h => absurd h hne) hversion)
  · rw [if_pos hc, if_neg hc]
    exact agrees_fail

/-- The coroutine goes on behind the version numbers. -/
theorem agrees_go (hstate : next.state = some state) (hne : state ≠ .method)
    (hversion : beforeVersion state = false) :
    Agrees (Parser.yield ⟨resume, 0, ⟨r, []⟩⟩ next) lexicalCast (.more, state, r) :=
  agrees_yield (.running hstate (fun h => absurd h hne) fun h => absurd h (by simp [hversion]))

theorem agrees_value (c : Char) :
    Agrees (atValue ⟨resume, 0, ⟨r, []⟩⟩ c) lexicalCast
      (if !isChar c then (.reject, now, r)
       else if c = '\r' then (.more, .expectingNewline2, r)
       else if isCtl c then (.reject, now, r)
       else (.more, .headerValue, r.pushValue c)) := by
  by_cases hcr : c = '\r'
  · subst c
    exact agrees_go rfl (by simp) rfl
  · rw [atValue]
    cases hchar : isChar c with
    | false =>
      simp only [Bool.false_and, Bool.not_false, if_true]
      rw [if_neg (by simp), if_pos hcr]
      exact agrees_fail
    | true =>
      cases hctl : isCtl c with
      | true =>
        simp only [Bool.not_true, Bool.and_false, Bool.false_and, if_neg hcr, if_true]
        rw [if_neg (by simp), if_pos hcr]
        exact agrees_fail
      | false =>
        simp only [Bool.not_true, Bool.not_false, Bool.true_and, if_neg hcr]
        rw [if_pos (by simpa using hcr)]
        exact agrees_go rfl (by simp) rfl

theorem token_iff (c d : Char) :
    (isChar c && !isCtl c && !isTspecial c && decide (c ≠ d)) = true ↔
      c ≠ d ∧ ¬ (!isChar c || isCtl c || isTspecial c) = true := by
  simp only [Bool.and_eq_true, Bool.not_eq_true', decide_eq_true_eq, Bool.or_eq_true, not_or,
    Bool.not_eq_false, Bool.not_eq_true]
  tauto

theorem agrees_name (c : Char) :
    Agrees (atName ⟨resume, 0, ⟨r, []⟩⟩ c) lexicalCast
      (if c = ':' then (.more, .spaceBeforeHeaderValue, r)
       else if !isChar c || isCtl c || isTspecial c then (.reject, now, r)
       else (.more, .headerName, r.pushName c)) := by
  by_cases hcolon : c = ':'
  · subst c
    exact agrees_go rfl (by simp) rfl
  · rw [atName, if_neg hcolon]
    by_cases htoken : (!isChar c || isCtl c || isTspecial c) = true
    · rw [if_neg fun h => ((token_iff c ':').mp h).2 htoken, if_pos hcolon, if_pos htoken]
      exact agrees_fail
    · rw [if_pos ((token_iff c ':').mpr ⟨hcolon, htoken⟩), if_neg htoken]
      exact agrees_go rfl (by simp) rfl

theorem agrees_whitespace (c : Char) :
    Agrees (atWhitespace ⟨resume, 0, ⟨r, []⟩⟩ c) lexicalCast
      (strictParser.step (.headerLws, r) c) := by
  rw [atWhitespace]
  by_cases hlws : (c = ' ' || c = '\t') = true
  · have hcr : c ≠ '\r' := by
      rintro rfl
      cases hlws
    have hstep : strictParser.step (.headerLws, r) c = (.more, .headerLws, r) := by
      simp only [strictParser, Scanner.restrict, refuses, isChar_of_lws hlws, Http.parser,
        Http.consume, if_neg hcr, if_pos hlws]
      rfl
    rw [if_pos hlws, hstep]
    exact agrees_go rfl (by simp) rfl
  · have hstep : strictParser.step (.headerLws, r) c =
        (if !isChar c then (.reject, .headerLws, r)
         else if c = '\r' then (.more, .expectingNewline2, r)
         else if isCtl c then (.reject, .headerLws, r)
         else (.more, .headerValue, r.pushValue c)) := by
      simp only [strictParser, Scanner.restrict, refuses, Http.parser, Http.consume, if_neg hlws]
    rw [if_neg hlws, hstep]
    exact agrees_value c

theorem agrees_headers (c : Char) :
    Agrees (atHeaders ⟨resume, 0, ⟨r, []⟩⟩ c) lexicalCast
      (strictParser.step (.headerLineStart, r) c) := by
  have hstep : strictParser.step (.headerLineStart, r) c =
      Http.consume (.headerLineStart, r) c := rfl
  rw [hstep, atHeaders, Http.consume]
  by_cases hcr : c = '\r'
  · subst c
    exact agrees_go rfl (by simp) rfl
  · by_cases hlws : (c = ' ' || c = '\t') = true
    · rw [if_pos (by rw [hlws, Bool.or_true]), if_pos hlws, if_neg hcr]
      have hspecial : (!isChar c || isCtl c || isTspecial c) = true := by
        simp only [Bool.or_eq_true, decide_eq_true_eq] at hlws
        rcases hlws with rfl | rfl <;> rfl
      cases hempty : r.headers.isEmpty with
      | true =>
        simp only [if_true, Bool.not_true, Bool.false_and, hspecial]
        exact agrees_fail
      | false =>
        rw [if_neg (by simp), atWhitespace, if_pos hlws, hlws]
        exact agrees_go rfl (by simp) rfl
    · have hguard : ∀ b : Bool, ¬ (b && (c = ' ' || c = '\t')) = true := by
        intro b h
        exact hlws (Bool.and_eq_true_iff.mp h).2
      rw [if_neg hcr, if_neg (hguard _)]
      by_cases htoken : (!isChar c || isCtl c || isTspecial c) = true
      · have hout : ¬ ((isChar c && !isCtl c && !isTspecial c && decide (c ≠ '\r')) ||
            (c = ' ' || c = '\t')) = true := by
          rw [Bool.or_eq_true, token_iff]
          exact fun h => h.elim (fun h => h.2 htoken) hlws
        rw [if_neg hout, if_pos hcr, if_pos htoken]
        exact agrees_fail
      · have hin : ((isChar c && !isCtl c && !isTspecial c && decide (c ≠ '\r')) ||
            (c = ' ' || c = '\t')) = true := by
          rw [Bool.or_eq_true, token_iff]
          exact .inl ⟨hcr, htoken⟩
        have hcolon : c ≠ ':' := by
          rintro rfl
          exact htoken rfl
        rw [if_pos hin, if_neg hlws, if_neg htoken, atName,
          if_pos ((token_iff c ':').mpr ⟨hcolon, htoken⟩)]
        exact agrees_go rfl (by simp) rfl

/-- The first digit of a version number. -/
theorem agrees_firstDigit {f : Http.Request → Http.Request} {otherwise : Verdict × Parser}
    (hstate : next.state = some state) (hne : state ≠ .method)
    (hversion : beforeVersion state = false) (c : Char) :
    Agrees
      (if !isDigit c then Parser.fail ⟨resume, 0, ⟨r, []⟩⟩
       else if isDigit c then (Parser.update ⟨resume, 0, ⟨r, []⟩⟩ f).yield next
       else otherwise) lexicalCast
      (if isDigit c then (.more, state, f r) else (.reject, now, r)) := by
  cases isDigit c with
  | true => exact agrees_go hstate hne hversion
  | false => exact agrees_fail

/-- The digits that follow, and the character `stop` behind them. -/
theorem agrees_digits {f : Http.Request → Http.Request} {stop : Char} {after : Resume}
    {behind : State} (hstate : next.state = some state) (hafter : after.state = some behind)
    (hne : state ≠ .method ∧ behind ≠ .method)
    (hversion : beforeVersion state = false ∧ beforeVersion behind = false)
    (hstop : isDigit stop = false) (c : Char) :
    Agrees
      (if isDigit c then (Parser.update ⟨resume, 0, ⟨r, []⟩⟩ f).yield next
       else if c ≠ stop then Parser.fail ⟨resume, 0, ⟨r, []⟩⟩
       else Parser.yield ⟨resume, 0, ⟨r, []⟩⟩ after) lexicalCast
      (if c = stop then (.more, behind, r)
       else if isDigit c then (.more, state, f r)
       else (.reject, now, r)) := by
  by_cases hc : c = stop
  · subst c
    rw [if_neg (by simp [hstop]), if_neg (by simp), if_pos rfl]
    exact agrees_go hafter hne.2 hversion.2
  · rw [if_neg hc, if_pos hc]
    cases isDigit c with
    | true => exact agrees_go hstate hne.1 hversion.1
    | false => exact agrees_fail

/-- The method goes on, or starts with the first character. -/
theorem agrees_method (hversion : r.httpVersionMajor = 0 ∧ r.httpVersionMinor = 0)
    {stop : Bool} (hempty : stop = !r.method.isEmpty) (c : Char) :
    Agrees (atMethod ⟨resume, 0, ⟨r, []⟩⟩ c) lexicalCast
      (if stop && c = ' ' then (.more, .uri, r)
       else if !isChar c || isCtl c || isTspecial c then (.reject, now, r)
       else (.more, .method, { r with method := r.method ++ [c] })) := by
  subst hempty
  rw [atMethod]
  by_cases hspace : c = ' '
  · subst c
    rw [if_neg (by decide)]
    cases hempty : r.method.isEmpty with
    | true => exact agrees_fail
    | false => exact agrees_yield (.running rfl (by simp) fun _ => hversion)
  · have hgoes : ¬ ((!r.method.isEmpty) && decide (c = ' ')) = true := by simp [hspace]
    rw [if_neg hgoes]
    by_cases htoken : (!isChar c || isCtl c || isTspecial c) = true
    · rw [if_neg fun h => ((token_iff c ' ').mp h).2 htoken, if_pos htoken, if_pos hspace]
      split <;> exact agrees_fail
    · rw [if_pos ((token_iff c ' ').mpr ⟨hspace, htoken⟩), if_neg htoken]
      exact agrees_yield (.running rfl (by simp) fun _ => hversion)

theorem agrees_uri (hversion : r.httpVersionMajor = 0 ∧ r.httpVersionMinor = 0) (c : Char) :
    Agrees (atUri ⟨resume, 0, ⟨r, []⟩⟩ c) lexicalCast (strictParser.step (.uri, r) c) := by
  simp only [strictParser, Scanner.restrict, refuses, Http.parser, Http.consume, atUri]
  by_cases hspace : c = ' '
  · subst c
    simp only [decide_true, Bool.true_and, if_true, ne_eq, not_true, decide_false, Bool.and_false]
    cases r.uri.isEmpty with
    | true => exact agrees_fail
    | false => exact agrees_yield (.running rfl (by simp) fun _ => hversion)
  · simp only [hspace, decide_false, Bool.false_and, ne_eq, not_false_eq_true, decide_true,
      Bool.and_true]
    cases isCtl c with
    | true =>
      simp only [Bool.not_true, if_true]
      cases r.uri.isEmpty <;> exact agrees_fail
    | false => exact agrees_yield (.running rfl (by simp) fun _ => hversion)

end

/-- **One character.**  The coroutine does what the state machine does, as long as nothing is
refused. -/
theorem agrees_step (lexicalCast : List Char → Option ℕ) {p : Parser}
    {q : State × Http.Request} (h : Follows p q) (c : Char) :
    Agrees (consume lexicalCast p c) lexicalCast (strictParser.step q c) := by
  cases h with
  | start n req => exact agrees_method ⟨rfl, rfl⟩ rfl c
  | @running resume state r hstate hmethod hversion =>
    cases resume with
    | method =>
      cases hstate
      have hne : true = !r.method.isEmpty := by simpa using hmethod rfl
      have hstep : strictParser.step (.method, r) c =
          if true && c = ' ' then (.more, .uri, r)
          else if !isChar c || isCtl c || isTspecial c then (.reject, .method, r)
          else (.more, .method, { r with method := r.method ++ [c] }) := by
        simp only [Bool.true_and, decide_eq_true_eq]
        rfl
      rw [hstep]
      exact agrees_method (hversion rfl) hne c
    | uri =>
      cases hstate
      exact agrees_uri (hversion rfl) c
    | protocolH | protocolT1 | protocolT2 | protocolP =>
      cases hstate
      exact agrees_expect rfl (by simp) (fun _ => hversion rfl) c
    | slash =>
      cases hstate
      have hr : r = { r with httpVersionMajor := 0, httpVersionMinor := 0 } := by
        obtain ⟨hmajor, hminor⟩ := hversion rfl
        cases r
        cases hmajor
        cases hminor
        rfl
      have hstep : strictParser.step (.httpVersionSlash, r) c =
          if c = '/' then (.more, .httpVersionMajorStart, r)
          else (.reject, .httpVersionSlash, r) := by
        rw [hr]
        rfl
      rw [hstep]
      exact agrees_expect rfl (by simp) (fun _ => hversion rfl) c
    | majorStart | minorStart =>
      cases hstate
      exact agrees_firstDigit rfl (by simp) rfl c
    | major | minor =>
      cases hstate
      exact agrees_digits rfl rfl (by simp) ⟨rfl, rfl⟩ rfl c
    | newline1 | space | newline2 =>
      cases hstate
      exact agrees_expect rfl (by simp) (fun h => by cases h) c
    | headers =>
      cases hstate
      exact agrees_headers c
    | whitespace =>
      cases hstate
      exact agrees_whitespace c
    | name =>
      cases hstate
      exact agrees_name c
    | value =>
      cases hstate
      exact agrees_value c
    | newline3 =>
      cases hstate
      by_cases hc : c = '\n'
      · subst c
        exact rfl
      · have hstep : strictParser.step (.expectingNewline3, r) c =
            (.reject, .expectingNewline3, r) := if_neg hc
        have hfail : consume lexicalCast ⟨.newline3, 0, ⟨r, []⟩⟩ c =
            Parser.fail ⟨.newline3, 0, ⟨r, []⟩⟩ := if_pos hc
        rw [hstep, hfail]
        exact agrees_fail
    | start | content | done => cases hstate

/-! ## The content -/

theorem scan_content (lexicalCast : List Char → Option ℕ) {r : Http.Request} {n : ℕ}
    {content : List Char} (hlt : content.length < n) (more : List Char) :
    (parser lexicalCast).scan ⟨.content, n, ⟨r, content⟩⟩ more =
      if content.length + more.length < n then (.more, ⟨.content, n, ⟨r, content ++ more⟩⟩, [])
      else (.accept, ⟨.done, n, ⟨r, content ++ more.take (n - content.length)⟩⟩,
        more.drop (n - content.length)) := by
  induction more generalizing content with
  | nil => simp [hlt]
  | cons c more ih =>
    have hstep : (parser lexicalCast).step ⟨.content, n, ⟨r, content⟩⟩ c =
        atContent ⟨.content, n, ⟨r, content ++ [c]⟩⟩ := rfl
    by_cases hnext : content.length + 1 < n
    · rw [atContent, if_pos (by simpa using hnext)] at hstep
      rw [Scanner.scan_cons_more hstep, ih (by simpa using hnext)]
      have hdrop : n - content.length = n - (content.length + 1) + 1 := by omega
      have hcount : content.length + (more.length + 1) = content.length + 1 + more.length := by
        omega
      simp only [List.length_append, List.length_cons, List.length_nil, Nat.zero_add, hdrop, hcount,
        List.take_succ_cons, List.drop_succ_cons, List.append_assoc, List.singleton_append]
    · rw [atContent, if_neg (by simpa using hnext)] at hstep
      have hlast : n - content.length = 1 := by omega
      rw [Scanner.scan_cons_decided hstep (by simp), if_neg (by simp; omega), hlast]
      simp

/-! ## What is accepted -/

section
variable (lexicalCast : List Char → Option ℕ) (n : ℕ) (req : Request) {text rest : List Char}
  {q : State × Http.Request}

theorem parse_of_more (h : strictParser.scan (.methodStart, .new 0 0) text = (.more, q, rest)) :
    ∃ p, parse lexicalCast n req text = (.more, p, []) ∧ Follows p q := by
  refine Scanner.scan_follows (fun p q c q' hfollows hstep => ?_) (.start n req) h
  have hagrees := agrees_step lexicalCast hfollows c
  rwa [hstep] at hagrees

theorem parse_of_reject
    (h : strictParser.scan (.methodStart, .new 0 0) text = (.reject, q, rest)) :
    (parse lexicalCast n req text).1 = .reject := by
  obtain ⟨before, c, u, rfl, hbefore, hc⟩ := Scanner.exists_of_decided h (by simp)
  obtain ⟨p, hp, hfollows⟩ := parse_of_more lexicalCast n req hbefore
  have hagrees := agrees_step lexicalCast hfollows c
  rw [hc] at hagrees
  have hstep : (parser lexicalCast).step p c = (.reject, (consume lexicalCast p c).2) :=
    Prod.ext hagrees rfl
  rw [parse, Scanner.scan_append hp, Scanner.scan_cons_decided hstep (by simp)]

/-- The line feed of the empty line. -/
theorem exists_afterHeaders
    (h : strictParser.scan (.methodStart, .new 0 0) text = (.accept, q, rest)) :
    ∃ before c p, text = before ++ c :: rest ∧
      parse lexicalCast n req before = (.more, p, []) ∧
      (parser lexicalCast).step p c = afterHeaders lexicalCast ⟨.newline3, 0, ⟨q.2, []⟩⟩ := by
  obtain ⟨before, c, u, rfl, hbefore, hc⟩ := Scanner.exists_of_decided h (by simp)
  obtain ⟨p, hp, hfollows⟩ := parse_of_more lexicalCast n req hbefore
  have hstep := agrees_step lexicalCast hfollows c
  rw [hc] at hstep
  exact ⟨before, c, p, rfl, hp, hstep⟩

theorem parse_of_bad_length
    (h : strictParser.scan (.methodStart, .new 0 0) text = (.accept, q, rest))
    (hbad : contentLength lexicalCast q.2.headers = none) :
    (parse lexicalCast n req text).1 = .reject := by
  obtain ⟨before, c, p, rfl, hp, hstep⟩ := exists_afterHeaders lexicalCast n req h
  rw [afterHeaders] at hstep
  simp only [hbad] at hstep
  rw [parse, Scanner.scan_append hp, Scanner.scan_cons_decided hstep (by simp)]

theorem parse_of_length {m : ℕ}
    (h : strictParser.scan (.methodStart, .new 0 0) text = (.accept, q, rest))
    (hlength : contentLength lexicalCast q.2.headers = some m) :
    parse lexicalCast n req text =
      if rest.length < m then (.more, ⟨.content, m, ⟨q.2, rest⟩⟩, [])
      else (.accept, ⟨.done, m, ⟨q.2, rest.take m⟩⟩, rest.drop m) := by
  obtain ⟨before, c, p, rfl, hp, hstep⟩ := exists_afterHeaders lexicalCast n req h
  rw [afterHeaders] at hstep
  simp only [hlength] at hstep
  rw [parse, Scanner.scan_append hp]
  cases m with
  | zero =>
    rw [Scanner.scan_cons_decided hstep (by simp)]
    simp
  | succ m =>
    rw [Scanner.scan_cons_more hstep]
    exact (scan_content lexicalCast (Nat.succ_pos m) rest).trans (by simp)

end

/-- A text that the coroutine reads up to its content. -/
def Strict (t : RequestText) : Prop := t.uri ≠ [] ∧ AsciiValues t.request.headers

theorem strict_scan_iff {v : Verdict} {q : State × Http.Request} {text rest : List Char}
    (hv : v ≠ .reject) :
    strictParser.scan (.methodStart, .new 0 0) text = (v, q, rest) ↔
      Http.parse 0 0 text = (v, q, rest) ∧ Plain q :=
  Scanner.scan_restrict hasHeader_step plain_step trivial ⟨nofun, List.forall_mem_nil _⟩ hv

theorem strict_accept_iff {q : State × Http.Request} {text rest : List Char} :
    strictParser.scan (.methodStart, .new 0 0) text = (.accept, q, rest) ↔
      ∃ t : RequestText, Strict t ∧ text = t.render ++ rest ∧
        q = (.expectingNewline3, t.request) := by
  rw [strict_scan_iff (by simp), parse_eq_accept_iff]
  constructor
  · rintro ⟨⟨t, ht, rfl⟩, huri, hvalues⟩
    exact ⟨t, ⟨huri rfl, hvalues⟩, ht, rfl⟩
  · rintro ⟨t, ⟨huri, hvalues⟩, ht, rfl⟩
    exact ⟨⟨t, ht, rfl⟩, fun _ => huri, hvalues⟩

theorem strict_scan_slash (r : Http.Request) (bs : List Char) :
    strictParser.scan (.uri, r) ('/' :: ' ' :: bs) =
      strictParser.scan (.httpVersionH, { r with uri := r.uri ++ ['/'] }) bs := by
  have hslash : strictParser.step (.uri, r) '/' =
      (.more, .uri, { r with uri := r.uri ++ ['/'] }) := rfl
  have hspace : strictParser.step (.uri, { r with uri := r.uri ++ ['/'] }) ' ' =
      (.more, .httpVersionH, { r with uri := r.uri ++ ['/'] }) := by
    simp [strictParser, Scanner.restrict, refuses, Http.parser, Http.consume]
  rw [Scanner.scan_cons_more hslash, Scanner.scan_cons_more hspace]

/-- Nothing that is refused is needed to come to the end. -/
theorem strict_scan_finish (q : State × Http.Request) :
    ∃ q', strictParser.scan q (finish q.1) = (.accept, q', []) := by
  obtain ⟨state, r⟩ := q
  cases state with
  | methodStart =>
    exact ⟨_, (Scanner.scan_cons_more rfl).trans
      ((Scanner.scan_cons_more rfl).trans (strict_scan_slash _ _))⟩
  | method => exact ⟨_, (Scanner.scan_cons_more rfl).trans (strict_scan_slash _ _)⟩
  | uri => exact ⟨_, strict_scan_slash _ _⟩
  | _ => exact ⟨_, rfl⟩

theorem strict_more_iff {text : List Char} :
    (strictParser.scan (.methodStart, .new 0 0) text).1 = .more ↔
      ∃ (t : RequestText) (later : List Char),
        Strict t ∧ later ≠ [] ∧ text ++ later = t.render := by
  constructor
  · intro h
    obtain ⟨q, rest, hq⟩ : ∃ q rest,
        strictParser.scan (.methodStart, .new 0 0) text = (.more, q, rest) := ⟨_, _, Prod.ext h rfl⟩
    obtain ⟨q', hq'⟩ := strict_scan_finish q
    have haccept := (Scanner.scan_append hq (finish q.1)).trans hq'
    obtain ⟨t, hstrict, ht, -⟩ := strict_accept_iff.mp haccept
    refine ⟨t, finish q.1, hstrict, ?_, by rw [ht, List.append_nil]⟩
    cases q.1 <;> exact List.cons_ne_nil _ _
  · rintro ⟨t, later, hstrict, hlater, ht⟩
    have haccept := strict_accept_iff.mpr ⟨t, hstrict, (List.append_nil _).symm, rfl⟩
    rw [← ht] at haccept
    exact Scanner.more_of_scan_append haccept hlater

theorem strict_scan_render {t : RequestText} (h : Strict t) (rest : List Char) :
    strictParser.scan (.methodStart, .new 0 0) (t.render ++ rest) =
      (.accept, (.expectingNewline3, t.request), rest) :=
  strict_accept_iff.mpr ⟨t, h, rfl, rfl⟩

/-- What the coroutine has read when it has not rejected. -/
theorem exists_of_not_reject (lexicalCast : List Char → Option ℕ) (n : ℕ) (req : Request)
    (text : List Char) (h : (parse lexicalCast n req text).1 ≠ .reject) :
    (strictParser.scan (.methodStart, .new 0 0) text).1 = .more ∧
        (parse lexicalCast n req text).1 = .more ∨
      ∃ (t : RequestText) (later : List Char) (m : ℕ), Strict t ∧ text = t.render ++ later ∧
        contentLength lexicalCast t.request.headers = some m ∧
        parse lexicalCast n req text =
          if later.length < m then (.more, ⟨.content, m, ⟨t.request, later⟩⟩, [])
          else (.accept, ⟨.done, m, ⟨t.request, later.take m⟩⟩, later.drop m) := by
  obtain ⟨v, q, later, hv⟩ : ∃ v q later,
      strictParser.scan (.methodStart, .new 0 0) text = (v, q, later) := ⟨_, _, _, rfl⟩
  cases v with
  | reject => exact absurd (parse_of_reject lexicalCast n req hv) h
  | more =>
    obtain ⟨p, hp, -⟩ := parse_of_more lexicalCast n req hv
    exact .inl ⟨by rw [hv], by rw [hp]⟩
  | accept =>
    obtain ⟨t, hstrict, rfl, rfl⟩ := strict_accept_iff.mp hv
    cases hlength : contentLength lexicalCast t.request.headers with
    | none => exact absurd (parse_of_bad_length lexicalCast n req hv hlength) h
    | some m =>
      exact .inr ⟨t, later, m, hstrict, rfl, hlength, parse_of_length lexicalCast n req hv hlength⟩

section
variable (lexicalCast : List Char → Option ℕ) (n : ℕ) (req : Request) {text : List Char}

theorem parse_accept_iff {p : Parser} {rest : List Char} :
    parse lexicalCast n req text = (.accept, p, rest) ↔
      ∃ (t : RequestText) (content : List Char), Strict t ∧
        contentLength lexicalCast t.request.headers = some content.length ∧
        text = t.render ++ content ++ rest ∧
        p = ⟨.done, content.length, ⟨t.request, content⟩⟩ := by
  constructor
  · intro h
    obtain ⟨-, hmore⟩ | ⟨t, later, m, hstrict, rfl, hlength, hparse⟩ :=
      exists_of_not_reject lexicalCast n req text (by simp [h])
    · simp [h] at hmore
    · rw [h] at hparse
      split at hparse
      · cases hparse
      · rename_i hlt
        cases hparse
        have htake : (later.take m).length = m := by
          rw [List.length_take]
          omega
        refine ⟨t, later.take m, hstrict, by rw [htake, hlength], ?_, by rw [htake]⟩
        rw [List.append_assoc, List.take_append_drop]
  · rintro ⟨t, content, hstrict, hlength, rfl, rfl⟩
    have hrender := strict_scan_render hstrict (content ++ rest)
    rw [← List.append_assoc] at hrender
    rw [parse_of_length lexicalCast n req hrender hlength, if_neg (by simp), List.take_left,
      List.drop_left]

theorem parse_more_iff :
    (parse lexicalCast n req text).1 = .more ↔
      (∃ (t : RequestText) (later : List Char),
        Strict t ∧ later ≠ [] ∧ text ++ later = t.render) ∨
      ∃ (t : RequestText) (content : List Char) (m : ℕ), Strict t ∧
        contentLength lexicalCast t.request.headers = some m ∧ content.length < m ∧
        text = t.render ++ content := by
  constructor
  · intro h
    obtain ⟨hmore, -⟩ | ⟨t, later, m, hstrict, rfl, hlength, hparse⟩ :=
      exists_of_not_reject lexicalCast n req text (by simp [h])
    · exact .inl (strict_more_iff.mp hmore)
    · refine .inr ⟨t, later, m, hstrict, hlength, ?_, rfl⟩
      rw [hparse] at h
      split at h
      · assumption
      · cases h
  · rintro (hstrict | ⟨t, content, m, hstrict, hlength, hlt, rfl⟩)
    · have hmore := strict_more_iff.mpr hstrict
      obtain ⟨q, rest, hq⟩ : ∃ q rest,
          strictParser.scan (.methodStart, .new 0 0) text = (.more, q, rest) :=
        ⟨_, _, Prod.ext hmore rfl⟩
      obtain ⟨p, hp, -⟩ := parse_of_more lexicalCast n req hq
      rw [hp]
    · rw [parse_of_length lexicalCast n req (strict_scan_render hstrict content) hlength,
        if_pos hlt]

end

end Sundries.Http.Server4
