import Sundries.HttpRequest
import Sundries.Scanner

/-!
# `request_parser` of the first three HTTP servers

A state machine with a character as its input.  It accepts exactly the texts of `RequestText`
and yields the request they stand for; it rejects at the first character that no request can
have there.
-/
namespace Sundries.Http

/-- The values of `state_`. -/
inductive State where
  | methodStart | method | uri | httpVersionH | httpVersionT1 | httpVersionT2 | httpVersionP
  | httpVersionSlash | httpVersionMajorStart | httpVersionMajor | httpVersionMinorStart
  | httpVersionMinor | expectingNewline1 | headerLineStart | headerLws | headerName
  | spaceBeforeHeaderValue | headerValue | expectingNewline2 | expectingNewline3
  deriving DecidableEq

/-- `request_parser::consume` -/
def consume : State × Request → Char → Verdict × State × Request
  | (state, req), input =>
    match state with
    | .methodStart =>
      if !isChar input || isCtl input || isTspecial input then (.reject, state, req)
      else (.more, .method, { req with method := req.method ++ [input] })
    | .method =>
      if input = ' ' then (.more, .uri, req)
      else if !isChar input || isCtl input || isTspecial input then (.reject, state, req)
      else (.more, state, { req with method := req.method ++ [input] })
    | .uri =>
      if input = ' ' then (.more, .httpVersionH, req)
      else if isCtl input then (.reject, state, req)
      else (.more, state, { req with uri := req.uri ++ [input] })
    | .httpVersionH =>
      if input = 'H' then (.more, .httpVersionT1, req) else (.reject, state, req)
    | .httpVersionT1 =>
      if input = 'T' then (.more, .httpVersionT2, req) else (.reject, state, req)
    | .httpVersionT2 =>
      if input = 'T' then (.more, .httpVersionP, req) else (.reject, state, req)
    | .httpVersionP =>
      if input = 'P' then (.more, .httpVersionSlash, req) else (.reject, state, req)
    | .httpVersionSlash =>
      if input = '/' then
        (.more, .httpVersionMajorStart, { req with httpVersionMajor := 0, httpVersionMinor := 0 })
      else (.reject, state, req)
    | .httpVersionMajorStart =>
      if isDigit input then
        (.more, .httpVersionMajor,
          { req with httpVersionMajor := addDigit req.httpVersionMajor input })
      else (.reject, state, req)
    | .httpVersionMajor =>
      if input = '.' then (.more, .httpVersionMinorStart, req)
      else if isDigit input then
        (.more, state, { req with httpVersionMajor := addDigit req.httpVersionMajor input })
      else (.reject, state, req)
    | .httpVersionMinorStart =>
      if isDigit input then
        (.more, .httpVersionMinor,
          { req with httpVersionMinor := addDigit req.httpVersionMinor input })
      else (.reject, state, req)
    | .httpVersionMinor =>
      if input = '\r' then (.more, .expectingNewline1, req)
      else if isDigit input then
        (.more, state, { req with httpVersionMinor := addDigit req.httpVersionMinor input })
      else (.reject, state, req)
    | .expectingNewline1 =>
      if input = '\n' then (.more, .headerLineStart, req) else (.reject, state, req)
    | .headerLineStart =>
      if input = '\r' then (.more, .expectingNewline3, req)
      else if !req.headers.isEmpty && (input = ' ' || input = '\t') then (.more, .headerLws, req)
      else if !isChar input || isCtl input || isTspecial input then (.reject, state, req)
      else
        (.more, .headerName,
          Request.pushName { req with headers := req.headers ++ [⟨[], []⟩] } input)
    | .headerLws =>
      if input = '\r' then (.more, .expectingNewline2, req)
      else if input = ' ' || input = '\t' then (.more, state, req)
      else if isCtl input then (.reject, state, req)
      else (.more, .headerValue, req.pushValue input)
    | .headerName =>
      if input = ':' then (.more, .spaceBeforeHeaderValue, req)
      else if !isChar input || isCtl input || isTspecial input then (.reject, state, req)
      else (.more, state, req.pushName input)
    | .spaceBeforeHeaderValue =>
      if input = ' ' then (.more, .headerValue, req) else (.reject, state, req)
    | .headerValue =>
      if input = '\r' then (.more, .expectingNewline2, req)
      else if isCtl input then (.reject, state, req)
      else (.more, state, req.pushValue input)
    | .expectingNewline2 =>
      if input = '\n' then (.more, .headerLineStart, req) else (.reject, state, req)
    | .expectingNewline3 =>
      if input = '\n' then (.accept, state, req) else (.reject, state, req)

def parser : Scanner (State × Request) Char := ⟨consume⟩

/-- A new `request`; the version numbers are not initialized. -/
def Request.new (major minor : Int32) : Request := ⟨[], [], major, minor, []⟩

/-- `request_parser::parse` of a new parser. -/
def parse (major minor : Int32) (text : List Char) : Verdict × (State × Request) × List Char :=
  parser.scan (.methodStart, Request.new major minor) text

/-! ## What has been read -/

/-- What has been read when the parser is in a state with a request. -/
def Read (text : List Char) : State × Request → Prop
  | (.methodStart, r) => text = [] ∧ r.method = [] ∧ r.uri = [] ∧ r.headers = []
  | (.method, r) => ∃ m : Token, text = m.chars ∧ r.method = m.chars ∧ r.uri = [] ∧ r.headers = []
  | (.uri, r) => RequestLine r [] text
  | (.httpVersionH, r) => RequestLine r [' '] text
  | (.httpVersionT1, r) => RequestLine r [' ', 'H'] text
  | (.httpVersionT2, r) => RequestLine r [' ', 'H', 'T'] text
  | (.httpVersionP, r) => RequestLine r [' ', 'H', 'T', 'T'] text
  | (.httpVersionSlash, r) => RequestLine r [' ', 'H', 'T', 'T', 'P'] text
  | (.httpVersionMajorStart, r) =>
    RequestLine r [' ', 'H', 'T', 'T', 'P', '/'] text ∧ r.httpVersionMajor = 0 ∧
      r.httpVersionMinor = 0
  | (.httpVersionMajor, r) =>
    ∃ ma : Digits, RequestLine r ([' ', 'H', 'T', 'T', 'P', '/'] ++ ma.chars) text ∧
      r.httpVersionMajor = number ma.chars ∧ r.httpVersionMinor = 0
  | (.httpVersionMinorStart, r) =>
    ∃ ma : Digits, RequestLine r ([' ', 'H', 'T', 'T', 'P', '/'] ++ ma.chars ++ ['.']) text ∧
      r.httpVersionMajor = number ma.chars ∧ r.httpVersionMinor = 0
  | (.httpVersionMinor, r) =>
    ∃ ma mi : Digits,
      RequestLine r ([' ', 'H', 'T', 'T', 'P', '/'] ++ ma.chars ++ '.' :: mi.chars) text ∧
        r.httpVersionMajor = number ma.chars ∧ r.httpVersionMinor = number mi.chars
  | (.expectingNewline1, r) =>
    ∃ ma mi : Digits,
      RequestLine r ([' ', 'H', 'T', 'T', 'P', '/'] ++ ma.chars ++ '.' :: mi.chars ++ ['\r'])
        text ∧ r.httpVersionMajor = number ma.chars ∧ r.httpVersionMinor = number mi.chars
  | (.headerLineStart, r) => ∃ t : RequestText, text = t.lines ∧ r = t.request
  | (.headerLws, r) =>
    ∃ (t : RequestText) (h : HeaderText) (lws : List Char), lws ≠ [] ∧
      (∀ c ∈ lws, isLws c = true) ∧ text = (t.add h).lines ++ lws ∧ r = (t.add h).request
  | (.headerName, r) =>
    ∃ (t : RequestText) (name : Token), text = t.lines ++ name.chars ∧
      r = { t.request with headers := t.request.headers ++ [⟨name.chars, []⟩] }
  | (.spaceBeforeHeaderValue, r) =>
    ∃ (t : RequestText) (name : Token), text = t.lines ++ name.chars ++ [':'] ∧
      r = { t.request with headers := t.request.headers ++ [⟨name.chars, []⟩] }
  | (.headerValue, r) =>
    ∃ (t : RequestText) (o : OpenLine), text = t.lines ++ o.text ∧
      r = { t.request with headers := t.request.headers ++ [o.header] } ∧ o.Started
  | (.expectingNewline2, r) =>
    ∃ (t : RequestText) (o : OpenLine), text = t.lines ++ o.text ++ ['\r'] ∧
      r = { t.request with headers := t.request.headers ++ [o.header] }
  | (.expectingNewline3, r) => ∃ t : RequestText, text = t.lines ++ ['\r'] ∧ r = t.request
where
  /-- The method and the URI have been read, and then `more`. -/
  RequestLine (r : Request) (more text : List Char) : Prop :=
    (∃ m : Token, r.method = m.chars) ∧ (∀ c ∈ r.uri, isCtl c = false ∧ c ≠ ' ') ∧
      r.headers = [] ∧ text = r.method ++ ' ' :: r.uri ++ more

theorem Read.RequestLine.snoc {r : Request} {more text : List Char} (h : RequestLine r more text)
    (c : Char) : RequestLine r (more ++ [c]) (text ++ [c]) := by
  obtain ⟨hm, hu, hh, rfl⟩ := h
  exact ⟨hm, hu, hh, by simp⟩

/-- The version numbers do not matter to what has been read before them. -/
theorem Read.RequestLine.version {r : Request} {more text : List Char}
    (h : RequestLine r more text) (major minor : Int32) :
    RequestLine { r with httpVersionMajor := major, httpVersionMinor := minor } more text := h

theorem isToken_of_not {c : Char} (h : ¬ (!isChar c || isCtl c || isTspecial c) = true) :
    isToken c = true := by
  simp only [Bool.or_eq_true, Bool.not_eq_true', not_or, Bool.not_eq_false, Bool.not_eq_true] at h
  simp [isToken, h]

theorem read_start (major minor : Int32) : Read [] (.methodStart, Request.new major minor) :=
  ⟨rfl, rfl, rfl, rfl⟩

/-- A request has been read up to its headers. -/
theorem exists_requestText {r : Request} {ma mi : Digits} {text : List Char}
    (h : Read.RequestLine r
      ([' ', 'H', 'T', 'T', 'P', '/'] ++ ma.chars ++ '.' :: mi.chars ++ ['\r', '\n']) text)
    (hma : r.httpVersionMajor = number ma.chars) (hmi : r.httpVersionMinor = number mi.chars) :
    ∃ t : RequestText, text = t.lines ∧ r = t.request := by
  obtain ⟨method, uri, major, minor, headers⟩ := r
  obtain ⟨⟨m, rfl⟩, hu, rfl, rfl⟩ := h
  cases hma
  cases hmi
  exact ⟨⟨m, uri, hu, ma, mi, []⟩, by simp [RequestText.lines, startLine], rfl⟩

/-- **One character.**  What is read of a request with a character the parser wants more after. -/
theorem Read.step {text : List Char} {p p' : State × Request} {c : Char} (h : Read text p)
    (hstep : consume p c = (.more, p')) : Read (text ++ [c]) p' := by
  obtain ⟨state, r⟩ := p
  cases state with
  | methodStart =>
    obtain ⟨rfl, hm, hu, hh⟩ := h
    simp only [consume] at hstep
    split at hstep <;> cases hstep
    rename_i hc
    exact ⟨.single c (isToken_of_not hc), rfl, by rw [hm]; rfl, hu, hh⟩
  | method =>
    obtain ⟨m, rfl, hm, hu, hh⟩ := h
    simp only [consume] at hstep
    split at hstep
    · cases hstep
      subst c
      exact ⟨⟨m, hm⟩, by simp [hu], hh, by simp [hm, hu]⟩
    · split at hstep <;> cases hstep
      rename_i hc
      exact ⟨m.snoc c (isToken_of_not hc), rfl, by rw [hm]; rfl, hu, hh⟩
  | uri =>
    simp only [consume] at hstep
    split at hstep
    · cases hstep
      subst c
      exact h.snoc ' '
    · split at hstep <;> cases hstep
      rename_i hspace hctl
      obtain ⟨hm, hu, hh, rfl⟩ := h
      refine ⟨hm, fun x hx => ?_, hh, by simp⟩
      rcases List.mem_append.mp hx with hx | hx
      · exact hu x hx
      · rw [List.mem_singleton.mp hx]
        exact ⟨by simpa using hctl, hspace⟩
  | httpVersionH =>
    simp only [consume] at hstep
    split at hstep <;> cases hstep
    subst c
    exact h.snoc 'H'
  | httpVersionT1 =>
    simp only [consume] at hstep
    split at hstep <;> cases hstep
    subst c
    exact h.snoc 'T'
  | httpVersionT2 =>
    simp only [consume] at hstep
    split at hstep <;> cases hstep
    subst c
    exact h.snoc 'T'
  | httpVersionP =>
    simp only [consume] at hstep
    split at hstep <;> cases hstep
    subst c
    exact h.snoc 'P'
  | httpVersionSlash =>
    simp only [consume] at hstep
    split at hstep <;> cases hstep
    subst c
    exact ⟨(h.snoc '/').version 0 0, rfl, rfl⟩
  | httpVersionMajorStart =>
    obtain ⟨h, hma, hmi⟩ := h
    simp only [consume] at hstep
    split at hstep <;> cases hstep
    exact ⟨.single c ‹_›, (h.snoc c).version _ _, by rw [hma]; exact (number_single ‹_›).symm, hmi⟩
  | httpVersionMajor =>
    obtain ⟨ma, h, hma, hmi⟩ := h
    simp only [consume] at hstep
    split at hstep
    · cases hstep
      subst c
      exact ⟨ma, h.snoc '.', hma, hmi⟩
    · split at hstep <;> cases hstep
      refine ⟨ma.snoc c ‹_›, ?_, ?_, hmi⟩
      · have hnext := (h.snoc c).version (addDigit r.httpVersionMajor c) r.httpVersionMinor
        rwa [List.append_assoc] at hnext
      · show addDigit r.httpVersionMajor c = number (ma.chars ++ [c])
        rw [hma, number_snoc _ ‹_›]
  | httpVersionMinorStart =>
    obtain ⟨ma, h, hma, hmi⟩ := h
    simp only [consume] at hstep
    split at hstep <;> cases hstep
    refine ⟨ma, .single c ‹_›, ?_, hma, by rw [hmi]; exact (number_single ‹_›).symm⟩
    have hnext := (h.snoc c).version r.httpVersionMajor (addDigit r.httpVersionMinor c)
    rwa [List.append_assoc] at hnext
  | httpVersionMinor =>
    obtain ⟨ma, mi, h, hma, hmi⟩ := h
    simp only [consume] at hstep
    split at hstep
    · cases hstep
      subst c
      exact ⟨ma, mi, h.snoc '\r', hma, hmi⟩
    · split at hstep <;> cases hstep
      refine ⟨ma, mi.snoc c ‹_›, ?_, hma, ?_⟩
      · have hnext := (h.snoc c).version r.httpVersionMajor (addDigit r.httpVersionMinor c)
        rwa [List.append_assoc] at hnext
      · show addDigit r.httpVersionMinor c = number (mi.chars ++ [c])
        rw [hmi, number_snoc _ ‹_›]
  | expectingNewline1 =>
    obtain ⟨ma, mi, h, hma, hmi⟩ := h
    simp only [consume] at hstep
    split at hstep <;> cases hstep
    subst c
    have hnext := h.snoc '\n'
    rw [List.append_assoc] at hnext
    exact exists_requestText hnext hma hmi
  | headerLineStart =>
    obtain ⟨t, rfl, rfl⟩ := h
    simp only [consume] at hstep
    split at hstep
    · cases hstep
      subst c
      exact ⟨t, rfl, rfl⟩
    · split at hstep
      · -- white space: the last header goes on
        cases hstep
        rename_i hfold
        simp only [Bool.and_eq_true, Bool.not_eq_true', List.isEmpty_eq_false_iff] at hfold
        obtain ⟨hs, hd, hlast⟩ : ∃ hs hd, t.headers = hs ++ [hd] := by
          obtain hnil | ⟨hs, hd, hlast⟩ := List.eq_nil_or_concat' t.headers
          · exact absurd (by simp [RequestText.request, hnil]) hfold.1
          · exact ⟨hs, hd, hlast⟩
        have ht : t = ({ t with headers := hs } : RequestText).add hd := by
          simp [RequestText.add, ← hlast]
        exact ⟨{ t with headers := hs }, hd, [c], by simp,
          by simpa [isLws] using hfold.2, by rw [← ht], by rw [← ht]⟩
      · split at hstep <;> cases hstep
        rename_i hc
        exact ⟨t, .single c (isToken_of_not hc), rfl, by simp [Request.pushName, Token.single]⟩
  | headerLws =>
    obtain ⟨t, hd, lws, hne, hlws, rfl, rfl⟩ := h
    simp only [consume] at hstep
    split at hstep
    · cases hstep
      subst c
      refine ⟨t, .folded hd ⟨lws, [], hne, hlws, rfl, List.forall_mem_nil _⟩, ?_, ?_⟩
      · simp [OpenLine.text]
      · simp [OpenLine.header]
    · split at hstep
      · cases hstep
        rename_i hc
        refine ⟨t, hd, lws ++ [c], by simp, fun x hx => ?_, by simp, rfl⟩
        rcases List.mem_append.mp hx with hx | hx
        · exact hlws x hx
        · rw [List.mem_singleton.mp hx]
          simpa [isLws] using hc
      · split at hstep <;> cases hstep
        rename_i hwhite hctl
        refine ⟨t, .folded hd ⟨lws, [c], hne, hlws, ?_, ?_⟩, ?_, ?_, ?_⟩
        · simpa [isLws] using hwhite
        · simpa using hctl
        · simp [OpenLine.text]
        · simp [Request.pushValue, OpenLine.header]
        · simp [OpenLine.Started]
  | headerName =>
    obtain ⟨t, name, rfl, rfl⟩ := h
    simp only [consume] at hstep
    split at hstep
    · cases hstep
      subst c
      exact ⟨t, name, rfl, rfl⟩
    · split at hstep <;> cases hstep
      rename_i hc
      exact ⟨t, name.snoc c (isToken_of_not hc), by simp [Token.snoc],
        by simp [Request.pushName, Token.snoc]⟩
  | spaceBeforeHeaderValue =>
    obtain ⟨t, name, rfl, rfl⟩ := h
    simp only [consume] at hstep
    split at hstep <;> cases hstep
    subst c
    exact ⟨t, .first name [] (List.forall_mem_nil _), by simp [OpenLine.text], rfl, trivial⟩
  | headerValue =>
    obtain ⟨t, o, rfl, rfl, hstarted⟩ := h
    simp only [consume] at hstep
    split at hstep
    · cases hstep
      subst c
      exact ⟨t, o, rfl, rfl⟩
    · split at hstep <;> cases hstep
      rename_i hctl
      obtain ⟨o', htext, hheader, hstarted'⟩ := hstarted.exists_snoc (c := c) (by simpa using hctl)
      exact ⟨t, o', by rw [htext, List.append_assoc], by simp [Request.pushValue, hheader],
        hstarted'⟩
  | expectingNewline2 =>
    obtain ⟨t, o, rfl, rfl⟩ := h
    simp only [consume] at hstep
    split at hstep <;> cases hstep
    subst c
    exact ⟨t.add o.close, by simp [o.render_close], by rw [RequestText.request_add, o.header_close]⟩
  | expectingNewline3 =>
    simp only [consume] at hstep
    split at hstep <;> cases hstep

/-- The parser accepts after the line feed of the empty line. -/
theorem Read.accept {text : List Char} {p p' : State × Request} {c : Char} (h : Read text p)
    (hstep : consume p c = (.accept, p')) :
    ∃ t : RequestText, text ++ [c] = t.render ∧ p' = (.expectingNewline3, t.request) := by
  obtain ⟨state, r⟩ := p
  cases state with
  | expectingNewline3 =>
    obtain ⟨t, rfl, rfl⟩ := h
    simp only [consume] at hstep
    split at hstep <;> cases hstep
    subst c
    exact ⟨t, by simp [RequestText.render], rfl⟩
  | _ =>
    exfalso
    simp only [consume] at hstep
    repeat' split at hstep
    all_goals cases hstep

/-! ## Every request is read -/

theorem foldl_snoc (l as : List Char) : as.foldl (fun l c => l ++ [c]) l = l ++ as := by
  induction as generalizing l with
  | nil => simp
  | cons a as ih => simp [ih]

theorem not_of_isToken {c : Char} (h : isToken c = true) :
    (!isChar c || isCtl c || isTspecial c) = false := by
  simp only [isToken, Bool.and_eq_true, Bool.not_eq_true'] at h
  simp [h]

theorem ne_of_isToken {c d : Char} (h : isToken c = true) (hd : isToken d = false) : c ≠ d := by
  rintro rfl
  rw [h] at hd
  cases hd

theorem ne_of_plain {c d : Char} (h : isCtl c = false) (hd : isCtl d = true) : c ≠ d := by
  rintro rfl
  rw [h] at hd
  cases hd

theorem ne_of_isDigit {c d : Char} (h : isDigit c = true) (hd : isDigit d = false) : c ≠ d := by
  rintro rfl
  rw [h] at hd
  cases hd

theorem exists_cons {l : List Char} (h : l ≠ []) : ∃ a as, l = a :: as :=
  List.exists_cons_of_ne_nil h

theorem scan_method (m : Token) {r : Request} (hr : r.method = []) (bs : List Char) :
    parser.scan (.methodStart, r) (m.chars ++ ' ' :: bs) =
      parser.scan (.uri, { r with method := m.chars }) bs := by
  obtain ⟨a, as, hm⟩ := exists_cons m.ne_nil
  have htoken : ∀ x ∈ a :: as, isToken x = true := hm ▸ m.token
  rw [hm, List.cons_append]
  have hfirst : parser.step (.methodStart, r) a = (.more, .method, { r with method := [a] }) := by
    simp [parser, consume, not_of_isToken (htoken a List.mem_cons_self), hr]
  have hloop : ∀ c ∈ as, ∀ l : List Char,
      parser.step (.method, { r with method := l }) c =
        (.more, .method, { r with method := l ++ [c] }) := by
    intro c hc l
    have hc := htoken c (List.mem_cons_of_mem a hc)
    simp [parser, consume, not_of_isToken hc, ne_of_isToken hc (d := ' ') (by decide)]
  rw [Scanner.scan_cons_more hfirst,
    Scanner.scan_collect (M := parser) (fun l => (State.method, { r with method := l }))
      (fun l c => l ++ [c]) hloop [a],
    foldl_snoc]
  exact Scanner.scan_cons_more rfl

theorem scan_uri {r : Request} (hr : r.uri = []) {uri : List Char}
    (hu : ∀ c ∈ uri, isCtl c = false ∧ c ≠ ' ') (bs : List Char) :
    parser.scan (.uri, r) (uri ++ ' ' :: bs) =
      parser.scan (.httpVersionH, { r with uri := uri }) bs := by
  have hloop : ∀ c ∈ uri, ∀ l : List Char,
      parser.step (.uri, { r with uri := l }) c = (.more, .uri, { r with uri := l ++ [c] }) := by
    intro c hc l
    obtain ⟨hctl, hspace⟩ := hu c hc
    simp [parser, consume, hctl, hspace]
  have hstart : r = { r with uri := [] } := by rw [← hr]
  rw [hstart,
    Scanner.scan_collect (M := parser) (fun l => (State.uri, { r with uri := l }))
      (fun l c => l ++ [c]) hloop [],
    foldl_snoc]
  exact Scanner.scan_cons_more rfl

theorem scan_protocol (r : Request) (bs : List Char) :
    parser.scan (.httpVersionH, r) ('H' :: 'T' :: 'T' :: 'P' :: '/' :: bs) =
      parser.scan (.httpVersionMajorStart, { r with httpVersionMajor := 0, httpVersionMinor := 0 })
        bs := by
  rw [Scanner.scan_cons_more (u := (State.httpVersionT1, r)) rfl,
    Scanner.scan_cons_more (u := (State.httpVersionT2, r)) rfl,
    Scanner.scan_cons_more (u := (State.httpVersionP, r)) rfl,
    Scanner.scan_cons_more (u := (State.httpVersionSlash, r)) rfl]
  exact Scanner.scan_cons_more rfl

theorem scan_major (d : Digits) {r : Request} (hr : r.httpVersionMajor = 0) (bs : List Char) :
    parser.scan (.httpVersionMajorStart, r) (d.chars ++ '.' :: bs) =
      parser.scan (.httpVersionMinorStart, { r with httpVersionMajor := number d.chars }) bs := by
  obtain ⟨a, as, hd⟩ := exists_cons d.ne_nil
  have hdigit : ∀ x ∈ a :: as, isDigit x = true := hd ▸ d.digits
  rw [hd, List.cons_append]
  have hfirst : parser.step (.httpVersionMajorStart, r) a =
      (.more, .httpVersionMajor, { r with httpVersionMajor := addDigit 0 a }) := by
    simp [parser, consume, hdigit a List.mem_cons_self, hr]
  have hloop : ∀ c ∈ as, ∀ n : Int32,
      parser.step (.httpVersionMajor, { r with httpVersionMajor := n }) c =
        (.more, .httpVersionMajor, { r with httpVersionMajor := addDigit n c }) := by
    intro c hc n
    have hc := hdigit c (List.mem_cons_of_mem a hc)
    simp [parser, consume, hc, ne_of_isDigit hc (d := '.') (by decide)]
  rw [Scanner.scan_cons_more hfirst,
    Scanner.scan_collect (M := parser)
      (fun n => (State.httpVersionMajor, { r with httpVersionMajor := n })) addDigit hloop
      (addDigit 0 a), foldl_digits hdigit]
  exact Scanner.scan_cons_more rfl

theorem scan_minor (d : Digits) {r : Request} (hr : r.httpVersionMinor = 0) (bs : List Char) :
    parser.scan (.httpVersionMinorStart, r) (d.chars ++ '\r' :: '\n' :: bs) =
      parser.scan (.headerLineStart, { r with httpVersionMinor := number d.chars }) bs := by
  obtain ⟨a, as, hd⟩ := exists_cons d.ne_nil
  have hdigit : ∀ x ∈ a :: as, isDigit x = true := hd ▸ d.digits
  rw [hd, List.cons_append]
  have hfirst : parser.step (.httpVersionMinorStart, r) a =
      (.more, .httpVersionMinor, { r with httpVersionMinor := addDigit 0 a }) := by
    simp [parser, consume, hdigit a List.mem_cons_self, hr]
  have hloop : ∀ c ∈ as, ∀ n : Int32,
      parser.step (.httpVersionMinor, { r with httpVersionMinor := n }) c =
        (.more, .httpVersionMinor, { r with httpVersionMinor := addDigit n c }) := by
    intro c hc n
    have hc := hdigit c (List.mem_cons_of_mem a hc)
    simp [parser, consume, hc, ne_of_isDigit hc (d := '\r') (by decide)]
  rw [Scanner.scan_cons_more hfirst,
    Scanner.scan_collect (M := parser)
      (fun n => (State.httpVersionMinor, { r with httpVersionMinor := n })) addDigit hloop
      (addDigit 0 a), foldl_digits hdigit,
    Scanner.scan_cons_more (u := (State.expectingNewline1, { r with httpVersionMinor := _ })) rfl]
  exact Scanner.scan_cons_more rfl

/-- The text of a value, up to the end of its line. -/
theorem scan_value {r : Request} {hs : List Header} (name value : List Char) {text : List Char}
    (ht : ∀ c ∈ text, isCtl c = false) (bs : List Char) :
    parser.scan (.headerValue, { r with headers := hs ++ [⟨name, value⟩] })
        (text ++ '\r' :: '\n' :: bs) =
      parser.scan (.headerLineStart, { r with headers := hs ++ [⟨name, value ++ text⟩] }) bs := by
  have hloop : ∀ c ∈ text, ∀ l : List Char,
      parser.step (.headerValue, { r with headers := hs ++ [⟨name, l⟩] }) c =
        (.more, .headerValue, { r with headers := hs ++ [⟨name, l ++ [c]⟩] }) := by
    intro c hc l
    simp [parser, consume, ht c hc, ne_of_plain (ht c hc) (d := '\r') (by decide),
      Request.pushValue]
  rw [Scanner.scan_collect (M := parser)
      (fun l => (State.headerValue, { r with headers := hs ++ [⟨name, l⟩] }))
      (fun l c => l ++ [c]) hloop value,
    foldl_snoc, Scanner.scan_cons_more (u := (State.expectingNewline2, _)) rfl]
  exact Scanner.scan_cons_more rfl

/-- A line that continues the last header. -/
theorem scan_fold (f : Fold) {r : Request} {hs : List Header} {name value : List Char}
    (bs : List Char) :
    parser.scan (.headerLineStart, { r with headers := hs ++ [⟨name, value⟩] }) (f.render ++ bs) =
      parser.scan (.headerLineStart, { r with headers := hs ++ [⟨name, value ++ f.text⟩] }) bs := by
  obtain ⟨a, as, hl⟩ := exists_cons f.ne_nil
  have hwhite : ∀ x ∈ a :: as, isLws x = true := hl ▸ f.white
  have hne : ∀ x, isLws x = true → x ≠ '\r' := by
    rintro x hx rfl
    cases hx
  have hfirst : parser.step (.headerLineStart, { r with headers := hs ++ [⟨name, value⟩] }) a =
      (.more, .headerLws, { r with headers := hs ++ [⟨name, value⟩] }) := by
    have ha := hwhite a List.mem_cons_self
    have hcr := hne a ha
    simp only [isLws, Bool.or_eq_true, decide_eq_true_eq] at ha
    simp [parser, consume, hcr, ha]
  have hloop : ∀ c ∈ as, ∀ u : Unit,
      parser.step (.headerLws, { r with headers := hs ++ [⟨name, value⟩] }) c =
        (.more, .headerLws, { r with headers := hs ++ [⟨name, value⟩] }) := by
    intro c hc _
    have hc := hwhite c (List.mem_cons_of_mem a hc)
    have hcr := hne c hc
    simp only [isLws, Bool.or_eq_true, decide_eq_true_eq] at hc
    simp [parser, consume, hcr, hc]
  rw [Fold.render, hl, List.append_assoc, List.append_assoc, List.cons_append,
    Scanner.scan_cons_more hfirst,
    Scanner.scan_collect (M := parser)
      (fun _ : Unit => (State.headerLws, { r with headers := hs ++ [⟨name, value⟩] }))
      (fun u _ => u) hloop ()]
  -- an empty line leaves the value alone; else the first character is no white space
  cases ht : f.text with
  | nil =>
    rw [List.nil_append, List.append_nil]
    exact (Scanner.scan_cons_more rfl).trans (Scanner.scan_cons_more rfl)
  | cons b text =>
    have hb : isLws b = false := by
      have := f.head
      rw [ht] at this
      simpa using this
    have hplain : ∀ x ∈ b :: text, isCtl x = false := ht ▸ f.plain
    have hbegin : parser.step (.headerLws, { r with headers := hs ++ [⟨name, value⟩] }) b =
        (.more, .headerValue, { r with headers := hs ++ [⟨name, value ++ [b]⟩] }) := by
      simp only [isLws, Bool.or_eq_false_iff, decide_eq_false_iff_not] at hb
      simp [parser, consume, hb, hplain b List.mem_cons_self,
        ne_of_plain (hplain b List.mem_cons_self) (d := '\r') (by decide), Request.pushValue]
    rw [List.cons_append, Scanner.scan_cons_more hbegin]
    have hvalue : parser.scan
          (.headerValue, { r with headers := hs ++ [⟨name, value ++ [b]⟩] })
          (text ++ '\r' :: '\n' :: bs) =
        parser.scan (.headerLineStart, { r with headers := hs ++ [⟨name, value ++ [b] ++ text⟩] })
          bs :=
      scan_value name (value ++ [b]) (fun c hc => hplain c (List.mem_cons_of_mem b hc)) bs
    simpa using hvalue

theorem scan_folds (folds : List Fold) {r : Request} {hs : List Header} {name value : List Char}
    (bs : List Char) :
    parser.scan (.headerLineStart, { r with headers := hs ++ [⟨name, value⟩] })
        (folds.flatMap Fold.render ++ bs) =
      parser.scan (.headerLineStart,
        { r with headers := hs ++ [⟨name, value ++ folds.flatMap Fold.text⟩] }) bs := by
  induction folds generalizing value with
  | nil => simp
  | cons f folds ih =>
    rw [List.flatMap_cons, List.append_assoc, scan_fold, ih, List.flatMap_cons, List.append_assoc]

theorem scan_headerName (name : Token) (r : Request) (bs : List Char) :
    parser.scan (.headerLineStart, r) (name.chars ++ ':' :: ' ' :: bs) =
      parser.scan (.headerValue, { r with headers := r.headers ++ [⟨name.chars, []⟩] }) bs := by
  obtain ⟨a, as, hn⟩ := exists_cons name.ne_nil
  have htoken : ∀ x ∈ a :: as, isToken x = true := hn ▸ name.token
  rw [hn, List.cons_append]
  have hfirst : parser.step (.headerLineStart, r) a =
      (.more, .headerName, { r with headers := r.headers ++ [⟨[a], []⟩] }) := by
    have ha := htoken a List.mem_cons_self
    simp [parser, consume, not_of_isToken ha, ne_of_isToken ha (d := '\r') (by decide),
      ne_of_isToken ha (d := ' ') (by decide), ne_of_isToken ha (d := '\t') (by decide),
      Request.pushName]
  have hloop : ∀ c ∈ as, ∀ l : List Char,
      parser.step (.headerName, { r with headers := r.headers ++ [⟨l, []⟩] }) c =
        (.more, .headerName, { r with headers := r.headers ++ [⟨l ++ [c], []⟩] }) := by
    intro c hc l
    have hc := htoken c (List.mem_cons_of_mem a hc)
    simp [parser, consume, not_of_isToken hc, ne_of_isToken hc (d := ':') (by decide),
      Request.pushName]
  rw [Scanner.scan_cons_more hfirst,
    Scanner.scan_collect (M := parser)
      (fun l => (State.headerName, { r with headers := r.headers ++ [⟨l, []⟩] }))
      (fun l c => l ++ [c]) hloop [a],
    foldl_snoc, Scanner.scan_cons_more (u := (State.spaceBeforeHeaderValue, _)) rfl]
  exact Scanner.scan_cons_more rfl

theorem scan_header (h : HeaderText) (r : Request) (bs : List Char) :
    parser.scan (.headerLineStart, r) (h.render ++ bs) =
      parser.scan (.headerLineStart, { r with headers := r.headers ++ [h.header] }) bs := by
  have hrender : h.render ++ bs = h.name.chars ++ ':' :: ' ' :: (h.first ++
      '\r' :: '\n' :: (h.folds.flatMap Fold.render ++ bs)) := by
    simp [HeaderText.render]
  rw [hrender, scan_headerName, scan_value _ _ h.plain, scan_folds]
  rfl

theorem scan_headers (hs : List HeaderText) (r : Request) (bs : List Char) :
    parser.scan (.headerLineStart, r) (hs.flatMap HeaderText.render ++ bs) =
      parser.scan (.headerLineStart,
        { r with headers := r.headers ++ hs.map HeaderText.header }) bs := by
  induction hs generalizing r with
  | nil => simp
  | cons h hs ih =>
    rw [List.flatMap_cons, List.append_assoc, scan_header, ih, List.map_cons]
    simp

/-- The text of a request is accepted, whatever comes after it. -/
theorem scan_render (t : RequestText) (major minor : Int32) (rest : List Char) :
    parse major minor (t.render ++ rest) =
      (.accept, (.expectingNewline3, t.request), rest) := by
  have hrender : t.render ++ rest = t.method.chars ++ ' ' :: (t.uri ++ ' ' :: 'H' :: 'T' :: 'T' ::
      'P' :: '/' :: (t.major.chars ++ '.' :: (t.minor.chars ++ '\r' :: '\n' ::
        (t.headers.flatMap HeaderText.render ++ '\r' :: '\n' :: rest)))) := by
    simp [RequestText.render, RequestText.lines, startLine]
  rw [parse, hrender, scan_method _ rfl, scan_uri rfl t.uriPlain, scan_protocol, scan_major _ rfl,
    scan_minor _ rfl, scan_headers,
    Scanner.scan_cons_more (u := (State.expectingNewline3, t.request)) rfl]
  exact Scanner.scan_cons_decided rfl (by simp)

/-- What brings a parser in a state to accept. -/
def finish : State → List Char
  | .methodStart => 'G' :: ' ' :: '/' :: ' ' :: 'H' :: 'T' :: 'T' :: 'P' :: '/' :: version
  | .method => ' ' :: '/' :: ' ' :: 'H' :: 'T' :: 'T' :: 'P' :: '/' :: version
  | .uri => '/' :: ' ' :: 'H' :: 'T' :: 'T' :: 'P' :: '/' :: version
  | .httpVersionH => 'H' :: 'T' :: 'T' :: 'P' :: '/' :: version
  | .httpVersionT1 => 'T' :: 'T' :: 'P' :: '/' :: version
  | .httpVersionT2 => 'T' :: 'P' :: '/' :: version
  | .httpVersionP => 'P' :: '/' :: version
  | .httpVersionSlash => '/' :: version
  | .httpVersionMajorStart => version
  | .httpVersionMajor => '.' :: '0' :: '\r' :: line
  | .httpVersionMinorStart => '0' :: '\r' :: line
  | .httpVersionMinor | .headerLws | .headerValue => '\r' :: line
  | .expectingNewline1 | .expectingNewline2 => line
  | .headerLineStart => ['\r', '\n']
  | .headerName => ':' :: ' ' :: '\r' :: line
  | .spaceBeforeHeaderValue => ' ' :: '\r' :: line
  | .expectingNewline3 => ['\n']
where
  line : List Char := ['\n', '\r', '\n']
  version : List Char := '1' :: '.' :: '0' :: '\r' :: line

/-- The parser never gets into a state from which nothing is accepted. -/
theorem scan_finish (p : State × Request) :
    ∃ p', parser.scan p (finish p.1) = (.accept, p', []) := by
  obtain ⟨state, r⟩ := p
  cases state <;> exact ⟨_, rfl⟩

theorem read_of_more {major minor : Int32} {text rest : List Char} {p : State × Request}
    (h : parse major minor text = (.more, p, rest)) : Read text p :=
  Scanner.scan_induction (P := Read) (read_start major minor)
    (fun _ _ _ _ hread hstep => hread.step hstep) h

/-- What is accepted is the text of a request, up to the character that decides. -/
theorem exists_render_of_accept {major minor : Int32} {text rest : List Char} {p : State × Request}
    (h : parse major minor text = (.accept, p, rest)) :
    ∃ t : RequestText, text = t.render ++ rest ∧ p = (.expectingNewline3, t.request) := by
  obtain ⟨before, c, q, rfl, hbefore, hstep⟩ := Scanner.exists_of_decided h (by simp)
  obtain ⟨t, ht, hp⟩ := (read_of_more hbefore).accept hstep
  exact ⟨t, by rw [← ht, List.append_assoc]; rfl, hp⟩

theorem parse_eq_accept_iff (major minor : Int32) {text rest : List Char} {p : State × Request} :
    parse major minor text = (.accept, p, rest) ↔
      ∃ t : RequestText, text = t.render ++ rest ∧ p = (.expectingNewline3, t.request) := by
  refine ⟨exists_render_of_accept, ?_⟩
  rintro ⟨t, rfl, rfl⟩
  exact scan_render t major minor rest

theorem parse_eq_more_iff (major minor : Int32) (text : List Char) :
    (parse major minor text).1 = .more ↔
      ∃ (t : RequestText) (later : List Char), later ≠ [] ∧ text ++ later = t.render := by
  constructor
  · intro h
    obtain ⟨p, rest, hp⟩ : ∃ p rest, parse major minor text = (.more, p, rest) :=
      ⟨_, _, Prod.ext h rfl⟩
    obtain ⟨p', hp'⟩ := scan_finish p
    have haccept : parse major minor (text ++ finish p.1) = (.accept, p', []) :=
      (Scanner.scan_append hp _).trans hp'
    obtain ⟨t, ht, -⟩ := exists_render_of_accept haccept
    refine ⟨t, finish p.1, ?_, by rw [ht, List.append_nil]⟩
    cases p.1 <;> exact List.cons_ne_nil _ _
  · rintro ⟨t, later, hlater, ht⟩
    have hwhole := scan_render t major minor []
    rw [List.append_nil, ← ht] at hwhole
    exact Scanner.more_of_scan_append hwhole hlater

theorem parse_eq_reject_iff (major minor : Int32) (text : List Char) :
    (parse major minor text).1 = .reject ↔
      ∀ t : RequestText, ¬ t.render <+: text ∧ ¬ text <+: t.render := by
  constructor
  · intro hreject t
    have haccept : ¬ t.render <+: text := by
      rintro ⟨rest, rfl⟩
      rw [scan_render] at hreject
      cases hreject
    refine ⟨haccept, ?_⟩
    rintro ⟨later, ht⟩
    have hmore : (parse major minor text).1 = .more :=
      (parse_eq_more_iff major minor text).mpr
        ⟨t, later, fun hnil => haccept ⟨[], by rw [← ht, hnil]; simp⟩, ht⟩
    rw [hmore] at hreject
    cases hreject
  · intro hnone
    cases hv : (parse major minor text).1 with
    | reject => rfl
    | more =>
      obtain ⟨t, later, -, ht⟩ := (parse_eq_more_iff major minor text).mp hv
      exact absurd ⟨later, ht⟩ (hnone t).2
    | accept =>
      obtain ⟨t, ht, -⟩ := exists_render_of_accept (Prod.ext hv rfl)
      exact absurd ⟨_, ht.symm⟩ (hnone t).1

end Sundries.Http
