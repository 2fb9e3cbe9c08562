import Sundries.HttpServer
import Sundries.RequestHandler

/-!
# The HTTP client and the server

`http_client` asks for a path and prints what comes back.  From the server's reply, it prints the
file the path stands for.
-/
namespace Sundries.Http

/-- The request that the client sends. -/
def requestText (server path : List Char) : List Char :=
  "GET ".toList ++ path ++ " HTTP/1.0\r\n".toList ++ "Host: ".toList ++ server ++
    "\r\nAccept: */*\r\n".toList ++ "Connection: close\r\n\r\n".toList

theorem requestText_eq (server path : List Char) :
    requestText server path = "GET ".toList ++ path ++ " HTTP/1.0\r\n".toList ++ "Host: ".toList ++
      server ++ "\r\nAccept: */*\r\n".toList ++ "Connection: close\r\n\r\n".toList := rfl

/-- What the client prints: a message, or the headers and the content. -/
inductive Output where
  | invalidResponse
  | statusCode (n : ℕ)
  | response (headers : List (List Char)) (content : List Char)
  deriving DecidableEq

/-- The loop over the headers, up to an empty line: the lines that are printed, and what is left. -/
def printHeaders (s : List Char) : List (List Char) × List Char :=
  match _h : Istream.getline s with
  | none => ([], s)
  | some (header, rest) =>
    if header = ['\r'] then ([], rest)
    else (header :: (printHeaders rest).1, (printHeaders rest).2)
  termination_by s.length
  decreasing_by all_goals exact Istream.length_of_getline ‹_›

/-- `main` of the client, when `s` comes back. -/
def client (s : List Char) : Output :=
  match Istream.word s with
  | none => .invalidResponse
  | some (version, s) =>
    match Istream.unsigned 4294967296 s with
    | none => .invalidResponse
    | some (code, s) =>
      match Istream.getline s with
      | none => .invalidResponse
      | some (_, s) =>
        if version.take 5 ≠ "HTTP/".toList then .invalidResponse
        else if code ≠ 200 then .statusCode code
        else .response (printHeaders s).1 (printHeaders s).2

/-! ## What is read of a reply -/

theorem printHeaders_line {line : List Char} (hfeed : '\n' ∉ line) (hne : line ≠ ['\r'])
    (s : List Char) :
    printHeaders (line ++ '\n' :: s) = (line :: (printHeaders s).1, (printHeaders s).2) := by
  rw [printHeaders, Istream.getline_append hfeed]
  exact if_neg hne

theorem printHeaders_end (s : List Char) : printHeaders ('\r' :: '\n' :: s) = ([], s) := by
  have hline : Istream.getline (['\r'] ++ '\n' :: s) = some (['\r'], s) :=
    Istream.getline_append (by decide) s
  rw [List.singleton_append] at hline
  rw [printHeaders, hline]
  exact if_pos rfl

/-- A header whose line is one line. -/
def Header.OneLine (h : Header) : Prop := '\n' ∉ h.name ∧ '\n' ∉ h.value

theorem printHeaders_reply {hs : List Header} (h : ∀ x ∈ hs, x.OneLine) (content : List Char) :
    printHeaders ((hs.flatMap fun x => Reply.headerLine x ++ ['\n']) ++ '\r' :: '\n' :: content) =
      (hs.map Reply.headerLine, content) := by
  induction hs with
  | nil => exact printHeaders_end content
  | cons x hs ih =>
    obtain ⟨hname, hvalue⟩ := h x List.mem_cons_self
    have hfeed : '\n' ∉ Reply.headerLine x := by
      simp [Reply.headerLine, hname, hvalue]
    have hne : Reply.headerLine x ≠ ['\r'] := by
      intro heq
      have hlength := congrArg List.length heq
      simp only [Reply.headerLine, List.length_append, List.length_cons, List.length_nil] at hlength
      omega
    rw [List.flatMap_cons, List.append_assoc, List.append_assoc, List.singleton_append,
      printHeaders_line hfeed hne, ih (fun y hy => h y (List.mem_cons_of_mem x hy)), List.map_cons]

/-- What the client prints for a reply. -/
def shown (r : Reply) : Output :=
  if r.status.code ≠ 200 then .statusCode r.status.code
  else .response (r.headers.map Reply.headerLine) r.content

theorem phrase_oneLine (s : StatusType) : '\n' ∉ s.phrase.toList := by
  cases s <;> decide

theorem code_lt (s : StatusType) : s.code < 4294967296 := by
  cases s <;> decide

theorem client_bytes {r : Reply} (h : ∀ x ∈ r.headers, x.OneLine) : client r.bytes = shown r := by
  obtain ⟨rest, hrest⟩ : ∃ rest, rest = (r.headers.flatMap fun x => Reply.headerLine x ++ ['\n']) ++
      '\r' :: '\n' :: r.content := ⟨_, rfl⟩
  have hbytes : r.bytes = "HTTP/1.0".toList ++ ' ' :: (Nat.toDigits 10 r.status.code ++
      ' ' :: (r.status.phrase.toList ++ '\r' :: '\n' :: rest)) := by
    have hversion : "HTTP/1.0 ".toList = "HTTP/1.0".toList ++ [' '] := by decide
    rw [Reply.bytes_eq, hrest, StatusType.toBuffer_eq, hversion]
    generalize "HTTP/1.0".toList = version
    simp
  have hword : Istream.word r.bytes = some ("HTTP/1.0".toList, ' ' :: (Nat.toDigits 10
      r.status.code ++ ' ' :: (r.status.phrase.toList ++ '\r' :: '\n' :: rest))) := by
    rw [hbytes]
    exact Istream.word_append (by decide) (Istream.forall_of_all (by decide)) rfl _
  have hstop : ∀ c ∈ (' ' :: (r.status.phrase.toList ++ '\r' :: '\n' :: rest)).head?,
      Istream.digitValue 10 c = none := by
    intro c hc
    rw [List.head?_cons, Option.mem_some_iff] at hc
    rw [← hc]
    decide
  have hcode : Istream.unsigned 4294967296 ([' '] ++ Nat.toDigits 10 r.status.code ++
      ' ' :: (r.status.phrase.toList ++ '\r' :: '\n' :: rest)) =
        some (r.status.code, ' ' :: (r.status.phrase.toList ++ '\r' :: '\n' :: rest)) :=
    Istream.unsigned_toDigits (code_lt _) (Istream.forall_of_all (by decide)) hstop
  have hmessage : Istream.getline ((' ' :: r.status.phrase.toList ++ ['\r']) ++ '\n' :: rest) =
      some (' ' :: r.status.phrase.toList ++ ['\r'], rest) :=
    Istream.getline_append (by simp [phrase_oneLine]) rest
  rw [List.append_assoc, List.singleton_append] at hcode
  simp only [List.cons_append, List.append_assoc, List.nil_append] at hmessage
  simp only [client, hword, hcode, hmessage, shown]
  rw [if_neg (by decide)]
  split
  · rfl
  · rw [hrest, printHeaders_reply h]

/-! ## The request of the client -/

/-- A path that can stand in a request as it is. -/
def Plain (path : List Char) : Prop := ∀ c ∈ path, isCtl c = false ∧ c ≠ ' '

/-- The client's request is one. -/
theorem exists_clientRequest {server path : List Char} (hpath : Plain path)
    (hserver : ∀ c ∈ server, isCtl c = false) :
    ∃ t : RequestText, t.render = requestText server path ∧ t.request.uri = path := by
  have check : ∀ {l : List Char} {P : Char → Prop} [DecidablePred P],
      l.all (fun c => decide (P c)) = true → ∀ c ∈ l, P c := Istream.forall_of_all
  refine ⟨⟨⟨"GET".toList, by decide, check (by decide)⟩, path, hpath,
    ⟨['1'], by decide, check (by decide)⟩, ⟨['0'], by decide, check (by decide)⟩,
    [⟨⟨"Host".toList, by decide, check (by decide)⟩, server, hserver, []⟩,
      ⟨⟨"Accept".toList, by decide, check (by decide)⟩, "*/*".toList, check (by decide), []⟩,
      ⟨⟨"Connection".toList, by decide, check (by decide)⟩, "close".toList, check (by decide),
        []⟩]⟩, ?_, rfl⟩
  have hget : "GET ".toList = "GET".toList ++ [' '] := by decide
  have hversion : " HTTP/1.0\r\n".toList =
      [' ', 'H', 'T', 'T', 'P', '/'] ++ (['1'] ++ '.' :: (['0'] ++ ['\r', '\n'])) := by decide
  have hhost : "Host: ".toList = "Host".toList ++ [':', ' '] := by decide
  have haccept : "\r\nAccept: */*\r\n".toList =
      ['\r', '\n'] ++ ("Accept".toList ++ ([':', ' '] ++ ("*/*".toList ++ ['\r', '\n']))) := by
    decide
  have hclose : "Connection: close\r\n\r\n".toList = "Connection".toList ++
      ([':', ' '] ++ ("close".toList ++ (['\r', '\n'] ++ ['\r', '\n']))) := by decide
  rw [requestText_eq, hget, hversion, hhost, haccept, hclose]
  simp only [RequestText.render, RequestText.lines, startLine, HeaderText.render,
    List.flatMap_cons, List.flatMap_nil]
  generalize "GET".toList = get, "Host".toList = host, "Accept".toList = accept,
    "*/*".toList = any, "Connection".toList = connection, "close".toList = close
  simp

/-! ## The client against the server -/

/-- What the client prints when its path opens `file`. -/
def fileOutput (path : List Char) : Option (List Char) → Output
  | none => .statusCode 404
  | some file =>
    .response ((Reply.contentHeaders file (extensionToType (extension path))).map Reply.headerLine)
      file

/-- What the client prints when it asks for `uri`. -/
def expected (files : List Char → Option (List Char)) (docRoot uri : List Char) : Output :=
  match requestPath uri with
  | none => .statusCode 400
  | some path => fileOutput path (files (cStr (docRoot ++ path)))

theorem oneLine_digits (n : ℕ) : '\n' ∉ Nat.toDigits 10 n := by
  intro h
  exact absurd (Nat.isDigit_of_mem_toDigits (by decide) (by decide) h) (by decide)

theorem oneLine_extensionToType (e : List Char) : '\n' ∉ extensionToType e := by
  have hall : ∀ m ∈ mappings, '\n' ∉ m.2.toList := by decide
  rw [extensionToType]
  split
  · rename_i m hm
    exact hall m (List.mem_of_find?_eq_some hm)
  · decide

theorem oneLine_contentHeaders (content : List Char) {type : List Char} (htype : '\n' ∉ type) :
    ∀ h ∈ Reply.contentHeaders content type, h.OneLine := by
  intro h hh
  simp only [Reply.contentHeaders, List.mem_cons, List.not_mem_nil, or_false] at hh
  rcases hh with rfl | rfl
  · exact ⟨show '\n' ∉ "Content-Length".toList by decide, oneLine_digits _⟩
  · exact ⟨show '\n' ∉ "Content-Type".toList by decide, htype⟩

theorem client_stockReply {status : StatusType} (h : status.code ≠ 200) :
    client (Reply.stockReply status).bytes = .statusCode status.code := by
  have htype : '\n' ∉ "text/html".toList := by decide
  rw [client_bytes (oneLine_contentHeaders _ htype), shown]
  exact if_pos h

/-- What the client prints of the handler's reply. -/
theorem client_handleRequest (files : List Char → Option (List Char)) (docRoot : List Char)
    (req : Request) (status : StatusType) :
    client (handleRequest files docRoot req ⟨status, [], []⟩).bytes =
      expected files docRoot req.uri := by
  cases hpath : requestPath req.uri with
  | none =>
    simp only [handleRequest, expected, hpath]
    exact client_stockReply (by decide)
  | some path =>
    cases hfile : files (cStr (docRoot ++ path)) with
    | none =>
      simp only [handleRequest, expected, hpath, hfile]
      exact client_stockReply (by decide)
    | some file =>
      simp only [handleRequest, expected, hpath, hfile, readAll_eq, List.nil_append]
      exact client_bytes (oneLine_contentHeaders file (oneLine_extensionToType _))

/-- An encoding of an acceptable path asks for this path. -/
theorem requestPath_of_encodes {path uri : List Char} (h : Encodes path uri)
    (habsolute : Absolute path) : requestPath uri = some (withIndex path) :=
  requestPath_eq_some_iff.mpr ⟨path, urlDecode_of_encodes h, habsolute, rfl⟩

/-- **From the client to the file and back.**  In whatever pieces the request of a client comes in
and whatever other clients do, the server has begun to send one reply for it, and from this reply
the client prints the file its path stands for, however the path is encoded, or the status code
that says why not.  The path has no blanks and no control characters, the server's name no control
characters: nothing in them ends the request line or the header. -/
theorem client_prints {files : List Char → Option (List Char)} {docRoot server path : List Char}
    {status : StatusType} {s : Server.System}
    (h : (Server.server fun req => handleRequest files docRoot req ⟨status, [], []⟩).Reachable s)
    {c : Server.Connection} (hc : c ∈ s.connections) (hpath : Plain path)
    (hserver : ∀ x ∈ server, isCtl x = false) (hreceived : c.received = requestText server path) :
    (∃ r, c.begun = [r] ∧ client r.bytes = expected files docRoot path) ∧
      ∀ p, Encodes p path → Absolute p → expected files docRoot path =
        fileOutput (withIndex p) (files (cStr (docRoot ++ withIndex p))) := by
  constructor
  · obtain ⟨t, ht, hturi⟩ := exists_clientRequest hpath hserver
    obtain ⟨i, hi⟩ := List.mem_iff_getElem?.mp hc
    have hbegun := ((Server.valid_of_reachable h).connections i c hi).answered
    rw [hreceived, ← ht] at hbegun
    have hone := Server.answered_render hbegun
    refine ⟨_, hone, ?_⟩
    rw [client_handleRequest, hturi]
  · intro p hp habsolute
    rw [expected, requestPath_of_encodes hp habsolute]

/-- A file with a blank in its name, and a request for it. -/
def blankFile : List Char → Option (List Char) := fun p =>
  if p = "/srv/a b".toList then some "text".toList else none

def blankRequest : List Server.Label :=
  [.accept true 0 0, .read 0 (requestText "localhost".toList "/a%20b".toList)]

theorem blankFile_printed : ∃ s,
    (Server.server fun req => handleRequest blankFile "/srv".toList req ⟨.ok, [], []⟩).run
      (Server.server fun req => handleRequest blankFile "/srv".toList req ⟨.ok, [], []⟩).init
      blankRequest = some s ∧
    ∃ c ∈ s.connections, ∃ r, c.begun = [r] ∧ client r.bytes =
      .response ["Content-Length: 4\r".toList, "Content-Type: text/plain\r".toList]
        "text".toList := by
  obtain ⟨s, c, hs, hc, hreceived⟩ : ∃ s c,
      (Server.server fun req => handleRequest blankFile "/srv".toList req ⟨.ok, [], []⟩).run
        (Server.server fun req => handleRequest blankFile "/srv".toList req ⟨.ok, [], []⟩).init
        blankRequest = some s ∧ s.connections[0]? = some c ∧
        c.received = requestText "localhost".toList "/a%20b".toList := by
    refine ⟨_, _, rfl, rfl, ?_⟩
    decide +kernel
  have hencodes : Encodes "/a b".toList "/a%20b".toList := by
    show Encodes ['/', 'a', ' ', 'b'] ['/', 'a', '%', '2', '0', 'b']
    exact .plain (by decide) (.plain (by decide)
      (.percent (x := 2) (y := 0) rfl rfl (.plain (by decide) .nil)))
  have hmem := List.mem_of_getElem? hc
  obtain ⟨⟨r, hbegun, hr⟩, hfile⟩ := client_prints (Machine.reachable_of_run blankRequest hs) hmem
    (Istream.forall_of_all (by decide)) (Istream.forall_of_all (by decide)) hreceived
  refine ⟨s, hs, c, hmem, r, hbegun, ?_⟩
  rw [hr, hfile _ hencodes ⟨by decide, by decide⟩]
  decide +kernel

end Sundries.Http
