import Sundries.HttpReply
import Sundries.Istream
import Sundries.Path

/-!
# `request_handler`

A request's URI is decoded to a path, and the file at this path below `doc_root` is the content
of the reply.  `files` says what a path opens: `none` if `std::ifstream` fails.
-/
namespace Sundries.Http

/-! ## Percent-encoding -/

/-- `static_cast<char>` -/
def toChar (n : Int) : Char := Char.ofNat (n % 256).toNat

/-- `request_handler::url_decode` -/
def urlDecode : List Char → Option (List Char)
  | [] => some []
  | '%' :: a :: b :: rest =>
    match Istream.integer 16 [a, b] with
    | some (n, _) => (urlDecode rest).map (toChar n :: ·)
    | none => none
  | '%' :: _ => none
  | '+' :: rest => (urlDecode rest).map (' ' :: ·)
  | c :: rest => (urlDecode rest).map (c :: ·)

/-- The text encodes the characters. -/
inductive Encodes : List Char → List Char → Prop
  | nil : Encodes [] []
  | plain {c : Char} {cs text : List Char} (hne : c ≠ '%' ∧ c ≠ '+') (rest : Encodes cs text) :
    Encodes (c :: cs) (c :: text)
  | plus {cs text : List Char} (rest : Encodes cs text) : Encodes (' ' :: cs) ('+' :: text)
  | percent {a b : Char} {x y : ℕ} {cs text : List Char} (ha : Istream.hexValue a = some x)
    (hb : Istream.hexValue b = some y) (rest : Encodes cs text) :
    Encodes (Char.ofNat (16 * x + y) :: cs) ('%' :: a :: b :: text)

/-! ## The path of a request -/

/-- `find_last_of` -/
def findLastOf (c : Char) (s : List Char) : Option ℕ :=
  (s.reverse.idxOf? c).map (s.length - 1 - ·)

/-- The file extension of a path. -/
def extension (path : List Char) : List Char :=
  match findLastOf '.' path, findLastOf '/' path with
  | some dot, some slash => if slash < dot then path.drop (dot + 1) else []
  | _, _ => []

/-- `mappings` -/
def mappings : List (String × String) :=
  [("gif", "image/gif"), ("htm", "text/html"), ("html", "text/html"), ("jpg", "image/jpeg"),
    ("png", "image/png")]

/-- `mime_types::extension_to_type` -/
def extensionToType (extension : List Char) : List Char :=
  match mappings.find? fun m => m.1.toList = extension with
  | some m => m.2.toList
  | none => "text/plain".toList

/-- The path a request asks for, unless it is refused. -/
def requestPath (uri : List Char) : Option (List Char) :=
  match urlDecode uri with
  | none => none
  | some path =>
    if path.isEmpty || path.head? ≠ some '/' || ['.', '.'] <:+: path then none
    else some (if path.getLast? = some '/' then path ++ "index.html".toList else path)

/-- What a function that takes a `const char*` sees of a string. -/
def cStr (s : List Char) : List Char := s.takeWhile (· ≠ '\x00')

/-- The loop that reads a file in pieces of `512` characters. -/
def readAll (content : List Char) : List Char → List Char
  | [] => content
  | c :: file => readAll (content ++ (c :: file).take 512) ((c :: file).drop 512)
  termination_by file => file.length
  decreasing_by
    simp only [List.length_drop, List.length_cons]
    omega

/-- `request_handler::handle_request` -/
def handleRequest (files : List Char → Option (List Char)) (docRoot : List Char) (req : Request)
    (rep : Reply) : Reply :=
  match requestPath req.uri with
  | none => .stockReply .badRequest
  | some path =>
    match files (cStr (docRoot ++ path)) with
    | none => .stockReply .notFound
    | some file =>
      let content := readAll rep.content file
      ⟨.ok, Reply.contentHeaders content (extensionToType (extension path)), content⟩

/-! ## Decoding -/

theorem toChar_natCast {n : ℕ} (h : n < 256) : toChar n = Char.ofNat n := by
  have hmod : ((n : Int) % 256).toNat = n := by omega
  rw [toChar, hmod]

theorem urlDecode_cons {c : Char} (h : c ≠ '%' ∧ c ≠ '+') (text : List Char) :
    urlDecode (c :: text) = (urlDecode text).map (c :: ·) := by
  rw [urlDecode.eq_def]
  split
  · rename_i heq
    cases heq
  · rename_i heq
    cases heq
    exact absurd rfl h.1
  · rename_i heq
    cases heq
    exact absurd rfl h.1
  · rename_i heq
    cases heq
    exact absurd rfl h.2
  · rename_i heq
    cases heq
    rfl

theorem urlDecode_of_encodes {cs text : List Char} (h : Encodes cs text) :
    urlDecode text = some cs := by
  induction h with
  | nil => rfl
  | plain hne _ ih => rw [urlDecode_cons hne, ih, Option.map_some]
  | plus _ ih => rw [urlDecode, ih, Option.map_some]
  | percent ha hb _ ih =>
    have hx := Istream.hexValue_lt ha
    have hy := Istream.hexValue_lt hb
    simp only [urlDecode, Istream.integer_hex ha hb]
    rw [ih, Option.map_some, toChar_natCast (by omega)]

theorem readAll_eq (content file : List Char) : readAll content file = content ++ file := by
  induction content, file using readAll.induct with
  | case1 content => simp [readAll]
  | case2 content c file ih =>
    rw [readAll, ih, List.append_assoc, List.take_append_drop]

/-! ## What is read -/

/-- What makes a path acceptable. -/
def Absolute (path : List Char) : Prop := path.head? = some '/' ∧ ¬ ['.', '.'] <:+: path

/-- The path of the file for an acceptable path. -/
def withIndex (path : List Char) : List Char :=
  if path.getLast? = some '/' then path ++ "index.html".toList else path

theorem requestPath_eq_some_iff {uri path : List Char} :
    requestPath uri = some path ↔
      ∃ p, urlDecode uri = some p ∧ Absolute p ∧ path = withIndex p := by
  rw [requestPath]
  cases hdecode : urlDecode uri with
  | none => simp
  | some p =>
    simp only [Absolute, withIndex]
    constructor
    · intro h
      split at h
      · cases h
      · rename_i hok
        simp only [Bool.or_eq_true, decide_eq_true_eq, not_or, not_not] at hok
        exact ⟨p, rfl, ⟨hok.1.2, hok.2⟩, (Option.some.inj h).symm⟩
    · rintro ⟨p', hp', ⟨hhead, hdots⟩, rfl⟩
      cases hp'
      rw [if_neg]
      simp only [Bool.or_eq_true, decide_eq_true_eq, not_or, not_not]
      refine ⟨⟨?_, hhead⟩, hdots⟩
      rw [List.isEmpty_iff]
      rintro rfl
      cases hhead

theorem absolute_withIndex {path : List Char} (h : Absolute path) : Absolute (withIndex path) := by
  rw [withIndex]
  split
  · rename_i hlast
    refine ⟨?_, fun hdots => ?_⟩
    · rw [List.head?_append, h.1]
      rfl
    · rcases Path.pair_isInfix_append hdots with hpath | hindex | ⟨hdot, -⟩
      · exact h.2 hpath
      · exact absurd hindex (by decide)
      · rw [hlast] at hdot
        cases hdot
  · exact h

/-- The file that is opened for an acceptable path lies below `doc_root`. -/
theorem below_opened (cwd : List (List Char)) {docRoot path : List Char}
    (hroot : '\x00' ∉ docRoot) (h : Absolute path) :
    Path.Below cwd (docRoot ++ ['/']) (cStr (docRoot ++ path)) := by
  obtain ⟨rest, rfl⟩ : ∃ rest, path = '/' :: rest := by
    obtain ⟨hhead, -⟩ := h
    cases path with
    | nil => cases hhead
    | cons c rest =>
      cases hhead
      exact ⟨rest, rfl⟩
  have hplain : ∀ c ∈ docRoot, decide (c ≠ '\x00') = true := by
    intro c hc
    have : c ≠ '\x00' := by
      rintro rfl
      exact hroot hc
    simpa using this
  have hopened : cStr (docRoot ++ '/' :: rest) = docRoot ++ '/' :: cStr rest := by
    rw [cStr, List.takeWhile_append_of_pos hplain, List.takeWhile_cons_of_pos (by decide)]
    rfl
  rw [hopened]
  refine Path.below_append cwd fun hdots => h.2 ?_
  exact (hdots.trans (List.takeWhile_prefix _).isInfix).trans (List.suffix_cons '/' rest).isInfix

/-- **The handler does not leave `doc_root`.**  Wherever the server has been started, its reply
depends only on the files below. -/
theorem handleRequest_confined (cwd : List (List Char))
    {files files' : List Char → Option (List Char)} {docRoot : List Char}
    (hroot : '\x00' ∉ docRoot)
    (hfiles : ∀ p, Path.Below cwd (docRoot ++ ['/']) p → files p = files' p) (req : Request)
    (rep : Reply) :
    handleRequest files docRoot req rep = handleRequest files' docRoot req rep := by
  rw [handleRequest, handleRequest]
  cases hpath : requestPath req.uri with
  | none => rfl
  | some path =>
    simp only []
    obtain ⟨p, -, habsolute, rfl⟩ := requestPath_eq_some_iff.mp hpath
    rw [hfiles _ (below_opened cwd hroot (absolute_withIndex habsolute))]

/-- In `/srv`, with `.` as `doc_root`, the file `/etc/passwd` is of no consequence, by whatever
path it is opened and even if the dots are written as `%2e`. -/
theorem outside_unread :
    handleRequest (fun p =>
        if Path.resolve ["srv".toList] p = ["etc".toList, "passwd".toList] then
          some "root".toList
        else none)
        ".".toList ⟨"GET".toList, "/%2e%2e/etc/passwd".toList, 1, 0, []⟩ ⟨.ok, [], []⟩ =
      handleRequest (fun _ => none) ".".toList
        ⟨"GET".toList, "/%2e%2e/etc/passwd".toList, 1, 0, []⟩ ⟨.ok, [], []⟩ := by
  refine handleRequest_confined ["srv".toList] (by decide) (fun p hp => ?_) _ _
  refine if_neg fun hpasswd => ?_
  rw [Path.Below, hpasswd] at hp
  exact absurd hp (by decide)

end Sundries.Http
