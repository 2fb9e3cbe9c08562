import Sundries.HttpRequest

/-!
# Replies

A `reply` of the HTTP servers, the stock replies, and the bytes that are sent for one.
-/
namespace Sundries.Http

inductive StatusType where
  | ok | created | accepted | noContent | multipleChoices | movedPermanently | movedTemporarily
  | notModified | badRequest | unauthorized | forbidden | notFound | internalServerError
  | notImplemented | badGateway | serviceUnavailable
  deriving DecidableEq

namespace StatusType

/-- The values of the enumeration. -/
def code : StatusType → ℕ
  | ok => 200
  | created => 201
  | accepted => 202
  | noContent => 204
  | multipleChoices => 300
  | movedPermanently => 301
  | movedTemporarily => 302
  | notModified => 304
  | badRequest => 400
  | unauthorized => 401
  | forbidden => 403
  | notFound => 404
  | internalServerError => 500
  | notImplemented => 501
  | badGateway => 502
  | serviceUnavailable => 503

/-- The text behind the code in `status_strings`. -/
def phrase : StatusType → String
  | ok => "OK"
  | created => "Created"
  | accepted => "Accepted"
  | noContent => "No Content"
  | multipleChoices => "Multiple Choices"
  | movedPermanently => "Moved Permanently"
  | movedTemporarily => "Moved Temporarily"
  | notModified => "Not Modified"
  | badRequest => "Bad Request"
  | unauthorized => "Unauthorized"
  | forbidden => "Forbidden"
  | notFound => "Not Found"
  | internalServerError => "Internal Server Error"
  | notImplemented => "Not Implemented"
  | badGateway => "Bad Gateway"
  | serviceUnavailable => "Service Unavailable"

/-- `status_strings::to_buffer` -/
def toBuffer (s : StatusType) : List Char :=
  "HTTP/1.0 ".toList ++ Nat.toDigits 10 s.code ++ ' ' :: s.phrase.toList ++ ['\r', '\n']

theorem toBuffer_eq (s : StatusType) :
    s.toBuffer = "HTTP/1.0 ".toList ++ Nat.toDigits 10 s.code ++ ' ' :: s.phrase.toList ++
      ['\r', '\n'] := rfl

/-- A page of `stock_replies`. -/
def page (title heading : String) : List Char :=
  "<html><head><title>".toList ++ title.toList ++ "</title></head><body><h1>".toList ++
    heading.toList ++ "</h1></body></html>".toList

/-- `stock_replies::to_string` -/
def toString : StatusType → List Char
  | ok => []
  | created => page "Created" "201 Created"
  | accepted => page "Accepted" "202 Accepted"
  | noContent => page "No Content" "204 Content"
  | multipleChoices => page "Multiple Choices" "300 Multiple Choices"
  | movedPermanently => page "Moved Permanently" "301 Moved Permanently"
  | movedTemporarily => page "Moved Temporarily" "302 Moved Temporarily"
  | notModified => page "Not Modified" "304 Not Modified"
  | badRequest => page "Bad Request" "400 Bad Request"
  | unauthorized => page "Unauthorized" "401 Unauthorized"
  | forbidden => page "Forbidden" "403 Forbidden"
  | notFound => page "Not Found" "404 Not Found"
  | internalServerError => page "Internal Server Error" "500 Internal Server Error"
  | notImplemented => page "Not Implemented" "501 Not Implemented"
  | badGateway => page "Bad Gateway" "502 Bad Gateway"
  | serviceUnavailable => page "Service Unavailable" "503 Service Unavailable"

end StatusType

/-- A `reply`. -/
structure Reply where
  status : StatusType
  headers : List Header
  content : List Char
  deriving DecidableEq

namespace Reply

/-- The two headers that every reply here has. -/
def contentHeaders (content : List Char) (type : List Char) : List Header :=
  [⟨"Content-Length".toList, Nat.toDigits 10 content.length⟩, ⟨"Content-Type".toList, type⟩]

/-- `reply::stock_reply` -/
def stockReply (status : StatusType) : Reply where
  status := status
  headers := contentHeaders status.toString "text/html".toList
  content := status.toString

/-- The buffers for a header. -/
def headerBuffers (h : Header) : List (List Char) := [h.name, [':', ' '], h.value, ['\r', '\n']]

/-- `reply::to_buffers` -/
def toBuffers (r : Reply) : List (List Char) :=
  r.status.toBuffer :: r.headers.flatMap headerBuffers ++ [['\r', '\n'], r.content]

/-- What is sent: the buffers one after the other. -/
def bytes (r : Reply) : List Char := r.toBuffers.flatten

/-- A header's line, without its line feed. -/
def headerLine (h : Header) : List Char := h.name ++ ':' :: ' ' :: h.value ++ ['\r']

theorem bytes_eq (r : Reply) :
    r.bytes = r.status.toBuffer ++ (r.headers.flatMap fun h => headerLine h ++ ['\n']) ++
      '\r' :: '\n' :: r.content := by
  have hheaders : ∀ hs : List Header, (hs.flatMap headerBuffers).flatten =
      hs.flatMap fun h => headerLine h ++ ['\n'] := by
    intro hs
    induction hs with
    | nil => rfl
    | cons h hs ih => simp [headerBuffers, headerLine, ih]
  simp [bytes, toBuffers, hheaders]

end Reply

end Sundries.Http
