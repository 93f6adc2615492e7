import MessageKeys.Json.Reader
import MessageKeys.Json.Record
import MessageKeys.Json.Resolved
import MessageKeys.Localization.Service
import MessageKeys.Text.Bytes

/-!
# The service on the web

The service is asked by a request whose query holds the text and the language. It replies with
`[[["translated", …], …], …]`: the first item lists the segments of the text, and each segment
begins with its translated text. Segments that begin with something else are passed over, but a
reply in which nothing is translated is not accepted.
-/
namespace MessageKeys.Localization.Web

/-- A digit of base sixteen. -/
def hexDigit (n : Nat) : Char :=
  (Nat.digitChar (n % 16)).toUpper

/-- Letters, digits and four marks stand for themselves, a plus for a blank, and a percent sign
with two digits for every other byte. -/
def encodeByte (byte : UInt8) : Text :=
  let c := Char.ofNat byte.toNat
  if c.isAlphanum || c == '*' || c == '-' || c == '.' || c == '_' then [c]
  else if c = ' ' then ['+']
  else ['%', hexDigit (byte.toNat / 16), hexDigit byte.toNat]

def encode (text : Text) : Text :=
  text.toBytes.toList.flatMap encodeByte

/-- The query that asks for a text in a language; the service finds out the text's own. -/
def query (text language : Text) : Text :=
  "client=gtx&sl=auto&tl=".toList ++ encode language ++ "&dt=t&q=".toList ++ encode text

/-- What is requested of the server. -/
def target (endpoint text language : Text) : Text :=
  endpoint ++ '?' :: query text language

/-- Why a reply cannot be used: its beginning is shown. -/
def malformed (body : Json) : ServiceFault :=
  .malformed (body.toLine.take 120)

/-- The translated text in the body of a reply. -/
def translated (body : Json) : Reply :=
  match body.first? >>= Json.items? with
  | none => .error (malformed body)
  | some segments =>
    let text := (segments.filterMap fun segment => segment.first? >>= Json.text?).flatten
    if text.isEmpty then .error (malformed body) else .ok text

/-- No body may nest its brackets deeper. -/
def deepestBody : Nat := 127

def body? (bytes : ByteArray) : Option Json :=
  Text.ofBytes? bytes >>= Json.parse? >>= Json.resolved? deepestBody

/-- What a server sends back. -/
structure Response where
  status : Nat
  body : ByteArray

/-- A response that tells of a success has to be JSON to the end. -/
def Response.reply (response : Response) : Reply :=
  if response.status < 200 || 299 < response.status then .error (.status response.status)
  else match body? response.body with
    | some body => translated body
    | none => .error .network

/-- What comes back to a request, given the number of requests made before; nothing does where no
server is reached. -/
abbrev Exchange := Nat → Text → Option Response

/-- The machine has no network. -/
def unreachable : Exchange := fun _ _ => none

def service (endpoint : Text) (exchange : Exchange) : Service := fun earlier text language =>
  match exchange earlier (target endpoint text language) with
  | some response => response.reply
  | none => .error .network

end MessageKeys.Localization.Web
