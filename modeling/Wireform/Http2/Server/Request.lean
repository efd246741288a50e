/-
  Checks on what a client sends (`Network.HTTP2.Server`): padding and priority
  prefixes of a frame, and the header list of a request.
-/
import Wireform.MachineInt
import Wireform.Http2.Settings
import Wireform.Http2.Hpack.Table

namespace Wireform.Http2.Server

open Hpack

/-- A stream identifier. -/
abbrev StreamId := Nat

/-! ## Frame flags -/

abbrev FrameFlags := UInt8

def flagEndStream : FrameFlags := 0x1
def flagPadded : FrameFlags := 0x8
def flagPriority : FrameFlags := 0x20

def testFlag (flags flag : FrameFlags) : Bool := flags &&& flag ≠ 0

/-! ## Padding and priority -/

def stripPadding (flags : FrameFlags) (bs : ByteString) : Option ByteString :=
  if testFlag flags flagPadded then
    match bs with
    | [] => none
    | b :: rest =>
      let padLen := b.toNat
      if padLen + 1 > bs.length then none else some (rest.take (bs.length - padLen - 1))
  else some bs

attribute [grind =] stripPadding

def stripPriority (bs : ByteString) : Option ByteString :=
  if bs.length ≥ 5 then some (bs.drop 5) else none

/-- The payload of a HEADERS or a DATA frame; only HEADERS carries a priority. -/
def stripPaddingAndPriority (isHeaders : Bool) (flags : FrameFlags) (bs : ByteString) :
    Option ByteString :=
  match stripPadding flags bs with
  | none => none
  | some bs1 => if isHeaders && testFlag flags flagPriority then stripPriority bs1 else some bs1

attribute [grind =] stripPaddingAndPriority

/-- The HEADERS frame names its own stream as its dependency. -/
def headersSelfDependency (sid : StreamId) (flags : FrameFlags) (body0 : ByteString) : Bool :=
  if testFlag flags flagPriority then
    let body := if testFlag flags flagPadded then body0.drop 1 else body0
    match body with
    | b0 :: b1 :: b2 :: b3 :: _ :: _ =>
      ((b0.toNat * 2 ^ 24 + b1.toNat * 2 ^ 16 + b2.toNat * 2 ^ 8 + b3.toNat) % 2 ^ 31) = sid
    | _ => false
  else false

/-! ## Header lists -/

def headerListSize (hs : List Header) : Nat :=
  hs.foldr (fun h acc => acc + 32 + h.1.length + h.2.length) 0

def overHeaderListLimit (s : Settings) (hs : List Header) : Bool :=
  match s.settingsMaxHeaderListSize with
  | none => false
  | some lim => headerListSize hs > lim.toNat

/-- One digit of a `content-length`. -/
def contentLengthStep : Option Int → UInt8 → Option Int
  | some acc, c => if 0x30 ≤ c ∧ c ≤ 0x39 then some (wrap (acc * 10 + (c - 0x30).toNat)) else none
  | none, _ => none

def lookupContentLength : List Header → Option Int
  | [] => none
  | (n, v) :: rest =>
    if n = bytes "content-length" then
      match v.foldl contentLengthStep (some 0) with
      | some k => some k
      | none => lookupContentLength rest
    else lookupContentLength rest

/-- The name of a pseudo-header. -/
def isPseudo (name : ByteString) : Bool := name.head? = some 0x3A

def allowedPseudos : List ByteString :=
  [":method", ":scheme", ":path", ":authority"].map bytes

def hasUppercase (name : ByteString) : Bool := name.any fun c => 0x41 ≤ c && c ≤ 0x5A

def isConnectionSpecific (name : ByteString) : Bool :=
  (["connection", "transfer-encoding", "keep-alive", "upgrade", "proxy-connection"].map bytes).contains name

/-- The walk over the header list; the flag tells that no regular header was seen
    yet. -/
def walkHeaders : Bool → List Header → Option String
  | _, [] => none
  | seenRegular, (name, val) :: rest =>
    if name = [] then some "empty header name"
    else if isPseudo name then
      if ¬ seenRegular then some "pseudo-header after regular header"
      else if allowedPseudos.contains name then walkHeaders true rest
      else some "unknown pseudo-header"
    else if hasUppercase name then some "uppercase header name"
    else if isConnectionSpecific name then some "connection-specific header"
    else if name = bytes "te" ∧ val ≠ bytes "trailers" then
      some "TE header field with value other than \"trailers\""
    else walkHeaders false rest

def countPseudo (hs : List Header) (p : String) : Nat := hs.countP fun h => h.1 = bytes p

/-- The first rule for requests that a header list breaks. -/
def validateRequestHeaders (hs : List Header) : Option String :=
  match walkHeaders true hs with
  | some err => some err
  | none =>
    if countPseudo hs ":method" = 0 then some "missing :method"
    else if countPseudo hs ":method" > 1 then some "duplicated :method"
    else if countPseudo hs ":scheme" = 0 then some "missing :scheme"
    else if countPseudo hs ":scheme" > 1 then some "duplicated :scheme"
    else if countPseudo hs ":path" = 0 then some "missing :path"
    else if countPseudo hs ":path" > 1 then some "duplicated :path"
    else if countPseudo hs ":authority" > 1 then some "duplicated :authority"
    else if hs.any fun h => h.1 = bytes ":path" && h.2 = [] then some "empty :path"
    else none

end Wireform.Http2.Server
