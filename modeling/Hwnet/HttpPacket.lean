import Mathlib.Data.List.Basic
import Mathlib.Data.Int.Notation
import Hwnet.Numerals

set_option autoImplicit false

/-!
# HTTP packets

Strings are lists of bytes, and the headers a map ordered as `std::map` orders strings: by unsigned
bytes, a prefix before what it is a prefix of.
-/
namespace Hwnet.Http

open Numerals (decimal)

abbrev Bytes := List UInt8
abbrev Callback := ℕ
abbrev Headers := Std.ExtTreeMap Bytes Bytes compare

def ascii (s : String) : Bytes := s.toList.map fun c => c.toNat.toUInt8

def SP : UInt8 := 0x20
def CR : UInt8 := 0x0d
def LF : UInt8 := 0x0a
def colon : UInt8 := 0x3a

def methodStrings : List Bytes :=
  ["DELETE", "GET", "HEAD", "POST", "PUT", "CONNECT", "OPTIONS", "TRACE", "COPY", "LOCK", "MKCOL",
    "MOVE", "PROPFIND", "PROPPATCH", "SEARCH", "UNLOCK", "REPORT", "MKACTIVITY", "CHECKOUT",
    "MERGE", "M-SEARCH", "NOTIFY", "SUBSCRIBE", "UNSUBSCRIBE", "PATCH", "PURGE",
    "MKCALENDAR"].map ascii

/-- `field` and `value` are the header that is being received. -/
structure HttpPacket where
  method : UInt32
  statusCode : UInt32
  httpMajor : UInt16
  httpMinor : UInt16
  url : Bytes
  status : Bytes
  headers : Headers
  field : Bytes
  value : Bytes
  onBody : Option Callback

namespace HttpPacket

def request : ℤ := 1
def response : ℤ := 2

/-- The constructor sets neither `method` nor `statusCode`. -/
def new (method statusCode : UInt32) : HttpPacket where
  method
  statusCode
  httpMajor := 1
  httpMinor := 1
  url := []
  status := []
  headers := ∅
  field := []
  value := []
  onBody := none

def version (k : HttpPacket) : Bytes :=
  ascii "HTTP/" ++ (decimal k.httpMajor.toNat ++ ascii "." ++ decimal k.httpMinor.toNat)

def headerLine (h : Bytes × Bytes) : Bytes := h.1 ++ [colon] ++ h.2 ++ [CR, LF]

/-- `MakeHeader`; a method past the end of the table is read from beyond it. -/
def makeHeader (k : HttpPacket) (type : ℤ) (out : Bytes) : Option Bytes := do
  let out ←
    if type = request then do
      let method ← methodStrings[k.method.toNat]?
      some (out ++ method ++ [SP] ++ k.url ++ [SP] ++ k.version ++ [CR, LF])
    else
      some (out ++ k.version ++ [SP] ++ decimal k.statusCode.toNat ++ [SP] ++ k.status ++ [CR, LF])
  return k.headers.toList.foldl (fun out h => out ++ headerLine h) out ++ [CR, LF]

/-! ## What the callbacks of a session do to it -/

def flush (k : HttpPacket) : HttpPacket :=
  if k.field.isEmpty then k
  else { k with headers := k.headers.insert k.field k.value, field := [], value := [] }

def onUrl (k : HttpPacket) (at_ : Bytes) : HttpPacket := { k with url := k.url ++ at_ }

def onStatus (k : HttpPacket) (at_ : Bytes) (statusCode : UInt32) : HttpPacket :=
  { k with status := k.status ++ at_, statusCode }

def onHeaderField (k : HttpPacket) (at_ : Bytes) : HttpPacket :=
  let k := k.flush
  { k with field := k.field ++ at_ }

def onHeaderValue (k : HttpPacket) (at_ : Bytes) : HttpPacket := { k with value := k.value ++ at_ }

def onHeadersComplete (k : HttpPacket) (httpMajor httpMinor : UInt16) : HttpPacket :=
  { k.flush with httpMajor, httpMinor }

end HttpPacket

end Hwnet.Http
