import FreshPlayer.CText
import Mathlib.Data.List.GetD
import Mathlib.Algebra.Order.Ring.Nat

/-! Header blocks, as `hp_parse_headers` reads them and `NPP_NewStream` writes them. A place of
an array or a buffer that nothing was written to has `none`. -/
namespace FreshPlayer
namespace HeaderParser

open CText

def delimiter : Text := bytes "\r\n"
def newline : Text := bytes "\n"
def colon : UInt8 := ':'.toUInt8

/-- A C string ends with its first zero. -/
structure CString where
  text : Text
  free : 0 ∉ text

structure ParsedHeaders where
  cnt : ℕ
  name : List (Option Text)
  value : List (Option Text)
  statusLine : Option Text
  httpCode : ℕ
  deriving DecidableEq, Repr

/-- The third number of the format, if there are three. -/
def scanStatus (part : Text) : Option ℤ :=
  (scanText (bytes "HTTP/") part).bind fun s =>
  (scanInt 6 s).bind fun (_,s) =>
  (scanText (bytes ".") s).bind fun s =>
  (scanInt 6 s).bind fun (_,s) =>
  (scanInt 6 (s.dropWhile isSpace)).map Prod.fst

/-- The code is stored without its sign. -/
def httpCode (part : Option Text) : ℕ :=
  match part.bind scanStatus with
  | none => 200
  | some code => (code % 2^32).toNat

example : scanStatus (bytes "HTTP/1.0 301 Moved") = some 301 := by decide

/-- The first loop. -/
def countHeaders (cnt : ℕ) (saveptr : Text) : ℕ :=
  match _h : strtokR delimiter saveptr with
  | none => cnt
  | some (_,saveptr) => countHeaders ((cnt+1) % 2^32) saveptr
termination_by saveptr.length
decreasing_by exact strtokR_length _h

def headerName (part : Text) : Text := part.takeWhile (· ≠ colon)

def headerValue (part : Text) : Text :=
  match part.dropWhile (· ≠ colon) with
  | [] => []
  | _::valueStart => valueStart.dropWhile isSpace

/-- The second loop. -/
def saveHeaders (cnt k : ℕ) (saveptr : Text) (name value : List (Option Text)) :
    List (Option Text) × List (Option Text) :=
  match _h : strtokR delimiter saveptr with
  | none => (name,value)
  | some (part,saveptr) =>
    if k < cnt then
      saveHeaders cnt (k+1) saveptr (name.set k (some (headerName part)))
        (value.set k (some (headerValue part)))
    else (name,value)
termination_by saveptr.length
decreasing_by exact strtokR_length _h

/-- What is left behind the first part; without one there is nothing left. -/
def behindStatus (headers : Text) : Text :=
  match strtokR delimiter headers with
  | none => []
  | some (_,saveptr) => saveptr

/-- There may be no headers. -/
def hpParseHeaders : Option Text → ParsedHeaders
  | none => ⟨0,[],[],none,0⟩
  | some headers =>
    let part := (strtokR delimiter headers).map Prod.fst
    let cnt := countHeaders 0 (behindStatus headers)
    let saved := saveHeaders cnt 0 (behindStatus headers) (List.replicate cnt none)
      (List.replicate cnt none)
    ⟨cnt,saved.1,saved.2,part,httpCode part⟩

abbrev Buffer := List (Option UInt8)

/-- Copying beyond the buffer has no outcome. -/
def memcpy (b : Buffer) (ptr : ℕ) (s : Text) : Option Buffer :=
  if ptr+s.length ≤ b.length then some (b.take ptr ++ s.map some ++ b.drop (ptr+s.length)) else none

/-- The text up to the first zero, which has to be there. -/
def readString : Buffer → Option Text
  | [] => none
  | none::_ => none
  | some c::b => if c = 0 then some [] else (readString b).map (c::·)

/-- An entry of an array; one never written has none to read. -/
def entry (xs : List (Option Text)) (k : ℕ) : Option Text := xs[k]?.join

/-- The loop over the headers from the `k`th. -/
def headersLen (ph : ParsedHeaders) : ℕ → ℕ → Option ℕ
  | 0, _ => some 0
  | n+1, k =>
    (entry ph.name k).bind fun name =>
    (entry ph.value k).bind fun value =>
    (headersLen ph n (k+1)).map fun rest =>
      name.length + (bytes ": ").length + value.length + newline.length + rest

/-- Copying, which moves the pointer on. -/
def append (s : Text) (b : Buffer × ℕ) : Option (Buffer × ℕ) :=
  (memcpy b.1 b.2 s).map fun buffer => (buffer,b.2+s.length)

def copyHeaders (ph : ParsedHeaders) : ℕ → ℕ → Buffer × ℕ → Option (Buffer × ℕ)
  | 0, _, b => some b
  | n+1, k, b =>
    (entry ph.name k).bind fun name =>
    (entry ph.value k).bind fun value =>
    (if k ≠ 0 then append newline b else some b).bind fun b =>
    (append name b).bind fun b =>
    (append (bytes ": ") b).bind fun b =>
    (append value b).bind fun b =>
    copyHeaders ph n (k+1) b

/-- What `NPP_NewStream` makes of the headers. -/
def reconstructHeaders (ph : ParsedHeaders) : Option Buffer :=
  (headersLen ph ph.cnt 0).bind fun len =>
  (copyHeaders ph ph.cnt 0 (List.replicate (len+1) none,0)).bind fun b => memcpy b.1 b.2 [0]

end HeaderParser
end FreshPlayer
