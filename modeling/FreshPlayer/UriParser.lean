import FreshPlayer.UriGrammar
import Mathlib.Algebra.Order.Ring.Int
import Mathlib.Data.List.DropRight

/-! The URI parser and the merging of URIs. Texts are C strings without their NUL, and
pointers into them are offsets. -/
namespace FreshPlayer
namespace UriParser

structure UrlComponent where
  begin : ℤ
  len : ℤ
  deriving DecidableEq, Repr

structure UrlComponents where
  scheme : UrlComponent
  username : UrlComponent
  password : UrlComponent
  host : UrlComponent
  port : UrlComponent
  path : UrlComponent
  query : UrlComponent
  ref : UrlComponent
  deriving DecidableEq, Repr

/-- Pointers into the text, `none` for `NULL`. -/
structure Mark where
  scheme : Option ℕ
  username : Option ℕ
  password : Option ℕ
  host : Option ℕ
  port : Option ℕ
  path : Option ℕ
  query : Option ℕ
  fragment : Option ℕ
  deriving DecidableEq, Repr

structure Vars where
  mark : Mark
  endUsername : Option ℕ
  endPassword : Option ℕ
  components : UrlComponents
  deriving DecidableEq, Repr

/-- The component as its two fields of type `int32_t` keep it. -/
def UrlComponent.stored (c : UrlComponent) : UrlComponent := ⟨c.begin.bmod (2^32),c.len.bmod (2^32)⟩

def UrlComponents.stored (c : UrlComponents) : UrlComponents :=
  ⟨c.scheme.stored,c.username.stored,c.password.stored,c.host.stored,c.port.stored,c.path.stored,
    c.query.stored,c.ref.stored⟩

def resetUrlComponent : UrlComponent := ⟨0,-1⟩

def resetUrlComponents : UrlComponents :=
  ⟨resetUrlComponent,resetUrlComponent,resetUrlComponent,resetUrlComponent,resetUrlComponent,
    resetUrlComponent,resetUrlComponent,resetUrlComponent⟩

/-- The component between two pointers; the machine sets both before it gets here. -/
def setUrlComponent (c : UrlComponent) (b e : Option ℕ) : UrlComponent :=
  match b, e with
  | some b, some e => ⟨b,e-b⟩
  | _, _ => c

/-- The embedded actions, at the character pointed to by `p`. -/
def act (a : UriAction) (p : ℕ) (v : Vars) : Vars :=
  let c := v.components
  match a with
  | .markScheme => { v with mark.scheme := some p }
  | .finScheme => { v with components.scheme := setUrlComponent c.scheme v.mark.scheme p }
  | .markUsername => { v with mark.username := some p, endUsername := some p }
  | .finUsername => { v with endUsername := some p }
  | .markPassword => { v with mark.password := some p, endPassword := some p }
  | .finPassword => { v with endPassword := some p }
  | .finUserpass =>
    let v := if v.mark.username.isSome then { v with
      components.username := setUrlComponent c.username v.mark.username v.endUsername } else v
    if v.mark.password.isSome then { v with
      components.password := setUrlComponent c.password v.mark.password v.endPassword } else v
  | .markHost => { v with mark.host := some p }
  | .finHost => { v with components.host := setUrlComponent c.host v.mark.host p }
  | .markPort => { v with mark.port := some p }
  | .finPort => { v with components.port := setUrlComponent c.port v.mark.port p }
  | .markPath => { v with mark.path := some p }
  | .finPath => { v with components.path := setUrlComponent c.path v.mark.path p }
  | .markQuery => { v with mark.query := some p }
  | .finQuery => { v with components.query := setUrlComponent c.query v.mark.query p }
  | .markFragment => { v with mark.fragment := some p }
  | .finFragment => { v with components.ref := setUrlComponent c.ref v.mark.fragment p }

def Vars.init : Vars := ⟨⟨none,none,none,none,none,none,none,none⟩,none,none,resetUrlComponents⟩

/-- The components, which the machine never reads back, before their fields take them
(`UrlComponents.stored`). -/
def uriParserParseUri (s : Text) : UrlComponents :=
  (Ragel.exec mainRule CharClass.mem act s Vars.init).components

def urlcomponentIsEmpty (c : UrlComponent) : Bool := c.begin = 0 && c.len = -1

def urlcomponentIsNotEmpty (c : UrlComponent) : Bool := !urlcomponentIsEmpty c

def authorityIsNotEmpty (c : UrlComponents) : Bool :=
  urlcomponentIsNotEmpty c.username || urlcomponentIsNotEmpty c.password ||
    urlcomponentIsNotEmpty c.host || urlcomponentIsNotEmpty c.port

def extractComponent (s : Text) (c : UrlComponent) : Text :=
  (s.drop c.begin.toNat).take (if 0 ≤ c.len then c.len.toNat else 0)

def extractAuthority (s : Text) (c : UrlComponents) : Text :=
  let begin := 0
  let begin := if 0 ≤ c.port.len then c.port.begin else begin
  let begin := if 0 ≤ c.host.len then c.host.begin else begin
  let begin := if 0 ≤ c.password.len then c.password.begin else begin
  let begin := if 0 ≤ c.username.len then c.username.begin else begin
  let fin := -1
  let fin := if 0 ≤ c.username.len then c.username.begin+c.username.len else fin
  let fin := if 0 ≤ c.password.len then c.password.begin+c.password.len else fin
  let fin := if 0 ≤ c.host.len then c.host.begin+c.host.len else fin
  let fin := if 0 ≤ c.port.len then c.port.begin+c.port.len else fin
  extractComponent s ⟨begin,fin-begin⟩

/-- A text up to its last slash. -/
def uptoLastSlash (s : Text) : Text := s.rdropWhile (· ≠ slash)

def mergePath (baseUri : Text) (baseC : UrlComponents) (relUri : Text) (relC : UrlComponents) :
    Text :=
  let relPath := extractComponent relUri relC.path
  if 0 < baseC.host.len ∧ baseC.path.len ≤ 0 then slash::relPath
  else uptoLastSlash (extractComponent baseUri baseC.path) ++ relPath

/-- The destination buffer, last character first, with the state of the loop. -/
structure DotState where
  dst : Text
  dotCnt : ℕ
  afterSlash : Bool
  deriving DecidableEq, Repr

/-- Back before the last slash. -/
def dropSegment (dst : Text) : Text := (dst.dropWhile (· ≠ slash)).drop 1

def dropSegments (s : DotState) : Text :=
  if s.dotCnt = 1 ∨ s.dotCnt = 2 then dropSegment^[s.dotCnt] s.dst else s.dst

def dotStep (s : DotState) (c : UInt8) : DotState :=
  if c = slash then ⟨slash::dropSegments s,0,true⟩
  else if c = dot then ⟨dot::s.dst,if s.afterSlash then s.dotCnt+1 else s.dotCnt,s.afterSlash⟩
  else ⟨c::s.dst,0,false⟩

def removeDotSegments (path : Text) : Text :=
  let s := path.foldl dotStep ⟨[],0,true⟩
  let dst := if s.afterSlash ∧ (s.dotCnt = 1 ∨ s.dotCnt = 2) then slash::dropSegments s else s.dst
  dst.reverse

/-- What `uri_parser_merge_uris` prints. -/
structure Merged where
  scheme : Text
  schemeIsFile : Bool
  authority : Text
  path : Text
  query : Text
  fragment : Text
  deriving DecidableEq, Repr

def Merged.print (m : Merged) : Text :=
  m.scheme ++ (if m.scheme ≠ [] then [colon] else []) ++
    (if m.authority ≠ [] ∨ m.schemeIsFile then [slash,slash] else []) ++ m.authority ++ m.path ++
    (if m.query ≠ [] then [quest] else []) ++ m.query ++
    (if m.fragment ≠ [] then [sharp] else []) ++ m.fragment

def mergeRelative (baseUri : Text) (baseC : UrlComponents) (relUri : Text) (relC : UrlComponents)
    (schemeIsFile : Bool) : Merged :=
  let fragment := extractComponent relUri relC.ref
  if urlcomponentIsNotEmpty relC.scheme then
    ⟨extractComponent relUri relC.scheme,schemeIsFile,extractAuthority relUri relC,
      removeDotSegments (extractComponent relUri relC.path),extractComponent relUri relC.query,
      fragment⟩
  else
    let scheme := extractComponent baseUri baseC.scheme
    if authorityIsNotEmpty relC then
      ⟨scheme,schemeIsFile,extractAuthority relUri relC,
        removeDotSegments (extractComponent relUri relC.path),extractComponent relUri relC.query,
        fragment⟩
    else
      let authority := extractAuthority baseUri baseC
      if relC.path.len ≤ 0 then
        ⟨scheme,schemeIsFile,authority,extractComponent baseUri baseC.path,
          if urlcomponentIsNotEmpty relC.query then extractComponent relUri relC.query
          else extractComponent baseUri baseC.query,fragment⟩
      else
        let path := if relUri[relC.path.begin.toNat]? = some slash
          then extractComponent relUri relC.path else mergePath baseUri baseC relUri relC
        ⟨scheme,schemeIsFile,authority,removeDotSegments path,extractComponent relUri relC.query,
          fragment⟩

def uriParserMergeUris (baseUri relUri : Text) : Text :=
  let baseC := (uriParserParseUri baseUri).stored
  let schemeIsFile := 0 < baseC.scheme.len &&
    (baseUri.drop baseC.scheme.begin.toNat).take 4 = bytes "file" && baseC.scheme.len = 4
  let relUri := if schemeIsFile then relUri.dropWhile (· = slash) else relUri
  (mergeRelative baseUri baseC relUri (uriParserParseUri relUri).stored schemeIsFile).print

end UriParser
end FreshPlayer
