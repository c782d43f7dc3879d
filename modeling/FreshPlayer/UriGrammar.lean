import FreshPlayer.Ragel

/-! The grammar of URIs with its embedded actions, and the table of its machine. -/
namespace FreshPlayer
namespace UriParser

open Ragel Ragel.Expr

abbrev Text := List UInt8

def bytes (s : String) : Text := s.toList.map Char.toUInt8

def colon : UInt8 := ':'.toUInt8
def slash : UInt8 := '/'.toUInt8
def quest : UInt8 := '?'.toUInt8
def sharp : UInt8 := '#'.toUInt8
def atSign : UInt8 := '@'.toUInt8
def dot : UInt8 := '.'.toUInt8

def isDigit (c : UInt8) : Bool := '0'.toUInt8 ≤ c && c ≤ '9'.toUInt8

/-- The characters that the grammar tells apart. -/
inductive Kind
  | colon | slash | quest | sharp | atSign | digit | other
  deriving DecidableEq, Repr

def kind (c : UInt8) : Kind :=
  if c = colon then .colon else if c = slash then .slash else if c = quest then .quest
  else if c = sharp then .sharp else if c = atSign then .atSign
  else if isDigit c then .digit else .other

inductive CharClass
  | scheme | username | password | host | digit | path | query | any
  | colon | slash | quest | sharp | atSign
  deriving DecidableEq, Repr

def CharClass.memKind : CharClass → Kind → Bool
  | .scheme, k => k ∉ [Kind.colon,.slash,.quest,.sharp]
  | .username, k | .host, k => k ∉ [Kind.slash,.quest,.sharp,.atSign,.colon]
  | .password, k => k ∉ [Kind.slash,.quest,.sharp,.atSign]
  | .digit, k => k = .digit
  | .path, k => k ∉ [Kind.quest,.sharp]
  | .query, k => k ≠ .sharp
  | .any, _ => true
  | .colon, k => k = .colon
  | .slash, k => k = .slash
  | .quest, k => k = .quest
  | .sharp, k => k = .sharp
  | .atSign, k => k = .atSign

def CharClass.mem (cl : CharClass) (c : UInt8) : Bool := cl.memKind (kind c)

inductive UriAction
  | markScheme | finScheme | markUsername | finUsername | markPassword | finPassword | finUserpass
  | markHost | finHost | markPort | finPort | markPath | finPath | markQuery | finQuery
  | markFragment | finFragment
  deriving DecidableEq, Repr

abbrev Rule := Expr CharClass UriAction

/-- A rule between its two actions. -/
def marked (mark fin : UriAction) (r : Rule) : Rule := leaving fin (entering mark r)

def scheme : Rule := marked .markScheme .finScheme (plus (cls .scheme))
def username : Rule := marked .markUsername .finUsername (plus (cls .username))
def password : Rule := marked .markPassword .finPassword (plus (cls .password))
def host : Rule := marked .markHost .finHost (plus (cls .host))
def port : Rule := marked .markPort .finPort (plus (cls .digit))
def path : Rule := marked .markPath .finPath (star (cls .path))
def query : Rule := marked .markQuery .finQuery (star (cls .query))
def fragment : Rule := marked .markFragment .finFragment (star (cls .any))

def schemeC : Rule := seq scheme (cls .colon)

def userpass : Rule :=
  leaving .finUserpass (seq (seq username (opt (seq (cls .colon) password))) (cls .atSign))

def authority : Rule := seq (seq (opt userpass) host) (opt (seq (cls .colon) port))

def slashslashAuthority : Rule := seq (seq (cls .slash) (cls .slash)) (opt authority)

def qmQuery : Rule := seq (cls .quest) query

def sharpFragment : Rule := seq (cls .sharp) fragment

def mainRule : Rule :=
  seq (seq (seq (seq (opt schemeC) (opt slashslashAuthority)) path) (opt qmQuery)) (opt sharpFragment)

/-- The states of the machine, by the alternatives they keep. -/
inductive Phase
  | start | path | slash | queryStart | fragmentStart | schemeOrPath | slashes | query | fragment
  | schemeEnd | userOrHost | userColon | userEnd | passwordOrPort | password | host | hostColon
  | port
  deriving DecidableEq, Repr

/-- Characters that lead to the phase. -/
def Phase.sample : Phase → List Kind
  | .start => []
  | .path => [.colon]
  | .slash => [.slash]
  | .queryStart => [.quest]
  | .fragmentStart => [.sharp]
  | .schemeOrPath => [.other]
  | .slashes => [.slash,.slash]
  | .query => [.quest,.other]
  | .fragment => [.sharp,.other]
  | .schemeEnd => [.other,.colon]
  | .userOrHost => [.slash,.slash,.other]
  | .userColon => [.slash,.slash,.other,.colon]
  | .userEnd => [.slash,.slash,.other,.atSign]
  | .passwordOrPort => [.slash,.slash,.other,.colon,.digit]
  | .password => [.slash,.slash,.other,.colon,.other]
  | .host => [.slash,.slash,.other,.atSign,.other]
  | .hostColon => [.slash,.slash,.other,.atSign,.other,.colon]
  | .port => [.slash,.slash,.other,.atSign,.other,.colon,.digit]

def Phase.next : Phase → Kind → Phase
  | .start, .colon => .path
  | .start, .slash => .slash
  | .start, .quest => .queryStart
  | .start, .sharp => .fragmentStart
  | .start, _ => .schemeOrPath
  | .path, .quest => .queryStart
  | .path, .sharp => .fragmentStart
  | .path, _ => .path
  | .slash, .slash => .slashes
  | .schemeOrPath, .colon => .schemeEnd
  | .schemeOrPath, .atSign | .schemeOrPath, .digit | .schemeOrPath, .other => .schemeOrPath
  | .queryStart, .sharp | .query, .sharp => .fragmentStart
  | .queryStart, _ | .query, _ => .query
  | .fragmentStart, _ | .fragment, _ => .fragment
  | .schemeEnd, .slash => .slash
  | .slashes, .digit | .slashes, .other => .userOrHost
  | .userOrHost, .colon => .userColon
  | .userOrHost, .atSign => .userEnd
  | .userOrHost, .digit | .userOrHost, .other => .userOrHost
  | .userColon, .colon | .userColon, .other => .password
  | .userColon, .digit => .passwordOrPort
  | .userEnd, .digit | .userEnd, .other => .host
  | .passwordOrPort, .colon | .passwordOrPort, .other => .password
  | .passwordOrPort, .atSign | .password, .atSign => .userEnd
  | .passwordOrPort, .digit => .passwordOrPort
  | .password, .colon | .password, .digit | .password, .other => .password
  | .host, .colon => .hostColon
  | .host, .digit | .host, .other => .host
  | .hostColon, .digit => .port
  | .port, .digit => .port
  | _, .quest => .queryStart
  | _, .sharp => .fragmentStart
  | _, _ => .path

/-- The component that ends, besides the path, where the path begins. -/
def Phase.leaves : Phase → List UriAction
  | .userOrHost | .host => [.finHost]
  | .passwordOrPort | .port => [.finPort]
  | _ => []

/-- The path can begin here. -/
def Phase.beginsPath : Phase → Bool
  | .start | .schemeEnd | .slashes | .userOrHost | .passwordOrPort | .host | .port => true
  | _ => false

/-- Actions at the end of the input, or of the path. -/
def Phase.finals : Phase → List UriAction
  | .queryStart => [.markQuery,.finQuery]
  | .query => [.finQuery]
  | .fragmentStart => [.markFragment,.finFragment]
  | .fragment => [.finFragment]
  | d => d.leaves ++ if d.beginsPath then [.markPath,.finPath] else [.finPath]

def Phase.fired : Phase → Kind → List UriAction
  | .queryStart, .sharp => Phase.queryStart.finals
  | .query, .sharp => Phase.query.finals
  | .queryStart, _ => [.markQuery]
  | .fragmentStart, _ => [.markFragment]
  | .query, _ | .fragment, _ => []
  | .start, .atSign | .start, .digit | .start, .other => [.markScheme,.markPath]
  | .schemeOrPath, .colon => [.finScheme]
  | .slashes, .digit | .slashes, .other => [.markUsername,.markHost,.markPath]
  | .userOrHost, .colon | .userOrHost, .atSign => [.finUsername,.finHost,.markPath]
  | .userColon, .digit => [.markPassword,.markPort]
  | .userColon, .colon | .userColon, .other => [.markPassword]
  | .userEnd, .digit | .userEnd, .other => [.finUserpass,.markHost]
  | .passwordOrPort, .atSign => [.finPassword,.finPort,.markPath]
  | .password, .atSign => [.finPassword]
  | .hostColon, .digit => [.markPort]
  | d, .quest | d, .sharp => d.finals
  | d, _ => d.leaves ++ if d.beginsPath then [.markPath] else []

def Phase.alternatives (d : Phase) : List Rule :=
  d.sample.foldl (fun S k => successors (CharClass.memKind · k) S) [mainRule]

def table : Table CharClass UriAction Kind Phase :=
  ⟨Phase.alternatives,Phase.next,Phase.fired,Phase.finals⟩

theorem table_correct : table.Correct mainRule.actions CharClass.memKind where
  next d k := by cases d <;> cases k <;> rfl
  alive d := by cases d <;> decide
  fired d k := by cases d <;> cases k <;> rfl
  finals d := by cases d <;> rfl

end UriParser
end FreshPlayer
