import FreshPlayer.CText
import FreshPlayer.Ragel

/-! The grammar of configuration texts with its embedded actions, and the chart of its machine.
A blank can be a line break, so the machine may still be at an assignment on the next line. -/
namespace FreshPlayer
namespace ConfigParser

open CText Ragel Ragel.Expr

/-- The characters that the grammar tells apart. -/
inductive Kind
  | newline | blank | quote | dblquote | semi | sharp | eq | alpha | digit | other
  deriving DecidableEq, Repr

def isNewline (c : UInt8) : Bool := c = 10 || c = 13

def isAlpha (c : UInt8) : Bool :=
  ('a'.toUInt8 ≤ c && c ≤ 'z'.toUInt8) || ('A'.toUInt8 ≤ c && c ≤ 'Z'.toUInt8)

/-- The quotes are 39 and 34. The underscore goes with the letters. -/
def kind (c : UInt8) : Kind :=
  if isNewline c then .newline else if isSpace c then .blank
  else if c = 39 then .quote else if c = 34 then .dblquote
  else if c = ';'.toUInt8 then .semi else if c = '#'.toUInt8 then .sharp
  else if c = '='.toUInt8 then .eq
  else if isAlpha c || c = '_'.toUInt8 then .alpha else if isDigit c then .digit else .other

inductive CharClass
  | nameFirst | nameNext | val | notQuote | notDblquote | comment | space
  | newline | quote | dblquote | semi | sharp | eq
  deriving DecidableEq, Repr

def CharClass.memKind : CharClass → Kind → Bool
  | .nameFirst, k => k = .alpha
  | .nameNext, k => k ∈ [Kind.alpha,.digit]
  | .val, k => k ∉ [Kind.newline,.quote,.dblquote]
  | .notQuote, k => k ≠ .quote
  | .notDblquote, k => k ≠ .dblquote
  | .comment, k => k ∉ [Kind.semi,.newline]
  | .space, k => k ∈ [Kind.blank,.newline]
  | .newline, k => k = .newline
  | .quote, k => k = .quote
  | .dblquote, k => k = .dblquote
  | .semi, k => k = .semi
  | .sharp, k => k = .sharp
  | .eq, k => k = .eq

def CharClass.mem (cl : CharClass) (c : UInt8) : Bool := cl.memKind (kind c)

inductive ParamAction
  | nameBegin | nameEnd | valBegin | valEnd
  deriving DecidableEq, Repr

abbrev Rule := Expr CharClass ParamAction

def paramName : Rule :=
  leaving .nameEnd (entering .nameBegin (seq (cls .nameFirst) (star (cls .nameNext))))

/-- A rule between the two actions of a value. -/
def value (r : Rule) : Rule := leaving .valEnd (entering .valBegin r)

def paramVal : Rule := value (plus (cls .val))
def paramValQt : Rule := seq (seq (cls .quote) (value (star (cls .notQuote)))) (cls .quote)
def paramValDblqt : Rule :=
  seq (seq (cls .dblquote) (value (star (cls .notDblquote)))) (cls .dblquote)

def emptyLine : Rule := star (cls .space)

def commentLine : Rule := seq (seq (star (cls .space)) (cls .sharp)) (star (cls .comment))

def nameValueLine : Rule :=
  seq (seq (star (cls .space)) paramName)
    (opt (seq (seq (seq (seq (star (cls .space)) (cls .eq)) (star (cls .space)))
      (alt (alt paramValQt paramValDblqt) paramVal)) (star (cls .space))))

def line : Rule := alt (alt nameValueLine emptyLine) commentLine

def mainRule : Rule :=
  seq (star (seq (seq line (opt (cls .semi))) (plus (cls .newline)))) (opt (seq line (opt (cls .semi))))

/-- The actions in the order of their first embedding; an action runs once on a character. -/
def order : List ParamAction := mainRule.actions.eraseDups

/-- What has been read of a line. `bare`, `equals`, `pad` and the states after `spilled` go on
with an assignment after its line has ended. -/
inductive Mode
  | fresh | over | comment | name | gap | bare | equals | pad | quoteOpen | quoted
  | dblquoteOpen | dblquoted | closed | value | spilled | spilledPad | spilledSharp
  | spilledName | spilledGap
  deriving DecidableEq, Repr

/-- What can stand in place of a value, after the blanks. -/
def Mode.value? : Kind → Mode
  | .quote => .quoteOpen
  | .dblquote => .dblquoteOpen
  | _ => .value

def Mode.next : Mode → Kind → Option Mode
  | .fresh, .newline | .fresh, .blank | .over, .newline | .comment, .newline
  | .closed, .newline | .value, .newline | .spilledSharp, .newline => some .fresh
  | .fresh, .semi | .bare, .semi | .name, .semi | .comment, .semi | .closed, .semi => some .over
  | .fresh, .sharp | .bare, .sharp => some .comment
  | .fresh, .alpha | .bare, .alpha | .name, .alpha | .name, .digit => some .name
  | .name, .newline | .bare, .newline | .bare, .blank | .spilledName, .newline
  | .spilledGap, .newline => some .bare
  | .name, .blank | .gap, .blank | .gap, .newline => some .gap
  | .name, .eq | .gap, .eq | .bare, .eq => some .equals
  | .equals, .newline => some .equals
  | .equals, .blank | .pad, .blank | .spilledName, .eq | .spilledGap, .eq => some .pad
  | .pad, .newline | .spilled, .newline | .spilledPad, .newline => some .spilled
  | .spilled, .blank | .spilledPad, .blank => some .spilledPad
  | .spilled, .sharp | .spilledPad, .sharp => some .spilledSharp
  | .spilled, .alpha | .spilledPad, .alpha | .spilledName, .alpha | .spilledName, .digit =>
    some .spilledName
  | .spilledName, .blank | .spilledGap, .blank => some .spilledGap
  | .equals, k | .pad, k | .spilled, k | .spilledPad, k => some (Mode.value? k)
  | .quoteOpen, .quote | .quoted, .quote | .dblquoteOpen, .dblquote | .dblquoted, .dblquote
  | .closed, .blank => some .closed
  | .quoteOpen, _ | .quoted, _ => some .quoted
  | .dblquoteOpen, _ | .dblquoted, _ => some .dblquoted
  | .spilledSharp, .quote | .spilledSharp, .dblquote | .comment, _ => some .comment
  | .spilledSharp, .semi => some .value
  | .spilledSharp, _ => some .spilledSharp
  | .value, .quote | .value, .dblquote | .spilledName, .quote | .spilledName, .dblquote
  | .spilledGap, .quote | .spilledGap, .dblquote => none
  | .value, _ | .spilledName, _ | .spilledGap, _ => some .value
  | _, _ => none

/-- A value ends before a blank, a semicolon and a line break. -/
def Kind.ends : Kind → Bool
  | .newline | .blank | .semi => true
  | _ => false

def Mode.fired : Mode → Kind → List ParamAction
  | .fresh, .alpha | .bare, .alpha => [.nameBegin]
  | .name, .alpha | .name, .digit => []
  | .name, _ | .spilledName, .eq => [.nameEnd]
  | .equals, .newline | .equals, .quote | .equals, .dblquote => []
  | .equals, _ => [.valBegin]
  | .pad, .quote | .pad, .dblquote | .spilled, .quote | .spilled, .dblquote
  | .spilledPad, .quote | .spilledPad, .dblquote | .spilled, .newline => []
  | .pad, .newline | .spilledPad, .newline => [.valEnd]
  | .pad, .blank | .pad, .semi | .spilledPad, .blank | .spilledPad, .semi => [.valBegin,.valEnd]
  | .spilled, .alpha | .spilledPad, .alpha => [.nameBegin,.valBegin]
  | .pad, _ | .spilled, _ | .spilledPad, _ => [.valBegin]
  | .quoteOpen, .quote | .dblquoteOpen, .dblquote => [.valBegin,.valEnd]
  | .quoteOpen, _ | .dblquoteOpen, _ => [.valBegin]
  | .quoted, .quote | .dblquoted, .dblquote => [.valEnd]
  | .value, k | .spilledSharp, k | .spilledGap, k => if k.ends then [.valEnd] else []
  | .spilledName, k => if k.ends then [.nameEnd,.valEnd] else []
  | _, _ => []

/-- Actions at the end of the text. -/
def Mode.finals : Mode → List ParamAction
  | .name => [.nameEnd]
  | .spilledName => [.nameEnd,.valEnd]
  | .pad | .value | .spilledPad | .spilledSharp | .spilledGap => [.valEnd]
  | _ => []

def chart : Chart ParamAction Kind Mode := ⟨Mode.next,Mode.fired,Mode.finals⟩

/-- The alternatives after some characters from the start of a text. -/
def alternatives (ks : List Kind) : List Rule :=
  ks.foldl (fun S k => successors (CharClass.memKind · k) S) [mainRule]

/-- Characters that lead to each mode, for all the sets of alternatives it stands for. -/
def samples : List (List Kind × Mode) :=
  [([],.fresh),([.newline],.fresh),([.blank],.fresh),([.semi],.over),([.sharp],.comment),
    ([.alpha],.name),([.semi,.newline],.fresh),([.alpha,.newline],.bare),([.alpha,.blank],.gap),
    ([.alpha,.eq],.equals),([.alpha,.newline,.newline],.bare),([.alpha,.newline,.blank],.bare),
    ([.alpha,.eq,.blank],.pad),([.alpha,.eq,.quote],.quoteOpen),
    ([.alpha,.eq,.dblquote],.dblquoteOpen),([.alpha,.eq,.semi],.value),
    ([.alpha,.eq,.blank,.newline],.spilled),([.alpha,.eq,.blank,.blank],.pad),
    ([.alpha,.eq,.blank,.semi],.value),([.alpha,.eq,.quote,.newline],.quoted),
    ([.alpha,.eq,.quote,.quote],.closed),([.alpha,.eq,.dblquote,.newline],.dblquoted),
    ([.alpha,.eq,.semi,.newline],.fresh),([.alpha,.eq,.semi,.blank],.value),
    ([.alpha,.eq,.blank,.newline,.newline],.spilled),
    ([.alpha,.eq,.blank,.newline,.blank],.spilledPad),
    ([.alpha,.eq,.blank,.newline,.sharp],.spilledSharp),
    ([.alpha,.eq,.blank,.newline,.alpha],.spilledName),
    ([.alpha,.eq,.blank,.newline,.sharp,.blank],.spilledSharp),
    ([.alpha,.eq,.blank,.newline,.alpha,.newline],.bare),
    ([.alpha,.eq,.blank,.newline,.alpha,.blank],.spilledGap)]

def Kind.all : List Kind :=
  [.newline,.blank,.quote,.dblquote,.semi,.sharp,.eq,.alpha,.digit,.other]

theorem Kind.mem_all (k : Kind) : k ∈ Kind.all := by cases k <;> decide

def sampleSets : List (List Rule × Mode) := samples.map fun q => (alternatives q.1,q.2)

theorem samples_finals : ∀ q ∈ sampleSets, Ragel.finals order q.1 = chart.finals q.2 := by
  decide +kernel

theorem samples_follow : ∀ q ∈ sampleSets, ∀ k ∈ Kind.all,
    chart.Follows order CharClass.memKind sampleSets q k := by
  decide +kernel

end ConfigParser
end FreshPlayer
