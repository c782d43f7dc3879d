import FreshPlayer.ConfigParser

/-! What the machine does on one line: it assigns to one option at most, and whatever it has
assigned in between the last assignment is the one that counts. -/
namespace FreshPlayer
namespace ConfigParser

open CText Ragel

structure Blanks where
  text : Text
  blank : ∀ c ∈ text, kind c = .blank

structure Name where
  first : UInt8
  rest : Text
  letter : kind first = .alpha
  alnum : ∀ c ∈ rest, kind c = .alpha ∨ kind c = .digit

def Name.text (n : Name) : Text := n.first::n.rest

def noBlanks : Blanks := ⟨[],nofun⟩

def oneBlank : Blanks := ⟨bytes " ",fun c hc => by rw [List.mem_singleton.mp hc]; rfl⟩

def letterName (c : UInt8) (h : kind c = .alpha) : Name := ⟨c,[],h,nofun⟩

inductive Quote
  | single | double
  deriving DecidableEq, Repr

def Quote.char : Quote → UInt8
  | .single => 39
  | .double => 34

def Quote.kind : Quote → Kind
  | .single => .quote
  | .double => .dblquote

/-- A text that needs no quotes. -/
structure IsPlain (s : Text) : Prop where
  ne : s ≠ []
  chars : ∀ c ∈ s, kind c ∉ [Kind.quote,.dblquote,.semi,.newline]
  head : ∀ c ∈ s.head?, kind c ≠ .blank
  last : ∀ c ∈ s.getLast?, kind c ≠ .blank

inductive Value
  | quoted (q : Quote) (inner : Text) (h : ∀ c ∈ inner, kind c ≠ q.kind ∧ kind c ≠ .newline)
  | plain (s : Text) (h : IsPlain s)

def Value.text : Value → Text
  | .quoted q inner _ => q.char::inner ++ [q.char]
  | .plain s _ => s

def eqSign : UInt8 := '='.toUInt8
def semicolon : UInt8 := ';'.toUInt8
def sharpSign : UInt8 := '#'.toUInt8

/-- `name = value` with blanks around its parts, and a semicolon, after which there may be blanks
again. -/
structure Setting where
  lead : Blanks
  name : Name
  before : Blanks
  after : Blanks
  value : Value
  trail : Blanks
  semi : Option Blanks

/-- The line up to the equals sign and after it. -/
def opening (lead : Blanks) (name : Name) (before after : Blanks) : Text :=
  lead.text ++ (name.text ++ ((before.text ++ [eqSign]) ++ after.text))

def semiText : Option Blanks → Text
  | none => []
  | some b => semicolon::b.text

def Setting.text (a : Setting) : Text :=
  opening a.lead a.name a.before a.after ++ (a.value.text ++ (a.trail.text ++ semiText a.semi))

/-- What the line says. -/
def Value.said : Value → Text
  | .quoted _ inner _ => inner
  | .plain s _ => s

/-- What the parser takes: a value without quotes goes to the end of the line. -/
def Setting.kept (a : Setting) : Text :=
  match a.value with
  | .quoted _ inner _ => inner
  | .plain s _ => s ++ (a.trail.text ++ semiText a.semi)

/-- The parser does not get beyond the line: after a quoted value and a semicolon there is
something more. -/
def Setting.Stops (a : Setting) : Prop :=
  match a.value with
  | .quoted _ _ _ => a.semi.elim [] Blanks.text ≠ []
  | .plain _ _ => False

inductive Line
  | blank (pad : Blanks)
  | comment (pad : Blanks) (body : Text) (h : ∀ c ∈ body, kind c ≠ .newline)
  | setting (a : Setting)

def Line.text : Line → Text
  | .blank pad => pad.text
  | .comment pad body _ => pad.text ++ (sharpSign::body)
  | .setting a => a.text

/-- The option and the value that the parser takes. -/
def Line.kept : Line → Option (Text × Text)
  | .setting a => some (a.name.text,a.kept)
  | _ => none

/-- In a comment it is a semicolon with something after it. -/
def Line.Stops : Line → Prop
  | .blank _ => False
  | .comment _ body _ => (body.dropWhile (kind · ≠ .semi)).tail ≠ []
  | .setting a => a.Stops

instance : (a : Setting) → Decidable a.Stops
  | ⟨_,_,_,_,.quoted _ _ _,_,semi⟩ => inferInstanceAs (Decidable (semi.elim [] Blanks.text ≠ []))
  | ⟨_,_,_,_,.plain _ _,_,_⟩ => inferInstanceAs (Decidable False)

instance : (l : Line) → Decidable l.Stops
  | .blank _ => inferInstanceAs (Decidable False)
  | .comment _ body _ => inferInstanceAs (Decidable ((body.dropWhile (kind · ≠ .semi)).tail ≠ []))
  | .setting a => inferInstanceAs (Decidable a.Stops)

variable {F : Type} {atof : Text → F} {T : Text} {p : ℕ} {v w : State F} {d e : Mode}
  {name : Text} {base : Text → Option (Opt F)}

/-! Places in the text. -/

/-- The text has a part at a place. -/
def Sits (T : Text) (p : ℕ) (xs : Text) : Prop := xs <+: T.drop p

theorem sits_self (T : Text) : Sits T 0 T := List.prefix_rfl

theorem Sits.left {xs ys : Text} (h : Sits T p (xs ++ ys)) : Sits T p xs :=
  (List.prefix_append xs ys).trans h

theorem Sits.right {x y : Text} (h : Sits T p (x ++ y)) : Sits T (p+x.length) y := by
  obtain ⟨z,hz⟩ := h
  refine ⟨z,?_⟩
  rw [← List.drop_drop,← hz,List.append_assoc,List.drop_left]

theorem Sits.tail {c : UInt8} {xs : Text} (h : Sits T p (c::xs)) : Sits T (p+1) xs :=
  Sits.right (x := [c]) h

theorem slice_sits {xs : Text} (h : Sits T p xs) : slice T p (p+xs.length) = xs := by
  unfold slice
  rw [Nat.add_sub_cancel_left]
  exact (List.prefix_iff_eq_take.mp h).symm

theorem walk_trans {xs ys : Text} {f : Mode} {u : State F}
    (h : walk atof T d p xs v = some (e,w))
    (h' : walk atof T e (p+xs.length) ys w = some (f,u)) :
    walk atof T d p (xs ++ ys) v = some (f,u) := (Chart.walk_append h ys).trans h'

theorem run_after {xs : Text} (h : walk atof T d p xs v = some (e,w)) (ys : Text) :
    run atof T d p (xs ++ ys) v = run atof T e (p+xs.length) ys w := Chart.run_append h ys

theorem walk_step {c : UInt8} {cs : Text} (h : d.next (kind c) = some e) :
    walk atof T d p (c::cs) v =
      walk atof T e (p+1) cs (fire (act atof T) (d.fired (kind c)) p v) := Chart.walk_cons h

theorem walk_one {c : UInt8} (h : d.next (kind c) = some e) :
    walk atof T d p [c] v = some (e,fire (act atof T) (d.fired (kind c)) p v) := walk_step h

theorem walk_idle {s : Text} (h : ∀ c ∈ s, d.next (kind c) = some d ∧ d.fired (kind c) = [])
    (p : ℕ) (v : State F) : walk atof T d p s v = some (d,v) := Chart.walk_idle h p v

/-! In the middle of an assignment to an option. -/

/-- The name has been read, and at most its option was changed. -/
structure Mid (atof : Text → F) (T name : Text) (base : Text → Option (Opt F)) (v : State F) :
    Prop where
  named : slice T v.param.nameStart v.param.nameEnd = name
  own : ∀ x, assign atof name x v.cfg.entriesHt = assign atof name x base

theorem Mid.settle (h : Mid atof T name base v) (p : ℕ) :
    (act atof T .valEnd p v).cfg.entriesHt =
      assign atof name (slice T v.param.valStart p) base := by
  simp only [act]
  rw [handleParam_entriesHt,h.named]
  exact h.own _

theorem Mid.valBegin (h : Mid atof T name base v) (p : ℕ) :
    Mid atof T name base (act atof T .valBegin p v) := ⟨h.named,h.own⟩

theorem Mid.valEnd (h : Mid atof T name base v) (p : ℕ) :
    Mid atof T name base (act atof T .valEnd p v) := by
  refine ⟨h.named,fun x => ?_⟩
  rw [h.settle,assign_assign]

/-- Where a line can begin. -/
def Starts (d : Mode) : Prop := d = .fresh ∨ d = .bare

theorem walk_lead (hd : Starts d) (b : Blanks) (p : ℕ) (v : State F) :
    walk atof T d p b.text v = some (d,v) := by
  refine walk_idle (fun c hc => ?_) p v
  rw [b.blank c hc]
  rcases hd with rfl | rfl <;> exact ⟨rfl,rfl⟩

theorem walk_name (hd : Starts d) (n : Name) (p : ℕ) (v : State F) :
    walk atof T d p n.text v = some (.name,act atof T .nameBegin p v) := by
  have hfirst : d.next (kind n.first) = some .name ∧ d.fired (kind n.first) = [.nameBegin] := by
    rw [n.letter]
    rcases hd with rfl | rfl <;> exact ⟨rfl,rfl⟩
  rw [Name.text,walk_step hfirst.1,hfirst.2]
  refine walk_idle (fun c hc => ?_) (p+1) _
  rcases n.alnum c hc with h | h <;> rw [h] <;> exact ⟨rfl,rfl⟩

/-- The name ends at the first blank, or at the equals sign. -/
theorem walk_eq (before : Blanks) (p : ℕ) (v : State F) :
    walk atof T .name p (before.text ++ [eqSign]) v =
      some (.equals,act atof T .nameEnd p v) := by
  obtain ⟨s,hs⟩ := before
  cases s with
  | nil => exact walk_one rfl
  | cons c s =>
    have hc : kind c = .blank := hs c List.mem_cons_self
    have hnext : Mode.name.next (kind c) = some .gap := by rw [hc]; rfl
    have hfired : Mode.name.fired (kind c) = [.nameEnd] := by rw [hc]; rfl
    rw [List.cons_append,walk_step hnext,hfired]
    refine walk_trans (walk_idle (fun x hx => ?_) _ _) (walk_one rfl)
    rw [hs x (List.mem_cons_of_mem c hx)]
    exact ⟨rfl,rfl⟩

theorem slice_last {s : Text} {b : UInt8} (h : Sits T p s) (hb : b ∈ s.getLast?) {q : ℕ}
    (hq : q+1 = p+s.length) : slice T q (p+s.length) = [b] := by
  obtain ⟨s,rfl⟩ := List.getLast?_eq_some_iff.mp hb
  rw [List.length_append,List.length_singleton] at hq ⊢
  rw [← Nat.add_assoc,show q = p+s.length by omega]
  exact slice_sits h.right

/-- Where a value can begin: after the equals sign, or after blanks, the last of which is taken
for a value. -/
structure Awaits (T : Text) (p : ℕ) (after : Blanks) (d : Mode) (v : State F) : Prop where
  mode : d = .equals ∨ d = .pad
  last : ∀ b ∈ after.text.getLast?, d = .pad ∧ slice T v.param.valStart p = [b]

/-- Modes that take each blank for a value. -/
theorem walk_blanks {f : Mode} (h : Mid atof T name base v) (hnext : d.next .blank = some f)
    (hfirst : d.fired .blank = [.valBegin] ∨ d.fired .blank = [.valBegin,.valEnd])
    (hloop : f.next .blank = some f ∧ f.fired .blank = [.valBegin,.valEnd])
    {c : UInt8} {s : Text} (hs : ∀ x ∈ c::s, kind x = .blank) (p : ℕ) :
    ∃ w, walk atof T d p (c::s) v = some (f,w) ∧ Mid atof T name base w ∧
      w.param.valStart+1 = p+(c::s).length := by
  have hc : kind c = .blank := hs c List.mem_cons_self
  have hbegin : Mid atof T name base (fire (act atof T) (d.fired .blank) p v) ∧
      (fire (act atof T) (d.fired .blank) p v).param.valStart+1 = p+1 := by
    rcases hfirst with hf | hf <;> rw [hf]
    · exact ⟨h.valBegin p,rfl⟩
    · exact ⟨(h.valBegin p).valEnd p,rfl⟩
  have hrest : ∃ w, walk atof T f (p+1) s (fire (act atof T) (d.fired .blank) p v) =
      some (f,w) ∧ (Mid atof T name base w ∧ w.param.valStart+1 = p+1+s.length) := by
    refine Chart.walk_loop (fun q u => Mid atof T name base u ∧ u.param.valStart+1 = q)
      (fun x hx => ?_) (fun x hx q u hu => ?_) hbegin
    · rw [hs x (List.mem_cons_of_mem c hx)]
      exact hloop.1
    · rw [hs x (List.mem_cons_of_mem c hx),show chart.fired f .blank = _ from hloop.2]
      exact ⟨(hu.1.valBegin q).valEnd q,rfl⟩
  obtain ⟨w,hw,hmid,hval⟩ := hrest
  refine ⟨w,?_,hmid,?_⟩
  · rw [walk_step (by rw [hc]; exact hnext),hc]
    exact hw
  · rw [hval,List.length_cons]
    omega

theorem walk_after (h : Mid atof T name base v) {after : Blanks} (hs : Sits T p after.text) :
    ∃ d w, walk atof T .equals p after.text v = some (d,w) ∧ Mid atof T name base w ∧
      Awaits T (p+after.text.length) after d w := by
  obtain ⟨s,hblank⟩ := after
  cases s with
  | nil => exact ⟨.equals,v,rfl,h,Or.inl rfl,nofun⟩
  | cons c s =>
    obtain ⟨w,hw,hmid,hval⟩ := walk_blanks h (d := .equals) rfl (Or.inl rfl) ⟨rfl,rfl⟩ hblank p
    exact ⟨.pad,w,hw,hmid,Or.inr rfl,fun b hb => ⟨rfl,slice_last hs hb hval⟩⟩

/-- The start of an assignment, up to the equals sign. -/
theorem walk_equals (hd : Starts d) (lead : Blanks) (n : Name) (before : Blanks) (p : ℕ)
    (v : State F) : walk atof T d p (lead.text ++ (n.text ++ (before.text ++ [eqSign]))) v =
      some (.equals,act atof T .nameEnd (p+lead.text.length+n.text.length)
        (act atof T .nameBegin (p+lead.text.length) v)) :=
  walk_trans (walk_lead hd lead p v) (walk_trans (walk_name hd n _ v) (walk_eq before _ _))

theorem opening_eq (lead : Blanks) (n : Name) (before after : Blanks) :
    opening lead n before after =
      lead.text ++ (n.text ++ (before.text ++ [eqSign])) ++ after.text := by
  simp only [opening,List.append_assoc]

/-- A line that begins with a name and an equals sign. -/
theorem walk_opening (hd : Starts d) {lead : Blanks} {n : Name} {before after : Blanks}
    (hs : Sits T p (opening lead n before after)) :
    ∃ e w, walk atof T d p (opening lead n before after) v = some (e,w) ∧
      Mid atof T n.text v.cfg.entriesHt w ∧
      Awaits T (p+(opening lead n before after).length) after e w := by
  rw [opening_eq] at hs ⊢
  have hmid : Mid atof T n.text v.cfg.entriesHt
      (act atof T .nameEnd (p+lead.text.length+n.text.length)
        (act atof T .nameBegin (p+lead.text.length) v)) :=
    ⟨slice_sits hs.left.right.left,fun _ => rfl⟩
  obtain ⟨e,w,hw,hmid',hawaits⟩ := walk_after hmid hs.right
  refine ⟨e,w,walk_trans (walk_equals hd lead n before p v) hw,hmid',?_⟩
  rwa [List.length_append,← Nat.add_assoc]

/-! Values. -/

def Quote.openMode : Quote → Mode
  | .single => .quoteOpen
  | .double => .dblquoteOpen

def Quote.mode : Quote → Mode
  | .single => .quoted
  | .double => .dblquoted

theorem Quote.opens (q : Quote) (hd : d = .equals ∨ d = .pad) :
    d.next (ConfigParser.kind q.char) = some q.openMode ∧ d.fired (ConfigParser.kind q.char) = [] := by
  rcases hd with rfl | rfl <;> cases q <;> exact ⟨rfl,rfl⟩

theorem Quote.first (q : Quote) {k : Kind} (h : k ≠ q.kind) :
    q.openMode.next k = some q.mode ∧ q.openMode.fired k = [.valBegin] := by
  cases q <;> cases k <;> first | exact ⟨rfl,rfl⟩ | exact absurd rfl h

theorem Quote.stays (q : Quote) {k : Kind} (h : k ≠ q.kind) :
    q.mode.next k = some q.mode ∧ q.mode.fired k = [] := by
  cases q <;> cases k <;> first | exact ⟨rfl,rfl⟩ | exact absurd rfl h

theorem Quote.closes (q : Quote) : q.mode.next (ConfigParser.kind q.char) = some .closed ∧
    q.mode.fired (ConfigParser.kind q.char) = [.valEnd] := by cases q <;> exact ⟨rfl,rfl⟩

theorem Quote.closesEmpty (q : Quote) : q.openMode.next (ConfigParser.kind q.char) = some .closed ∧
    q.openMode.fired (ConfigParser.kind q.char) = [.valBegin,.valEnd] := by
  cases q <;> exact ⟨rfl,rfl⟩

theorem walk_quoted (hd : d = .equals ∨ d = .pad) (h : Mid atof T name base v) (q : Quote)
    {inner : Text} (hi : ∀ c ∈ inner, kind c ≠ q.kind) (hs : Sits T (p+1) inner) :
    ∃ w, walk atof T d p (q.char::inner ++ [q.char]) v = some (.closed,w) ∧
      w.cfg.entriesHt = assign atof name inner base := by
  obtain ⟨hopen,hnone⟩ := q.opens hd
  rw [List.cons_append,walk_step hopen,hnone]
  cases inner with
  | nil =>
    obtain ⟨hnext,hfired⟩ := q.closesEmpty
    refine ⟨_,walk_one hnext,?_⟩
    rw [hfired]
    refine ((h.valBegin (p+1)).settle (p+1)).trans ?_
    rw [show slice T (act atof T .valBegin (p+1) v).param.valStart (p+1) = [] by
      simp [slice,act]]
  | cons c inner =>
    obtain ⟨hnext,hfired⟩ := q.first (hi c List.mem_cons_self)
    obtain ⟨hclose,hend⟩ := q.closes
    have hstay : walk atof T q.mode (p+1+1) inner (act atof T .valBegin (p+1) v) =
        some (q.mode,act atof T .valBegin (p+1) v) :=
      walk_idle (fun x hx => q.stays (hi x (List.mem_cons_of_mem c hx))) _ _
    have hclosed := walk_trans hstay (walk_one hclose)
    rw [hend] at hclosed
    rw [List.cons_append,walk_step hnext,hfired]
    refine ⟨_,hclosed,((h.valBegin (p+1)).settle _).trans ?_⟩
    have hslice := slice_sits hs
    rw [List.length_cons,Nat.add_comm inner.length,← Nat.add_assoc] at hslice
    exact congrArg (fun x => assign atof name x base) hslice

/-- What a value without quotes can go on with. -/
def isVal (k : Kind) : Prop := k ≠ .newline ∧ k ≠ .quote ∧ k ≠ .dblquote

instance (k : Kind) : Decidable (isVal k) := inferInstanceAs (Decidable (_ ∧ _))

theorem plain_first {k : Kind} (hd : d = .equals ∨ d = .pad) (hk : isVal k) (hb : k ≠ .blank) :
    d.next k = some .value ∧ (d.fired k = [.valBegin] ∨ d.fired k = [.valBegin,.valEnd]) := by
  obtain ⟨h1,h2,h3⟩ := hk
  rcases hd with rfl | rfl <;> cases k <;>
    first | exact ⟨rfl,Or.inl rfl⟩ | exact ⟨rfl,Or.inr rfl⟩ | contradiction

theorem plain_next {k : Kind} (hk : isVal k) :
    Mode.value.next k = some .value ∧ (Mode.value.fired k = [] ∨ Mode.value.fired k = [.valEnd]) := by
  obtain ⟨h1,h2,h3⟩ := hk
  cases k <;> first | exact ⟨rfl,Or.inl rfl⟩ | exact ⟨rfl,Or.inr rfl⟩ | contradiction

theorem walk_plain (hd : d = .equals ∨ d = .pad) (h : Mid atof T name base v) {c : UInt8}
    {rest : Text} (hc : isVal (kind c)) (hb : kind c ≠ .blank)
    (hrest : ∀ x ∈ rest, isVal (kind x)) (p : ℕ) :
    ∃ w, walk atof T d p (c::rest) v = some (.value,w) ∧ Mid atof T name base w ∧
      w.param.valStart = p := by
  obtain ⟨hnext,hfirst⟩ := plain_first hd hc hb
  have hbegin : Mid atof T name base (fire (act atof T) (d.fired (kind c)) p v) ∧
      (fire (act atof T) (d.fired (kind c)) p v).param.valStart = p := by
    rcases hfirst with hf | hf <;> rw [hf]
    · exact ⟨h.valBegin p,rfl⟩
    · exact ⟨(h.valBegin p).valEnd p,rfl⟩
  have hloop : ∃ w, walk atof T .value (p+1) rest (fire (act atof T) (d.fired (kind c)) p v) =
      some (.value,w) ∧ (Mid atof T name base w ∧ w.param.valStart = p) := by
    refine Chart.walk_loop (fun _ u => Mid atof T name base u ∧ u.param.valStart = p)
      (fun x hx => (plain_next (hrest x hx)).1) (fun x hx q u hu => ?_) hbegin
    have hf := (plain_next (hrest x hx)).2
    rcases hf with hf | hf
    · rw [show chart.fired .value (kind x) = [] from hf]
      exact hu
    · rw [show chart.fired .value (kind x) = [.valEnd] from hf]
      exact ⟨hu.1.valEnd q,hu.2⟩
  obtain ⟨w,hw,hmid,hval⟩ := hloop
  exact ⟨w,by rw [walk_step hnext]; exact hw,hmid,hval⟩

/-! The end of a line. -/

/-- At the end of the text, and on a line break, options are as given, and the break leads to
where `Q` holds. -/
structure Ends (atof : Text → F) (T : Text) (Q : Mode → State F → Prop) (d : Mode) (p : ℕ)
    (v : State F) (ht : Text → Option (Opt F)) : Prop where
  eof : (fire (act atof T) d.finals p v).cfg.entriesHt = ht
  newline : ∃ e, d.next .newline = some e ∧ Q e (fire (act atof T) (d.fired .newline) p v) ∧
    (fire (act atof T) (d.fired .newline) p v).cfg.entriesHt = ht

/-- The next line can begin. -/
def AtStart (d : Mode) (_ : State F) : Prop := Starts d

theorem ends_idle (hd : Starts d ∨ d = .comment ∨ d = .over ∨ d = .closed) (p : ℕ) (v : State F) :
    Ends atof T AtStart d p v v.cfg.entriesHt := by
  rcases hd with (rfl | rfl) | rfl | rfl | rfl
  · exact ⟨rfl,_,rfl,Or.inl rfl,rfl⟩
  · exact ⟨rfl,_,rfl,Or.inr rfl,rfl⟩
  · exact ⟨rfl,_,rfl,Or.inl rfl,rfl⟩
  · exact ⟨rfl,_,rfl,Or.inl rfl,rfl⟩
  · exact ⟨rfl,_,rfl,Or.inl rfl,rfl⟩

theorem ends_value (h : Mid atof T name base v) (p : ℕ) :
    Ends atof T AtStart .value p v (assign atof name (slice T v.param.valStart p) base) :=
  ⟨h.settle p,.fresh,rfl,Or.inl rfl,h.settle p⟩

/-! Lines. -/

/-- What a line does, if it assigns. -/
def effect (atof : Text → F) (o : Option (Text × Text)) (ht : Text → Option (Opt F)) :
    Text → Option (Opt F) :=
  match o with
  | none => ht
  | some q => assign atof q.1 q.2 ht

/-- A line read to its end. -/
def Reads (atof : Text → F) (T : Text) (Q : Mode → State F → Prop) (d : Mode) (p : ℕ) (xs : Text)
    (v : State F) (ht : Text → Option (Opt F)) : Prop :=
  ∃ e w, walk atof T d p xs v = some (e,w) ∧ Ends atof T Q e (p+xs.length) w ht

/-- Where the machine stops nothing follows. -/
def StopsIn (atof : Text → F) (T : Text) (d : Mode) (p : ℕ) (xs : Text) (v : State F)
    (ht : Text → Option (Opt F)) : Prop :=
  ∀ rest, (run atof T d p (xs ++ rest) v).cfg.entriesHt = ht

theorem Reads.after {Q : Mode → State F → Prop} {xs ys : Text} {ht : Text → Option (Opt F)}
    (h : walk atof T d p xs v = some (e,w)) (hr : Reads atof T Q e (p+xs.length) ys w ht) :
    Reads atof T Q d p (xs ++ ys) v ht := by
  obtain ⟨f,u,hu,he⟩ := hr
  refine ⟨f,u,walk_trans h hu,?_⟩
  rwa [List.length_append,← Nat.add_assoc]

theorem StopsIn.after {xs ys : Text} {ht : Text → Option (Opt F)}
    (h : walk atof T d p xs v = some (e,w)) (hr : StopsIn atof T e (p+xs.length) ys w ht) :
    StopsIn atof T d p (xs ++ ys) v ht := by
  intro rest
  rw [List.append_assoc,run_after h]
  exact hr rest

/-- A character with no way on. -/
theorem StopsIn.stuck {c : UInt8} {ys : Text} (h : e.next (kind c) = none) :
    StopsIn atof T e p (c::ys) v v.cfg.entriesHt := fun _ =>
  congrArg (fun u : State F => u.cfg.entriesHt) (Chart.run_stuck h)

theorem Reads.run_eof {Q : Mode → State F → Prop} {xs : Text} {ht : Text → Option (Opt F)}
    (h : Reads atof T Q d p xs v ht) : (run atof T d p xs v).cfg.entriesHt = ht := by
  obtain ⟨e,w,hw,hends⟩ := h
  have hrun := run_after hw []
  rw [List.append_nil] at hrun
  exact (congrArg (fun u : State F => u.cfg.entriesHt) hrun).trans hends.eof

theorem walk_closed (trail : Blanks) (p : ℕ) (v : State F) :
    walk atof T .closed p trail.text v = some (.closed,v) := by
  refine walk_idle (fun c hc => ?_) p v
  rw [trail.blank c hc]
  exact ⟨rfl,rfl⟩

/-- After the closing quote. -/
theorem closed_ends (trail : Blanks) (semi : Option Blanks) (h : semi.elim [] Blanks.text = [])
    (p : ℕ) (v : State F) :
    Reads atof T AtStart .closed p (trail.text ++ semiText semi) v v.cfg.entriesHt := by
  refine Reads.after (walk_closed trail p v) ?_
  cases semi with
  | none => exact ⟨.closed,v,rfl,ends_idle (Or.inr (Or.inr (Or.inr rfl))) _ v⟩
  | some b =>
    have hb : b.text = [] := h
    rw [semiText,hb]
    exact ⟨.over,v,walk_one rfl,ends_idle (Or.inr (Or.inr (Or.inl rfl))) _ v⟩

theorem closed_stops (trail : Blanks) (semi : Option Blanks) (h : semi.elim [] Blanks.text ≠ [])
    (p : ℕ) (v : State F) :
    StopsIn atof T .closed p (trail.text ++ semiText semi) v v.cfg.entriesHt := by
  refine StopsIn.after (walk_closed trail p v) ?_
  cases semi with
  | none => exact absurd rfl h
  | some b =>
    obtain ⟨s,hs⟩ := b
    cases s with
    | nil => exact absurd rfl h
    | cons c s =>
      have hsemi : walk atof T .closed (p+trail.text.length) [semicolon] v = some (.over,v) :=
        walk_one rfl
      have hstuck : Mode.over.next (kind c) = none := by
        rw [hs c List.mem_cons_self]
        rfl
      have hstops : StopsIn atof T .closed (p+trail.text.length) ([semicolon] ++ c::s) v
          v.cfg.entriesHt := StopsIn.after hsemi (.stuck hstuck)
      exact hstops

theorem isPlain_cons {s : Text} (h : IsPlain s) : ∃ c rest, s = c::rest ∧ isVal (kind c) ∧
    kind c ≠ .blank ∧ ∀ x ∈ rest, isVal (kind x) := by
  cases s with
  | nil => exact absurd rfl h.ne
  | cons c rest =>
    have hval : ∀ x ∈ c::rest, isVal (kind x) := by
      intro x hx
      have hx' := h.chars x hx
      simp only [List.mem_cons,List.not_mem_nil,or_false,not_or] at hx'
      exact ⟨hx'.2.2.2,hx'.1,hx'.2.1⟩
    exact ⟨c,rest,rfl,hval c List.mem_cons_self,h.head c rfl,
      fun x hx => hval x (List.mem_cons_of_mem c hx)⟩

theorem isVal_tail (trail : Blanks) (semi : Option Blanks) :
    ∀ c ∈ trail.text ++ semiText semi, isVal (kind c) := by
  have hblank : ∀ b : Blanks, ∀ c ∈ b.text, isVal (kind c) := by
    intro b c hc
    rw [b.blank c hc]
    exact ⟨by decide,by decide,by decide⟩
  intro c hc
  rcases List.mem_append.mp hc with hc | hc
  · exact hblank trail c hc
  · cases semi with
    | none => cases hc
    | some b =>
      rcases List.mem_cons.mp hc with rfl | hc
      · exact ⟨by decide,by decide,by decide⟩
      · exact hblank b c hc

theorem quoted_ends (hd : d = .equals ∨ d = .pad) (h : Mid atof T name base v) (q : Quote)
    {inner : Text} (hi : ∀ c ∈ inner, kind c ≠ q.kind) (trail : Blanks) {semi : Option Blanks}
    (hsemi : semi.elim [] Blanks.text = []) (hs : Sits T (p+1) inner) :
    Reads atof T AtStart d p ((q.char::inner ++ [q.char]) ++ (trail.text ++ semiText semi)) v
      (assign atof name inner base) := by
  obtain ⟨u,hu,hset⟩ := walk_quoted hd h q hi hs
  refine Reads.after hu ?_
  rw [← hset]
  exact closed_ends trail semi hsemi _ u

theorem plain_ends (hd : d = .equals ∨ d = .pad) (h : Mid atof T name base v) {c : UInt8}
    {rest : Text} (hc : isVal (kind c)) (hb : kind c ≠ .blank)
    (hrest : ∀ x ∈ rest, isVal (kind x)) (hs : Sits T p (c::rest)) :
    Reads atof T AtStart d p (c::rest) v (assign atof name (c::rest) base) := by
  obtain ⟨u,hu,hmid,hstart⟩ := walk_plain hd h hc hb hrest p
  have hend := ends_value hmid (p+(c::rest).length)
  rw [hstart,slice_sits hs] at hend
  exact ⟨.value,u,hu,hend⟩

theorem setting_ends (hd : Starts d) (a : Setting) (hs : Sits T p a.text) (h : ¬a.Stops) :
    Reads atof T AtStart d p a.text v (assign atof a.name.text a.kept v.cfg.entriesHt) := by
  obtain ⟨lead,n,before,after,val,trail,semi⟩ := a
  obtain ⟨e,w,hw,hmid,hawaits⟩ := walk_opening (v := v) hd hs.left
  refine Reads.after hw ?_
  cases val with
  | quoted q inner hi =>
    exact quoted_ends hawaits.mode hmid q (fun c hc => (hi c hc).1) trail (not_not.mp h)
      hs.right.left.tail.left
  | plain s hplain =>
    obtain ⟨c,rest,rfl,hc,hb,hall⟩ := isPlain_cons hplain
    refine plain_ends hawaits.mode hmid hc hb (fun x hx => ?_) hs.right
    rcases List.mem_append.mp hx with hx | hx
    · exact hall x hx
    · exact isVal_tail trail semi x hx

theorem setting_stops (hd : Starts d) (a : Setting) (hs : Sits T p a.text) (h : a.Stops) :
    StopsIn atof T d p a.text v (assign atof a.name.text a.kept v.cfg.entriesHt) := by
  obtain ⟨lead,n,before,after,val,trail,semi⟩ := a
  obtain ⟨e,w,hw,hmid,hawaits⟩ := walk_opening (v := v) hd hs.left
  refine StopsIn.after hw ?_
  cases val with
  | quoted q inner hi =>
    obtain ⟨u,hu,hset⟩ := walk_quoted hawaits.mode hmid q (fun c hc => (hi c hc).1)
      hs.right.left.tail.left
    refine StopsIn.after hu ?_
    have hend : StopsIn atof T .closed (p+(opening lead n before after).length+
        (q.char::inner ++ [q.char]).length) (trail.text ++ semiText semi) u u.cfg.entriesHt :=
      closed_stops trail semi h _ u
    rwa [hset] at hend
  | plain s hplain => exact h.elim

/-! Comments. -/

theorem walk_sharp (hd : Starts d) (pad : Blanks) (p : ℕ) (v : State F) :
    walk atof T d p (pad.text ++ [sharpSign]) v = some (.comment,v) := by
  refine walk_trans (walk_lead hd pad p v) ?_
  rcases hd with rfl | rfl <;> exact walk_one rfl

theorem comment_next {k : Kind} (h : k ≠ .newline) (hs : k ≠ .semi) :
    Mode.comment.next k = some .comment ∧ Mode.comment.fired k = [] := by
  cases k <;> first | exact ⟨rfl,rfl⟩ | contradiction

/-- A comment up to its first semicolon. -/
theorem walk_comment {body : Text} (h : ∀ c ∈ body, kind c ≠ .newline) (p : ℕ) (v : State F) :
    walk atof T .comment p (body.takeWhile (kind · ≠ .semi)) v = some (.comment,v) := by
  refine walk_idle (fun c hc => comment_next (h c ((List.takeWhile_prefix _).subset hc)) ?_) p v
  simpa using List.mem_takeWhile_imp hc

theorem dropWhile_semi {body : Text} {c : UInt8} {rest : Text}
    (h : body.dropWhile (kind · ≠ .semi) = c::rest) : kind c = .semi := by
  have hne : body.dropWhile (kind · ≠ .semi) ≠ [] := h ▸ List.cons_ne_nil c rest
  have hhead := List.head_dropWhile_not (kind · ≠ .semi) hne
  simp only [h,List.head_cons] at hhead
  simpa using hhead

theorem walk_semi {c : UInt8} (h : kind c = .semi) (p : ℕ) (v : State F) :
    walk atof T .comment p [c] v = some (.over,v) := by
  have hover : Mode.comment.next (kind c) = some .over := by rw [h]; rfl
  have hnone : Mode.comment.fired (kind c) = [] := by rw [h]; rfl
  rw [walk_one hover,hnone]
  rfl

theorem comment_ends {body : Text} (h : ∀ c ∈ body, kind c ≠ .newline)
    (hsemi : (body.dropWhile (kind · ≠ .semi)).tail = []) (p : ℕ) (v : State F) :
    Reads atof T AtStart .comment p body v v.cfg.entriesHt := by
  have hparts := List.takeWhile_append_dropWhile (p := (kind · ≠ .semi)) (l := body)
  rw [← hparts]
  refine Reads.after (walk_comment h p v) ?_
  cases hr : body.dropWhile (kind · ≠ .semi) with
  | nil => exact ⟨.comment,v,rfl,ends_idle (Or.inr (Or.inl rfl)) _ v⟩
  | cons c rest =>
    rw [hr] at hsemi
    obtain rfl : rest = [] := hsemi
    exact ⟨.over,v,walk_semi (dropWhile_semi hr) _ v,
      ends_idle (Or.inr (Or.inr (Or.inl rfl))) _ v⟩

theorem comment_stops {body : Text} (h : ∀ c ∈ body, kind c ≠ .newline)
    (hsemi : (body.dropWhile (kind · ≠ .semi)).tail ≠ []) (p : ℕ) (v : State F) :
    StopsIn atof T .comment p body v v.cfg.entriesHt := by
  have hparts := List.takeWhile_append_dropWhile (p := (kind · ≠ .semi)) (l := body)
  rw [← hparts]
  refine StopsIn.after (walk_comment h p v) ?_
  match hr : body.dropWhile (kind · ≠ .semi) with
  | [] =>
    rw [hr] at hsemi
    exact absurd rfl hsemi
  | [c] =>
    rw [hr] at hsemi
    exact absurd rfl hsemi
  | c::x::ys =>
    have hx : kind x ≠ .newline := by
      refine h x ((List.dropWhile_suffix (kind · ≠ .semi)).subset ?_)
      rw [hr]
      exact List.mem_cons_of_mem c List.mem_cons_self
    have hstuck : Mode.over.next (kind x) = none := by
      cases hk : kind x <;> first | rfl | exact absurd hk hx
    have hsplit : c::x::ys = [c] ++ x::ys := rfl
    rw [hsplit]
    exact StopsIn.after (walk_semi (dropWhile_semi hr) _ v) (.stuck hstuck)

theorem line_ends (hd : Starts d) (l : Line) (hs : Sits T p l.text) (h : ¬l.Stops) :
    Reads atof T AtStart d p l.text v (effect atof l.kept v.cfg.entriesHt) := by
  cases l with
  | blank pad => exact ⟨d,v,walk_lead hd pad p v,ends_idle (Or.inl hd) _ v⟩
  | comment pad body hbody =>
    have hcomment : Reads atof T AtStart d p ((pad.text ++ [sharpSign]) ++ body) v v.cfg.entriesHt :=
      Reads.after (walk_sharp hd pad p v) (comment_ends hbody (not_not.mp h) _ v)
    rwa [List.append_assoc] at hcomment
  | setting a => exact setting_ends hd a hs h

theorem line_stops (hd : Starts d) (l : Line) (hs : Sits T p l.text) (h : l.Stops) :
    StopsIn atof T d p l.text v (effect atof l.kept v.cfg.entriesHt) := by
  cases l with
  | blank pad => exact h.elim
  | comment pad body hbody =>
    have hcomment : StopsIn atof T d p ((pad.text ++ [sharpSign]) ++ body) v v.cfg.entriesHt :=
      StopsIn.after (walk_sharp hd pad p v) (comment_stops hbody h _ v)
    rwa [List.append_assoc] at hcomment
  | setting a => exact setting_stops hd a hs h

end ConfigParser
end FreshPlayer
