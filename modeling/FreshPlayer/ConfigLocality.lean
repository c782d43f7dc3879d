import FreshPlayer.ConfigValues

/-! Lines read in one text and one after another. A line that leaves an assignment open goes on
behind the line break, since a break counts as a blank. -/
namespace FreshPlayer
namespace ConfigParser

open CText Ragel

/-- What stands behind an equals sign, with the blanks there. -/
inductive Given
  | empty
  | quoted (q : Quote) (inner : Text) (h : ∀ c ∈ inner, kind c ≠ q.kind ∧ kind c ≠ .newline)
    (trail : Blanks) (semi : Bool)
  | loose (first : UInt8) (rest : Text) (hblank : kind first ≠ .blank)
    (h : ∀ c ∈ first::rest, isVal (kind c))

inductive Entry
  | blank (pad : Blanks)
  | comment (pad : Blanks) (body : Text) (h : ∀ c ∈ body, kind c ≠ .newline ∧ kind c ≠ .semi)
  | bare (lead : Blanks) (name : Name) (trail : Blanks)
  | assigning (lead : Blanks) (name : Name) (before after : Blanks) (value : Given)

/-- A semicolon with nothing behind it. -/
def closing : Bool → Option Blanks
  | true => some noBlanks
  | false => none

def Given.text : Given → Text
  | .empty => []
  | .quoted q inner _ trail semi =>
    (q.char::inner ++ [q.char]) ++ (trail.text ++ semiText (closing semi))
  | .loose first rest _ _ => first::rest

def Entry.text : Entry → Text
  | .blank pad => pad.text
  | .comment pad body _ => pad.text ++ (sharpSign::body)
  | .bare lead name trail => lead.text ++ (name.text ++ trail.text)
  | .assigning lead name before after value => opening lead name before after ++ value.text

def Entry.lead : Entry → Blanks
  | .blank pad | .comment pad _ _ => pad
  | .bare lead _ _ | .assigning lead _ _ _ _ => lead

/-- For an empty value the parser takes the last of the blanks. -/
def Given.kept (after : Blanks) : Given → Option Text
  | .empty => after.text.getLast?.map fun b => [b]
  | .quoted _ inner _ _ _ => some inner
  | .loose first rest _ _ => some (first::rest)

/-- What a line by itself assigns. -/
def Entry.kept : Entry → Option (Text × Text)
  | .assigning _ name _ after value => (value.kept after).map fun x => (name.text,x)
  | _ => none

/-- What a line leaves open. `spilled` has taken a blank for the value so far. -/
inductive Carry
  | ready | gap | equals
  | spilled (b : UInt8)
  deriving DecidableEq, Repr

def Given.carry (after : Blanks) : Given → Carry
  | .empty => after.text.getLast?.elim .equals .spilled
  | _ => .ready

def Entry.carry : Entry → Carry
  | .bare _ _ trail => if trail.text = [] then .ready else .gap
  | .assigning _ _ _ after value => value.carry after
  | _ => .ready

def Carry.next : Carry → Entry → Carry
  | .gap, _ => .gap
  | .equals, _ => .equals
  | .spilled b, .blank _ => .spilled b
  | .ready, x | .spilled _, x => x.carry

/-- Lines that are read as they are behind an open one. -/
def Carry.Allows : Carry → Entry → Prop
  | .ready, _ => True
  | .gap, x => x.kept = none
  | .equals, x => x.text = []
  | .spilled b, .blank pad => ∀ c ∈ pad.text.getLast?, c = b
  | .spilled _, x => x.kept ≠ none ∧ x.lead.text.length ≤ 1

instance : (c : Carry) → (x : Entry) → Decidable (c.Allows x)
  | .ready, _ => inferInstanceAs (Decidable True)
  | .gap, x => inferInstanceAs (Decidable (x.kept = none))
  | .equals, x => inferInstanceAs (Decidable (x.text = []))
  | .spilled b, .blank pad => inferInstanceAs (Decidable (∀ c ∈ pad.text.getLast?, c = b))
  | .spilled _, .comment _ _ _ | .spilled _, .bare _ _ _ | .spilled _, .assigning _ _ _ _ _ =>
    inferInstanceAs (Decidable (_ ≠ none ∧ _ ≤ 1))

def Fits : Carry → List Entry → Prop
  | _, [] => True
  | c, x::xs => c.Allows x ∧ Fits (c.next x) xs

instance decidableFits : (c : Carry) → (xs : List Entry) → Decidable (Fits c xs)
  | _, [] => inferInstanceAs (Decidable True)
  | c, x::xs =>
    haveI := decidableFits (c.next x) xs
    inferInstanceAs (Decidable (_ ∧ _))

/-- The lines with line breaks between them. -/
def joined : List Entry → Text
  | [] => []
  | [x] => x.text
  | x::y::ys => x.text ++ (Break.lf.char::joined (y::ys))

variable {F : Type} {atof : Text → F} {T : Text} {p : ℕ} {v : State F} {d e : Mode}
  {name : Text} {base : Text → Option (Opt F)} {after : Blanks}

/-- Parsing the lines at once is parsing them one after another, as far as options go. -/
def Splits (atof : Text → F) (xs : List Entry) : Prop :=
  ∀ cfg : Cfg F, (cfgParseString atof (joined xs) cfg).entriesHt =
    (xs.foldl (fun cfg x => cfgParseString atof x.text cfg) cfg).entriesHt

/-! Where the machine is behind a line break. -/

def Left (atof : Text → F) (T : Text) : Carry → Mode → State F → Prop
  | .ready, d, _ => Starts d
  | .gap, d, _ => d = .gap
  | .equals, d, _ => d = .equals
  | .spilled b, d, v => d = .spilled ∧ ∃ name base, Mid atof T name base v ∧
      v.cfg.entriesHt = assign atof name [b] base

/-- The last blank becomes the value, at the end of the text as well as on a line break. -/
theorem ends_pad (hd : d = .pad ∨ d = .spilledPad) (h : Mid atof T name base v) {b : UInt8}
    (hb : slice T v.param.valStart p = [b]) :
    Ends atof T (Left atof T (.spilled b)) d p v (assign atof name [b] base) := by
  have hset : (act atof T .valEnd p v).cfg.entriesHt = assign atof name [b] base := by
    rw [h.settle,hb]
  rcases hd with rfl | rfl
  · exact ⟨hset,.spilled,rfl,⟨rfl,name,base,h.valEnd p,hset⟩,hset⟩
  · exact ⟨hset,.spilled,rfl,⟨rfl,name,base,h.valEnd p,hset⟩,hset⟩

theorem given_reads (hawaits : Awaits T p after d v) (hmid : Mid atof T name base v) (g : Given)
    {y : Text} (hy : g.kept after = some y) (hs : Sits T p g.text) :
    Reads atof T (Left atof T (g.carry after)) d p g.text v (assign atof name y base) := by
  cases g with
  | empty =>
    obtain ⟨b,hb,rfl⟩ := Option.map_eq_some_iff.mp hy
    obtain ⟨hpad,hslice⟩ := hawaits.last b hb
    rw [Given.carry,hb]
    exact ⟨d,v,rfl,ends_pad (Or.inl hpad) hmid hslice⟩
  | quoted q inner hi trail semi =>
    cases hy
    have hsemi : (closing semi).elim [] Blanks.text = [] := by cases semi <;> rfl
    exact quoted_ends hawaits.mode hmid q (fun c hc => (hi c hc).1) trail hsemi
      hs.left.tail.left
  | loose first rest hblank h =>
    cases hy
    exact plain_ends hawaits.mode hmid (h first List.mem_cons_self) hblank
      (fun x hx => h x (List.mem_cons_of_mem first hx)) hs

/-! A line at the start, as if it were alone. -/

theorem bare_reads (hd : Starts d) (lead : Blanks) (n : Name) (trail : Blanks) (p : ℕ)
    (v : State F) : Reads atof T (Left atof T (Entry.bare lead n trail).carry) d p
      (Entry.bare lead n trail).text v v.cfg.entriesHt := by
  refine Reads.after (walk_lead hd lead p v) (Reads.after (walk_name hd n _ v) ?_)
  obtain ⟨s,hs⟩ := trail
  cases s with
  | nil => exact ⟨.name,_,rfl,rfl,.bare,rfl,Or.inr rfl,rfl⟩
  | cons c s =>
    have hc : kind c = .blank := hs c List.mem_cons_self
    have hnext : Mode.name.next (kind c) = some .gap := by rw [hc]; rfl
    have hfired : Mode.name.fired (kind c) = [.nameEnd] := by rw [hc]; rfl
    have hwalk : walk atof T .name (p+lead.text.length+n.text.length) (c::s)
        (act atof T .nameBegin (p+lead.text.length) v) =
          some (.gap,act atof T .nameEnd (p+lead.text.length+n.text.length)
            (act atof T .nameBegin (p+lead.text.length) v)) := by
      rw [walk_step hnext,hfired]
      refine walk_idle (fun x hx => ?_) _ _
      rw [hs x (List.mem_cons_of_mem c hx)]
      exact ⟨rfl,rfl⟩
    exact ⟨.gap,_,hwalk,rfl,.gap,rfl,rfl,rfl⟩

theorem kept_eq_none {value : Given} (h : value.kept after = none) :
    value = .empty ∧ after.text = [] := by
  cases value with
  | empty => exact ⟨rfl,List.getLast?_eq_none_iff.mp (Option.map_eq_none_iff.mp h)⟩
  | quoted q inner hi trail semi => cases h
  | loose first rest hblank hi => cases h

theorem empty_reads (hd : Starts d) (lead : Blanks) (n : Name) (before : Blanks)
    (h : after.text = []) (p : ℕ) (v : State F) :
    Reads atof T (Left atof T .equals) d p (opening lead n before after) v v.cfg.entriesHt := by
  rw [opening_eq,h,List.append_nil]
  exact ⟨.equals,_,walk_equals hd lead n before p v,rfl,.equals,rfl,rfl,rfl⟩

theorem start_reads (hd : Starts d) (x : Entry) (hs : Sits T p x.text) :
    Reads atof T (Left atof T x.carry) d p x.text v (effect atof x.kept v.cfg.entriesHt) := by
  cases x with
  | blank pad => exact ⟨d,v,walk_lead hd pad p v,ends_idle (Or.inl hd) _ v⟩
  | comment pad body h =>
    refine line_ends hd (.comment pad body fun c hc => (h c hc).1) hs (not_not.mpr ?_)
    rw [List.dropWhile_eq_nil_iff.mpr fun c hc => decide_eq_true (h c hc).2]
    rfl
  | bare lead n trail => exact bare_reads hd lead n trail p v
  | assigning lead n before after value =>
    cases hk : value.kept after with
    | some y =>
      obtain ⟨e,w,hw,hmid,hawaits⟩ := walk_opening (v := v) hd hs.left
      have hreads := Reads.after hw (given_reads hawaits hmid value hk hs.right)
      rw [Entry.kept,hk]
      exact hreads
    | none =>
      obtain ⟨rfl,hafter⟩ := kept_eq_none hk
      have hreads : Reads atof T _ d p _ v _ := empty_reads hd lead n before hafter p v
      rw [Entry.kept,hk,Entry.carry,Given.carry,hafter,Entry.text,Given.text,List.append_nil]
      exact hreads

/-! Behind an empty value. -/

theorem spilled_blank (h : Mid atof T name base v) {b : UInt8}
    (hv : v.cfg.entriesHt = assign atof name [b] base) {pad : Blanks}
    (hb : ∀ c ∈ pad.text.getLast?, c = b) (hs : Sits T p pad.text) :
    Reads atof T (Left atof T (.spilled b)) .spilled p pad.text v v.cfg.entriesHt := by
  obtain ⟨s,hblank⟩ := pad
  cases s with
  | nil => exact ⟨.spilled,v,rfl,rfl,.spilled,rfl,⟨rfl,name,base,h,hv⟩,rfl⟩
  | cons c s =>
    obtain ⟨w,hw,hmid,hval⟩ := walk_blanks h (d := .spilled) rfl (Or.inl rfl) ⟨rfl,rfl⟩ hblank p
    obtain ⟨c',hc'⟩ : ∃ c', (c::s).getLast? = some c' := ⟨_,List.getLast?_eq_some_getLast (by simp)⟩
    obtain rfl : c' = b := hb c' hc'
    rw [hv]
    exact ⟨.spilledPad,w,hw,ends_pad (Or.inr rfl) hmid (slice_last hs hc' hval)⟩

/-- One blank is not enough to end a value. -/
theorem walk_spilledLead (lead : Blanks) (h : lead.text.length ≤ 1) (p : ℕ) (v : State F) :
    ∃ e w, walk atof T .spilled p lead.text v = some (e,w) ∧ (e = .spilled ∨ e = .spilledPad) ∧
      w.cfg = v.cfg := by
  obtain ⟨s,hs⟩ := lead
  cases s with
  | nil => exact ⟨.spilled,v,rfl,Or.inl rfl,rfl⟩
  | cons c s =>
    obtain rfl : s = [] := List.length_eq_zero_iff.mp (Nat.le_zero.mp (Nat.le_of_succ_le_succ h))
    have hc : kind c = .blank := hs c List.mem_cons_self
    have hnext : Mode.spilled.next (kind c) = some .spilledPad := by rw [hc]; rfl
    have hfired : Mode.spilled.fired (kind c) = [.valBegin] := by rw [hc]; rfl
    refine ⟨.spilledPad,act atof T .valBegin p v,?_,Or.inr rfl,rfl⟩
    rw [walk_one hnext,hfired]
    rfl

theorem walk_spilledName (hd : d = .spilled ∨ d = .spilledPad) (n : Name) (p : ℕ) (v : State F) :
    walk atof T d p n.text v =
      some (.spilledName,act atof T .valBegin p (act atof T .nameBegin p v)) := by
  have hfirst : d.next (kind n.first) = some .spilledName ∧
      d.fired (kind n.first) = [.nameBegin,.valBegin] := by
    rw [n.letter]
    rcases hd with rfl | rfl <;> exact ⟨rfl,rfl⟩
  rw [Name.text,walk_step hfirst.1,hfirst.2]
  refine walk_idle (fun c hc => ?_) (p+1) _
  rcases n.alnum c hc with h | h <;> rw [h] <;> exact ⟨rfl,rfl⟩

/-- The name is taken for a value as well, until the equals sign. -/
theorem walk_spilledEq (h : Mid atof T name base (act atof T .nameEnd p v)) (before : Blanks) :
    ∃ w, walk atof T .spilledName p (before.text ++ [eqSign]) v = some (.pad,w) ∧
      Mid atof T name base w := by
  obtain ⟨s,hs⟩ := before
  cases s with
  | nil => exact ⟨_,walk_one rfl,h⟩
  | cons c s =>
    have hc : kind c = .blank := hs c List.mem_cons_self
    have hnext : Mode.spilledName.next (kind c) = some .spilledGap := by rw [hc]; rfl
    have hfired : Mode.spilledName.fired (kind c) = [.nameEnd,.valEnd] := by rw [hc]; rfl
    have hloop : ∃ w, walk atof T .spilledGap (p+1) s
        (act atof T .valEnd p (act atof T .nameEnd p v)) = some (.spilledGap,w) ∧
          Mid atof T name base w := by
      refine Chart.walk_loop (fun _ u => Mid atof T name base u) (fun x hx => ?_)
        (fun x hx q u hu => ?_) (h.valEnd p)
      · rw [hs x (List.mem_cons_of_mem c hx)]
        rfl
      · rw [hs x (List.mem_cons_of_mem c hx)]
        exact hu.valEnd q
    obtain ⟨w,hw,hmid⟩ := hloop
    refine ⟨w,?_,hmid⟩
    rw [List.cons_append,walk_step hnext,hfired]
    exact walk_trans hw (walk_one rfl)

theorem walk_pad (h : Mid atof T name base v) (hs : Sits T p after.text) :
    ∃ w, walk atof T .pad p after.text v = some (.pad,w) ∧ Mid atof T name base w ∧
      Awaits T (p+after.text.length) after .pad w := by
  obtain ⟨s,hblank⟩ := after
  cases s with
  | nil => exact ⟨v,rfl,h,Or.inr rfl,nofun⟩
  | cons c s =>
    obtain ⟨w,hw,hmid,hval⟩ := walk_blanks h (d := .pad) rfl (Or.inr rfl) ⟨rfl,rfl⟩ hblank p
    exact ⟨w,hw,hmid,Or.inr rfl,fun b hb => ⟨rfl,slice_last hs hb hval⟩⟩

theorem spilled_reads {lead : Blanks} (hlead : lead.text.length ≤ 1) (n : Name) (before : Blanks)
    (value : Given) {y : Text} (hy : value.kept after = some y)
    (hs : Sits T p (Entry.assigning lead n before after value).text) :
    Reads atof T (Left atof T (value.carry after)) .spilled p
      (Entry.assigning lead n before after value).text v (assign atof n.text y v.cfg.entriesHt) := by
  have hopen := hs.left
  rw [opening_eq] at hopen
  obtain ⟨e,u,hu,hmode,hcfg⟩ : ∃ e u, walk atof T .spilled p lead.text v = some (e,u) ∧ _ :=
    walk_spilledLead lead hlead p v
  have hnamed : Mid atof T n.text v.cfg.entriesHt
      (act atof T .nameEnd (p+lead.text.length+n.text.length)
        (act atof T .valBegin (p+lead.text.length)
          (act atof T .nameBegin (p+lead.text.length) u))) :=
    ⟨slice_sits hopen.left.right.left,
      fun x => congrArg (fun c : Cfg F => assign atof n.text x c.entriesHt) hcfg⟩
  obtain ⟨u',hu',hmid'⟩ := walk_spilledEq hnamed before
  have hequals := walk_trans hu (walk_trans (walk_spilledName hmode n _ u) hu')
  obtain ⟨w,hw,hmid,hawaits⟩ := walk_pad hmid' hopen.right
  have hwalk := walk_trans hequals hw
  rw [← opening_eq] at hwalk
  refine Reads.after hwalk (given_reads ?_ hmid value hy hs.right)
  rwa [opening_eq,List.length_append,← Nat.add_assoc]

theorem kept_of_text_nil {x : Entry} (h : x.text = []) : x.kept = none := by
  cases x with
  | assigning lead n before after value =>
    have hopen : opening lead n before after = [] := (List.append_eq_nil_iff.mp h).1
    exact nomatch (List.append_eq_nil_iff.mp hopen).2
  | _ => rfl

/-- One line, wherever the machine is but in a gap. -/
theorem entry_reads {c : Carry} (h : Left atof T c d v) (hgap : c ≠ .gap) {x : Entry}
    (hx : c.Allows x) (hs : Sits T p x.text) :
    Reads atof T (Left atof T (c.next x)) d p x.text v (effect atof x.kept v.cfg.entriesHt) := by
  cases c with
  | ready => exact start_reads h x hs
  | gap => exact absurd rfl hgap
  | equals =>
    obtain rfl : d = .equals := h
    have htext : x.text = [] := hx
    rw [htext,kept_of_text_nil htext]
    exact ⟨.equals,v,rfl,rfl,.equals,rfl,rfl,rfl⟩
  | spilled b =>
    obtain ⟨rfl,name,base,hmid,hv⟩ := h
    cases x with
    | blank pad => exact spilled_blank hmid hv hx hs
    | comment pad body hb => exact absurd rfl hx.1
    | bare lead n trail => exact absurd rfl hx.1
    | assigning lead n before after value =>
      obtain ⟨y,hy⟩ := Option.ne_none_iff_exists'.mp fun hnone => hx.1 (congrArg (Option.map _) hnone)
      rw [Entry.kept,hy]
      exact spilled_reads hx.2 n before value hy hs

/-! In a gap only an equals sign goes on, and no line begins with one. -/

theorem text_split (x : Entry) : ∃ (pad : Blanks) (rest : Text), x.text = pad.text ++ rest ∧
    ∀ c ∈ rest.head?, kind c = .alpha ∨ kind c = .sharp := by
  cases x with
  | blank pad => exact ⟨pad,[],(List.append_nil _).symm,nofun⟩
  | comment pad body h =>
    refine ⟨pad,_,rfl,fun c hc => ?_⟩
    cases hc
    exact Or.inr rfl
  | bare lead n trail =>
    refine ⟨lead,_,rfl,fun c hc => ?_⟩
    cases hc
    exact Or.inl n.letter
  | assigning lead n before after value =>
    refine ⟨lead,_,List.append_assoc ..,fun c hc => ?_⟩
    cases hc
    exact Or.inl n.letter

theorem run_gap_entry (x : Entry) {R : Text}
    (hR : ∀ p, (run atof T .gap p R v).cfg.entriesHt = v.cfg.entriesHt) (p : ℕ) :
    (run atof T .gap p (x.text ++ R) v).cfg.entriesHt = v.cfg.entriesHt := by
  obtain ⟨pad,rest,htext,hrest⟩ := text_split x
  have hpad : walk atof T .gap p pad.text v = some (.gap,v) := by
    refine walk_idle (fun c hc => ?_) p v
    rw [pad.blank c hc]
    exact ⟨rfl,rfl⟩
  rw [htext,List.append_assoc,run_after hpad]
  cases rest with
  | nil => exact hR _
  | cons c rest =>
    have hstuck : chart.next .gap (kind c) = none := by
      rcases hrest c rfl with hc | hc <;> rw [hc] <;> rfl
    exact congrArg (fun u : State F => u.cfg.entriesHt) (Chart.run_stuck hstuck)

theorem run_gap (xs : List Entry) (p : ℕ) :
    (run atof T .gap p (joined xs) v).cfg.entriesHt = v.cfg.entriesHt := by
  induction xs generalizing p with
  | nil => rfl
  | cons x xs ih =>
    cases xs with
    | nil =>
      have halone : (run atof T .gap p (x.text ++ []) v).cfg.entriesHt = v.cfg.entriesHt :=
        run_gap_entry x (fun _ => rfl) p
      rwa [List.append_nil] at halone
    | cons y ys =>
      refine run_gap_entry x (fun q => ?_) p
      rw [run_break .lf (show Mode.gap.next .newline = some .gap from rfl)]
      exact ih (q+1)

/-! Lists of lines. -/

def entryEffects (atof : Text → F) (xs : List Entry) (ht : Text → Option (Opt F)) :
    Text → Option (Opt F) := xs.foldl (fun ht x => effect atof x.kept ht) ht

theorem fits_gap {xs : List Entry} (h : Fits .gap xs) (ht : Text → Option (Opt F)) :
    entryEffects atof xs ht = ht := by
  induction xs with
  | nil => rfl
  | cons x xs ih =>
    have hx : x.kept = none := h.1
    rw [entryEffects,List.foldl_cons,hx]
    exact ih h.2

theorem Left.finals {c : Carry} (h : Left atof T c d v) (p : ℕ) :
    (fire (act atof T) d.finals p v).cfg.entriesHt = v.cfg.entriesHt := by
  cases c with
  | ready => rcases h with rfl | rfl <;> rfl
  | gap => cases h; rfl
  | equals => cases h; rfl
  | spilled b => obtain ⟨rfl,-⟩ := h; rfl

theorem run_joined {c : Carry} {xs : List Entry} (h : Left atof T c d v) (hf : Fits c xs)
    (hs : Sits T p (joined xs)) :
    (run atof T d p (joined xs) v).cfg.entriesHt = entryEffects atof xs v.cfg.entriesHt := by
  induction xs generalizing c d p v with
  | nil => exact h.finals p
  | cons x xs ih =>
    by_cases hgap : c = .gap
    · subst hgap
      obtain rfl : d = .gap := h
      rw [run_gap,fits_gap hf]
    · cases xs with
      | nil => exact (entry_reads h hgap hf.1 hs).run_eof
      | cons y ys =>
        obtain ⟨e,w,hleft,hht,hrun⟩ := (entry_reads h hgap hf.1 hs.left).run_break .lf
          (joined (y::ys))
        have hrest := ih hleft hf.2 hs.right.tail
        rw [hht] at hrest
        exact (congrArg (fun u : State F => u.cfg.entriesHt) hrun).trans hrest

theorem run_fits {xs : List Entry} (h : Fits .ready xs) (cfg : Cfg F) :
    (cfgParseString atof (joined xs) cfg).entriesHt = entryEffects atof xs cfg.entriesHt := by
  rw [cfgParseString_eq]
  exact run_joined (c := .ready) (Or.inl rfl) h (sits_self _)

/-- A line by itself always fits. -/
theorem run_alone (x : Entry) (cfg : Cfg F) :
    (cfgParseString atof x.text cfg).entriesHt = effect atof x.kept cfg.entriesHt :=
  run_fits (show Fits .ready [x] from ⟨trivial,trivial⟩) cfg

theorem run_apart (xs : List Entry) (cfg : Cfg F) :
    (xs.foldl (fun cfg x => cfgParseString atof x.text cfg) cfg).entriesHt =
      entryEffects atof xs cfg.entriesHt := by
  induction xs generalizing cfg with
  | nil => rfl
  | cons x xs ih => rw [List.foldl_cons,ih,run_alone,entryEffects,entryEffects,List.foldl_cons]

theorem Fits.splits {xs : List Entry} (h : Fits .ready xs) : Splits atof xs := by
  intro cfg
  rw [run_fits h,run_apart]

/-! What an open line does to the next one. -/

/-- One string option. -/
def single (name : Text) : Cfg F := cfgInit [(name,.string none)] false

theorem single_self (name : Text) :
    (single name : Cfg F).entriesHt name = some (.string none) := by simp [single,cfgInit]

theorem assign_single (name x : Text) :
    assign atof name x (single name : Cfg F).entriesHt name = some (.string (some x)) := by
  rw [assign,Function.update_self,single_self]
  rfl

/-- `#` -/
def sharpEntry : Entry := .comment noBlanks [] nofun

def looseLetter (c : UInt8) (h : kind c = .alpha) : Given :=
  .loose c [] (by rw [h]; decide) fun x hx => by rw [List.mem_singleton.mp hx,h]; decide

/-- `x=y` -/
def plainEntry : Entry :=
  .assigning noBlanks (letterName 'x'.toUInt8 (by decide)) noBlanks noBlanks
    (looseLetter 'y'.toUInt8 (by decide))

theorem gap_swallows {x : Entry} (h : x.carry = .gap) (hx : x.kept = none) :
    ¬Splits atof [x,plainEntry] := by
  intro hsplits
  have hs : Sits (joined [x,plainEntry]) 0 (joined [x,plainEntry]) := sits_self _
  have hcfg := hsplits (single (bytes "x"))
  have hreads : Reads atof _ _ .fresh 0 x.text ⟨⟨0,0,0,0⟩,single (bytes "x")⟩ _ :=
    start_reads (Or.inl rfl) x hs.left
  obtain ⟨e,w,hleft,hht,hrun⟩ := hreads.run_break .lf (joined [plainEntry])
  rw [h] at hleft
  obtain rfl : e = .gap := hleft
  rw [cfgParseString_eq,run_apart] at hcfg
  have hgap := (congrArg (fun u : State F => u.cfg.entriesHt) hrun).trans
    ((run_gap [plainEntry] _).trans hht)
  have hname := congrFun (hgap.symm.trans hcfg) (bytes "x")
  rw [entryEffects,List.foldl_cons,List.foldl_cons,List.foldl_nil,hx,effect,single_self] at hname
  exact absurd (hname.trans (assign_single (bytes "x") (bytes "y"))) (by simp)

theorem run_sharp (hd : d = .equals ∨ d = .spilled) (h : Mid atof T name base v)
    (hs : Sits T p [sharpSign]) :
    (run atof T d p [sharpSign] v).cfg.entriesHt = assign atof name [sharpSign] base := by
  have hset := (h.valBegin p).settle (p+1)
  rw [show slice T (act atof T .valBegin p v).param.valStart (p+1) = [sharpSign] from
    slice_sits hs] at hset
  rcases hd with rfl | rfl <;> exact hset

/-- A comment becomes the value. -/
theorem run_empty_sharp (lead : Blanks) (n : Name) (before after : Blanks) (cfg : Cfg F) :
    (cfgParseString atof (joined [.assigning lead n before after .empty,sharpEntry])
      cfg).entriesHt = assign atof n.text [sharpSign] cfg.entriesHt := by
  have htext : joined [.assigning lead n before after .empty,sharpEntry] =
      opening lead n before after ++ [Break.lf.char,sharpSign] :=
    congrArg (· ++ _) (List.append_nil _)
  rw [htext,cfgParseString_eq]
  generalize hT : opening lead n before after ++ [Break.lf.char,sharpSign] = T
  have hs : Sits T 0 (opening lead n before after ++ ([Break.lf.char] ++ [sharpSign])) :=
    hT ▸ sits_self _
  obtain ⟨e,w,hw,hmid,hawaits⟩ := walk_opening (v := ⟨⟨0,0,0,0⟩,cfg⟩) (Or.inl rfl) hs.left
  have hbreak : ∃ f, e.next .newline = some f ∧ (f = .equals ∨ f = .spilled) ∧
      ∀ p, Mid atof T n.text cfg.entriesHt (fire (act atof T) (e.fired .newline) p w) := by
    rcases hawaits.mode with rfl | rfl
    · exact ⟨.equals,rfl,Or.inl rfl,fun _ => hmid⟩
    · exact ⟨.spilled,rfl,Or.inr rfl,fun p => hmid.valEnd p⟩
  obtain ⟨f,hnext,hf,hmid'⟩ := hbreak
  have hrun := (run_after hw [Break.lf.char,sharpSign]).trans (run_break .lf hnext _ _ _)
  rw [hT] at hrun
  exact (congrArg (fun u : State F => u.cfg.entriesHt) hrun).trans
    (run_sharp hf (hmid' _) hs.right.right)

theorem empty_swallows (lead : Blanks) (n : Name) (before after : Blanks) :
    ¬Splits atof [.assigning lead n before after .empty,sharpEntry] := by
  intro hsplits
  have hcfg := hsplits (single n.text)
  rw [run_empty_sharp,run_apart] at hcfg
  have hname := congrFun hcfg n.text
  rw [assign_single,entryEffects,List.foldl_cons,List.foldl_cons,List.foldl_nil] at hname
  cases hb : after.text.getLast? with
  | none =>
    rw [Entry.kept,Given.kept,hb] at hname
    exact absurd (hname.trans (single_self n.text)) (by simp)
  | some b =>
    rw [Entry.kept,Given.kept,hb] at hname
    have hassign := hname.trans (assign_single n.text [b])
    obtain rfl : sharpSign = b := by simpa using hassign
    have hblank := after.blank sharpSign (List.mem_of_getLast? hb)
    exact absurd hblank (by decide)

/-- Every list that fits is read line by line, and the lines that leave nothing open are those
that never change what comes next. -/
theorem lines_local (atof : Text → F) : (∀ xs, Fits .ready xs → Splits atof xs) ∧
    ∀ x : Entry, (∀ y, Splits atof [x,y]) ↔ x.carry = .ready := by
  refine ⟨fun _ => Fits.splits,fun x => ⟨fun h => ?_,fun h y => ?_⟩⟩
  · cases x with
    | blank pad => rfl
    | comment pad body hbody => rfl
    | bare lead n trail =>
      by_cases htrail : trail.text = []
      · exact if_pos htrail
      · exact absurd (h plainEntry) (gap_swallows (if_neg htrail) rfl)
    | assigning lead n before after value => cases value with
      | empty => exact absurd (h sharpEntry) (empty_swallows lead n before after)
      | quoted q inner hi trail semi => rfl
      | loose first rest hblank hi => rfl
  · refine Fits.splits ⟨trivial,?_,trivial⟩
    rw [show Carry.next .ready x = .ready from h]
    trivial

/-- `n =` -/
def openEntry : Entry :=
  .assigning noBlanks (letterName 'n'.toUInt8 (by decide)) oneBlank noBlanks .empty

/-- `o = x` -/
def otherEntry : Entry :=
  .assigning noBlanks (letterName 'o'.toUInt8 (by decide)) oneBlank oneBlank
    (looseLetter 'x'.toUInt8 (by decide))

theorem next_line_swallowed : ¬Splits (fun _ => ()) [openEntry,otherEntry] := by
  intro h
  have hname := congrFun (h (single (bytes "n"))) (bytes "n")
  exact absurd hname (by decide +kernel)

end ConfigParser
end FreshPlayer
