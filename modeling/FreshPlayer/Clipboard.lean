import FreshPlayer.Transition
import FreshPlayer.UriGrammar
import Mathlib.Logic.Function.Basic
import Mathlib.Algebra.Group.Nat.Defs

/-! Clipboard formats. A registration looks the name up in one section under the lock and
creates the format in another; between the two other threads register names as well. -/
namespace FreshPlayer
namespace Clipboard

open UriParser

def formatPlaintext : ℕ := 1
def formatHtml : ℕ := 2
def formatRtf : ℕ := 3

/-- Names under which text is known besides the one its identifier has. -/
def aliases : List Text := [bytes "TEXT",bytes "UTF8_STRING",bytes "COMPOUND_TEXT"]

/-- All names of text. -/
def textNames : List Text := bytes "STRING"::aliases

def builtinIds : List (Text × ℕ) :=
  [(bytes "TEXT",formatPlaintext),(bytes "STRING",formatPlaintext),
    (bytes "UTF8_STRING",formatPlaintext),(bytes "COMPOUND_TEXT",formatPlaintext),
    (bytes "text/html",formatHtml),(bytes "text/rtf",formatRtf)]

def builtinNames : List (ℕ × Text) :=
  [(formatPlaintext,bytes "STRING"),(formatHtml,bytes "text/html"),(formatRtf,bytes "text/rtf")]

/-- The tables, and the threads that did not find the name they register. Ghosts are the number
of calls and what they returned. -/
structure State where
  formatIds : Text → Option ℕ
  formatNames : ℕ → Option Text
  nextFormatId : ℕ
  creating : List (ℕ × Text)
  calls : ℕ
  returned : List (Text × ℕ)

/-- The state the constructor leaves. -/
def loaded : State := ⟨fun name => List.lookup name builtinIds,
  fun id => List.lookup id builtinNames,1000,[],0,[]⟩

inductive Action
  | lookup (thread : ℕ) (formatName : Text)
  | create (thread : ℕ) (formatName : Text)
  deriving DecidableEq, Repr

/-- The first section of `ppb_flash_clipboard_register_custom_format`. -/
def lookupSection (s : State) (thread : ℕ) (formatName : Text) : State :=
  let formatId := (s.formatIds formatName).getD 0
  if 0 < formatId then { s with returned := (formatName,formatId)::s.returned }
  else { s with creating := (thread,formatName)::s.creating }

/-- The second one. -/
def createSection (s : State) (formatName : Text) : State :=
  let formatId := s.nextFormatId
  { s with
    nextFormatId := (formatId+1) % 2^32
    formatIds := Function.update s.formatIds formatName (some formatId)
    formatNames := Function.update s.formatNames formatId (some formatName)
    returned := (formatName,formatId)::s.returned }

/-- There are fewer than 2^31 registrations, and a thread makes one at a time. -/
def step (s : State) : Action → Option State
  | .lookup thread formatName =>
    if s.calls+1 < 2^31 ∧ ∀ c ∈ s.creating, c.1 ≠ thread then
      some (lookupSection { s with calls := s.calls+1 } thread formatName)
    else none
  | .create thread formatName =>
    if (thread,formatName) ∈ s.creating then
      some (createSection { s with creating := s.creating.erase (thread,formatName) } formatName)
    else none

def registry : Machine State Action := ⟨loaded,step⟩

/-! Users of the tables. -/

inductive ClipboardType
  | standard | selection | unknown
  deriving DecidableEq, Repr

def clipboardTypeAndFormatAreSupported (s : State) (type : ClipboardType) (format : ℕ) : Bool :=
  if type ≠ .standard ∧ type ≠ .selection then false
  else if format ≠ formatPlaintext ∧ format ≠ formatHtml ∧ format ≠ formatRtf ∧
      s.formatNames format = none then false
  else true

/-- The name of the atom. -/
def getClipboardTargetAtom (s : State) (format : ℕ) : Option Text :=
  if format = formatPlaintext then some (bytes "UTF8_STRING")
  else if format = formatHtml then some (bytes "text/html")
  else if format = formatRtf then some (bytes "text/rtf")
  else s.formatNames format

/-! What every interleaving keeps. -/

/-- A name and an identifier that go together: under its identifier a format has that name,
unless it is another name of text. -/
def Names (s : State) (name : Text) (id : ℕ) : Prop :=
  (name ∈ aliases ∧ id = formatPlaintext) ∨ s.formatNames id = some name

structure Kept (s : State) : Prop where
  next : s.nextFormatId + s.creating.length ≤ 1000 + s.calls
  calls : s.calls < 2^31
  custom : 1000 ≤ s.nextFormatId
  builtin : ∀ id < 1000, s.formatNames id = List.lookup id builtinNames
  used : ∀ id name, s.formatNames id = some name → id < s.nextFormatId
  known : ∀ id name, s.formatNames id = some name →
    s.formatIds name ≠ none ∧ name ∉ aliases
  text : ∀ name ∈ textNames, s.formatIds name = some formatPlaintext
  ids : ∀ name id, s.formatIds name = some id → 0 < id ∧ Names s name id
  creating : ∀ c ∈ s.creating, c.2 ∉ textNames
  returned : ∀ r ∈ s.returned, Names s r.1 r.2
  returnedText : ∀ r ∈ s.returned, r.1 ∈ textNames → r.2 = formatPlaintext

theorem mem_of_lookup {α β : Type*} [BEq α] [LawfulBEq α] {l : List (α × β)} {a : α} {b : β}
    (h : List.lookup a l = some b) : (a,b) ∈ l := by
  obtain ⟨l₁,l₂,rfl,_⟩ := List.lookup_eq_some_iff.mp h
  exact List.mem_append_right _ List.mem_cons_self

theorem Kept.loaded : Kept loaded := by
  have hids : ∀ e ∈ builtinIds, 0 < e.2 ∧
      ((e.1 ∈ aliases ∧ e.2 = formatPlaintext) ∨
        List.lookup e.2 builtinNames = some e.1) := by decide
  have hnames : ∀ e ∈ builtinNames, e.1 < 1000 ∧ List.lookup e.2 builtinIds ≠ none ∧
      e.2 ∉ aliases := by decide
  refine ⟨Nat.le_refl _,by decide,Nat.le_refl _,fun _ _ => rfl,fun id name h => ?_,
    fun id name h => ?_,by decide,fun name id h => ?_,nofun,nofun,nofun⟩
  · exact (hnames (id,name) (mem_of_lookup h)).1
  · exact (hnames (id,name) (mem_of_lookup h)).2
  · have hl : List.lookup name builtinIds = some id := h
    exact hids (name,id) (mem_of_lookup hl)

/-- A name that is not found is none of those of text. -/
theorem Kept.lookup {s : State} (h : Kept s) (thread : ℕ) (formatName : Text)
    (hc : s.calls+1 < 2^31) :
    Kept (lookupSection { s with calls := s.calls+1 } thread formatName) := by
  have hnext := h.next
  unfold lookupSection
  dsimp only
  split
  · rename_i hpos
    cases hid : s.formatIds formatName with
    | none =>
      rw [hid] at hpos
      exact absurd hpos (Nat.lt_irrefl 0)
    | some id =>
      refine { h with
        next := Nat.le_succ_of_le hnext
        calls := hc
        returned := fun r hr => ?_
        returnedText := fun r hr hm => ?_ }
      · rcases List.mem_cons.mp hr with rfl | hr
        · exact (h.ids formatName id hid).2
        · exact h.returned r hr
      · rcases List.mem_cons.mp hr with rfl | hr
        · exact Option.some.inj (hid.symm.trans (h.text formatName hm))
        · exact h.returnedText r hr hm
  · rename_i hzero
    refine { h with next := ?_, calls := hc, creating := fun c hc => ?_ }
    · rw [List.length_cons]
      dsimp only
      omega
    · rcases List.mem_cons.mp hc with rfl | hc
      · intro hm
        rw [h.text formatName hm] at hzero
        exact hzero (by decide)
      · exact h.creating c hc

/-- The identifier a new format gets is new. -/
theorem Kept.free {s : State} (h : Kept s) : s.formatNames s.nextFormatId = none := by
  cases hn : s.formatNames s.nextFormatId with
  | none => rfl
  | some name => exact absurd (h.used _ _ hn) (Nat.lt_irrefl _)

/-- A new format takes no identifier from a name. -/
theorem Kept.names_create {s : State} (h : Kept s) (formatName : Text) {name : Text} {id : ℕ}
    (hn : Names s name id) : (name ∈ aliases ∧ id = formatPlaintext) ∨
      Function.update s.formatNames s.nextFormatId (some formatName) id = some name := by
  rcases hn with ha | hn
  · exact Or.inl ha
  · refine Or.inr ?_
    rw [Function.update_of_ne]
    · exact hn
    · rintro rfl
      rw [h.free] at hn
      cases hn

theorem Kept.create {s : State} (h : Kept s) {thread : ℕ} {formatName : Text}
    (hm : (thread,formatName) ∈ s.creating) :
    Kept (createSection
      { s with creating := s.creating.erase (thread,formatName) } formatName) := by
  have hpos := List.length_pos_of_mem hm
  have hlen := List.length_erase_of_mem hm
  have hnext := h.next
  have hcalls := h.calls
  have hcustom := h.custom
  have htext : formatName ∉ textNames := h.creating _ hm
  have hname : formatName ∉ aliases := fun ha => htext (List.mem_cons_of_mem _ ha)
  have hmod : (s.nextFormatId+1) % 2^32 = s.nextFormatId+1 := Nat.mod_eq_of_lt (by omega)
  unfold createSection
  dsimp only
  rw [hmod]
  refine ⟨?_,hcalls,Nat.le_succ_of_le hcustom,fun id hid => ?_,fun id name hn => ?_,
    fun id name hn => ?_,fun name ha => ?_,fun name id hi => ?_,
    fun c hc => h.creating c (List.mem_of_mem_erase hc),fun r hr => ?_,fun r hr ht => ?_⟩
  · dsimp only
    omega
  · have hid' : id ≠ s.nextFormatId := by omega
    exact (Function.update_of_ne hid' ..).trans (h.builtin id hid)
  · dsimp only at hn ⊢
    by_cases hid : id = s.nextFormatId
    · omega
    · rw [Function.update_of_ne hid] at hn
      exact Nat.lt_succ_of_lt (h.used id name hn)
  · dsimp only at hn ⊢
    by_cases hid : id = s.nextFormatId
    · rw [hid,Function.update_self] at hn
      cases hn
      exact ⟨by rw [Function.update_self]; nofun,hname⟩
    · rw [Function.update_of_ne hid] at hn
      obtain ⟨hk,ha⟩ := h.known id name hn
      refine ⟨?_,ha⟩
      by_cases he : name = formatName
      · rw [he,Function.update_self]
        nofun
      · rwa [Function.update_of_ne he]
  · have he : name ≠ formatName := fun he => htext (he ▸ ha)
    exact (Function.update_of_ne he ..).trans (h.text name ha)
  · dsimp only at hi
    by_cases he : name = formatName
    · rw [he,Function.update_self] at hi
      cases hi
      refine ⟨by omega,Or.inr ?_⟩
      rw [he]
      exact Function.update_self ..
    · rw [Function.update_of_ne he] at hi
      obtain ⟨hp,hn⟩ := h.ids name id hi
      exact ⟨hp,h.names_create formatName hn⟩
  · rcases List.mem_cons.mp hr with rfl | hr
    · exact Or.inr (Function.update_self ..)
    · exact h.names_create formatName (h.returned r hr)
  · rcases List.mem_cons.mp hr with rfl | hr
    · exact absurd ht htext
    · exact h.returnedText r hr ht

theorem step_kept {s t : State} {a : Action} (h : Kept s) (hs : step s a = some t) : Kept t := by
  cases a with
  | lookup thread formatName =>
    simp only [step] at hs
    split at hs
    · rename_i hc
      cases hs
      exact h.lookup thread formatName hc.1
    · cases hs
  | create thread formatName =>
    simp only [step] at hs
    split at hs
    · rename_i hm
      cases hs
      exact h.create hm
    · cases hs

/-! What the registry is for. -/

/-- Different names got different identifiers, unless both name text; the names of text all got
that of plain text. -/
def Distinct (s : State) : Prop :=
  (∀ name name' id, (name,id) ∈ s.returned → (name',id) ∈ s.returned →
    name = name' ∨ (name ∈ textNames ∧ name' ∈ textNames)) ∧
    ∀ name id, (name,id) ∈ s.returned → name ∈ textNames → id = formatPlaintext

/-- Each name got one identifier. -/
def SameId (s : State) : Prop :=
  ∀ name id id', (name,id) ∈ s.returned → (name,id') ∈ s.returned → id = id'

/-- The tables are inverse to each other, but for the other names of text, whose identifier has
the name `STRING`. -/
def Inverse (s : State) : Prop :=
  (∀ name id, s.formatNames id = some name ↔ s.formatIds name = some id ∧ name ∉ aliases) ∧
    (∀ name ∈ aliases, s.formatIds name = some formatPlaintext) ∧
      s.formatNames formatPlaintext = some (bytes "STRING")

/-- A format is created only while its name is still absent. -/
def CreatesAbsent (s : State) : Action → Prop
  | .create _ formatName => s.formatIds formatName = none
  | .lookup .. => True

instance (s : State) (a : Action) : Decidable (CreatesAbsent s a) := by
  apply a.casesOn (motive := fun a => Decidable (CreatesAbsent s a)) <;> intros <;>
    dsimp only [CreatesAbsent] <;> infer_instance

theorem Kept.plaintext {s : State} (h : Kept s) :
    s.formatNames formatPlaintext = some (bytes "STRING") :=
  h.builtin formatPlaintext (by decide)

theorem Kept.distinct {s : State} (h : Kept s) : Distinct s := by
  refine ⟨?_,fun name id hr hm => h.returnedText _ hr hm⟩
  intro name name' id hn hn'
  rcases h.returned _ hn with ⟨ha,he⟩ | he <;> rcases h.returned _ hn' with ⟨ha',he'⟩ | he'
  · exact Or.inr ⟨List.mem_cons_of_mem _ ha,List.mem_cons_of_mem _ ha'⟩
  · dsimp only at he he'
    rw [he,h.plaintext] at he'
    cases he'
    exact Or.inr ⟨List.mem_cons_of_mem _ ha,List.mem_cons_self⟩
  · dsimp only at he he'
    rw [he',h.plaintext] at he
    cases he
    exact Or.inr ⟨List.mem_cons_self,List.mem_cons_of_mem _ ha'⟩
  · exact Or.inl (Option.some.inj (he.symm.trans he'))

/-- A name whose identifier is that of a format with the name. -/
theorem Kept.inverse_iff {s : State} (h : Kept s) :
    Inverse s ↔ ∀ id name, s.formatNames id = some name → s.formatIds name = some id := by
  refine ⟨fun hi id name hn => ((hi.1 name id).mp hn).1,fun hi => ⟨fun name id => ?_,
    fun name ha => h.text name (List.mem_cons_of_mem _ ha),h.plaintext⟩⟩
  refine ⟨fun hn => ⟨hi id name hn,(h.known id name hn).2⟩,fun hn => ?_⟩
  rcases (h.ids name id hn.1).2 with ha | he
  · exact absurd ha.1 hn.2
  · exact he

theorem Kept.sameId {s : State} (h : Kept s) (hi : Inverse s) : SameId s := by
  have hnot : ∀ name id, name ∈ aliases → s.formatNames id ≠ some name :=
    fun name id ha hn => (h.known id name hn).2 ha
  intro name id id' hn hn'
  rcases h.returned _ hn with ⟨ha,he⟩ | he <;> rcases h.returned _ hn' with ⟨ha',he'⟩ | he'
  · exact he.trans he'.symm
  · exact absurd he' (hnot _ _ ha)
  · exact absurd he (hnot _ _ ha')
  · have h1 := ((hi.1 name id).mp he).1
    exact Option.some.inj (h1.symm.trans ((hi.1 name id').mp he').1)

theorem inverse_loaded : Inverse loaded := by
  rw [Kept.loaded.inverse_iff]
  have hnames : ∀ e ∈ builtinNames, List.lookup e.2 builtinIds = some e.1 := by decide
  intro id name h
  have hl : List.lookup id builtinNames = some name := h
  exact hnames (id,name) (mem_of_lookup hl)

/-- A section keeps the tables inverse to each other exactly if it creates no format whose
name another thread has created meanwhile. -/
theorem step_inverse {s t : State} {a : Action} (h : Kept s) (hi : Inverse s)
    (hs : step s a = some t) : Inverse t ↔ CreatesAbsent s a := by
  rw [(step_kept h hs).inverse_iff]
  have hback := h.inverse_iff.mp hi
  cases a with
  | lookup thread formatName =>
    refine iff_of_true ?_ trivial
    simp only [step] at hs
    split at hs
    · cases hs
      unfold lookupSection
      dsimp only
      split <;> exact hback
    · cases hs
  | create thread formatName =>
    simp only [step] at hs
    split at hs
    · rename_i hm
      cases hs
      unfold createSection CreatesAbsent
      dsimp only
      constructor
      · intro ht
        cases hid : s.formatIds formatName with
        | none => rfl
        | some id =>
          exfalso
          have hn : s.formatNames id = some formatName :=
            (hi.1 formatName id).mpr
              ⟨hid,fun ha => h.creating _ hm (List.mem_cons_of_mem _ ha)⟩
          have hlt := h.used id formatName hn
          have hne : id ≠ s.nextFormatId := Nat.ne_of_lt hlt
          have hboth := ht id formatName ((Function.update_of_ne hne ..).trans hn)
          rw [Function.update_self] at hboth
          exact hne (Option.some.inj hboth).symm
      · intro hnone id name hn
        by_cases hid : id = s.nextFormatId
        · rw [hid,Function.update_self] at hn
          cases hn
          rw [hid,Function.update_self]
        · rw [Function.update_of_ne hid] at hn
          have hname : name ≠ formatName := fun he => (h.known id name hn).1 (he ▸ hnone)
          rw [Function.update_of_ne hname]
          exact hback id name hn
    · cases hs

def Consistent (s : State) : Prop := SameId s ∧ Inverse s

theorem Kept.consistent_iff {s : State} (h : Kept s) : Consistent s ↔ Inverse s :=
  ⟨And.right,fun hi => ⟨h.sameId hi,hi⟩⟩

/-- A run keeps the registry consistent exactly if no name is created twice. -/
theorem consistent_iff_createsAbsent {ls : List Action} {u : State}
    (hr : registry.exec loaded ls = some u) :
    registry.AlwaysFrom Consistent loaded ls ↔ registry.EachFrom CreatesAbsent loaded ls := by
  refine Machine.always_iff_each Kept (fun _ _ _ h hs => step_kept h hs)
    (fun _ _ _ h hi hs => ?_) Kept.loaded (Kept.loaded.consistent_iff.mpr inverse_loaded) hr
  exact (step_kept h hs).consistent_iff.trans (step_inverse h hi.2 hs)

/-- Different names, those of text apart, always get different identifiers, and those of text
that of plain text. Where no name is created twice, a name always gets the same one and the
tables stay inverse to each other, but for the other names of text. -/
theorem custom_formats {ls : List Action} {u : State} (hr : registry.exec loaded ls = some u) :
    registry.AlwaysFrom Distinct loaded ls ∧
      (registry.EachFrom CreatesAbsent loaded ls → registry.AlwaysFrom Consistent loaded ls) := by
  refine ⟨?_,(consistent_iff_createsAbsent hr).mpr⟩
  refine Machine.AlwaysFrom.mono (fun _ h => Kept.distinct h) ?_
  exact Machine.alwaysFrom_of_invariant (P := Kept) (fun _ _ _ h hs => step_kept h hs)
    Kept.loaded ls

/-- Two threads register two names at once, and each the other's afterwards. -/
def crossed : List Action :=
  [.lookup 0 (bytes "a"),.lookup 1 (bytes "b"),.create 1 (bytes "b"),.lookup 1 (bytes "TEXT"),
    .create 0 (bytes "a"),.lookup 0 (bytes "b"),.lookup 1 (bytes "a")]

theorem crossed_consistent : registry.AlwaysFrom Distinct loaded crossed ∧
    registry.AlwaysFrom Consistent loaded crossed := by
  obtain ⟨u,hr⟩ : ∃ u, registry.exec loaded crossed = some u := ⟨_,rfl⟩
  have h := custom_formats hr
  exact ⟨h.1,h.2 (by decide)⟩

/-- Two names of text have one identifier. -/
theorem text_names : ¬∀ (ls : List Action) (u : State), registry.exec loaded ls = some u →
    ∀ name name' id, (name,id) ∈ u.returned → (name',id) ∈ u.returned → name = name' := by
  intro h
  have heq := h [.lookup 0 (bytes "TEXT"),.lookup 0 (bytes "STRING")] _ rfl (bytes "TEXT")
    (bytes "STRING") formatPlaintext (by decide) (by decide)
  exact absurd heq (by decide)

/-! What a registered format is good for. -/

/-- A format that was registered is supported in both clipboards, and its atom has the name it
was registered under, unless that names text. -/
theorem registered_format {s : State} (h : registry.Reachable s) {name : Text} {id : ℕ}
    (hr : (name,id) ∈ s.returned) {type : ClipboardType} (ht : type ≠ .unknown) :
    clipboardTypeAndFormatAreSupported s type id = true ∧
      (getClipboardTargetAtom s id = some name ∨ id = formatPlaintext) := by
  have hk : Kept s := h.invariant Kept Kept.loaded fun _ _ _ h _ hs => step_kept h hs
  have hname := hk.returned _ hr
  have hhtml : s.formatNames formatHtml = some (bytes "text/html") :=
    hk.builtin formatHtml (by decide)
  have hrtf : s.formatNames formatRtf = some (bytes "text/rtf") := hk.builtin formatRtf (by decide)
  have hsome : id ≠ formatPlaintext → s.formatNames id = some name := by
    intro hid
    rcases hname with ⟨_,he⟩ | he
    · exact absurd he hid
    · exact he
  constructor
  · unfold clipboardTypeAndFormatAreSupported
    rw [if_neg (by cases type <;> simp_all),if_neg]
    rintro ⟨hp,_,_,hnone⟩
    rw [hsome hp] at hnone
    cases hnone
  · by_cases hp : id = formatPlaintext
    · exact Or.inr hp
    · refine Or.inl ?_
      unfold getClipboardTargetAtom
      rw [if_neg hp]
      split
      · rename_i he
        rw [← hsome hp,he,hhtml]
      · split
        · rename_i he
          rw [← hsome hp,he,hrtf]
        · exact hsome hp

end Clipboard
end FreshPlayer
