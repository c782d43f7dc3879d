import FreshPlayer.Clipboard

/-! Data on the clipboard. A format is written under one or more targets and read under one.
GTK keeps the targets in the order they are given, and asks for the first that matches. -/
namespace FreshPlayer
namespace Clipboard

open UriParser

inductive PpVar
  | undefined
  | string (data : List UInt8)
  | arrayBuffer (data : List UInt8)
  | other
  deriving DecidableEq, Repr

/-- An element of the array of items, `struct selection_entry_s`. -/
structure SelectionEntry where
  type : Text
  var : PpVar
  deriving DecidableEq, Repr

/-- The items of the two clipboards; an empty one offers nothing. -/
abbrev Gtk := ClipboardType → List SelectionEntry

/-- The targets of plain text. -/
def textTargets : List Text :=
  [bytes "text/html",bytes "TEXT",bytes "STRING",bytes "UTF8_STRING",bytes "COMPOUND_TEXT"]

/-- What a pass of the loop of `clipboard_write_data_ptac` appends. -/
def entriesOf (s : State) (item : ℕ × PpVar) : List SelectionEntry :=
  if item.1 = formatPlaintext then
    match item.2 with
    | .string _ => textTargets.map fun t => ⟨t,item.2⟩
    | _ => []
  else if item.1 = formatHtml then
    match item.2 with
    | .string _ => [⟨bytes "text/html",item.2⟩]
    | _ => []
  else if item.1 = formatRtf then
    match item.2 with
    | .arrayBuffer _ => [⟨bytes "text/rtf",item.2⟩]
    | _ => []
  else
    match item.2 with
    | .arrayBuffer _ => (getClipboardTargetAtom s item.1).toList.map fun t => ⟨t,item.2⟩
    | _ => []

/-- `gtk_selection_data_set` counts in `gint`. -/
def gtkSelectionDataSet (data : List UInt8) : Option (List UInt8) :=
  if data.length < 2^31 then some data else none

/-- The data of the item with that number. -/
def clipboardGetFunc (items : List SelectionEntry) (info : ℕ) : Option (List UInt8) :=
  items[info]?.bind fun item => match item.var with
    | .string data => gtkSelectionDataSet data
    | .arrayBuffer data => gtkSelectionDataSet data
    | _ => gtkSelectionDataSet []

def gtkClipboardWaitIsTargetAvailable (items : List SelectionEntry) (target : Text) : Bool :=
  items.any fun e => e.type = target

def gtkClipboardWaitForContents (items : List SelectionEntry) (target : Text) :
    Option (List UInt8) :=
  (items.findIdx? fun e => e.type = target).bind (clipboardGetFunc items)

inductive Result
  | ok | failed
  deriving DecidableEq, Repr

/-- GTK may refuse the data. -/
def ppbFlashClipboardWriteData (s : State) (accepts : Bool) (type : ClipboardType)
    (items : List (ℕ × PpVar)) (g : Gtk) : Result × Gtk :=
  if items.all fun item => clipboardTypeAndFormatAreSupported s type item.1 then
    if items = [] then (.ok,Function.update g type [])
    else if accepts then (.ok,Function.update g type (items.flatMap (entriesOf s)))
    else (.failed,g)
  else (.failed,g)

def ppbFlashClipboardIsFormatAvailable (s : State) (g : Gtk) (type : ClipboardType)
    (format : ℕ) : Bool :=
  if clipboardTypeAndFormatAreSupported s type format then
    match getClipboardTargetAtom s format with
    | some target => gtkClipboardWaitIsTargetAvailable (g type) target
    | none => false
  else false

def ppbFlashClipboardReadData (s : State) (g : Gtk) (type : ClipboardType) (format : ℕ) : PpVar :=
  if clipboardTypeAndFormatAreSupported s type format then
    match (getClipboardTargetAtom s format).bind (gtkClipboardWaitForContents (g type)) with
    | some data =>
      if format = formatPlaintext ∨ format = formatHtml then .string data else .arrayBuffer data
    | none => .undefined
  else .undefined

/-! The names of custom formats. A format is created only for a name that is not built in. -/

def builtinTargets : List Text := builtinIds.map Prod.fst

structure Custom (s : State) : Prop where
  ids : ∀ name ∈ builtinTargets, 0 < (s.formatIds name).getD 0
  creating : ∀ c ∈ s.creating, c.2 ∉ builtinTargets
  names : ∀ id name, 1000 ≤ id → s.formatNames id = some name → name ∉ builtinTargets

theorem Custom.loaded : Custom loaded := by
  have hids : ∀ name ∈ builtinTargets, 0 < (List.lookup name builtinIds).getD 0 := by decide
  refine ⟨hids,nofun,fun id name hid h => ?_⟩
  have hnames : ∀ e ∈ builtinNames, e.1 < 1000 := by decide
  have hlt := hnames (id,name) (mem_of_lookup h)
  dsimp only at hlt
  omega

theorem step_custom {s t : State} {a : Action} (h : Custom s) (hs : step s a = some t) :
    Custom t := by
  cases a with
  | lookup thread formatName =>
    obtain ⟨_,hs⟩ := Option.ite_none_right_eq_some.mp hs
    cases hs
    unfold lookupSection
    dsimp only
    split
    · exact ⟨h.ids,h.creating,h.names⟩
    · rename_i hzero
      refine ⟨h.ids,fun c hc => ?_,h.names⟩
      rcases List.mem_cons.mp hc with rfl | hc
      · exact fun hm => hzero (h.ids formatName hm)
      · exact h.creating c hc
  | create thread formatName =>
    obtain ⟨hm,hs⟩ := Option.ite_none_right_eq_some.mp hs
    cases hs
    have hname : formatName ∉ builtinTargets := h.creating _ hm
    refine ⟨fun name hb => ?_,fun c hc => h.creating c (List.mem_of_mem_erase hc),
      fun id name hid hn => ?_⟩
    · have hne : name ≠ formatName := fun he => hname (he ▸ hb)
      unfold createSection
      dsimp only
      rw [Function.update_of_ne hne]
      exact h.ids name hb
    · unfold createSection at hn
      dsimp only at hn
      by_cases hnext : id = s.nextFormatId
      · rw [hnext,Function.update_self] at hn
        exact Option.some.inj hn ▸ hname
      · rw [Function.update_of_ne hnext] at hn
        exact h.names id name hid hn

/-! The names of the formats that are supported, and the targets they give. -/

/-- What a format is known by: only text has more than one target, and only HTML one of these. -/
structure Named (s : State) (format : ℕ) (name : Text) : Prop where
  formatName : s.formatNames format = some name
  notAlias : name ∉ aliases
  text : format = formatPlaintext ↔ name = bytes "STRING"
  html : format = formatHtml ↔ name = bytes "text/html"
  atom : getClipboardTargetAtom s format =
    some (if format = formatPlaintext then bytes "UTF8_STRING" else name)

theorem supported_iff {s : State} {type : ClipboardType} {format : ℕ} :
    clipboardTypeAndFormatAreSupported s type format = true ↔
      (type = .standard ∨ type = .selection) ∧ (format = formatPlaintext ∨
        format = formatHtml ∨ format = formatRtf ∨ s.formatNames format ≠ none) := by
  unfold clipboardTypeAndFormatAreSupported
  split
  · rename_i h
    refine iff_of_false (fun he => nomatch he) fun ht => ?_
    rcases ht.1 with ht | ht
    · exact h.1 ht
    · exact h.2 ht
  split
  · rename_i h
    refine iff_of_false (fun he => nomatch he) fun ht => ?_
    rcases ht.2 with hf | hf | hf | hf
    · exact h.1 hf
    · exact h.2.1 hf
    · exact h.2.2.1 hf
    · exact hf h.2.2.2
  · rename_i htype hformat
    exact iff_of_true rfl ⟨by tauto,by tauto⟩

/-- The three formats there are from the start have names. -/
theorem formatNames_of_supported {s : State} (hk : Kept s) {type : ClipboardType} {format : ℕ}
    (h : clipboardTypeAndFormatAreSupported s type format = true) :
    ∃ name, s.formatNames format = some name := by
  have hnames {id : ℕ} (hid : id < 1000) (hsome : List.lookup id builtinNames ≠ none) :
      s.formatNames id ≠ none := by rwa [hk.builtin id hid]
  refine Option.ne_none_iff_exists'.mp ?_
  rcases (supported_iff.mp h).2 with rfl | rfl | rfl | hsome
  · exact hnames (by decide) (by decide)
  · exact hnames (by decide) (by decide)
  · exact hnames (by decide) (by decide)
  · exact hsome

theorem named_builtin {s : State} (hk : Kept s) {format : ℕ} {name : Text} (hlt : format < 1000)
    (hn : s.formatNames format = some name) : Named s format name := by
  have hbuiltin : ∀ e ∈ builtinNames, (e.1 = formatPlaintext ↔ e.2 = bytes "STRING") ∧
      (e.1 = formatHtml ↔ e.2 = bytes "text/html") ∧
      (e.1 = formatRtf ↔ e.2 = bytes "text/rtf") ∧ (e.1 = formatPlaintext ∨
        e.1 = formatHtml ∨ e.1 = formatRtf) := by decide
  have hmem : (format,name) ∈ builtinNames := mem_of_lookup ((hk.builtin format hlt).symm.trans hn)
  obtain ⟨htext,hhtml,hrtf,hcases⟩ := hbuiltin _ hmem
  dsimp only at htext hhtml hrtf hcases
  refine ⟨hn,(hk.known format name hn).2,htext,hhtml,?_⟩
  unfold getClipboardTargetAtom
  by_cases h1 : format = formatPlaintext
  · rw [if_pos h1,if_pos h1]
  by_cases h2 : format = formatHtml
  · rw [if_neg h1,if_pos h2,if_neg h1,hhtml.mp h2]
  · have h3 : format = formatRtf := (hcases.resolve_left h1).resolve_left h2
    rw [if_neg h1,if_neg h2,if_pos h3,if_neg h1,hrtf.mp h3]

/-- A registered format has none of the names there are from the start. -/
theorem named_custom {s : State} (hk : Kept s) (hc : Custom s) {format : ℕ} {name : Text}
    (hge : 1000 ≤ format) (hn : s.formatNames format = some name) : Named s format name := by
  have hname := hc.names format name hge hn
  have hne {id : ℕ} (hid : id < 1000) : format ≠ id := by omega
  have h1 : format ≠ formatPlaintext := hne (by decide)
  have h2 : format ≠ formatHtml := hne (by decide)
  have h3 : format ≠ formatRtf := hne (by decide)
  refine ⟨hn,(hk.known format name hn).2,iff_of_false h1 ?_,iff_of_false h2 ?_,?_⟩
  · rintro rfl
    exact hname (by decide)
  · rintro rfl
    exact hname (by decide)
  · unfold getClipboardTargetAtom
    rw [if_neg h1,if_neg h2,if_neg h3,if_neg h1,hn]

theorem named_of_supported {s : State} (hk : Kept s) (hc : Custom s) {type : ClipboardType}
    {format : ℕ} (h : clipboardTypeAndFormatAreSupported s type format = true) :
    ∃ name, Named s format name := by
  obtain ⟨name,hn⟩ := formatNames_of_supported hk h
  rcases Nat.lt_or_ge format 1000 with hlt | hge
  · exact ⟨name,named_builtin hk hlt hn⟩
  · exact ⟨name,named_custom hk hc hge hn⟩

/-- The targets a format is written under. -/
def targetsOf (s : State) (format : ℕ) : List Text :=
  if format = formatPlaintext then textTargets else (getClipboardTargetAtom s format).toList

/-- What is written under `format'` is offered under the target of `format`. -/
def Serves (s : State) (format' format : ℕ) : Prop :=
  ∃ target, getClipboardTargetAtom s format = some target ∧ target ∈ targetsOf s format'

theorem Named.serves {s : State} {format format' : ℕ} {name : Text} (h : Named s format name) :
    Serves s format' format ↔
      (if format = formatPlaintext then bytes "UTF8_STRING" else name) ∈ targetsOf s format' := by
  unfold Serves
  rw [h.atom]
  exact ⟨fun ⟨_,he,hm⟩ => Option.some.inj he ▸ hm,fun hm => ⟨_,rfl,hm⟩⟩

theorem serves_iff {s : State} {format format' : ℕ} {name name' : Text}
    (h : Named s format name) (h' : Named s format' name') :
    Serves s format' format ↔
      (format' = formatPlaintext ∧ format = formatHtml) ∨ name = name' := by
  have halias : ∀ t ∈ textTargets, t ∈ aliases ∨ t = bytes "STRING" ∨ t = bytes "text/html" := by
    decide
  rw [h.serves,targetsOf,h'.atom]
  by_cases ht : format = formatPlaintext <;> by_cases ht' : format' = formatPlaintext
  · rw [if_pos ht,if_pos ht']
    exact iff_of_true (by decide) (Or.inr ((h.text.mp ht).trans (h'.text.mp ht').symm))
  · rw [if_pos ht,if_neg ht',if_neg ht']
    refine iff_of_false (fun hm => ?_) ?_
    · have he : bytes "UTF8_STRING" = name' := List.mem_singleton.mp hm
      exact h'.notAlias (he ▸ by decide)
    · rintro (⟨hp,_⟩ | he)
      · exact ht' hp
      · exact ht' (h'.text.mpr (he ▸ h.text.mp ht))
  · rw [if_neg ht,if_pos ht']
    constructor
    · intro hm
      rcases halias name hm with ha | hs | hh
      · exact absurd ha h.notAlias
      · exact absurd (h.text.mpr hs) ht
      · exact Or.inl ⟨ht',h.html.mpr hh⟩
    · rintro (⟨_,hh⟩ | he)
      · rw [h.html.mp hh]
        decide
      · exact absurd (h.text.mpr (he.trans (h'.text.mp ht'))) ht
  · rw [if_neg ht,if_neg ht',if_neg ht']
    refine ⟨fun hm => Or.inr (List.mem_singleton.mp hm),?_⟩
    rintro (⟨hp,_⟩ | he)
    · exact absurd hp ht'
    · exact List.mem_singleton.mpr he

end Clipboard
end FreshPlayer
