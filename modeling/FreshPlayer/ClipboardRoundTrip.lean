import FreshPlayer.ClipboardTransfer
import Mathlib.Data.List.Sublists

/-! What is written to the clipboard and what is read from it. -/
namespace FreshPlayer
namespace Clipboard

open UriParser

def PpVar.data : PpVar → List UInt8
  | .string data | .arrayBuffer data => data
  | _ => []

/-- A string for plain text and HTML, an array buffer for the others. -/
def varOf (format : ℕ) (data : List UInt8) : PpVar :=
  if format = formatPlaintext ∨ format = formatHtml then .string data else .arrayBuffer data

def WellTyped (item : ℕ × PpVar) : Prop := ∃ data, item.2 = varOf item.1 data

/-- The formats written are available and no others, and each has the data written with it. -/
def RoundTrips (s : State) (g : Gtk) (type : ClipboardType) (items : List (ℕ × PpVar)) : Prop :=
  (∀ format, ppbFlashClipboardIsFormatAvailable s g type format = true ↔
    format ∈ items.map Prod.fst) ∧
  ∀ item ∈ items, ppbFlashClipboardReadData s g type item.1 = item.2

/-- Plain text does not stand for HTML: HTML is written too, and before it, or is the same text.
No other format has the name of one that is written, unless its data are the same. The length
of the data is an `int`. -/
structure Apart (s : State) (items : List (ℕ × PpVar)) : Prop where
  html : ∀ v, (formatPlaintext,v) ∈ items → ∃ v', (formatHtml,v') ∈ items ∧
    (v' = v ∨ [(formatHtml,v'),(formatPlaintext,v)].Sublist items)
  names : ∀ item ∈ items, ∀ format, s.formatNames format = s.formatNames item.1 →
    (format,item.2) ∈ items
  lengths : ∀ item ∈ items, item.2.data.length < 2^31

variable {s : State} {items : List (ℕ × PpVar)}

theorem entriesOf_eq {item : ℕ × PpVar} (h : WellTyped item)
    (hnamed : ∃ name, Named s item.1 name) :
    entriesOf s item = (targetsOf s item.1).map fun t => ⟨t,item.2⟩ := by
  obtain ⟨format,var⟩ := item
  obtain ⟨data,rfl⟩ : ∃ data, var = varOf format data := h
  obtain ⟨name,hname⟩ := hnamed
  unfold entriesOf targetsOf varOf
  by_cases h1 : format = formatPlaintext
  · rw [if_pos h1,if_pos h1,if_pos (Or.inl h1)]
  by_cases h2 : format = formatHtml
  · rw [if_neg h1,if_pos h2,if_neg h1,if_pos (Or.inr h2)]
    dsimp only
    rw [hname.atom,if_neg h1,hname.html.mp h2]
    rfl
  rw [if_neg h1,if_neg h1,if_neg h2,if_neg (not_or.mpr ⟨h1,h2⟩)]
  by_cases h3 : format = formatRtf
  · rw [if_pos h3,h3]
    rfl
  · rw [if_neg h3]

theorem waitForContents_eq (entries : List SelectionEntry) (target : Text) :
    gtkClipboardWaitForContents entries target =
      (entries.find? fun e => e.type = target).bind fun e => gtkSelectionDataSet e.var.data := by
  unfold gtkClipboardWaitForContents
  induction entries with
  | nil => rfl
  | cons e entries ih =>
    by_cases he : e.type = target
    · rw [List.findIdx?_cons,List.find?_cons_of_pos (by exact decide_eq_true he)]
      simp only [he,decide_true,if_true,Option.bind_some]
      cases hv : e.var <;> simp [clipboardGetFunc,PpVar.data,hv]
    · rw [List.findIdx?_cons,List.find?_cons_of_neg (by simpa using he),← ih]
      simp only [he,decide_false,if_false,Bool.false_eq_true,Option.bind_map]
      rfl

theorem find?_targets (targets : List Text) (var : PpVar) (target : Text) :
    ((targets.map fun t => SelectionEntry.mk t var).find? fun e => e.type = target) =
      if target ∈ targets then some ⟨target,var⟩ else none := by
  induction targets with
  | nil => rfl
  | cons t targets ih =>
    rw [List.map_cons]
    by_cases ht : t = target
    · subst ht
      rw [List.find?_cons_of_pos (by exact decide_eq_true rfl),if_pos List.mem_cons_self]
    · rw [List.find?_cons_of_neg (by simpa using ht),ih]
      simp only [List.mem_cons,Ne.symm ht,false_or]

/-- The first entry of a target is that of the first item with the target. -/
theorem find?_entries (h : ∀ item ∈ items, entriesOf s item =
      (targetsOf s item.1).map fun t => ⟨t,item.2⟩) (target : Text) :
    ((items.flatMap (entriesOf s)).find? fun e => e.type = target) =
      (items.find? fun item => target ∈ targetsOf s item.1).map fun item => ⟨target,item.2⟩ := by
  induction items with
  | nil => rfl
  | cons item items ih =>
    obtain ⟨hitem,hrest⟩ := List.forall_mem_cons.mp h
    rw [List.flatMap_cons,List.find?_append,ih hrest,hitem,find?_targets]
    by_cases hm : target ∈ targetsOf s item.1
    · rw [List.find?_cons_of_pos (by exact decide_eq_true hm),if_pos hm]
      rfl
    · rw [List.find?_cons_of_neg (by simpa using hm),if_neg hm]
      rfl

theorem supported_of_ok {accepts : Bool} {type : ClipboardType} {g g' : Gtk}
    (h : ppbFlashClipboardWriteData s accepts type items g = (.ok,g')) :
    (∀ item ∈ items, clipboardTypeAndFormatAreSupported s type item.1 = true) ∧
      g' type = items.flatMap (entriesOf s) := by
  unfold ppbFlashClipboardWriteData at h
  split at h
  · rename_i hall
    refine ⟨List.all_eq_true.mp hall,?_⟩
    split at h
    · rename_i hnil
      cases h
      rw [hnil]
      exact Function.update_self ..
    · split at h
      · cases h
        exact Function.update_self ..
      · cases h
  · cases h

/-! Reading in terms of the first item that serves a format. -/

variable {g : Gtk} {type : ClipboardType} {format : ℕ} {name : Text}

theorem available_iff (hg : g type = items.flatMap (entriesOf s))
    (hentries : ∀ item ∈ items, entriesOf s item =
      (targetsOf s item.1).map fun t => ⟨t,item.2⟩)
    (hsup : clipboardTypeAndFormatAreSupported s type format = true)
    (hnamed : Named s format name) :
    ppbFlashClipboardIsFormatAvailable s g type format = true ↔
      ∃ item ∈ items, Serves s item.1 format := by
  unfold ppbFlashClipboardIsFormatAvailable
  rw [if_pos hsup,hnamed.atom,hg]
  dsimp only
  rw [gtkClipboardWaitIsTargetAvailable,← List.isSome_find?,find?_entries hentries,
    Option.isSome_map,List.isSome_find?,List.any_eq_true]
  refine exists_congr fun item => and_congr_right fun _ => ?_
  rw [hnamed.serves,decide_eq_true_iff]

theorem readData_eq (hg : g type = items.flatMap (entriesOf s))
    (hentries : ∀ item ∈ items, entriesOf s item =
      (targetsOf s item.1).map fun t => ⟨t,item.2⟩)
    (hsup : clipboardTypeAndFormatAreSupported s type format = true)
    (hnamed : Named s format name) (hserved : ∃ item ∈ items, Serves s item.1 format) :
    ∃ front item back, items = front ++ item::back ∧ Serves s item.1 format ∧
      (∀ i ∈ front, ¬Serves s i.1 format) ∧
      ppbFlashClipboardReadData s g type format =
        if item.2.data.length < 2^31 then varOf format item.2.data else .undefined := by
  simp only [hnamed.serves] at hserved ⊢
  unfold ppbFlashClipboardReadData
  rw [if_pos hsup,hnamed.atom,hg,Option.bind_some,waitForContents_eq,find?_entries hentries]
  set target := if format = formatPlaintext then bytes "UTF8_STRING" else name
  cases hfind : items.find? fun item => target ∈ targetsOf s item.1 with
  | none =>
    obtain ⟨item,hitem,hm⟩ := hserved
    exact absurd (decide_eq_true hm) (List.find?_eq_none.mp hfind item hitem)
  | some item =>
    obtain ⟨hm,front,back,hitems,hfront⟩ := List.find?_eq_some_iff_append.mp hfind
    refine ⟨front,item,back,hitems,of_decide_eq_true hm,fun i hi => ?_,?_⟩
    · simpa using hfront i hi
    · rw [Option.map_some,Option.bind_some,gtkSelectionDataSet]
      dsimp only
      by_cases hlength : item.2.data.length < 2^31
      · rw [if_pos hlength,if_pos hlength]
        rfl
      · rw [if_neg hlength,if_neg hlength]

/-- What is read is the data of the first item that serves the format, which holds the right
kind of data for it. -/
theorem varOf_of_serves {item : ℕ × PpVar} {name' : Text} (h : Named s format name)
    (h' : Named s item.1 name') (hserves : Serves s item.1 format) (ht : WellTyped item) :
    varOf format item.2.data = item.2 := by
  obtain ⟨format',var⟩ := item
  obtain ⟨data,rfl⟩ : ∃ data, var = varOf format' data := ht
  have hkind : (format = formatPlaintext ∨ format = formatHtml) ↔
      (format' = formatPlaintext ∨ format' = formatHtml) := by
    rcases (serves_iff h h').mp hserves with ⟨hp,hh⟩ | rfl
    · exact iff_of_true (Or.inr hh) (Or.inl hp)
    · exact or_congr (h.text.trans h'.text.symm) (h.html.trans h'.html.symm)
  have hdata : (varOf format' data).data = data := by
    unfold varOf
    split <;> rfl
  dsimp only
  rw [hdata]
  unfold varOf
  simp only [hkind]

/-- All that a write that succeeded says of its items. -/
structure Written (s : State) (g : Gtk) (type : ClipboardType) (items : List (ℕ × PpVar)) :
    Prop where
  supported : ∀ item ∈ items, clipboardTypeAndFormatAreSupported s type item.1 = true
  names : ∀ format, clipboardTypeAndFormatAreSupported s type format = true →
    ∃ name, Named s format name
  offered : g type = items.flatMap (entriesOf s)
  typed : ∀ item ∈ items, WellTyped item
  nodup : (items.map Prod.fst).Nodup

theorem Written.named (h : Written s g type items) {item : ℕ × PpVar} (hi : item ∈ items) :
    ∃ name, Named s item.1 name := h.names item.1 (h.supported item hi)

theorem Written.entries (h : Written s g type items) : ∀ item ∈ items, entriesOf s item =
    (targetsOf s item.1).map fun t => ⟨t,item.2⟩ :=
  fun item hi => entriesOf_eq (h.typed item hi) (h.named hi)

theorem serves_self (hnamed : Named s format name) : Serves s format format :=
  (serves_iff hnamed hnamed).mpr (Or.inr rfl)

/-- The data of a format are read back exactly if the first item that serves it has them. -/
theorem Written.reads (h : Written s g type items) {item : ℕ × PpVar} (hi : item ∈ items) :
    ∃ front first back, items = front ++ first::back ∧ Serves s first.1 item.1 ∧
      (∀ i ∈ front, ¬Serves s i.1 item.1) ∧
      (ppbFlashClipboardReadData s g type item.1 = item.2 ↔
        first.2 = item.2 ∧ item.2.data.length < 2^31) := by
  obtain ⟨name,hnamed⟩ := h.named hi
  obtain ⟨front,first,back,hitems,hserves,hfront,hread⟩ :=
    readData_eq h.offered h.entries (h.supported item hi) hnamed ⟨item,hi,serves_self hnamed⟩
  refine ⟨front,first,back,hitems,hserves,hfront,?_⟩
  have hfirst : first ∈ items := hitems ▸ List.mem_append_right front List.mem_cons_self
  obtain ⟨name',hnamed'⟩ := h.named hfirst
  rw [hread]
  split
  · rename_i hlength
    rw [varOf_of_serves hnamed hnamed' hserves (h.typed first hfirst)]
    exact ⟨fun he => ⟨he,he ▸ hlength⟩,fun he => he.1⟩
  · rename_i hlength
    refine iff_of_false (fun he => ?_) fun he => hlength (he.1 ▸ he.2)
    obtain ⟨data,hdata⟩ := h.typed item hi
    rw [← he] at hdata
    unfold varOf at hdata
    split at hdata <;> cases hdata

theorem Written.unique (h : Written s g type items) {i j : ℕ × PpVar} (hi : i ∈ items)
    (hj : j ∈ items) (he : i.1 = j.1) : i = j :=
  List.inj_on_of_nodup_map h.nodup hi hj he

/-- A format that is served is one of those written, if the formats written are read. -/
theorem Written.mem_of_serves (h : Written s g type items) (hr : RoundTrips s g type items)
    {item : ℕ × PpVar} (hi : item ∈ items)
    (hsup : clipboardTypeAndFormatAreSupported s type format = true)
    (hserves : Serves s item.1 format) : ∃ var, (format,var) ∈ items := by
  obtain ⟨name,hnamed⟩ := h.names format hsup
  have havail := (available_iff h.offered h.entries hsup hnamed).mpr ⟨item,hi,hserves⟩
  obtain ⟨⟨_,var⟩,hm,rfl⟩ := List.mem_map.mp ((hr.1 format).mp havail)
  exact ⟨var,hm⟩

/-- Formats of one name are read alike. -/
theorem readData_congr {format' : ℕ} (h : Named s format name) (h' : Named s format' name)
    (hsup : clipboardTypeAndFormatAreSupported s type format = true)
    (hsup' : clipboardTypeAndFormatAreSupported s type format' = true) :
    ppbFlashClipboardReadData s g type format = ppbFlashClipboardReadData s g type format' := by
  have htext : format = formatPlaintext ↔ format' = formatPlaintext := h.text.trans h'.text.symm
  have hhtml : format = formatHtml ↔ format' = formatHtml := h.html.trans h'.html.symm
  unfold ppbFlashClipboardReadData
  rw [if_pos hsup,if_pos hsup',h.atom,h'.atom]
  simp only [htext,hhtml]

/-- Of two elements in order, the first is in front of the second. -/
theorem mem_of_pair_sublist {α : Type*} {a b : α} {front back : List α}
    (h : (front ++ b::back).Nodup) (hs : [a,b].Sublist (front ++ b::back)) : a ∈ front := by
  have hb : b ∉ back := (List.nodup_cons.mp (List.nodup_append.mp h).2.1).1
  obtain ⟨l₁,l₂,hl,h₁,h₂⟩ := List.sublist_append_iff.mp hs
  cases l₁ with
  | nil =>
    rw [List.nil_append] at hl
    subst hl
    rcases List.sublist_cons_iff.mp h₂ with h₂ | ⟨r,hr,h₂⟩
    · exact absurd (h₂.subset (List.mem_cons_of_mem a List.mem_cons_self)) hb
    · cases hr
      exact absurd (h₂.subset List.mem_cons_self) hb
  | cons x l₁ =>
    obtain ⟨rfl,_⟩ := List.cons.inj hl
    exact h₁.subset List.mem_cons_self

theorem Written.supported_of_name (h : Written s g type items) {item : ℕ × PpVar}
    (hi : item ∈ items) (hname : s.formatNames format ≠ none) :
    clipboardTypeAndFormatAreSupported s type format = true :=
  supported_iff.mpr ⟨(supported_iff.mp (h.supported item hi)).1,Or.inr (Or.inr (Or.inr hname))⟩

/-- Plain text serves HTML, so HTML is written too, and first if it differs. -/
theorem Written.html_of_roundTrips (h : Written s g type items) (hr : RoundTrips s g type items)
    {v : PpVar} (hv : (formatPlaintext,v) ∈ items) :
    ∃ v', (formatHtml,v') ∈ items ∧
      (v' = v ∨ [(formatHtml,v'),(formatPlaintext,v)].Sublist items) := by
  have hsup : clipboardTypeAndFormatAreSupported s type formatHtml = true :=
    supported_iff.mpr ⟨(supported_iff.mp (h.supported _ hv)).1,Or.inr (Or.inl rfl)⟩
  obtain ⟨name,hnamed⟩ := h.names formatHtml hsup
  obtain ⟨_,htext⟩ := h.named hv
  have hserves : Serves s formatPlaintext formatHtml :=
    (serves_iff hnamed htext).mpr (Or.inl ⟨rfl,rfl⟩)
  obtain ⟨v',hv'⟩ := h.mem_of_serves hr hv hsup hserves
  refine ⟨v',hv',?_⟩
  obtain ⟨front,first,back,hitems,hfirst,hfront,hread⟩ := h.reads hv'
  have hmem : first ∈ items := hitems ▸ List.mem_append_right front List.mem_cons_self
  have heq := (hread.mp (hr.2 _ hv')).1
  obtain ⟨_,hnamed'⟩ := h.named hmem
  rcases (serves_iff hnamed hnamed').mp hfirst with ⟨hp,_⟩ | he
  · exact Or.inl (heq.symm.trans (congrArg Prod.snd (h.unique hmem hv hp)))
  · -- HTML comes first, so plain text is in the rest
    refine Or.inr ?_
    have hhtml : first = (formatHtml,v') :=
      h.unique hmem hv' (hnamed'.html.mpr (he ▸ hnamed.html.mp rfl))
    have hback : (formatPlaintext,v) ∈ back := by
      rcases List.mem_append.mp (hitems ▸ hv) with hm | hm
      · exact absurd hserves (hfront _ hm)
      · rcases List.mem_cons.mp hm with he | hm
        · rw [hhtml] at he
          cases he
        · exact hm
    rw [hitems,hhtml]
    exact ((List.singleton_sublist.mpr hback).cons_cons _).trans (List.sublist_append_right front _)

/-- A format of the same name is served, so it is written too, and read alike. -/
theorem Written.names_of_roundTrips (h : Written s g type items) (hr : RoundTrips s g type items)
    {item : ℕ × PpVar} (hi : item ∈ items) (hname : s.formatNames format = s.formatNames item.1) :
    (format,item.2) ∈ items := by
  obtain ⟨name,hnamed⟩ := h.named hi
  rw [hnamed.formatName] at hname
  have hsup := h.supported_of_name hi (Option.ne_none_iff_exists'.mpr ⟨name,hname⟩)
  obtain ⟨name',hnamed'⟩ := h.names format hsup
  cases Option.some.inj (hname.symm.trans hnamed'.formatName)
  obtain ⟨v,hv⟩ := h.mem_of_serves hr hi hsup ((serves_iff hnamed' hnamed).mpr (Or.inr rfl))
  have hread := readData_congr (g := g) hnamed' hnamed hsup (h.supported _ hi)
  rw [hr.2 item hi,hr.2 _ hv] at hread
  exact hread ▸ hv

theorem Written.apart_of_roundTrips (h : Written s g type items)
    (hr : RoundTrips s g type items) : Apart s items where
  html _ hv := h.html_of_roundTrips hr hv
  names _ hi _ hname := h.names_of_roundTrips hr hi hname
  lengths item hi := by
    obtain ⟨_,_,_,_,_,_,hread⟩ := h.reads hi
    exact (hread.mp (hr.2 item hi)).2

theorem supported_of_available (h : ppbFlashClipboardIsFormatAvailable s g type format = true) :
    clipboardTypeAndFormatAreSupported s type format = true := by
  unfold ppbFlashClipboardIsFormatAvailable at h
  split at h
  · assumption
  · cases h

/-- What serves a format is of the format, or of its name, or plain text for HTML. -/
theorem Written.mem_of_available (h : Written s g type items) (ha : Apart s items)
    (havail : ppbFlashClipboardIsFormatAvailable s g type format = true) :
    format ∈ items.map Prod.fst := by
  have hsup := supported_of_available havail
  obtain ⟨name,hnamed⟩ := h.names format hsup
  obtain ⟨item,hi,hserves⟩ := (available_iff h.offered h.entries hsup hnamed).mp havail
  obtain ⟨name',hnamed'⟩ := h.named hi
  rcases (serves_iff hnamed hnamed').mp hserves with ⟨hp,rfl⟩ | rfl
  · obtain ⟨v',hv',_⟩ := ha.html item.2 (hp ▸ hi)
    exact List.mem_map.mpr ⟨_,hv',rfl⟩
  · have hmem := ha.names item hi format (hnamed.formatName.trans hnamed'.formatName.symm)
    exact List.mem_map.mpr ⟨_,hmem,rfl⟩

/-- The first item that serves a format has its data. -/
theorem Written.first_of_apart (h : Written s g type items) (ha : Apart s items)
    {item first : ℕ × PpVar} {front back : List (ℕ × PpVar)} (hi : item ∈ items)
    (hitems : items = front ++ first::back) (hserves : Serves s first.1 item.1)
    (hfront : ∀ i ∈ front, ¬Serves s i.1 item.1) : first.2 = item.2 := by
  have hmem : first ∈ items := hitems ▸ List.mem_append_right front List.mem_cons_self
  obtain ⟨name,hnamed⟩ := h.named hi
  obtain ⟨name',hnamed'⟩ := h.named hmem
  rcases (serves_iff hnamed hnamed').mp hserves with ⟨hp,hh⟩ | rfl
  · obtain ⟨v',hv',hor⟩ := ha.html first.2 (hp ▸ hmem)
    have hv : (formatHtml,v') = item := h.unique hv' hi hh.symm
    rcases hor with he | hsub
    · rw [← hv,he]
    · -- HTML before plain text would have been found
      have hfirst : first = (formatPlaintext,first.2) := Prod.ext hp rfl
      rw [hitems,hfirst] at hsub
      have hmem := mem_of_pair_sublist (hfirst ▸ hitems ▸ h.nodup.of_map) hsub
      exact absurd (serves_self hnamed) (hh ▸ hfront _ hmem)
  · have hm := ha.names first hmem item.1 (hnamed.formatName.trans hnamed'.formatName.symm)
    have hsnd := congrArg Prod.snd (h.unique hm hi rfl)
    exact hsnd

theorem Written.roundTrips_of_apart (h : Written s g type items) (ha : Apart s items) :
    RoundTrips s g type items := by
  refine ⟨fun format => ⟨h.mem_of_available ha,fun hm => ?_⟩,fun item hi => ?_⟩
  · obtain ⟨item,hi,rfl⟩ := List.mem_map.mp hm
    obtain ⟨name,hnamed⟩ := h.named hi
    exact (available_iff h.offered h.entries (h.supported item hi) hnamed).mpr
      ⟨item,hi,serves_self hnamed⟩
  · obtain ⟨front,first,back,hitems,hserves,hfront,hread⟩ := h.reads hi
    exact hread.mpr ⟨h.first_of_apart ha hi hitems hserves hfront,ha.lengths item hi⟩

/-- Whatever formats have been registered, a write is read back exactly if its items keep
apart. -/
theorem write_roundTrips (hs : registry.Reachable s) (accepts : Bool) (g' : Gtk)
    (hnodup : (items.map Prod.fst).Nodup) (htyped : ∀ item ∈ items, WellTyped item)
    (hw : ppbFlashClipboardWriteData s accepts type items g = (.ok,g')) :
    RoundTrips s g' type items ↔ Apart s items := by
  have hk : Kept s ∧ Custom s := hs.invariant (fun s => Kept s ∧ Custom s)
    ⟨Kept.loaded,Custom.loaded⟩
    fun _ _ _ h _ ht => ⟨step_kept h.1 ht,step_custom h.2 ht⟩
  obtain ⟨hsup,hoffered⟩ := supported_of_ok hw
  have h : Written s g' type items :=
    ⟨hsup,fun _ => named_of_supported hk.1 hk.2,hoffered,htyped,hnodup⟩
  exact ⟨h.apart_of_roundTrips,h.roundTrips_of_apart⟩

def plain : ℕ × PpVar := (formatPlaintext,.string (bytes "a"))
def html : ℕ × PpVar := (formatHtml,.string (bytes "<b>a</b>"))

/-- With HTML in front of it, plain text is written and read back. -/
theorem html_plain_roundTrips : RoundTrips loaded
    (ppbFlashClipboardWriteData loaded true .standard [html,plain] fun _ => []).2
    .standard [html,plain] := by
  have hnames (format format' : ℕ) (h : List.lookup format builtinNames =
      List.lookup format' builtinNames) (h' : format' = formatHtml ∨ format' = formatPlaintext) :
      format = format' := by
    have hinj : ∀ e ∈ builtinNames, (e.2 = bytes "text/html" → e.1 = formatHtml) ∧
        (e.2 = bytes "STRING" → e.1 = formatPlaintext) := by decide
    rcases h' with rfl | rfl
    · exact (hinj _ (mem_of_lookup h)).1 rfl
    · exact (hinj _ (mem_of_lookup h)).2 rfl
  refine (write_roundTrips (g := fun _ => []) .start true _ (by decide) ?_ rfl).mpr
    ⟨fun v hv => ?_,fun item hi format hname => ?_,fun item hi => ?_⟩
  · exact List.forall_mem_cons.mpr ⟨⟨_,rfl⟩,List.forall_mem_singleton.mpr ⟨_,rfl⟩⟩
  · rcases List.mem_pair.mp hv with hv | hv <;> cases hv
    exact ⟨_,List.mem_cons_self,Or.inr (List.Sublist.refl _)⟩
  · have hsame : format = item.1 := hnames format item.1 hname
      (by rcases List.mem_pair.mp hi with rfl | rfl <;> decide)
    exact hsame ▸ hi
  · rcases List.mem_pair.mp hi with rfl | rfl <;> decide

/-- Plain text alone passes for HTML, and in front of HTML is read instead of it. -/
theorem plain_read_as_html :
    (let g := (ppbFlashClipboardWriteData loaded true .standard [plain] fun _ => []).2
     ppbFlashClipboardIsFormatAvailable loaded g .standard formatHtml = true ∧
      ¬RoundTrips loaded g .standard [plain]) ∧
    let g := (ppbFlashClipboardWriteData loaded true .standard [plain,html] fun _ => []).2
    ppbFlashClipboardReadData loaded g .standard formatHtml = plain.2 ∧
      ¬RoundTrips loaded g .standard [plain,html] := by
  refine ⟨⟨by decide,fun h => ?_⟩,by decide,fun h => ?_⟩
  · exact absurd ((h.1 formatHtml).mp (by decide)) (by decide)
  · exact absurd (h.2 html (by decide)) (by decide)

end Clipboard
end FreshPlayer
