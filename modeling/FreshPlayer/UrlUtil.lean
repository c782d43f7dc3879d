import FreshPlayer.UriParser
import FreshPlayer.VarAccounting

/-! The vars the URL functions return. Whoever calls one of them releases what it gets, so
each has to come with a reference of its own; those of an instance keep the one it has. -/
namespace FreshPlayer
namespace UrlUtil

open UriParser Var

structure Instance where
  documentUrl : PPVar
  instanceUrl : PPVar
  documentBaseUrl : PPVar

/-- The table of vars, and the returned vars not released yet. -/
structure State where
  vars : Var.State
  returned : List PPVar

/-- A returned var, with the components if they were asked for. -/
abbrev Returned := PPVar × Option UrlComponents

/-- Anything but a string has no text. -/
def utf8 (s : Var.State) (var : PPVar) : Text :=
  if var.type = .string then ppbVarVarToUtf8 s var else []

def componentsOf (components : Bool) (url : Text) : Option UrlComponents :=
  if components then some (uriParserParseUri url) else none

def ppbUrlUtilCanonicalize (s : Var.State) (url : PPVar) (components : Bool) : Returned :=
  (url,componentsOf components (utf8 s url))

def ppbUrlUtilResolveRelativeToUrl (s : Var.State) (baseUrl relativeString : PPVar)
    (components : Bool) : Option (Var.State × Returned) :=
  let res := uriParserMergeUris (utf8 s baseUrl) (utf8 s relativeString)
  (ppbVarVarFromUtf8 s res).map fun (t,var) => (t,var,componentsOf components res)

def ppbUrlUtilResolveRelativeToDocument (s : Var.State) (ppI : Option Instance)
    (relativeString : PPVar) (components : Bool) : Option (Var.State × Returned) :=
  match ppI with
  | none => some (s,ppMakeUndefined,none)
  | some ppI => ppbUrlUtilResolveRelativeToUrl s ppI.documentBaseUrl relativeString components

def ppbUrlUtilGetDocumentUrl (s : Var.State) (ppI : Option Instance) (components : Bool) :
    Returned :=
  match ppI with
  | none => (ppMakeUndefined,none)
  | some ppI => (ppI.documentUrl,componentsOf components (utf8 s ppI.documentUrl))

def ppbUrlUtilGetPluginInstanceUrl (s : Var.State) (ppI : Option Instance) (components : Bool) :
    Var.State × Returned :=
  match ppI with
  | none => (s,ppMakeUndefined,none)
  | some ppI =>
    let t := ppbVarAddRef s ppI.instanceUrl
    (t,ppI.instanceUrl,componentsOf components (utf8 t ppI.instanceUrl))

def ppbUrlUtilGetPluginReferrerUrl (s : Var.State) (components : Bool) :
    Option (Var.State × Returned) :=
  (ppbVarVarFromUtf8 s []).map fun (t,var) => (t,var,componentsOf components [])

inductive Action
  | canonicalize (url : PPVar) (components : Bool)
  | resolveRelativeToUrl (baseUrl relativeString : PPVar) (components : Bool)
  | resolveRelativeToDocument (ppInstance : ℕ) (relativeString : PPVar) (components : Bool)
  | getDocumentUrl (ppInstance : ℕ) (components : Bool)
  | getPluginInstanceUrl (ppInstance : ℕ) (components : Bool)
  | getPluginReferrerUrl (components : Bool)
  | release (var : PPVar)
  deriving DecidableEq, Repr

def State.hand (s : State) (r : Var.State × Returned) : State := ⟨r.1,r.2.1::s.returned⟩

/-- The caller releases what was returned to it, each once. -/
def step (instances : ℕ → Option Instance) (s : State) : Action → Option State
  | .canonicalize url components =>
    some (s.hand (s.vars,ppbUrlUtilCanonicalize s.vars url components))
  | .resolveRelativeToUrl baseUrl relativeString components =>
    (ppbUrlUtilResolveRelativeToUrl s.vars baseUrl relativeString components).map s.hand
  | .resolveRelativeToDocument ppInstance relativeString components =>
    (ppbUrlUtilResolveRelativeToDocument s.vars (instances ppInstance) relativeString
      components).map s.hand
  | .getDocumentUrl ppInstance components =>
    some (s.hand (s.vars,ppbUrlUtilGetDocumentUrl s.vars (instances ppInstance) components))
  | .getPluginInstanceUrl ppInstance components =>
    some (s.hand (ppbUrlUtilGetPluginInstanceUrl s.vars (instances ppInstance) components))
  | .getPluginReferrerUrl components =>
    (ppbUrlUtilGetPluginReferrerUrl s.vars components).map s.hand
  | .release var =>
    if var ∈ s.returned then some ⟨ppbVarRelease s.vars var,s.returned.erase var⟩ else none

def urlUtil (instances : ℕ → Option Instance) (vars : Var.State) : Machine State Action :=
  ⟨⟨vars,[]⟩,step instances⟩

/-! References. -/

def refCountOf (s : Var.State) (id : ℕ) : ℤ :=
  match s.table.lookup id with
  | some v => v.refCount
  | none => 0

/-- Each entry counts what it counted at first, and one reference more for each returned var,
and an `int` holds that. -/
def OneEach (vars : Var.State) (s : State) : Prop :=
  (∀ id, refCountOf s.vars id = refCountOf vars id + s.returned.countP (holds id)) ∧
    CountsFit s.vars

/-- Every entry is referenced, by no more than an `int` counts, and the URL of an instance is
there. -/
structure Ready (instances : ℕ → Option Instance) (vars : Var.State) : Prop where
  positive : ∀ id v, vars.table.lookup id = some v → 0 < v.refCount
  fits : CountsFit vars
  instanceUrl : ∀ i p, instances i = some p → referenceCountable p.instanceUrl = true →
    (vars.table.lookup p.instanceUrl.asId).isSome = true

/-- Entries made meanwhile are strings. -/
def NewStrings (vars : Var.State) (s : State) : Prop :=
  ∀ id v, vars.table.lookup id = none → s.vars.table.lookup id = some v →
    ∃ data, v.content = .str data

/-- Neither Canonicalize nor GetDocumentURL returns a var that is counted, and the URL that
GetPluginInstanceURL counts a reference on has not the largest count. -/
def HandsReference (instances : ℕ → Option Instance) : State → Action → Prop
  | _, .canonicalize url _ => referenceCountable url = false
  | _, .getDocumentUrl ppInstance _ => ∀ p ∈ instances ppInstance,
      referenceCountable p.documentUrl = false
  | s, .getPluginInstanceUrl ppInstance _ => ∀ p ∈ instances ppInstance,
      referenceCountable p.instanceUrl = true → Countable s.vars p.instanceUrl
  | _, _ => True

instance (instances : ℕ → Option Instance) (s : State) (a : Action) :
    Decidable (HandsReference instances s a) := by
  cases a <;> dsimp only [HandsReference] <;> infer_instance

theorem refCountOf_some {s : Var.State} {id : ℕ} {v : VarS} (h : s.table.lookup id = some v) :
    refCountOf s id = v.refCount := by
  rw [refCountOf,h]

theorem refCountOf_none {s : Var.State} {id : ℕ} (h : s.table.lookup id = none) :
    refCountOf s id = 0 := by
  rw [refCountOf,h]

theorem refCountOf_put (s : Var.State) (id k : ℕ) (v : VarS) :
    refCountOf (s.put id v) k = if k = id then v.refCount else refCountOf s k := by
  by_cases hk : k = id
  · rw [hk,refCountOf_some (lookup_put_self s id v),if_pos rfl]
  · rw [if_neg hk,refCountOf,lookup_put_ne s v hk,refCountOf]

theorem Ready.refCountOf_nonneg {instances : ℕ → Option Instance} {vars : Var.State}
    (h : Ready instances vars) (id : ℕ) : 0 ≤ refCountOf vars id := by
  cases hl : vars.table.lookup id with
  | none => rw [refCountOf_none hl]
  | some v =>
    rw [refCountOf_some hl]
    exact Int.le_of_lt (h.positive id v hl)

/-- A new string comes with a reference. -/
theorem refCountOf_create {s t : Var.State} {data : List UInt8} {var : PPVar}
    (h : ppbVarVarFromUtf8 s data = some (t,var)) (id : ℕ) :
    refCountOf t id = refCountOf s id + if holds id var = true then 1 else 0 := by
  obtain ⟨k,hk,rfl,rfl⟩ := createVar_eq h
  have hput : refCountOf { s.put k ⟨⟨Content.type (.str data),k⟩,1,.str data⟩ with
      varId := k, owned := k::s.owned } id =
      refCountOf (s.put k ⟨⟨Content.type (.str data),k⟩,1,.str data⟩) id := rfl
  rw [hput,refCountOf_put]
  have hself : holds k ⟨Content.type (.str data),k⟩ = true := holds_iff.mpr ⟨rfl,rfl⟩
  by_cases hid : id = k
  · rw [hid,refCountOf_none hk,if_pos rfl,if_pos hself]
    rfl
  · rw [if_neg hid,if_neg fun hh => hid (holds_iff.mp hh).2.symm,add_zero]

theorem refCountOf_addRef {s : Var.State} {var : PPVar}
    (h : referenceCountable var = true → (s.table.lookup var.asId).isSome = true) (id : ℕ) :
    refCountOf (ppbVarAddRef s var) id =
      refCountOf s id + if holds id var = true then 1 else 0 := by
  cases hc : referenceCountable var with
  | false =>
    rw [addRef_skip (Or.inl hc),if_neg (by simp [holds,hc]),add_zero]
  | true =>
    obtain ⟨v,hv⟩ := Option.isSome_iff_exists.mp (h hc)
    rw [addRef_put hc hv,refCountOf_put]
    by_cases hid : id = var.asId
    · rw [hid,if_pos rfl,if_pos (holds_iff.mpr ⟨hc,rfl⟩),refCountOf_some hv]
    · rw [if_neg hid,if_neg fun hh => hid (holds_iff.mp hh).2.symm,add_zero]

/-- A release that leaves the entry, or destroys a string, drops one reference. -/
theorem refCountOf_release {s : Var.State} {var : PPVar}
    (h : referenceCountable var = true → ∃ v, s.table.lookup var.asId = some v ∧
      (1 < v.refCount ∨ (v.refCount = 1 ∧ ∃ data, v.content = .str data))) (id : ℕ) :
    refCountOf (ppbVarRelease s var) id =
      refCountOf s id - if holds id var = true then 1 else 0 := by
  rcases dropRef_cases s [] var with ⟨hskip,he⟩ | ⟨v,hc,hv,hcases⟩
  · rw [ppbVarRelease,he]
    dsimp only
    rw [clearElements_nil,if_neg,sub_zero]
    intro hh
    obtain ⟨hc,rfl⟩ := holds_iff.mp hh
    obtain ⟨v,hv,_⟩ := h hc
    rcases hskip with hskip | hskip
    · rw [hc] at hskip
      cases hskip
    · rw [hv] at hskip
      cases hskip
  · obtain ⟨v',hv',hor⟩ := h hc
    cases Option.some.inj (hv.symm.trans hv')
    have hself : holds var.asId var = true := holds_iff.mpr ⟨hc,rfl⟩
    rcases hcases with ⟨hle,he⟩ | ⟨hlt,he⟩
    · obtain ⟨hone,data,hdata⟩ : v.refCount = 1 ∧ ∃ data, v.content = .str data := by
        rcases hor with hlt | hone
        · omega
        · exact hone
      have hnil : elementsOf var v = [] := by
        unfold elementsOf
        rw [hdata]
        cases var.type <;> rfl
      rw [ppbVarRelease,he]
      dsimp only
      rw [hnil,clearElements_nil]
      by_cases hid : id = var.asId
      · rw [hid,refCountOf_some hv,if_pos hself,hone,refCountOf_none (AList.lookup_erase _ _)]
        rfl
      · rw [refCountOf,AList.lookup_erase_ne hid,if_neg fun hh => hid (holds_iff.mp hh).2.symm,
          sub_zero]
        rfl
    · rw [ppbVarRelease,he]
      dsimp only
      rw [clearElements_nil,refCountOf_put]
      by_cases hid : id = var.asId
      · rw [hid,if_pos rfl,if_pos hself,refCountOf_some hv]
      · rw [if_neg hid,if_neg fun hh => hid (holds_iff.mp hh).2.symm,sub_zero]

/-! Runs. -/

variable {instances : ℕ → Option Instance} {vars : Var.State} {s : State}

theorem NewStrings.frame {t : State} (h : NewStrings vars s)
    (ht : ∀ id v, t.vars.table.lookup id = some v →
      ∃ w, s.vars.table.lookup id = some w ∧ w.content = v.content) : NewStrings vars t := by
  intro id v h0 hv
  obtain ⟨w,hw,hc⟩ := ht id v hv
  exact hc ▸ h id w h0 hw

theorem NewStrings.create {data : List UInt8} {t : Var.State} {var : PPVar} (h : NewStrings vars s)
    (ht : ppbVarVarFromUtf8 s.vars data = some (t,var)) (returned : List PPVar) :
    NewStrings vars ⟨t,returned⟩ := by
  obtain ⟨k,hk,rfl,rfl⟩ := createVar_eq ht
  intro id v h0 hv
  rcases lookup_put hv with ⟨rfl,rfl⟩ | ⟨_,hl⟩
  · exact ⟨data,rfl⟩
  · exact h id v h0 hl

theorem NewStrings.addRef (h : NewStrings vars s) (var : PPVar) (returned : List PPVar) :
    NewStrings vars ⟨ppbVarAddRef s.vars var,returned⟩ := by
  refine h.frame fun id v hv => ?_
  cases hc : referenceCountable var with
  | false =>
    rw [addRef_skip (Or.inl hc)] at hv
    exact ⟨v,hv,rfl⟩
  | true =>
    cases hl : s.vars.table.lookup var.asId with
    | none =>
      rw [addRef_skip (Or.inr hl)] at hv
      exact ⟨v,hv,rfl⟩
    | some w =>
      rw [addRef_put hc hl] at hv
      rcases lookup_put hv with ⟨rfl,rfl⟩ | ⟨_,hv⟩
      · exact ⟨w,hl,rfl⟩
      · exact ⟨v,hv,rfl⟩

theorem step_newStrings {t : State} {a : Action} (h : NewStrings vars s)
    (hs : step instances s a = some t) : NewStrings vars t := by
  cases a with
  | canonicalize url components =>
    cases hs
    exact h
  | resolveRelativeToUrl baseUrl relativeString components =>
    obtain ⟨r,hr,rfl⟩ := Option.map_eq_some_iff.mp hs
    obtain ⟨⟨t,var⟩,ht,rfl⟩ := Option.map_eq_some_iff.mp hr
    exact h.create ht _
  | resolveRelativeToDocument ppInstance relativeString components =>
    obtain ⟨r,hr,rfl⟩ := Option.map_eq_some_iff.mp hs
    unfold ppbUrlUtilResolveRelativeToDocument at hr
    split at hr
    · cases hr
      exact h
    · obtain ⟨⟨t,var⟩,ht,rfl⟩ := Option.map_eq_some_iff.mp hr
      exact h.create ht _
  | getDocumentUrl ppInstance components =>
    cases hs
    exact h
  | getPluginInstanceUrl ppInstance components =>
    cases hs
    unfold ppbUrlUtilGetPluginInstanceUrl
    split
    · exact h
    · exact h.addRef _ _
  | getPluginReferrerUrl components =>
    obtain ⟨r,hr,rfl⟩ := Option.map_eq_some_iff.mp hs
    obtain ⟨⟨t,var⟩,ht,rfl⟩ := Option.map_eq_some_iff.mp hr
    exact h.create ht _
  | release var =>
    simp only [step] at hs
    split at hs
    · cases hs
      exact h.frame fun id v hv => (release_lookup_some hv).imp fun _ hw =>
        ⟨hw.1,hw.2.content.symm⟩
    · cases hs

/-- A call that returns `var` hands a reference exactly if it counts one more. -/
theorem OneEach.hand (h : OneEach vars s) {t : Var.State} {var : PPVar} :
    OneEach vars ⟨t,var::s.returned⟩ ↔ (∀ id, refCountOf t id =
      refCountOf s.vars id + if holds id var = true then 1 else 0) ∧ CountsFit t := by
  refine and_congr_left' (forall_congr' fun id => ?_)
  have hid := h.1 id
  rw [countP_cons_holds]
  push_cast
  split <;> omega

/-- A var that is returned as it is must not be counted. -/
theorem OneEach.hand_same (h : OneEach vars s) {var : PPVar} :
    OneEach vars ⟨s.vars,var::s.returned⟩ ↔ referenceCountable var = false := by
  rw [h.hand,and_iff_left h.2]
  constructor
  · intro hid
    cases hc : referenceCountable var with
    | false => rfl
    | true =>
      have := hid var.asId
      rw [if_pos (holds_iff.mpr ⟨hc,rfl⟩)] at this
      omega
  · intro hc id
    rw [if_neg (by simp [holds,hc]),add_zero]

/-- A var that is counted once more must not have the largest count. -/
theorem countsFit_addRef {t : Var.State} {var : PPVar} (h : CountsFit t) :
    CountsFit (ppbVarAddRef t var) ↔ (referenceCountable var = true → Countable t var) := by
  constructor
  · intro hf hc v hv
    rw [addRef_put hc hv] at hf
    have hlt := hf _ _ (lookup_put_self ..)
    dsimp only at hlt
    omega
  · intro hx
    cases hc : referenceCountable var with
    | false =>
      rw [addRef_skip (Or.inl hc)]
      exact h
    | true => exact h.addRef (hx hc)

/-- A string var made for the caller. -/
theorem OneEach.create (h : OneEach vars s) {data : Text} {components : Option UrlComponents}
    {r : Var.State × Returned}
    (hr : ((ppbVarVarFromUtf8 s.vars data).map fun (t,var) => (t,var,components)) = some r) :
    OneEach vars (s.hand r) := by
  obtain ⟨⟨t,var⟩,ht,rfl⟩ := Option.map_eq_some_iff.mp hr
  exact h.hand.mpr ⟨refCountOf_create ht,h.2.create ht⟩

theorem OneEach.undefined (h : OneEach vars s) :
    OneEach vars ⟨s.vars,ppMakeUndefined::s.returned⟩ :=
  h.hand_same.mpr rfl

theorem OneEach.release (hr : Ready instances vars) (hn : NewStrings vars s) (h : OneEach vars s)
    {var : PPVar} (hm : var ∈ s.returned) :
    OneEach vars ⟨ppbVarRelease s.vars var,s.returned.erase var⟩ := by
  have hperm := List.perm_cons_erase hm
  have hcount : ∀ id, s.returned.countP (holds id) =
      (s.returned.erase var).countP (holds id) + if holds id var = true then 1 else 0 :=
    fun id => by rw [hperm.countP_eq,countP_cons_holds]
  have hnext : referenceCountable var = true → ∃ v, s.vars.table.lookup var.asId = some v ∧
      (1 < v.refCount ∨ (v.refCount = 1 ∧ ∃ data, v.content = .str data)) := fun hc => by
    have hself : holds var.asId var = true := holds_iff.mpr ⟨hc,rfl⟩
    have hid := h.1 var.asId
    rw [hcount,if_pos hself] at hid
    have hstart := hr.refCountOf_nonneg var.asId
    cases hl : s.vars.table.lookup var.asId with
    | none =>
      rw [refCountOf_none hl] at hid
      push_cast at hid
      omega
    | some v =>
      rw [refCountOf_some hl] at hid
      refine ⟨v,rfl,?_⟩
      cases h0 : vars.table.lookup var.asId with
      | none =>
        rw [refCountOf_none h0] at hid
        by_cases hone : v.refCount = 1
        · exact Or.inr ⟨hone,hn var.asId v h0 hl⟩
        · push_cast at hid
          omega
      | some w =>
        have := hr.positive _ w h0
        rw [refCountOf_some h0] at hid
        push_cast at hid
        omega
  refine ⟨fun id => ?_,h.2.of_le fun id v hv => ?_⟩
  · rw [refCountOf_release hnext id,h.1 id,hcount id]
    push_cast
    split <;> omega
  · exact (release_lookup_some hv).imp fun _ hw => ⟨hw.1,hw.2.refCount⟩

theorem step_oneEach {t : State} {a : Action} (hr : Ready instances vars)
    (hn : NewStrings vars s) (h : OneEach vars s) (hs : step instances s a = some t) :
    OneEach vars t ↔ HandsReference instances s a := by
  cases a with
  | canonicalize url components =>
    cases hs
    exact h.hand_same
  | resolveRelativeToUrl baseUrl relativeString components =>
    obtain ⟨r,hr,rfl⟩ := Option.map_eq_some_iff.mp hs
    exact iff_of_true (h.create hr) trivial
  | resolveRelativeToDocument ppInstance relativeString components =>
    obtain ⟨r,hr,rfl⟩ := Option.map_eq_some_iff.mp hs
    refine iff_of_true ?_ trivial
    unfold ppbUrlUtilResolveRelativeToDocument at hr
    split at hr
    · cases hr
      exact h.undefined
    · exact h.create hr
  | getDocumentUrl ppInstance components =>
    cases hs
    unfold ppbUrlUtilGetDocumentUrl
    cases hp : instances ppInstance with
    | none =>
      refine iff_of_true h.undefined fun q hq => ?_
      rw [hp] at hq
      cases hq
    | some p =>
      refine h.hand_same.trans ⟨fun hc q hq => ?_,fun hc => hc p hp⟩
      rw [hp] at hq
      cases hq
      exact hc
  | getPluginInstanceUrl ppInstance components =>
    cases hs
    unfold ppbUrlUtilGetPluginInstanceUrl
    cases hp : instances ppInstance with
    | none =>
      refine iff_of_true h.undefined fun q hq => ?_
      rw [hp] at hq
      cases hq
    | some p =>
      have hguard : HandsReference instances s (.getPluginInstanceUrl ppInstance components) ↔
          (referenceCountable p.instanceUrl = true → Countable s.vars p.instanceUrl) := by
        refine ⟨fun hg => hg p hp,fun hg q hq => ?_⟩
        rw [hp] at hq
        cases hq
        exact hg
      rw [hguard,← countsFit_addRef h.2]
      refine h.hand.trans (and_iff_right (refCountOf_addRef fun hc => ?_))
      obtain ⟨w,hw⟩ := Option.isSome_iff_exists.mp (hr.instanceUrl ppInstance p hp hc)
      have hpos := hr.positive _ w hw
      have hid := h.1 p.instanceUrl.asId
      rw [refCountOf_some hw] at hid
      cases hl : s.vars.table.lookup p.instanceUrl.asId with
      | none =>
        rw [refCountOf_none hl] at hid
        omega
      | some v => rfl
  | getPluginReferrerUrl components =>
    obtain ⟨r,hr,rfl⟩ := Option.map_eq_some_iff.mp hs
    exact iff_of_true (h.create hr) trivial
  | release var =>
    simp only [step] at hs
    split at hs
    · rename_i hm
      cases hs
      exact iff_of_true (h.release hr hn hm) trivial
    · cases hs

/-- Each returned var comes with one reference exactly if neither Canonicalize nor
GetDocumentURL returns one that is counted, and no count overflows; then the references are as
before once all that was returned is released. -/
theorem url_util_references_iff {ls : List Action} {u : State} (hready : Ready instances vars)
    (hr : (urlUtil instances vars).exec ⟨vars,[]⟩ ls = some u) :
    ((urlUtil instances vars).AlwaysFrom (OneEach vars) ⟨vars,[]⟩ ls ↔
      (urlUtil instances vars).EachFrom (HandsReference instances) ⟨vars,[]⟩ ls) ∧
    ((urlUtil instances vars).EachFrom (HandsReference instances) ⟨vars,[]⟩ ls →
      u.returned = [] → ∀ id, refCountOf u.vars id = refCountOf vars id) := by
  have hiff := Machine.always_iff_each (M := urlUtil instances vars) (NewStrings vars)
    (fun _ _ _ h hs => step_newStrings h hs)
    (fun _ _ _ hn h hs => step_oneEach hready hn h hs)
    (fun id v h0 hv => absurd hv (by rw [h0]; nofun))
    ⟨fun id => (add_zero _).symm,hready.fits⟩ hr
  refine ⟨hiff,fun hg hu id => ?_⟩
  have hlast := ((hiff.mpr hg).last hr).1 id
  rw [hu] at hlast
  exact hlast.trans (add_zero _)

/-- The URL of the page, which is all an instance refers to. -/
def pageUrl : PPVar := ⟨.string,2⟩

def page : Var.State :=
  { State.create.put 2 ⟨pageUrl,1,.str (bytes "http://a/b")⟩ with varId := 2 }

def pageInstance (i : ℕ) : Option Instance :=
  if i = 1 then some ⟨pageUrl,pageUrl,pageUrl⟩ else none

theorem page_ready : Ready pageInstance page := by
  refine ⟨fun id v h => ?_,create_countsFit.put (v := ⟨pageUrl,1,.str (bytes "http://a/b")⟩) ?_,
    fun i p hp _ => ?_⟩
  · rcases lookup_put h with ⟨rfl,rfl⟩ | ⟨_,hl⟩
    · decide
    · cases hl
  · exact (by decide : (1 : ℤ) < 2^31)
  · unfold pageInstance at hp
    split at hp
    · cases hp
      rfl
    · cases hp

/-- A link on the page is resolved, and the URL of the plugin returned. -/
def linkResolved : List Action :=
  [.resolveRelativeToDocument 1 pageUrl true,.getPluginInstanceUrl 1 true,
    .getPluginInstanceUrl 2 false,.release pageUrl,.release ⟨.string,3⟩,.release ppMakeUndefined]

theorem linkResolved_references : ∃ u,
    (urlUtil pageInstance page).exec ⟨page,[]⟩ linkResolved = some u ∧
      (urlUtil pageInstance page).AlwaysFrom (OneEach page) ⟨page,[]⟩ linkResolved ∧
      ∀ id, refCountOf u.vars id = refCountOf page id := by
  obtain ⟨u,hr,hu⟩ : ∃ u, (urlUtil pageInstance page).exec ⟨page,[]⟩ linkResolved = some u ∧
    u.returned = [] := ⟨_,rfl,by decide⟩
  have h := url_util_references_iff page_ready hr
  exact ⟨u,hr,h.1.mpr (by decide),h.2 (by decide) hu⟩

/-- The reference of the instance is released in place of one that was never taken. -/
theorem documentUrl_gone : ¬∀ (instances : ℕ → Option Instance) (vars : Var.State)
    (ls : List Action) (u : State), Ready instances vars →
      (urlUtil instances vars).exec ⟨vars,[]⟩ ls = some u → u.returned = [] →
        ∀ id, refCountOf u.vars id = refCountOf vars id := by
  intro h
  have h2 := h pageInstance page [.getDocumentUrl 1 false,.release pageUrl] _ page_ready rfl
    rfl 2
  exact absurd h2 (by decide)

end UrlUtil
end FreshPlayer
