import FreshPlayer.ProxyClasses
import FreshPlayer.Transition
import Mathlib.Tactic.Ring

/-! The references on objects of the browser that a call takes and gives up. A wrapper gives
one up when it is destroyed, on behalf of the call that made it. -/
namespace FreshPlayer
namespace ProxyClasses

open Var

def Variant.browserObject? : Variant → Option NpObject
  | .object (.browser address) => some (.browser address)
  | _ => none

def Variant.proxy? : Variant → Option NpObject
  | .object (.p2nProxy address ppobj) => some (.p2nProxy address ppobj)
  | _ => none

def Variant.object? : Variant → Option NpObject
  | .object o => some o
  | _ => none

def Wrapper.reference (w : Wrapper) : ℕ × NpObject := (w.call,w.object)

/-- Taken, less what was given up and what the wrappers will give up. -/
def State.balance (s : State) (p : ℕ × NpObject) : ℤ :=
  s.acquired.count p - s.givenUp.count p - (s.wrappers.map Wrapper.reference).count p

/-- The references of one call on some objects. -/
def credit (c : ℕ) (os : List NpObject) (p : ℕ × NpObject) : ℤ := (os.map (c,·)).count p

variable {s t : State} {c : ℕ} {v : Variant}

theorem credit_nil (c : ℕ) (p : ℕ × NpObject) : credit c [] p = 0 := rfl

theorem credit_cons (c : ℕ) (o : NpObject) (os : List NpObject) (p : ℕ × NpObject) :
    credit c (o::os) p = credit c [o] p + credit c os p := by
  simp only [credit,List.map_cons,List.map_nil,List.count_cons,List.count_nil]
  push_cast
  ring

theorem credit_self (c : ℕ) (os : List NpObject) (o : NpObject) :
    credit c os (c,o) = os.count o := by
  unfold credit
  rw [List.count_map_of_injective os (c,·) (fun _ _ h => (Prod.mk.inj h).2) o]

theorem credit_ne {c c' : ℕ} (h : c' ≠ c) (os : List NpObject) (o : NpObject) :
    credit c os (c',o) = 0 := by
  unfold credit
  rw [List.count_eq_zero.mpr]
  · rfl
  · intro hm
    obtain ⟨_,_,he⟩ := List.mem_map.mp hm
    exact h (Prod.mk.inj he).1.symm

/-- An object is one of the browser's or a proxy. -/
theorem credit_object (c : ℕ) (v : Variant) (p : ℕ × NpObject) :
    credit c v.object?.toList p =
      credit c v.browserObject?.toList p + credit c v.proxy?.toList p := by
  match v with
  | .object (.browser _) => exact (add_zero _).symm
  | .object (.p2nProxy _ _) => exact (zero_add _).symm
  | .string _ => rfl
  | .other => rfl

theorem credit_filterMap (c : ℕ) (f : Variant → Option NpObject) (v : Variant)
    (vs : List Variant) (p : ℕ × NpObject) :
    credit c ((v::vs).filterMap f) p = credit c (f v).toList p + credit c (vs.filterMap f) p := by
  cases hv : f v with
  | none => simp [hv,credit_nil]
  | some o =>
    rw [List.filterMap_cons_some hv,credit_cons]
    rfl

theorem balance_acquire (s : State) (c : ℕ) (o : NpObject) (p : ℕ × NpObject) :
    { s with acquired := (c,o)::s.acquired }.balance p = s.balance p + credit c [o] p := by
  simp only [State.balance,credit,List.map_cons,List.map_nil,List.count_cons,List.count_nil]
  push_cast
  ring

theorem balance_receive (c : ℕ) (v : Variant) (s : State) (p : ℕ × NpObject) :
    (receive c v s).balance p = s.balance p + credit c v.object?.toList p := by
  cases v with
  | object o => exact balance_acquire s c o p
  | string data => exact (add_zero _).symm
  | other => exact (add_zero _).symm

theorem balance_giveUp (c : ℕ) (v : Variant) (s : State) (p : ℕ × NpObject) :
    (giveUp c v s).balance p = s.balance p - credit c v.object?.toList p := by
  cases v with
  | object o =>
    simp only [giveUp,Variant.object?,State.balance,credit,Option.toList_some,List.map_cons,
      List.map_nil,List.count_cons,List.count_nil]
    push_cast
    ring
  | string data => exact (sub_zero _).symm
  | other => exact (sub_zero _).symm

theorem balance_giveUps (c : ℕ) (vs : List Variant) (s : State) (p : ℕ × NpObject) :
    (vs.foldl (fun s v => giveUp c v s) s).balance p =
      s.balance p - credit c (vs.filterMap Variant.object?) p := by
  induction vs generalizing s with
  | nil => exact (sub_zero _).symm
  | cons v vs ih =>
    rw [List.foldl_cons,ih,balance_giveUp,credit_filterMap]
    ring

theorem balance_deallocateRemoved (s : State) (rs : List Removal) (p : ℕ × NpObject) :
    (deallocateRemoved s rs).balance p = s.balance p := by
  induction rs generalizing s with
  | nil => rfl
  | cons r rs ih =>
    unfold deallocateRemoved
    split
    · rename_i w hw
      rw [ih]
      have hm := List.mem_of_find?_eq_some hw
      have hcount : (s.wrappers.map Wrapper.reference).count p =
          (w.reference::(s.wrappers.erase w).map Wrapper.reference).count p :=
        ((List.perm_cons_erase hm).map Wrapper.reference).count_eq p
      simp only [State.balance,hcount,List.count_cons,Wrapper.reference]
      push_cast
      ring
    · exact ih s

theorem balance_settle (s : State) (vars : Var.State) (p : ℕ × NpObject) :
    (settle s vars).balance p = s.balance p := balance_deallocateRemoved ..

theorem balance_releaseVar (s : State) (var : PPVar) (p : ℕ × NpObject) :
    (releaseVar s var).balance p = s.balance p := balance_settle ..

theorem balance_releaseVars (vars : List PPVar) (s : State) (p : ℕ × NpObject) :
    (vars.foldl releaseVar s).balance p = s.balance p := by
  induction vars generalizing s with
  | nil => rfl
  | cons var vars ih => rw [List.foldl_cons,ih,balance_releaseVar]

/-- The wrapper of an object of the browser has a reference that nobody took. -/
theorem balance_npVariantToPpVar {var : PPVar} (h : npVariantToPpVar c v s = some (t,var))
    (p : ℕ × NpObject) : t.balance p = s.balance p - credit c v.browserObject?.toList p := by
  match v with
  | .object (.p2nProxy _ _) =>
    cases h
    exact (sub_zero _).symm
  | .object (.browser address) =>
    obtain ⟨⟨vars,w⟩,_,he⟩ := Option.map_eq_some_iff.mp h
    cases he
    simp only [State.balance,credit,Variant.browserObject?,Option.toList_some,List.map_cons,
      List.map_nil,List.count_cons,List.count_nil,Wrapper.reference]
    push_cast
    ring
  | .string _ =>
    obtain ⟨⟨vars,w⟩,_,he⟩ := Option.map_eq_some_iff.mp h
    cases he
    exact (sub_zero _).symm
  | .other =>
    cases h
    exact (sub_zero _).symm

theorem balance_npVariantsToPpVars {vs : List Variant} {vars : List PPVar}
    (h : npVariantsToPpVars c vs s = some (t,vars)) (p : ℕ × NpObject) :
    t.balance p = s.balance p - credit c (vs.filterMap Variant.browserObject?) p := by
  induction vs generalizing s vars with
  | nil =>
    cases h
    exact (sub_zero _).symm
  | cons v vs ih =>
    obtain ⟨⟨s',var⟩,hs,h⟩ := Option.bind_eq_some_iff.mp h
    obtain ⟨⟨t',rest⟩,ht,he⟩ := Option.map_eq_some_iff.mp h
    cases he
    rw [ih ht,balance_npVariantToPpVar hs,credit_filterMap]
    ring

/-- The variant of an object has a reference of its own. -/
theorem balance_ppVarToNpVariant {created : Bool} {var : PPVar}
    (h : ppVarToNpVariant c created var s = some (t,v)) (p : ℕ × NpObject) :
    t.balance p = s.balance p + credit c v.object?.toList p := by
  unfold ppVarToNpVariant at h
  split at h
  · cases h
    exact (add_zero _).symm
  · split at h
    · cases h
    · split at h
      · rename_i w _
        cases h
        exact balance_acquire s c w.object p
      · split at h
        · cases h
          exact balance_acquire s c _ p
        · cases h
          exact (add_zero _).symm
  · cases h
    exact (add_zero _).symm

theorem balance_ppVarsToNpVariants {created : Bool} {vars : List PPVar} {vs : List Variant}
    (h : ppVarsToNpVariants c created vars s = some (t,vs)) (p : ℕ × NpObject) :
    t.balance p = s.balance p + credit c (vs.filterMap Variant.object?) p := by
  induction vars generalizing s vs with
  | nil =>
    cases h
    exact (add_zero _).symm
  | cons var vars ih =>
    obtain ⟨⟨s',v⟩,hs,h⟩ := Option.bind_eq_some_iff.mp h
    obtain ⟨⟨t',rest⟩,ht,he⟩ := Option.map_eq_some_iff.mp h
    cases he
    rw [ih ht,balance_ppVarToNpVariant hs,credit_filterMap]
    ring

/-- An answer that is a proxy leaves the reference it came with. -/
theorem balance_n2pAnswer {answer : Option Variant} (h : n2pAnswer c answer s = some t)
    (p : ℕ × NpObject) :
    t.balance p = s.balance p + credit c (answer.bind Variant.proxy?).toList p := by
  cases answer with
  | none =>
    cases h
    exact (add_zero _).symm
  | some v =>
    obtain ⟨⟨t',var⟩,ht,rfl⟩ := Option.map_eq_some_iff.mp h
    rw [balance_npVariantToPpVar ht,balance_receive,credit_object]
    simp only [Option.bind_some]
    ring

/-! Calls. -/

/-- Borrowed objects that are wrapped as if they were owned. -/
def Call.lent : Call → List NpObject
  | .invoking args _ | .invoked args => args.filterMap Variant.browserObject?
  | _ => []

/-- What the call has to give up still. -/
def Call.kept : Call → List NpObject
  | .calling npArgs => npArgs.filterMap Variant.object?
  | .answered answer => (answer.bind Variant.proxy?).toList
  | _ => []

/-- What the balance of a call is, by where it has got to; calls to come have none. -/
structure Booked (s : State) : Prop where
  call : ∀ c k, s.calls[c]? = some k → ∀ o,
    s.balance (c,o) = k.kept.count o - k.lent.count o
  later : ∀ c, s.calls.length ≤ c → ∀ o, s.balance (c,o) = 0

theorem Booked.nothing : Booked nothing :=
  ⟨fun c k h => by simp [ProxyClasses.nothing] at h,fun _ _ _ => rfl⟩

theorem Booked.frame (h : Booked s) (hc : t.calls = s.calls)
    (hb : ∀ p, t.balance p = s.balance p) : Booked t :=
  ⟨fun c k hk o => (hb _).trans (h.call c k (hc ▸ hk) o),
    fun c hl o => (hb _).trans (h.later c (hc ▸ hl) o)⟩

/-- A new call. -/
theorem Booked.begin {k : Call} (h : Booked s) (hc : t.calls = s.calls)
    (hb : ∀ p, t.balance p = s.balance p + credit s.calls.length k.kept p -
      credit s.calls.length k.lent p) : Booked (t.begin k) := by
  have hbalance : ∀ p, (t.begin k).balance p = t.balance p := fun _ => rfl
  have hold : ∀ c, c ≠ s.calls.length → ∀ o, t.balance (c,o) = s.balance (c,o) := by
    intro c hne o
    rw [hb,credit_ne hne,credit_ne hne,add_zero,sub_zero]
  refine ⟨fun c k' hk o => ?_,fun c hl o => ?_⟩
  · rw [hbalance]
    rw [State.begin,hc] at hk
    by_cases he : c = s.calls.length
    · subst he
      rw [List.getElem?_concat_length] at hk
      cases hk
      rw [hb,credit_self,credit_self,h.later _ (Nat.le_refl _),zero_add]
    · rw [hold c he]
      have hlt : c < s.calls.length := by
        have := (List.getElem?_eq_some_iff.mp hk).1
        rw [List.length_append,List.length_singleton] at this
        omega
      rw [List.getElem?_append_left hlt] at hk
      exact h.call c k' hk o
  · rw [State.begin,hc,List.length_append,List.length_singleton] at hl
    rw [hbalance,hold c (by omega)]
    exact h.later c (by omega) o

/-- A call goes on. -/
theorem Booked.finish {k k' : Call} (h : Booked s) (hk : s.calls[c]? = some k)
    (hc : t.calls = s.calls)
    (hb : ∀ p, t.balance p = s.balance p + (credit c k'.kept p - credit c k.kept p) -
      (credit c k'.lent p - credit c k.lent p)) : Booked (t.finish c k') := by
  have hbalance : ∀ p, (t.finish c k').balance p = t.balance p := fun _ => rfl
  refine ⟨fun c' k'' hk' o => ?_,fun c' hl o => ?_⟩
  · rw [hbalance,hb]
    rw [State.finish,hc] at hk'
    by_cases he : c' = c
    · subst he
      have hlt := (List.getElem?_eq_some_iff.mp hk).1
      rw [List.getElem?_set_self hlt] at hk'
      cases hk'
      simp only [credit_self]
      have := h.call c' k hk o
      omega
    · rw [List.getElem?_set_ne (Ne.symm he)] at hk'
      simp only [credit_ne he]
      have := h.call c' k'' hk' o
      omega
  · rw [State.finish,hc,List.length_set] at hl
    have hlt := (List.getElem?_eq_some_iff.mp hk).1
    have hne : c' ≠ c := by omega
    rw [hbalance,hb]
    simp only [credit_ne hne]
    have := h.later c' hl o
    omega

/-! Calls under way stay as they are while the conversions run. -/

@[simp] theorem calls_receive (c : ℕ) (v : Variant) (s : State) :
    (receive c v s).calls = s.calls := by cases v <;> rfl

@[simp] theorem calls_giveUp (c : ℕ) (v : Variant) (s : State) :
    (giveUp c v s).calls = s.calls := by cases v <;> rfl

theorem calls_giveUps (c : ℕ) (vs : List Variant) (s : State) :
    (vs.foldl (fun s v => giveUp c v s) s).calls = s.calls := by
  induction vs generalizing s with
  | nil => rfl
  | cons v vs ih => rw [List.foldl_cons,ih,calls_giveUp]

theorem calls_deallocateRemoved (s : State) (rs : List Removal) :
    (deallocateRemoved s rs).calls = s.calls := by
  induction rs generalizing s with
  | nil => rfl
  | cons r rs ih =>
    unfold deallocateRemoved
    split
    · exact ih _
    · exact ih s

theorem calls_settle (s : State) (vars : Var.State) : (settle s vars).calls = s.calls :=
  calls_deallocateRemoved ..

@[simp] theorem calls_releaseVar (s : State) (var : PPVar) : (releaseVar s var).calls = s.calls :=
  calls_settle ..

theorem calls_releaseVars (vars : List PPVar) (s : State) :
    (vars.foldl releaseVar s).calls = s.calls := by
  induction vars generalizing s with
  | nil => rfl
  | cons var vars ih => rw [List.foldl_cons,ih,calls_releaseVar]

theorem calls_npVariantToPpVar {var : PPVar} (h : npVariantToPpVar c v s = some (t,var)) :
    t.calls = s.calls := by
  match v with
  | .object (.p2nProxy _ _) =>
    cases h
    rfl
  | .object (.browser _) =>
    obtain ⟨_,_,he⟩ := Option.map_eq_some_iff.mp h
    cases he
    rfl
  | .string _ =>
    obtain ⟨_,_,he⟩ := Option.map_eq_some_iff.mp h
    cases he
    rfl
  | .other =>
    cases h
    rfl

theorem calls_npVariantsToPpVars {vs : List Variant} {vars : List PPVar}
    (h : npVariantsToPpVars c vs s = some (t,vars)) : t.calls = s.calls := by
  induction vs generalizing s vars with
  | nil =>
    cases h
    rfl
  | cons v vs ih =>
    obtain ⟨⟨s',var⟩,hs,h⟩ := Option.bind_eq_some_iff.mp h
    obtain ⟨⟨t',rest⟩,ht,he⟩ := Option.map_eq_some_iff.mp h
    cases he
    exact (ih ht).trans (calls_npVariantToPpVar hs)

theorem calls_ppVarToNpVariant {created : Bool} {var : PPVar}
    (h : ppVarToNpVariant c created var s = some (t,v)) : t.calls = s.calls := by
  unfold ppVarToNpVariant at h
  split at h
  · cases h
    rfl
  · split at h
    · cases h
    · split at h
      · cases h
        rfl
      · split at h <;> cases h <;> rfl
  · cases h
    rfl

theorem calls_ppVarsToNpVariants {created : Bool} {vars : List PPVar} {vs : List Variant}
    (h : ppVarsToNpVariants c created vars s = some (t,vs)) : t.calls = s.calls := by
  induction vars generalizing s vs with
  | nil =>
    cases h
    rfl
  | cons var vars ih =>
    obtain ⟨⟨s',v⟩,hs,h⟩ := Option.bind_eq_some_iff.mp h
    obtain ⟨⟨t',rest⟩,ht,he⟩ := Option.map_eq_some_iff.mp h
    cases he
    exact (ih ht).trans (calls_ppVarToNpVariant hs)

theorem calls_n2pAnswer {answer : Option Variant} (h : n2pAnswer c answer s = some t) :
    t.calls = s.calls := by
  cases answer with
  | none =>
    cases h
    rfl
  | some v =>
    obtain ⟨⟨t',var⟩,ht,rfl⟩ := Option.map_eq_some_iff.mp h
    exact (calls_npVariantToPpVar ht).trans (calls_receive c v s)

theorem Booked.p2nInvoke {args : List Variant} (h : Booked s) (hs : p2nInvoke args s = some t) :
    Booked t := by
  obtain ⟨⟨u,ppArgs⟩,hu,rfl⟩ := Option.map_eq_some_iff.mp hs
  refine h.begin (calls_npVariantsToPpVars hu) fun p => ?_
  rw [balance_npVariantsToPpVars hu]
  simp only [Call.kept,Call.lent,credit_nil]
  ring

theorem Booked.p2nInvokeReturns {args : List Variant} {ppArgs : List PPVar} {res : PPVar}
    {npResult created : Bool} (h : Booked s) (hk : s.calls[c]? = some (.invoking args ppArgs))
    (hs : p2nInvokeReturns c args ppArgs res npResult created s = some t) : Booked t := by
  obtain ⟨u,hu,rfl⟩ := Option.map_eq_some_iff.mp hs
  have hframe : u.calls = s.calls ∧ ∀ p, u.balance p = s.balance p := by
    have hcalls := calls_releaseVars ppArgs s
    have hbalance := balance_releaseVars ppArgs s
    split at hu
    · obtain ⟨⟨u',v⟩,hu',rfl⟩ := Option.map_eq_some_iff.mp hu
      refine ⟨by rw [calls_giveUp,calls_ppVarToNpVariant hu',hcalls],fun p => ?_⟩
      rw [balance_giveUp,balance_ppVarToNpVariant hu',hbalance]
      ring
    · cases hu
      exact ⟨hcalls,hbalance⟩
  refine h.finish hk (by rw [calls_releaseVar,hframe.1]) fun p => ?_
  rw [balance_releaseVar,hframe.2]
  simp only [Call.kept,Call.lent]
  ring

theorem Booked.p2nGetProperty {res : PPVar} {created : Bool} (h : Booked s)
    (hs : p2nGetProperty res created s = some t) : Booked t := by
  obtain ⟨⟨u,v⟩,hu,rfl⟩ := Option.map_eq_some_iff.mp hs
  refine h.begin (by rw [calls_releaseVar,calls_giveUp,calls_ppVarToNpVariant hu]) fun p => ?_
  rw [balance_releaseVar,balance_giveUp,balance_ppVarToNpVariant hu]
  simp only [Call.kept,Call.lent,credit_nil]
  ring

theorem Booked.n2pGetProperty {answer : Option Variant} (h : Booked s)
    (hs : n2pGetProperty answer s = some t) : Booked t := by
  obtain ⟨u,hu,rfl⟩ := Option.map_eq_some_iff.mp hs
  refine h.begin (calls_n2pAnswer hu) fun p => ?_
  rw [balance_n2pAnswer hu]
  simp only [Call.kept,Call.lent,credit_nil]
  ring

theorem Booked.n2pCall {argv : List PPVar} {created : Bool} (h : Booked s)
    (hs : n2pCall argv created s = some t) : Booked t := by
  obtain ⟨⟨u,npArgs⟩,hu,rfl⟩ := Option.map_eq_some_iff.mp hs
  refine h.begin (calls_ppVarsToNpVariants hu) fun p => ?_
  rw [balance_ppVarsToNpVariants hu]
  simp only [Call.kept,Call.lent,credit_nil]
  ring

theorem Booked.n2pReturns {npArgs : List Variant} {answer : Option Variant} (h : Booked s)
    (hk : s.calls[c]? = some (.calling npArgs)) (hs : n2pReturns c npArgs answer s = some t) :
    Booked t := by
  obtain ⟨u,hu,rfl⟩ := Option.map_eq_some_iff.mp hs
  refine h.finish hk (by rw [calls_n2pAnswer hu,calls_giveUps]) fun p => ?_
  rw [balance_n2pAnswer hu,balance_giveUps]
  simp only [Call.kept,Call.lent,credit_nil]
  ring

theorem step_booked {a : Action} (h : Booked s) (hs : step s a = some t) : Booked t := by
  cases a with
  | p2nInvoke args => exact h.p2nInvoke hs
  | p2nInvokeReturns c res npResult created =>
    simp only [step] at hs
    split at hs
    · rename_i hk
      exact h.p2nInvokeReturns hk hs
    · cases hs
  | p2nGetProperty res created => exact h.p2nGetProperty hs
  | n2pGetProperty answer => exact h.n2pGetProperty hs
  | n2pCall argv created => exact h.n2pCall hs
  | n2pReturns c answer =>
    simp only [step] at hs
    split at hs
    · rename_i hk
      exact h.n2pReturns hk hs
    · cases hs
  | p2nDeallocate o =>
    simp only [step] at hs
    split at hs
    · cases o with
      | browser address => cases hs
      | p2nProxy address ppobj =>
        cases hs
        exact h.frame (calls_releaseVar ..) fun p => balance_releaseVar ..
    · cases hs
  | plugin op =>
    obtain ⟨vars,_,rfl⟩ := Option.map_eq_some_iff.mp hs
    exact h.frame (calls_settle s vars) (balance_settle s vars)

/-- Everything a call took was given up once, and it gave up nothing else. -/
def Balanced (s : State) (c : ℕ) : Prop :=
  ∀ o, s.acquired.count (c,o) = s.givenUp.count (c,o)

def Call.returned : Call → Prop
  | .invoking _ _ | .calling _ => False
  | _ => True

/-- No argument of p2n_invoke is an object of the browser's own, and no answer to a call by
the plugin is one of the plugin's. -/
def Call.settles : Call → Prop
  | .invoking args _ | .invoked args => ∀ v ∈ args, v.browserObject? = none
  | .answered answer => ∀ v ∈ answer, v.proxy? = none
  | _ => True

instance (k : Call) : Decidable k.settles := by
  cases k <;> unfold Call.settles <;> infer_instance

theorem lent_eq_kept_iff {k : Call} (hk : k.returned) :
    (∀ o, (k.kept.count o : ℤ) = k.lent.count o) ↔ k.settles := by
  have hnil : ∀ os : List NpObject, (∀ o, (os.count o : ℤ) = 0) ↔ os = [] := by
    intro os
    constructor
    · intro h
      refine List.eq_nil_iff_forall_not_mem.mpr fun o ho => ?_
      have := h o
      rw [Int.natCast_eq_zero,List.count_eq_zero] at this
      exact this ho
    · rintro rfl o
      rfl
  cases k with
  | invoking args ppArgs => exact hk.elim
  | calling npArgs => exact hk.elim
  | gotten => exact iff_of_true (fun _ => rfl) trivial
  | invoked args =>
    refine Iff.trans ?_ ((hnil (args.filterMap Variant.browserObject?)).trans
      List.filterMap_eq_nil_iff)
    exact forall_congr' fun o => eq_comm
  | answered answer =>
    refine (hnil (answer.bind Variant.proxy?).toList).trans ?_
    cases answer with
    | none => exact iff_of_true rfl nofun
    | some v => simp [Call.settles]

/-- When a call has returned and the vars it made of objects are gone, all its references are
accounted for exactly if it was given no object of the browser's own and answered with none
of the plugin's. -/
theorem call_balanced_iff (h : machine.Reachable s) {k : Call} (hk : s.calls[c]? = some k)
    (hr : k.returned) (hg : ∀ w ∈ s.wrappers, w.call ≠ c) : Balanced s c ↔ k.settles := by
  have hb : Booked s := h.invariant Booked Booked.nothing fun _ _ _ h _ hs => step_booked h hs
  rw [← lent_eq_kept_iff hr]
  refine forall_congr' fun o => ?_
  have hzero : (s.wrappers.map Wrapper.reference).count (c,o) = 0 := by
    rw [List.count_eq_zero]
    intro hm
    obtain ⟨w,hw,he⟩ := List.mem_map.mp hm
    exact hg w hw (Prod.mk.inj he).1
  have hcall := hb.call c k hk o
  rw [State.balance,hzero] at hcall
  omega

/-- The plugin passes an object of its own, and is answered with one of the browser's, which
it then calls back with the first. -/
def callback : List Action :=
  [.plugin .createObject,.n2pCall [⟨.object,2⟩,⟨.int32,0⟩] true,
    .p2nInvoke [.object (.p2nProxy 0 ⟨.object,2⟩),.string [97]],
    .p2nInvokeReturns 1 ⟨.undefined,0⟩ true true,.n2pReturns 0 (some (.object (.browser 7))),
    .plugin (.release ⟨.object,4⟩)]

theorem callback_balanced : ∃ s, machine.exec nothing callback = some s ∧
    Balanced s 0 ∧ Balanced s 1 := by
  obtain ⟨s,hs,h0,h1,hgone⟩ : ∃ s : State, machine.exec nothing callback = some s ∧
    s.calls[0]? = some (.answered (some (.object (.browser 7)))) ∧
    s.calls[1]? = some (.invoked [.object (.p2nProxy 0 ⟨.object,2⟩),.string [97]]) ∧
    s.wrappers = [] := ⟨_,rfl,rfl,rfl,by decide⟩
  have hreachable := Machine.reachable_of_exec hs
  have hnone : ∀ c, ∀ w ∈ s.wrappers, w.call ≠ c := fun c w hw => by
    rw [hgone] at hw
    cases hw
  exact ⟨s,hs,(call_balanced_iff hreachable h0 trivial (hnone 0)).mpr (by decide),
    (call_balanced_iff hreachable h1 trivial (hnone 1)).mpr (by decide)⟩

/-- The reference of the browser on the argument is released. -/
def objectPassedIn : List Action :=
  [.p2nInvoke [.object (.browser 7)],.p2nInvokeReturns 0 ⟨.undefined,0⟩ true true]

theorem objectPassedIn_released : ¬∀ (s : State) (c : ℕ) (k : Call), machine.Reachable s →
    s.calls[c]? = some k → k.returned → (∀ w ∈ s.wrappers, w.call ≠ c) → Balanced s c := by
  intro h
  obtain ⟨s,hs,hcall,hgone,hbrowser⟩ : ∃ s : State, machine.exec nothing objectPassedIn = some s ∧
    s.calls[0]? = some (.invoked [.object (.browser 7)]) ∧ (∀ w ∈ s.wrappers, w.call ≠ 0) ∧
    s.acquired.count (0,.browser 7) ≠ s.givenUp.count (0,.browser 7) :=
    ⟨_,rfl,rfl,by decide,by decide⟩
  exact hbrowser (h s 0 _ (Machine.reachable_of_exec hs) hcall trivial hgone (.browser 7))

end ProxyClasses
end FreshPlayer
