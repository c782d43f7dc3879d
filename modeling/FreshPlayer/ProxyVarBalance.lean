import FreshPlayer.ProxyVarOperations

/-! The references of the calls through proxies. What callers own is the plugin's, or a proxy's,
or belongs to a call; a call that has returned has none, but for the name of a property. The
counts of the table are those of these references, where the plugin keeps the rules for vars. -/
namespace FreshPlayer
namespace ProxyVars

open Var ProxyClasses

/-! What callers own, less what the proxies keep. -/

def Accounts (b : ProxyClasses.State) (l : List ℕ) : Prop :=
  List.Perm b.vars.owned (l ++ b.proxies.flatMap objectRefs)

variable {b b' : ProxyClasses.State} {v : Variant} {var : PPVar} {c : ℕ}
variable {l held others : List ℕ} {f g : Frame} {G : Prop} {xs : List PPVar}

theorem Accounts.perm {m : List ℕ} (h : Accounts b l) (hp : List.Perm l m) : Accounts b m :=
  h.trans (hp.append_right _)

theorem Accounts.release (h : Accounts b (refs var ++ l)) : Accounts (releaseVar b var) l := by
  unfold Accounts at h ⊢
  rw [releaseVar_owned,releaseVar_proxies]
  rw [List.append_assoc] at h
  exact diff_perm h

/-- References both callers and proxies gain. -/
theorem Accounts.proxies {new : List ℕ} (h : Accounts b l)
    (ho : b'.vars.owned = new ++ b.vars.owned)
    (hp : b'.proxies.flatMap objectRefs = new ++ b.proxies.flatMap objectRefs) :
    Accounts b' l := by
  unfold Accounts at h ⊢
  rw [ho,hp]
  refine (h.append_left new).trans ?_
  rw [← List.append_assoc,← List.append_assoc]
  exact List.perm_append_comm.append_right _

/-- References callers gain. -/
theorem Accounts.gain {new : List ℕ} (h : Accounts b l)
    (ho : List.Perm b'.vars.owned (new ++ b.vars.owned)) (hp : b'.proxies = b.proxies) :
    Accounts b' (new ++ l) := by
  unfold Accounts at h ⊢
  rw [hp,List.append_assoc]
  exact ho.trans (h.append_left new)

/-! A call from the answer of the plugin to its end. -/

/-- The call has some references and all others are accounted for. Where `G` holds the books are
in order, with the vars `xs` at hand. -/
structure Frame.Owes (f : Frame) (G : Prop) (xs : List PPVar) (held others : List ℕ) : Prop where
  same : List.Perm f.held held
  accounts : Accounts f.base (held ++ others)
  books : G → Books f.base xs

theorem Frame.Owes.perm {held' : List ℕ} (h : f.Owes G xs held others)
    (hp : List.Perm held held') : f.Owes G xs held' others :=
  ⟨h.same.trans hp,h.accounts.perm (hp.append_right _),h.books⟩

theorem Accounts.owned (h : Accounts b (refs var ++ l)) (hc : referenceCountable var = true) :
    var.asId ∈ b.vars.owned := by
  refine h.mem_iff.mpr (List.mem_append_left _ (List.mem_append_left _ ?_))
  rw [refs,if_pos hc]
  exact List.mem_singleton_self _

theorem Books.release (h : Books b xs) (hx : var ∈ xs)
    (ho : referenceCountable var = true → var.asId ∈ b.vars.owned) :
    Books (releaseVar b var) xs := by
  unfold Books
  rw [releaseVar_proxies,releaseVar,settle_vars]
  exact Sane.release h (List.mem_append_left _ hx) ho

theorem Frame.Owes.release (h : f.Owes G xs (refs var ++ held) others) (hx : var ∈ xs) :
    (f.release var).Owes G xs held others := by
  have ha := h.accounts
  rw [List.append_assoc] at ha
  exact ⟨diff_perm h.same,ha.release,fun hG => (h.books hG).release hx ha.owned⟩

theorem Frame.Owes.releases {vars : List PPVar}
    (h : f.Owes G xs (vars.flatMap refs ++ held) others) (hx : ∀ x ∈ vars, x ∈ xs) :
    (vars.foldl Frame.release f).Owes G xs held others := by
  induction vars generalizing f with
  | nil => exact h
  | cons x vars ih =>
    rw [List.flatMap_cons,List.append_assoc] at h
    exact ih (h.release (hx x List.mem_cons_self)) fun y hy => hx y (List.mem_cons_of_mem x hy)

/-- Releases make room in the counts. -/
theorem countable_releases {vars : List PPVar} {x : PPVar} (h : Countable f.base.vars x) :
    Countable (vars.foldl Frame.release f).base.vars x := by
  induction vars generalizing f with
  | nil => exact h
  | cons y vars ih =>
    refine ih ?_
    unfold Frame.release
    dsimp only
    rw [releaseVar,settle_vars]
    exact countable_release h

theorem Frame.Owes.convert {created : Bool} {res : PPVar} (h : f.Owes G xs held others)
    (hx : res ∈ xs) (hc : G → Countable f.base.vars res)
    (hg : f.convert c created res = some g) : g.Owes G xs held others := by
  obtain ⟨⟨base,v⟩,hb,rfl⟩ := Option.map_eq_some_iff.mp hg
  obtain ⟨new,ho,hp⟩ := ppVarToNpVariant_owned hb
  have hvars : (giveUp c v base).vars.owned = new ++ f.base.vars.owned := by rw [giveUp_vars,ho]
  refine ⟨h.same,h.accounts.proxies hvars ?_,fun hG => ?_⟩
  · rw [giveUp_proxies,hp]
  · have hbooks := ppVarToNpVariant_books hb (h.books hG) hx (hc hG)
    unfold Books at hbooks ⊢
    rw [giveUp_vars,giveUp_proxies]
    exact hbooks

/-- What is left of a call that has returned. -/
def Call.left (k : Call) : List ℕ :=
  match k.kind with
  | .getProperty => k.name.toList.flatMap refs
  | _ => []

/-- The name, and the arguments if the kind has any. -/
structure Call.Runs (k : Call) (name : PPVar) : Prop where
  named : k.name = some name
  plain : k.kind ≠ .invoke → k.args = []
  has : k.held = refs name ++ k.args.flatMap refs

theorem comt_owes {k : Call} {name res exception : PPVar} {npResult created : Bool}
    (hk : k.Runs name) (h : f.Owes G xs (handed k.kind res exception ++ k.held) others)
    (hname : name ∈ xs) (hargs : ∀ x ∈ k.args, x ∈ xs) (hres : res ∈ xs) (hexc : exception ∈ xs)
    (hc : G → Countable f.base.vars res)
    (hg : comt c k name res exception npResult created f = some g) :
    g.Owes G xs k.left others := by
  obtain ⟨kind,kname,args,returned,kheld⟩ := k
  obtain ⟨hnamed,hplain,hheld⟩ := hk
  dsimp only at hnamed hplain hheld hargs
  subst hnamed hheld
  have hasked : List.Perm (refs exception ++ (refs name ++ []))
      (refs name ++ (refs exception ++ [])) := by
    rw [List.append_nil,List.append_nil]
    exact List.perm_append_comm
  cases kind with
  | hasMethod =>
    cases hg
    obtain rfl : args = [] := hplain (by decide)
    exact ((h.perm hasked).release hname).release hexc
  | hasProperty =>
    cases hg
    obtain rfl : args = [] := hplain (by decide)
    exact ((h.perm hasked).release hname).release hexc
  | getProperty =>
    obtain ⟨f₁,h₁,rfl⟩ := Option.map_eq_some_iff.mp hg
    obtain rfl : args = [] := hplain (by decide)
    have hconv := h.convert hres hc h₁
    rw [handed,List.append_assoc] at hconv
    exact (hconv.release hres).release hexc
  | invoke =>
    obtain ⟨f₁,h₁,rfl⟩ := Option.map_eq_some_iff.mp hg
    have hperm : List.Perm (handed .invoke res exception ++ (refs name ++ args.flatMap refs))
        (args.flatMap refs ++ (refs res ++ (refs name ++ (refs exception ++ [])))) := by
      rw [List.perm_iff_count]
      intro a
      simp only [handed,List.count_append,List.count_nil]
      omega
    have hr := (h.perm hperm).releases hargs
    have hconv : f₁.Owes G xs (refs res ++ (refs name ++ (refs exception ++ []))) others := by
      split at h₁
      · exact hr.convert hres (fun hG => countable_releases (hc hG)) h₁
      · cases h₁
        exact hr
    exact ((hconv.release hres).release hname).release hexc

/-! Runs. -/

structure Call.Good (k : Call) : Prop where
  runs : k.returned = false → ∃ name, k.Runs name
  ended : k.returned = true → List.Perm k.held k.left
  name : ∀ name, k.name = some name → referenceCountable name = true

structure Accounted (s : State) : Prop where
  accounts : Accounts s.base (s.kept ++ s.calls.flatMap Call.held)
  good : ∀ k ∈ s.calls, k.Good

variable {s t : State}

theorem Accounted.nothing : Accounted nothing := ⟨.refl _,fun _ h => nomatch h⟩

/-- A step outside the calls. -/
theorem Accounted.frame (h : Accounted s) {kept : List ℕ}
    (ha : Accounts b' (kept ++ s.calls.flatMap Call.held)) :
    Accounted { s with base := b', kept := kept } := ⟨ha,h.good⟩

theorem Accounted.begin (h : Accounted s) {k : Call} (hk : k.Good)
    (ha : Accounts b' (k.held ++ (s.kept ++ s.calls.flatMap Call.held))) :
    Accounted ⟨b',s.kept,s.calls ++ [k]⟩ where
  accounts := by
    refine ha.perm ?_
    rw [List.flatMap_append,List.flatMap_singleton,← List.append_assoc s.kept]
    exact List.perm_append_comm
  good k' hk' := by
    rcases List.mem_append.mp hk' with hk' | hk'
    · exact h.good k' hk'
    · rw [List.mem_singleton.mp hk']
      exact hk

theorem Accounted.p2nCall {kind : Kind} {name : Option (List UInt8)} {args : List Variant}
    (h : Accounted s) (ht : p2nCall kind name args s = some t) : Accounted t := by
  unfold ProxyVars.p2nCall at ht
  cases name with
  | none =>
    cases ht
    refine h.begin ⟨fun hf => Bool.noConfusion hf,fun _ => ?_,fun _ hn => nomatch hn⟩ h.accounts
    cases kind <;> exact .refl _
  | some data =>
    dsimp only at ht
    split at ht
    · rename_i hargs
      obtain ⟨⟨vars,name⟩,hname,ht⟩ := Option.bind_eq_some_iff.mp ht
      obtain ⟨⟨base,ppArgs⟩,hconv,rfl⟩ := Option.map_eq_some_iff.mp ht
      have hcounted : referenceCountable name = true := (createVar_spec hname).1
      have hfirst : Accounts { s.base with vars := vars }
          (refs name ++ (s.kept ++ s.calls.flatMap Call.held)) :=
        h.accounts.gain (.of_eq (create_owned hname)) rfl
      have hboth : (kind ≠ .invoke → ppArgs = []) ∧ Accounts base
          (ppArgs.flatMap refs ++ (refs name ++ (s.kept ++ s.calls.flatMap Call.held))) := by
        cases kind with
        | invoke =>
          have hkeep : ∀ v ∈ args, Converts { s.base with vars := vars } v := fun v hv =>
            (hargs v hv).mono fun _ => create_isSome hname
          obtain ⟨howned,hproxies⟩ := npVariantsToPpVars_owned hconv hkeep
          exact ⟨fun hne => absurd rfl hne,hfirst.gain howned hproxies⟩
        | _ =>
          cases hconv
          exact ⟨fun _ => rfl,hfirst⟩
      refine h.begin ⟨fun _ => ⟨name,rfl,hboth.1,rfl⟩,fun hf => Bool.noConfusion hf,?_⟩ ?_
      · intro n hn
        cases hn
        exact hcounted
      · refine hboth.2.perm ?_
        rw [← List.append_assoc]
        exact List.perm_append_comm.append_right _
    · cases ht

/-- The vars of a call that has not returned. -/
def Call.vars (k : Call) : List PPVar := if k.returned then [] else k.name.toList ++ k.args

/-- What a call leaves that returns. -/
theorem p2nReturns_owes {res exception : PPVar} {npResult created : Bool} (h : Accounted s)
    (ht : p2nReturns c res exception npResult created s = some t) (G : Prop)
    (hb : G → Books s.base (res::exception::s.calls.flatMap Call.vars))
    (hc : G → Countable s.base.vars res) :
    ∃ (k : Call) (g : Frame), s.calls[c]? = some k ∧
      List.Subperm (handed k.kind res exception) s.kept ∧
      t = ⟨g.base,s.kept.diff (handed k.kind res exception),
        s.calls.set c { k with returned := true, held := g.held }⟩ ∧
      g.Owes G (res::exception::s.calls.flatMap Call.vars) k.left
        (s.kept.diff (handed k.kind res exception) ++ s.others c) := by
  unfold ProxyVars.p2nReturns at ht
  split at ht
  · rename_i k hk
    split at ht
    · rename_i name hname hret
      dsimp only at ht
      split at ht
      · rename_i hgift
        obtain ⟨g,hg,rfl⟩ := Option.map_eq_some_iff.mp ht
        have hmem := List.mem_of_getElem? hk
        obtain ⟨name',hruns⟩ := (h.good k hmem).runs hret
        obtain rfl : name' = name := Option.some.inj (hruns.named.symm.trans hname)
        have hvars : ∀ x ∈ name'::k.args, x ∈ res::exception::s.calls.flatMap Call.vars := by
          intro x hx
          refine List.mem_cons_of_mem _ (List.mem_cons_of_mem _ (List.mem_flatMap.mpr ⟨k,hmem,?_⟩))
          simpa [Call.vars,hret,hname] using hx
        have hstart : Frame.Owes ⟨s.base,handed k.kind res exception ++ k.held⟩ G
            (res::exception::s.calls.flatMap Call.vars) (handed k.kind res exception ++ k.held)
            (s.kept.diff (handed k.kind res exception) ++ s.others c) := by
          refine ⟨.refl _,h.accounts.perm ?_,hb⟩
          have hkept := perm_append_diff hgift
          have hcalls := perm_take Call.held hk
          refine (hkept.append hcalls).trans ?_
          rw [List.perm_iff_count]
          intro a
          simp only [State.others,List.count_append]
          omega
        exact ⟨k,g,hk,hgift,rfl,comt_owes hruns hstart (hvars name' List.mem_cons_self)
          (fun x hx => hvars x (List.mem_cons_of_mem _ hx)) List.mem_cons_self
          (List.mem_cons_of_mem _ List.mem_cons_self) hc hg⟩
      · cases ht
    · cases ht
  · cases ht

theorem Accounted.p2nReturns {res exception : PPVar} {npResult created : Bool} (h : Accounted s)
    (ht : p2nReturns c res exception npResult created s = some t) : Accounted t := by
  obtain ⟨k,g,hk,_,rfl,hend⟩ := p2nReturns_owes h ht False False.elim False.elim
  have hlt := (List.getElem?_eq_some_iff.mp hk).1
  refine ⟨hend.accounts.perm ?_,fun k' hk' => ?_⟩
  · have hset : List.Perm ((s.calls.set c { k with returned := true, held := g.held }).flatMap
        Call.held) (g.held ++ s.others c) := by
      rw [State.others,← List.eraseIdx_set_eq]
      exact perm_take Call.held (List.getElem?_set_self hlt)
    have hrest := hset.trans (hend.same.append_right _)
    rw [List.perm_iff_count] at hrest ⊢
    intro a
    have ha := hrest a
    simp only [List.count_append] at ha ⊢
    omega
  · rcases List.mem_or_eq_of_mem_set hk' with hk' | rfl
    · exact h.good k' hk'
    · exact ⟨fun hf => Bool.noConfusion hf,fun _ => hend.same,
        (h.good k (List.mem_of_getElem? hk)).name⟩

theorem Accounted.plugin {op : Op} (h : Accounted s) (ht : pluginStep op s = some t) :
    Accounted t := by
  obtain ⟨vars,hvars,ht⟩ := Option.bind_eq_some_iff.mp ht
  rcases step_owned hvars with ⟨var,rfl,howned⟩ | ⟨hne,new,hnew⟩
  · dsimp only at ht
    split at ht
    · rename_i hkept
      cases ht
      refine h.frame ?_
      unfold Accounts
      rw [settle_vars,settle_proxies,howned]
      refine diff_perm (h.accounts.trans ?_)
      rw [← List.append_assoc,← List.append_assoc]
      exact ((perm_append_diff hkept).append_right _).append_right _
    · cases ht
  · have hgain : Accounts (settle s.base vars)
        (gained s.base.vars vars ++ s.kept ++ s.calls.flatMap Call.held) := by
      rw [List.append_assoc]
      exact h.accounts.gain (by rw [settle_vars]; exact gained_perm hnew) (settle_proxies ..)
    cases op with
    | release var => exact absurd rfl (hne var)
    | _ =>
      cases ht
      exact h.frame hgain

theorem Accounted.deallocate {address : ℕ} {ppobj : PPVar} (h : Accounted s)
    (ho : NpObject.p2nProxy address ppobj ∈ s.base.proxies) : Accounted { s with
      base := releaseVar { s.base with
        proxies := s.base.proxies.erase (.p2nProxy address ppobj) } ppobj } := by
  refine h.frame (Accounts.release ?_)
  have hproxies : List.Perm (s.base.proxies.flatMap objectRefs) (refs ppobj ++
      (s.base.proxies.erase (.p2nProxy address ppobj)).flatMap objectRefs) :=
    (List.perm_cons_erase ho).flatMap_right objectRefs
  refine h.accounts.trans ((hproxies.append_left _).trans ?_)
  rw [← List.append_assoc]
  exact List.perm_append_comm.append_right _

theorem Accounted.step {a : Action} (h : Accounted s) (ht : step s a = some t) :
    Accounted t := by
  cases a with
  | p2nCall kind name args => exact h.p2nCall ht
  | p2nReturns c res exception npResult created => exact h.p2nReturns ht
  | n2pAnswer answer =>
    simp only [ProxyVars.step] at ht
    split at ht
    · rename_i hconv
      obtain ⟨base,hbase,rfl⟩ := Option.map_eq_some_iff.mp ht
      obtain ⟨⟨base',var⟩,hvar,rfl⟩ := Option.map_eq_some_iff.mp hbase
      have hsame : (receive s.calls.length answer s.base).vars = s.base.vars ∧
          (receive s.calls.length answer s.base).proxies = s.base.proxies := by
        cases answer <;> exact ⟨rfl,rfl⟩
      obtain ⟨howned,hproxies⟩ := npVariantToPpVar_owned hvar (hconv.mono fun _ hid => by
        rw [hsame.1]
        exact hid)
      rw [hsame.1] at howned
      refine h.frame ?_
      rw [List.append_assoc]
      exact h.accounts.gain (gained_perm howned) (hproxies.trans hsame.2)
    · cases ht
  | n2pArgument var created =>
    obtain ⟨⟨base,v⟩,hbase,rfl⟩ := Option.map_eq_some_iff.mp ht
    obtain ⟨new,ho,hp⟩ := ppVarToNpVariant_owned hbase
    exact h.frame (h.accounts.proxies ho hp)
  | p2nDeallocate o =>
    simp only [ProxyVars.step] at ht
    split at ht
    · rename_i ho
      cases o with
      | p2nProxy address ppobj =>
        cases ht
        exact h.deallocate ho
      | browser address => cases ht
    · cases ht
  | plugin op => exact h.plugin ht

theorem accounted_of_reachable (h : machine.Reachable s) : Accounted s :=
  h.invariant Accounted .nothing fun _ _ _ ha _ ht => ha.step ht

theorem balanced_iff_held {k : Call} (h : Accounted s) (hk : s.calls[c]? = some k) :
    Balanced s c ↔ k.held = [] := by
  have hall := (h.accounts).trans (((perm_take Call.held hk).append_left s.kept).append_right _)
  constructor
  · intro hb
    have hlen := (hb.symm.trans hall).length_eq
    simp only [State.known,State.others,List.length_append] at hlen
    exact List.length_eq_zero_iff.mp (by omega)
  · intro hnil
    rw [hnil] at hall
    refine hall.trans ?_
    rw [State.known,List.nil_append,List.append_assoc,List.append_assoc]
    exact List.perm_append_comm.append_left _

/-! The books of the table, where the plugin keeps the rules. -/

/-- The vars calls and proxies have. -/
def State.vars (s : State) : List PPVar :=
  s.calls.flatMap Call.vars ++ s.base.proxies.flatMap objectVars

/-- Vars from outside have the types of their entries, none is made while a slot has one that is
gone, no count overflows, and the plugin keeps to what is asked of its own operations. -/
def KeepsRules (s : State) : Action → Prop
  | .p2nCall _ _ args => NoDangling s.base.vars ∧ Room s.base.vars args.length ∧
      ∀ v ∈ args, Typed s.base v
  | .p2nReturns _ res exception _ _ => Genuine s.base.vars res ∧
      Genuine s.base.vars exception ∧ Countable s.base.vars res
  | .n2pAnswer answer => NoDangling s.base.vars ∧ Room s.base.vars 1 ∧ Typed s.base answer
  | .n2pArgument var _ => Genuine s.base.vars var ∧ Countable s.base.vars var
  | .p2nDeallocate _ => True
  | .plugin op => Respects s.base.vars op

instance (s : State) (a : Action) : Decidable (KeepsRules s a) := by
  apply a.casesOn (motive := fun a => Decidable (KeepsRules s a)) <;> intros <;>
    dsimp only [KeepsRules] <;> infer_instance

/-- Calls and proxies have references on their vars. -/
theorem Accounted.owned (h : Accounted s) {x : PPVar} (hx : x ∈ s.vars)
    (hc : referenceCountable x = true) : x.asId ∈ s.base.vars.owned := by
  have hrefs : x.asId ∈ refs x := by
    rw [refs,if_pos hc]
    exact List.mem_singleton_self _
  refine h.accounts.mem_iff.mpr ?_
  rcases List.mem_append.mp hx with hx | hx
  · obtain ⟨k,hk,hx⟩ := List.mem_flatMap.mp hx
    refine List.mem_append_left _ (List.mem_append_right _ (List.mem_flatMap.mpr ⟨k,hk,?_⟩))
    unfold Call.vars at hx
    split_ifs at hx with hret
    · cases hx
    · obtain ⟨name,hruns⟩ := (h.good k hk).runs (by simpa using hret)
      rw [hruns.named,Option.toList_some,List.singleton_append] at hx
      rw [hruns.has]
      rcases List.mem_cons.mp hx with rfl | hx
      · exact List.mem_append_left _ hrefs
      · exact List.mem_append_right _ (List.mem_flatMap.mpr ⟨x,hx,hrefs⟩)
  · obtain ⟨o,ho,hx⟩ := List.mem_flatMap.mp hx
    refine List.mem_append_right _ (List.mem_flatMap.mpr ⟨o,ho,?_⟩)
    rw [objectRefs_eq]
    exact List.mem_flatMap.mpr ⟨x,hx,hrefs⟩

/-- The vars at hand are in the table, so that others may be made. -/
theorem Accounted.grows (h : Accounted s) (hs : Sane s.base.vars s.vars)
    (hn : NoDangling s.base.vars) {n : ℕ} (hr : Room s.base.vars n) :
    Grows s.base.vars s.vars n :=
  ⟨hs,hn,fun _ hx hc => hs.inv.sound.owned _ (h.owned hx hc),hr⟩

theorem sane_p2nCall {kind : Kind} {name : Option (List UInt8)} {args : List Variant}
    (h : Accounted s) (hs : Sane s.base.vars s.vars) (hg : KeepsRules s (.p2nCall kind name args))
    (ht : p2nCall kind name args s = some t) : Sane t.base.vars t.vars := by
  obtain ⟨hn,hroom,htyped⟩ := hg
  unfold ProxyVars.p2nCall at ht
  cases name with
  | none =>
    cases ht
    refine hs.mono fun y hy => ?_
    simpa [State.vars,Call.vars] using hy
  | some data =>
    dsimp only at ht
    split at ht
    · rename_i hargs
      obtain ⟨⟨vars,name⟩,hname,ht⟩ := Option.bind_eq_some_iff.mp ht
      obtain ⟨⟨base,ppArgs⟩,hconv,rfl⟩ := Option.map_eq_some_iff.mp ht
      have hfirst : Grows vars (name::s.vars) args.length := (h.grows hs hn hroom).create rfl hname
      have hboth : Grows base.vars (ppArgs ++ name::s.vars) 0 ∧ base.proxies = s.base.proxies := by
        cases kind with
        | invoke =>
          have hkeep : ∀ v ∈ args, Converts { s.base with vars := vars } v ∧
              Typed { s.base with vars := vars } v := fun v hv =>
            ⟨(hargs v hv).mono fun _ => create_isSome hname,
              typed_create (htyped v hv) (hargs v hv) hname⟩
          exact ⟨npVariantsToPpVars_grows hconv hfirst hkeep,
            (npVariantsToPpVars_owned hconv fun v hv => (hkeep v hv).1).2⟩
        | _ =>
          cases hconv
          exact ⟨hfirst.mono (Nat.zero_le _) fun _ hy => hy,rfl⟩
      refine hboth.1.sane.mono fun y hy => ?_
      simp only [State.vars,Call.vars,hboth.2,List.flatMap_append,List.flatMap_singleton,
        Bool.false_eq_true,if_false,Option.toList_some,List.mem_append,List.mem_cons,
        List.not_mem_nil,or_false] at hy ⊢
      tauto
    · cases ht

theorem sane_p2nReturns {res exception : PPVar} {npResult created : Bool} (h : Accounted s)
    (hs : Sane s.base.vars s.vars)
    (hg : KeepsRules s (.p2nReturns c res exception npResult created))
    (ht : p2nReturns c res exception npResult created s = some t) :
    Sane t.base.vars t.vars := by
  obtain ⟨hres,hexc,hcount⟩ := hg
  have hbooks : Books s.base (res::exception::s.calls.flatMap Call.vars) := by
    refine ⟨hs.inv,hs.fits,fun x hx => ?_⟩
    rcases List.mem_cons.mp hx with rfl | hx
    · exact hres
    · rcases List.mem_cons.mp hx with rfl | hx
      · exact hexc
      · exact hs.genuine x hx
  obtain ⟨k,g,_,_,rfl,hend⟩ := p2nReturns_owes h ht True (fun _ => hbooks) fun _ => hcount
  refine (hend.books trivial).mono fun y hy => ?_
  rcases List.mem_append.mp hy with hy | hy
  · obtain ⟨k',hk',hy⟩ := List.mem_flatMap.mp hy
    rcases List.mem_or_eq_of_mem_set hk' with hk' | rfl
    · refine List.mem_append_left _ (List.mem_cons_of_mem _ (List.mem_cons_of_mem _ ?_))
      exact List.mem_flatMap.mpr ⟨k',hk',hy⟩
    · cases hy
  · exact List.mem_append_right _ hy

theorem sane_step {a : Action} (h : Accounted s) (hs : Sane s.base.vars s.vars)
    (hg : KeepsRules s a) (ht : step s a = some t) : Sane t.base.vars t.vars := by
  cases a with
  | p2nCall kind name args => exact sane_p2nCall h hs hg ht
  | p2nReturns c res exception npResult created => exact sane_p2nReturns h hs hg ht
  | n2pAnswer answer =>
    obtain ⟨hn,hroom,htyped⟩ := hg
    simp only [ProxyVars.step] at ht
    split at ht
    · rename_i hconv
      obtain ⟨base,hbase,rfl⟩ := Option.map_eq_some_iff.mp ht
      obtain ⟨⟨base',var⟩,hvar,rfl⟩ := Option.map_eq_some_iff.mp hbase
      have hsame : (receive s.calls.length answer s.base).vars = s.base.vars ∧
          (receive s.calls.length answer s.base).proxies = s.base.proxies := by
        cases answer <;> exact ⟨rfl,rfl⟩
      have hgrows : Grows (receive s.calls.length answer s.base).vars s.vars (0+1) := by
        rw [hsame.1]
        exact h.grows hs hn hroom
      have hanswer : Converts (receive s.calls.length answer s.base) answer :=
        hconv.mono fun _ hid => by
          rw [hsame.1]
          exact hid
      have htyped' : Typed (receive s.calls.length answer s.base) answer := by
        cases answer <;> exact htyped
      have hproxies := (npVariantToPpVar_owned hvar hanswer).2.trans hsame.2
      refine (npVariantToPpVar_grows hvar hgrows hanswer htyped').sane.mono fun y hy => ?_
      rw [State.vars,hproxies] at hy
      exact List.mem_cons_of_mem _ hy
    · cases ht
  | n2pArgument var created =>
    obtain ⟨⟨base,v⟩,hbase,rfl⟩ := Option.map_eq_some_iff.mp ht
    have hbooks : Books s.base (var::s.calls.flatMap Call.vars) := by
      refine ⟨hs.inv,hs.fits,fun x hx => ?_⟩
      rcases List.mem_cons.mp hx with rfl | hx
      · exact hg.1
      · exact hs.genuine x hx
    exact (ppVarToNpVariant_books hbase hbooks List.mem_cons_self hg.2).mono
      fun y hy => List.mem_cons_of_mem _ hy
  | p2nDeallocate o =>
    simp only [ProxyVars.step] at ht
    split at ht
    · rename_i ho
      cases o with
      | p2nProxy address ppobj =>
        cases ht
        have hmem : ppobj ∈ s.vars := List.mem_append_right _
          (List.mem_flatMap.mpr ⟨_,ho,List.mem_singleton_self ppobj⟩)
        have hrel : Sane (releaseVar { s.base with
            proxies := s.base.proxies.erase (.p2nProxy address ppobj) } ppobj).vars s.vars := by
          rw [releaseVar,settle_vars]
          exact hs.release hmem (h.owned hmem)
        refine hrel.mono fun y hy => ?_
        rw [State.vars,releaseVar_proxies] at hy
        rcases List.mem_append.mp hy with hy | hy
        · exact List.mem_append_left _ hy
        · obtain ⟨o,ho,hy⟩ := List.mem_flatMap.mp hy
          exact List.mem_append_right _ (List.mem_flatMap.mpr ⟨o,List.mem_of_mem_erase ho,hy⟩)
      | browser address => cases ht
    · cases ht
  | plugin op =>
    obtain ⟨vars,hvars,ht⟩ := Option.bind_eq_some_iff.mp ht
    have hv : Sane vars s.vars := hs.step hg (fun _ hx hc => h.owned hx hc) hvars
    have hsettle : Sane (settle s.base vars).vars
        (s.calls.flatMap Call.vars ++ (settle s.base vars).proxies.flatMap objectVars) := by
      rw [settle_vars,settle_proxies]
      exact hv
    cases op with
    | release var =>
      dsimp only at ht
      split at ht
      · cases ht
        exact hsettle
      · cases ht
    | _ =>
      cases ht
      exact hsettle

theorem sane_of_reachableVia (h : machine.ReachableVia KeepsRules s) :
    Sane s.base.vars s.vars := by
  have hboth : Accounted s ∧ Sane s.base.vars s.vars := h.invariant
    (fun s => Accounted s ∧ Sane s.base.vars s.vars)
    ⟨.nothing,create_inv,create_countsFit,fun _ hx => absurd hx List.not_mem_nil⟩
    fun _ _ _ hi hg ht => ⟨hi.1.step ht,sane_step hi.1 hi.2 hg ht⟩
  exact hboth.2

/-- The counts of the table, where they are right at all. -/
theorem refCount_accounted {id : ℕ} {e : VarS} (h : Accounted s)
    (hs : Sound s.base.vars [] none) (he : s.base.vars.table.lookup id = some e) :
    e.refCount = (s.kept ++ s.calls.flatMap Call.held ++ s.base.proxies.flatMap objectRefs).count id +
      s.base.vars.slots.countP (holds id) := by
  have hb := hs.balance id e he
  have hc := h.accounts.count_eq id
  simp only [Var.State.references,hc,List.countP_nil] at hb
  rw [if_neg (by simp)] at hb
  push_cast at hb ⊢
  omega

/-- Of a call that has returned nothing is left but the name of a property it got. -/
theorem held_eq_nil_iff {k : Call} (ha : Accounted s) (hk : k ∈ s.calls)
    (hret : k.returned = true) :
    k.held = [] ↔ ¬(k.kind = .getProperty ∧ k.name.isSome = true) := by
  have hgood := ha.good k hk
  have hleft := hgood.ended hret
  unfold Call.left at hleft
  cases hn : k.name with
  | none =>
    rw [hn] at hleft
    have hnil : k.held = [] := by
      cases hkind : k.kind <;> rw [hkind] at hleft <;> exact hleft.eq_nil
    simp [hnil]
  | some name =>
    have hcounted := hgood.name name hn
    cases hkind : k.kind with
    | getProperty =>
      have hone : List.Perm k.held [name.asId] := by
        simpa [hkind,hn,refs,hcounted] using hleft
      refine ⟨fun hnil => ?_,fun hne => absurd ⟨rfl,rfl⟩ hne⟩
      rw [hnil] at hone
      exact absurd hone.symm.eq_nil (List.cons_ne_nil _ _)
    | _ =>
      rw [hkind] at hleft
      simp [hleft.eq_nil]

theorem tableBalanced_iff_held {k : Call} (h : Accounted s) (hs : Sane s.base.vars s.vars)
    (hk : s.calls[c]? = some k) : TableBalanced s c ↔ k.held = [] := by
  have hsplit := perm_take Call.held hk
  have hcount : ∀ id e, s.base.vars.table.lookup id = some e → e.refCount =
      (s.known c).count id + s.base.vars.slots.countP (holds id) + k.held.count id := by
    intro id e he
    rw [refCount_accounted h hs.inv.sound he]
    have hid := hsplit.count_eq id
    simp only [State.known,State.others,List.count_append] at hid ⊢
    rw [hid]
    push_cast
    omega
  constructor
  · intro ht
    by_contra hne
    obtain ⟨id,hid⟩ := List.exists_mem_of_ne_nil _ hne
    have howned : id ∈ s.base.vars.owned := h.accounts.mem_iff.mpr (List.mem_append_left _
      (List.mem_append_right _ (hsplit.mem_iff.mpr (List.mem_append_left _ hid))))
    obtain ⟨e,he⟩ := Option.isSome_iff_exists.mp (hs.inv.sound.owned id howned)
    have hpos := List.count_pos_iff.mpr hid
    have htable := (ht.counts id e he).1
    have hbooks := hcount id e he
    omega
  · intro hnil
    refine ⟨fun id e he => ?_,fun id hid => ?_⟩
    · have hbooks := hcount id e he
      rw [hnil,List.count_nil] at hbooks
      push_cast at hbooks
      exact ⟨by omega,hs.inv.sound.positive id e he,hs.fits id e he⟩
    · refine hs.inv.sound.owned id (h.accounts.mem_iff.mpr ?_)
      have hmem := hsplit.mem_iff (a := id)
      rw [hnil,List.nil_append] at hmem
      simp only [State.known,State.others,List.mem_append] at hid hmem ⊢
      tauto

/-- The name of a property got is never released: the references callers own include it, and so
does the table where the rules for vars are kept. -/
theorem call_vars_balanced_iff {k : Call} (hs : machine.Reachable s) (hk : s.calls[c]? = some k)
    (hret : k.returned = true) :
    (Balanced s c ↔ ¬(k.kind = .getProperty ∧ k.name.isSome = true)) ∧
      (machine.ReachableVia KeepsRules s →
        (TableBalanced s c ↔ ¬(k.kind = .getProperty ∧ k.name.isSome = true))) := by
  have ha := accounted_of_reachable hs
  have hheld := held_eq_nil_iff ha (List.mem_of_getElem? hk) hret
  exact ⟨(balanced_iff_held ha hk).trans hheld,fun hvia =>
    (tableBalanced_iff_held ha (sane_of_reachableVia hvia) hk).trans hheld⟩

/-- An object of the plugin is asked for a property, and one of its methods is called with an
argument. -/
def objectUsed (kind : Kind) (args : List Variant) : List Action :=
  [.plugin .createObject,.n2pArgument ⟨.object,2⟩ true,.p2nCall kind (some [108]) args,
    .plugin (.varFromUtf8 [111]),.p2nReturns 0 ⟨.string,4+args.length⟩ ppMakeUndefined true true]

theorem invoked_balanced : ∃ s k, machine.ReachableVia KeepsRules s ∧ s.calls[0]? = some k ∧
    k.returned = true ∧ Balanced s 0 ∧ TableBalanced s 0 := by
  obtain ⟨s,hs,k,hk,hret,hkind⟩ : ∃ s, machine.exec machine.start
      (objectUsed .invoke [.string [97]]) = some s ∧
      ∃ k, s.calls[0]? = some k ∧ k.returned = true ∧ k.kind = .invoke := ⟨_,rfl,_,rfl,rfl,rfl⟩
  have hvia : machine.ReachableVia KeepsRules s :=
    Machine.reachableVia_of_exec _ .start hs (by decide)
  have hno : ¬(k.kind = .getProperty ∧ k.name.isSome = true) := by simp [hkind]
  have h := call_vars_balanced_iff (Machine.reachable_of_exec hs) hk hret
  exact ⟨s,k,hvia,hk,hret,h.1.mpr hno,(h.2 hvia).mpr hno⟩

/-- After a property was got its name is still in the table, and nobody has it. -/
theorem property_name_kept : ¬∀ s c k, machine.Reachable s → s.calls[c]? = some k →
    k.returned = true → Balanced s c := by
  intro h
  obtain ⟨s,hs,k,hk,hret,howned,hknown⟩ : ∃ s, machine.exec machine.start
      (objectUsed .getProperty []) = some s ∧
      ∃ k, s.calls[0]? = some k ∧ k.returned = true ∧ s.base.vars.owned = [3,2,2] ∧
        s.known 0 = [2,2] :=
    ⟨_,rfl,_,rfl,rfl,rfl,rfl⟩
  have hb := h s 0 k (Machine.reachable_of_exec hs) hk hret
  unfold Balanced at hb
  rw [howned,hknown] at hb
  exact absurd hb.length_eq (by decide)

end ProxyVars
end FreshPlayer
