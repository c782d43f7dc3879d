import FreshPlayer.ProxyVars
import FreshPlayer.VarContents
import Mathlib.Data.List.Perm.Lattice

/-! What the operations that calls through proxies make do to the references of callers, and to
the books of the table: vars keep the types of their entries, and counts stay right. -/
namespace FreshPlayer
namespace ProxyVars

open Var ProxyClasses

theorem append_diff_self (k m : List ℕ) : (k ++ m).diff k = m := by
  induction k with
  | nil => rfl
  | cons a k ih => rw [List.cons_append,List.diff_cons,List.erase_cons_head,ih]

theorem diff_perm {l k m : List ℕ} (h : List.Perm l (k ++ m)) : List.Perm (l.diff k) m := by
  have hd := h.diff_right k
  rwa [append_diff_self] at hd

theorem perm_append_diff {l k : List ℕ} (h : List.Subperm k l) : List.Perm l (k ++ l.diff k) :=
  (List.subperm_append_diff_self_of_count_le fun a _ => h.count_le a).symm

theorem perm_take {α : Type} (f : α → List ℕ) {l : List α} {c : ℕ} {k : α} (h : l[c]? = some k) :
    List.Perm (l.flatMap f) (f k ++ (l.eraseIdx c).flatMap f) := by
  induction l generalizing c with
  | nil => simp at h
  | cons a l ih =>
    cases c with
    | zero =>
      cases h
      rfl
    | succ c =>
      simp only [List.flatMap_cons,List.eraseIdx_cons_succ]
      refine ((ih h).append_left _).trans ?_
      rw [← List.append_assoc,← List.append_assoc]
      exact List.perm_append_comm.append_right _

/-! What the operations do to the references of callers. -/

variable {b b' : ProxyClasses.State} {v : Variant} {var : PPVar} {c : ℕ}

theorem clearElements_owned (n : ℕ) (s : Var.State) (xs : List PPVar) :
    (clearElements n s xs).owned = s.owned := by
  induction n generalizing s xs with
  | zero => cases xs <;> rfl
  | succ n ih =>
    cases xs with
    | nil => rfl
    | cons x xs => rw [clearElements,ih,dropRef_owned]

theorem release_owned (s : Var.State) (x : PPVar) : (ppbVarRelease s x).owned = s.owned := by
  rw [ppbVarRelease,clearElements_owned,dropRef_owned]

theorem disown_owned (s : Var.State) (x : PPVar) : (disown s x).owned = s.owned.diff (refs x) := by
  unfold disown refs
  split_ifs
  · rw [List.diff_cons,List.diff_nil]
  · rw [List.diff_nil]

theorem addRef_owned (s : Var.State) (x : PPVar) : (ppbVarAddRef s x).owned = s.owned := by
  unfold ppbVarAddRef
  split_ifs
  · rfl
  · split <;> rfl

theorem addRef2_owned {s : Var.State} {x : PPVar}
    (h : referenceCountable x = true → (s.table.lookup x.asId).isSome = true) :
    (ppbVarAddRef2 s x).1.owned = refs x ++ s.owned := by
  rw [ppbVarAddRef2,addRef_owned]
  unfold own refs
  split_ifs with h₁ h₂ h₂
  · rfl
  · simp [h₂] at h₁
  · simp [h₂,h h₂] at h₁
  · rfl

theorem create_owned {s t : Var.State} {content : Content} (h : createVar s content = some (t,var)) :
    t.owned = refs var ++ s.owned := by
  obtain ⟨id,_,rfl,rfl⟩ := createVar_eq h
  rw [refs,if_pos (referenceCountable_type content id)]
  rfl

theorem deallocateRemoved_vars (b : ProxyClasses.State) (rs : List Removal) :
    (deallocateRemoved b rs).vars = b.vars ∧ (deallocateRemoved b rs).proxies = b.proxies := by
  induction rs generalizing b with
  | nil => exact ⟨rfl,rfl⟩
  | cons r rs ih =>
    unfold deallocateRemoved
    split
    · exact ih _
    · exact ih b

@[simp] theorem settle_vars (b : ProxyClasses.State) (vars : Var.State) :
    (settle b vars).vars = vars := (deallocateRemoved_vars _ _).1

@[simp] theorem settle_proxies (b : ProxyClasses.State) (vars : Var.State) :
    (settle b vars).proxies = b.proxies := (deallocateRemoved_vars _ _).2

theorem releaseVar_owned (b : ProxyClasses.State) (x : PPVar) :
    (releaseVar b x).vars.owned = b.vars.owned.diff (refs x) := by
  rw [releaseVar,settle_vars,release_owned,disown_owned]

@[simp] theorem releaseVar_proxies (b : ProxyClasses.State) (x : PPVar) :
    (releaseVar b x).proxies = b.proxies := settle_proxies ..

@[simp] theorem giveUp_vars (c : ℕ) (v : Variant) (b : ProxyClasses.State) :
    (giveUp c v b).vars = b.vars := by cases v <;> rfl

@[simp] theorem giveUp_proxies (c : ℕ) (v : Variant) (b : ProxyClasses.State) :
    (giveUp c v b).proxies = b.proxies := by cases v <;> rfl

/-- The caller gets a reference on the var it converts to. -/
theorem npVariantToPpVar_owned (h : npVariantToPpVar c v b = some (b',var)) (hv : Converts b v) :
    b'.vars.owned = refs var ++ b.vars.owned ∧ b'.proxies = b.proxies := by
  match v with
  | .object (.p2nProxy _ ppobj) =>
    cases h
    exact ⟨addRef2_owned hv,rfl⟩
  | .object (.browser _) =>
    obtain ⟨⟨vars,w⟩,hw,he⟩ := Option.map_eq_some_iff.mp h
    cases he
    exact ⟨create_owned hw,rfl⟩
  | .string data =>
    obtain ⟨⟨vars,w⟩,hw,he⟩ := Option.map_eq_some_iff.mp h
    cases he
    exact ⟨create_owned hw,rfl⟩
  | .other =>
    cases h
    exact ⟨rfl,rfl⟩

theorem create_isSome {s t : Var.State} {content : Content}
    (h : createVar s content = some (t,var)) {id : ℕ}
    (hid : (s.table.lookup id).isSome = true) : (t.table.lookup id).isSome = true := by
  obtain ⟨w,hw⟩ := Option.isSome_iff_exists.mp hid
  obtain ⟨_,_,_,_,hkeep⟩ := createVar_spec h
  rw [(hkeep id w hw).2]
  rfl

theorem addRef2_isSome (s : Var.State) (x : PPVar) (id : ℕ) :
    ((ppbVarAddRef2 s x).1.table.lookup id).isSome = (s.table.lookup id).isSome := by
  rw [ppbVarAddRef2,own_eq]
  unfold ppbVarAddRef
  split_ifs
  · rfl
  · split
    · rfl
    · rename_i w hw
      exact isSome_lookup_put hw

theorem Converts.mono {w : Variant} (h : Converts b w)
    (hb : ∀ id, (b.vars.table.lookup id).isSome = true → (b'.vars.table.lookup id).isSome = true) :
    Converts b' w := by
  match w with
  | .object (.p2nProxy _ ppobj) => exact fun hc => hb _ (h hc)
  | .object (.browser _) => trivial
  | .string _ => trivial
  | .other => trivial

theorem npVariantToPpVar_isSome (h : npVariantToPpVar c v b = some (b',var)) {id : ℕ}
    (hid : (b.vars.table.lookup id).isSome = true) :
    (b'.vars.table.lookup id).isSome = true := by
  match v with
  | .object (.p2nProxy _ _) =>
    cases h
    exact (addRef2_isSome b.vars _ id).trans hid
  | .object (.browser _) =>
    obtain ⟨⟨vars,w⟩,hw,he⟩ := Option.map_eq_some_iff.mp h
    cases he
    exact create_isSome hw hid
  | .string data =>
    obtain ⟨⟨vars,w⟩,hw,he⟩ := Option.map_eq_some_iff.mp h
    cases he
    exact create_isSome hw hid
  | .other =>
    cases h
    exact hid

theorem npVariantsToPpVars_owned {vs : List Variant} {vars : List PPVar}
    (h : npVariantsToPpVars c vs b = some (b',vars)) (hvs : ∀ v ∈ vs, Converts b v) :
    List.Perm b'.vars.owned (vars.flatMap refs ++ b.vars.owned) ∧ b'.proxies = b.proxies := by
  induction vs generalizing b vars with
  | nil =>
    cases h
    exact ⟨.refl _,rfl⟩
  | cons v vs ih =>
    obtain ⟨⟨b₁,var⟩,h₁,h⟩ := Option.bind_eq_some_iff.mp h
    obtain ⟨⟨b₂,rest⟩,h₂,he⟩ := Option.map_eq_some_iff.mp h
    cases he
    obtain ⟨howned,hproxies⟩ := npVariantToPpVar_owned h₁ (hvs v List.mem_cons_self)
    obtain ⟨hrest,hsame⟩ := ih h₂ fun w hw =>
      (hvs w (List.mem_cons_of_mem _ hw)).mono fun _ => npVariantToPpVar_isSome h₁
    refine ⟨hrest.trans ?_,hsame.trans hproxies⟩
    rw [howned,List.flatMap_cons,← List.append_assoc]
    exact List.perm_append_comm.append_right _

/-- A proxy made for the var gets a reference of its own. -/
theorem ppVarToNpVariant_owned {created : Bool}
    (h : ppVarToNpVariant c created var b = some (b',v)) : ∃ new : List ℕ,
    b'.vars.owned = new ++ b.vars.owned ∧
    b'.proxies.flatMap objectRefs = new ++ b.proxies.flatMap objectRefs := by
  unfold ppVarToNpVariant at h
  split at h
  · cases h
    exact ⟨[],rfl,rfl⟩
  · split at h
    · cases h
    · rename_i hl
      split at h
      · cases h
        exact ⟨[],rfl,rfl⟩
      · split at h
        · cases h
          refine ⟨refs var,addRef2_owned fun _ => ?_,rfl⟩
          cases hv : b.vars.table.lookup var.asId with
          | none => simp [hv] at hl
          | some w => rfl
        · cases h
          exact ⟨[],rfl,rfl⟩
  · cases h
    exact ⟨[],rfl,rfl⟩

/-! The operations of the plugin. -/

theorem arraySet_owned {s t : Var.State} {array value : PPVar} {index : ℕ} {ok : Bool}
    (h : ppbVarArraySet s array index value = some (t,ok)) : t.owned = s.owned := by
  rcases ppbVarArraySet_some h with ⟨_,rfl,_⟩ | ⟨_,_,_,_,_,_,_,rfl⟩
  · rfl
  · rw [addRef_owned]
    rfl

theorem dictionarySet_owned {s t : Var.State} {dict key value : PPVar} {ok : Bool}
    (h : ppbVarDictionarySet s dict key value = some (t,ok)) : t.owned = s.owned := by
  rcases ppbVarDictionarySet_some h with ⟨_,rfl,_⟩ | ⟨_,_,_,u,_,_,_,_,rfl,hset⟩
  · rfl
  · rcases hset with ⟨_,rfl⟩ | ⟨old,_,rfl⟩
    · rw [addRef_owned]
      rfl
    · rw [addRef_owned,release_owned]
      rfl

theorem gains_addRef2 (s : Var.State) (x : PPVar) :
    ∃ new, (ppbVarAddRef2 s x).1.owned = new ++ s.owned := by
  rw [ppbVarAddRef2,addRef_owned]
  unfold own
  split_ifs
  · exact ⟨[x.asId],rfl⟩
  · exact ⟨[],rfl⟩

theorem gains_arrayGet {s t : Var.State} {array : PPVar} {index : ℕ}
    (h : ppbVarArrayGet s array index = some (t,var)) : ∃ new, t.owned = new ++ s.owned := by
  rw [arrayGet_addRef2 h]
  exact gains_addRef2 s var

theorem gains_dictionaryGet {s t : Var.State} {dict key : PPVar}
    (h : ppbVarDictionaryGet s dict key = some (t,var)) : ∃ new, t.owned = new ++ s.owned := by
  rw [dictionaryGet_addRef2 h]
  exact gains_addRef2 s var

/-- Each round of the loop gives up the key it made. -/
theorem setKeys_owned {s t : Var.State} {keys : PPVar} {idx : ℕ} {rest : List (List UInt8)}
    (h : setKeys s keys idx rest = some t) : t.owned = s.owned := by
  induction rest generalizing s idx with
  | nil =>
    cases h
    rfl
  | cons sKey rest ih =>
    obtain ⟨⟨s₁,key⟩,h₁,h⟩ := Option.bind_eq_some_iff.mp h
    obtain ⟨⟨s₂,ok⟩,h₂,h⟩ := Option.bind_eq_some_iff.mp h
    rw [ih h,release_owned,disown_owned,arraySet_owned h₂,create_owned h₁,append_diff_self]

theorem gains_dictionaryGetKeys {s t : Var.State} {dict : PPVar}
    (h : ppbVarDictionaryGetKeys s dict = some (t,var)) : ∃ new, t.owned = new ++ s.owned := by
  rcases ppbVarDictionaryGetKeys_some h with ⟨_,rfl,_⟩ | ⟨u,_,_,d,_,hu,_,hkeys⟩
  · exact ⟨[],rfl⟩
  · exact ⟨_,(setKeys_owned hkeys).trans (create_owned hu)⟩

theorem gains_create {s t : Var.State} {content : Content}
    (h : (createVar s content).map Prod.fst = some t) : ∃ new, t.owned = new ++ s.owned := by
  obtain ⟨⟨t',var⟩,ht,rfl⟩ := Option.map_eq_some_iff.mp h
  exact ⟨refs var,create_owned ht⟩

/-- Only a release takes references from the callers. -/
theorem step_owned {s t : Var.State} {op : Op} (h : Var.step s op = some t) :
    (∃ var, op = .release var ∧ t.owned = s.owned.diff (refs var)) ∨
    (∀ var, op ≠ .release var) ∧ ∃ new, t.owned = new ++ s.owned := by
  cases op with
  | release x =>
    refine Or.inl ⟨x,rfl,?_⟩
    simp only [Var.step] at h
    split at h
    · cases h
      rw [release_owned,disown_owned]
    · cases h
  | varFromUtf8 data => exact Or.inr ⟨fun _ he => (by cases he),gains_create h⟩
  | createObject => exact Or.inr ⟨fun _ he => (by cases he),gains_create h⟩
  | arrayBufferCreate => exact Or.inr ⟨fun _ he => (by cases he),gains_create h⟩
  | dictionaryCreate => exact Or.inr ⟨fun _ he => (by cases he),gains_create h⟩
  | arrayCreate => exact Or.inr ⟨fun _ he => (by cases he),gains_create h⟩
  | addRef x =>
    cases h
    exact Or.inr ⟨fun _ he => (by cases he),gains_addRef2 s x⟩
  | arraySet array index value =>
    obtain ⟨⟨t',ok⟩,ht,rfl⟩ := Option.map_eq_some_iff.mp h
    exact Or.inr ⟨fun _ he => (by cases he),[],arraySet_owned ht⟩
  | arrayGet array index =>
    obtain ⟨⟨t',x⟩,ht,rfl⟩ := Option.map_eq_some_iff.mp h
    exact Or.inr ⟨fun _ he => (by cases he),gains_arrayGet ht⟩
  | dictionarySet dict key value =>
    obtain ⟨⟨t',ok⟩,ht,rfl⟩ := Option.map_eq_some_iff.mp h
    exact Or.inr ⟨fun _ he => (by cases he),[],dictionarySet_owned ht⟩
  | dictionaryGet dict key =>
    obtain ⟨⟨t',x⟩,ht,rfl⟩ := Option.map_eq_some_iff.mp h
    exact Or.inr ⟨fun _ he => (by cases he),gains_dictionaryGet ht⟩
  | dictionaryGetKeys dict =>
    obtain ⟨⟨t',x⟩,ht,rfl⟩ := Option.map_eq_some_iff.mp h
    exact Or.inr ⟨fun _ he => (by cases he),gains_dictionaryGetKeys ht⟩

theorem gained_perm {s t : Var.State} {new : List ℕ} (h : t.owned = new ++ s.owned) :
    List.Perm t.owned (gained s t ++ s.owned) := by
  have hnew : List.Perm (gained s t) new := by
    refine diff_perm ?_
    rw [h]
    exact List.perm_append_comm
  rw [h]
  exact hnew.symm.append_right _

/-! Vars keep the types of their entries. -/

/-- Every entry was there before, as the same var. -/
def Retains (u v : Var.State) : Prop :=
  ∀ id e, v.table.lookup id = some e → ∃ e', u.table.lookup id = some e' ∧ e.var = e'.var

theorem Retains.trans {u v w : Var.State} (h : Retains u v) (k : Retains v w) : Retains u w := by
  intro id e he
  obtain ⟨e₁,h₁,hv₁⟩ := k id e he
  obtain ⟨e₂,h₂,hv₂⟩ := h id e₁ h₁
  exact ⟨e₂,h₂,hv₁.trans hv₂⟩

theorem Retains.of_table {u v : Var.State} (h : v.table = u.table) : Retains u v :=
  fun _ e he => ⟨e,h ▸ he,rfl⟩

theorem Retains.put {u : Var.State} {id : ℕ} {e e' : VarS} (he : u.table.lookup id = some e)
    (hv : e'.var = e.var) : Retains u (u.put id e') := by
  intro k w hw
  rcases lookup_put hw with ⟨rfl,rfl⟩ | ⟨_,hl⟩
  · exact ⟨e,he,hv⟩
  · exact ⟨w,hl,rfl⟩

theorem Retains.addRef (u : Var.State) (x : PPVar) : Retains u (ppbVarAddRef u x) := by
  unfold ppbVarAddRef
  split_ifs
  · exact .of_table rfl
  · split
    · exact .of_table rfl
    · rename_i e he
      exact .put he rfl

theorem Retains.addRef2 (u : Var.State) (x : PPVar) : Retains u (ppbVarAddRef2 u x).1 := by
  have hown : Retains u (own u x) := .of_table (by rw [own_eq])
  exact hown.trans (.addRef _ x)

theorem Retains.release (u : Var.State) (x : PPVar) : Retains u (ppbVarRelease u x) :=
  fun _ _ he => (release_lookup_some he).imp fun _ hw => ⟨hw.1,hw.2.var⟩

theorem Retains.releaseOwned (u : Var.State) (x : PPVar) :
    Retains u (ppbVarRelease (disown u x) x) :=
  (Retains.of_table (disown_table u x)).trans (.release _ x)

theorem Retains.arraySet {u v : Var.State} {array value : PPVar} {index : ℕ} {ok : Bool}
    (h : ppbVarArraySet u array index value = some (v,ok)) : Retains u v := by
  rcases ppbVarArraySet_some h with ⟨_,rfl,_⟩ | ⟨var,refCount,xs,_,_,he,_,rfl⟩
  · exact .of_table rfl
  · have hput : Retains u (u.put array.asId ⟨var,refCount,.array (setSlot xs index value)⟩) :=
      .put he rfl
    exact hput.trans (.addRef _ value)

theorem Retains.dictionarySet {u v : Var.State} {dict key value : PPVar} {ok : Bool}
    (h : ppbVarDictionarySet u dict key value = some (v,ok)) : Retains u v := by
  rcases ppbVarDictionarySet_some h with ⟨_,rfl,_⟩ | ⟨var,refCount,d,w,_,_,_,he,hw,hset⟩
  · exact .of_table rfl
  · have hput : Retains u w := by
      rw [hw]
      exact .put he rfl
    rcases hset with ⟨_,rfl⟩ | ⟨old,_,rfl⟩
    · exact hput.trans (.addRef _ value)
    · exact (hput.trans (.release _ old)).trans (.addRef _ value)

theorem genuine_of_retains {u v : Var.State} {x : PPVar} (h : Genuine u x) (hv : Retains u v) :
    Genuine v x := by
  intro hc e he
  obtain ⟨e',he',hvar⟩ := hv _ e he
  exact hvar.trans (h hc e' he')

/-- A var that is there keeps its type when another one is made. -/
theorem genuine_create {u v : Var.State} {x y : PPVar} {content : Content} (h : Genuine u x)
    (hx : referenceCountable x = true → (u.table.lookup x.asId).isSome = true)
    (hv : createVar u content = some (v,y)) : Genuine v x := by
  intro hc e he
  obtain ⟨w,hw⟩ := Option.isSome_iff_exists.mp (hx hc)
  obtain ⟨_,_,_,_,hkeep⟩ := createVar_spec hv
  cases Option.some.inj ((hkeep _ w hw).2.symm.trans he)
  exact h hc e hw

theorem created_genuine {u v : Var.State} {y : PPVar} {content : Content}
    (hv : createVar u content = some (v,y)) : Genuine v y := by
  intro _ e he
  cases Option.some.inj ((createVar_spec hv).2.1.symm.trans he)
  rfl

/-- The loop over the keys gives up its own vars only. -/
theorem genuine_setKeys {u v : Var.State} {keys x : PPVar} {idx : ℕ} {rest : List (List UInt8)}
    (hi : Inv u) (hn : NoDangling u) (hk : KeysArray u keys idx) (hx : Genuine u x)
    (ho : referenceCountable x = true → x.asId ∈ u.owned)
    (h : setKeys u keys idx rest = some v) : Genuine v x := by
  induction rest generalizing u idx with
  | nil =>
    cases h
    exact hx
  | cons sKey rest ih =>
    obtain ⟨⟨u₁,key⟩,h₁,h⟩ := Option.bind_eq_some_iff.mp h
    obtain ⟨⟨u₂,ok⟩,h₂,h⟩ := Option.bind_eq_some_iff.mp h
    obtain ⟨hi',hn',hk'⟩ := hi.addKey hn hk h₁ h₂
    have hsome : referenceCountable x = true → (u.table.lookup x.asId).isSome = true :=
      fun hc => hi.sound.owned _ (ho hc)
    have hround : Genuine (ppbVarRelease (disown u₂ key) key) x := genuine_of_retains
      (genuine_create hx hsome h₁) ((Retains.arraySet h₂).trans (.releaseOwned u₂ key))
    refine ih hi' hn' hk' hround (fun hc => ?_) h
    rw [release_owned,disown_owned,arraySet_owned h₂,create_owned h₁,append_diff_self]
    exact ho hc

theorem genuine_step {u v : Var.State} {op : Op} {x : PPVar} (hi : Inv u) (hr : Respects u op)
    (hx : Genuine u x) (ho : referenceCountable x = true → x.asId ∈ u.owned)
    (h : Var.step u op = some v) : Genuine v x := by
  have hcreate : ∀ {content : Content}, (createVar u content).map Prod.fst = some v →
      Genuine v x := by
    intro content hv
    obtain ⟨⟨w,y⟩,hw,rfl⟩ := Option.map_eq_some_iff.mp hv
    exact genuine_create hx (fun hc => hi.sound.owned _ (ho hc)) hw
  cases op with
  | varFromUtf8 data => exact hcreate h
  | createObject => exact hcreate h
  | arrayBufferCreate => exact hcreate h
  | dictionaryCreate => exact hcreate h
  | arrayCreate => exact hcreate h
  | addRef y =>
    cases h
    exact genuine_of_retains hx (.addRef2 u y)
  | release y =>
    simp only [Var.step] at h
    split at h
    · cases h
      exact genuine_of_retains hx (.releaseOwned u y)
    · cases h
  | arraySet array index value =>
    obtain ⟨⟨w,ok⟩,hw,rfl⟩ := Option.map_eq_some_iff.mp h
    exact genuine_of_retains hx (.arraySet hw)
  | arrayGet array index =>
    obtain ⟨⟨w,y⟩,hw,rfl⟩ := Option.map_eq_some_iff.mp h
    rw [arrayGet_addRef2 hw]
    exact genuine_of_retains hx (.addRef2 u y)
  | dictionarySet dict key value =>
    obtain ⟨⟨w,ok⟩,hw,rfl⟩ := Option.map_eq_some_iff.mp h
    exact genuine_of_retains hx (.dictionarySet hw)
  | dictionaryGet dict key =>
    obtain ⟨⟨w,y⟩,hw,rfl⟩ := Option.map_eq_some_iff.mp h
    rw [dictionaryGet_addRef2 hw]
    exact genuine_of_retains hx (.addRef2 u y)
  | dictionaryGetKeys dict =>
    obtain ⟨⟨w,keys⟩,hw,rfl⟩ := Option.map_eq_some_iff.mp h
    rcases ppbVarDictionaryGetKeys_some hw with ⟨_,rfl,_⟩ | ⟨t,_,_,d,_,ht,_,hset⟩
    · exact hx
    · obtain ⟨hsound,hn⟩ := hi.sound.create hr rfl ht
      obtain ⟨_,hkeys,_,hcl,_⟩ := createVar_spec ht
      refine genuine_setKeys ⟨hsound,hcl hi.cleared⟩ hn ⟨1,[],hkeys,rfl⟩
        (genuine_create hx (fun hc => hi.sound.owned _ (ho hc)) ht) (fun hc => ?_) hset
      rw [create_owned ht]
      exact List.mem_append_right _ (ho hc)

/-! The books of the table in the middle of a step. -/

/-- The counts are right and fit an `int`, and the vars at hand have their entries' types. -/
structure Sane (u : Var.State) (xs : List PPVar) : Prop where
  inv : Inv u
  fits : Var.CountsFit u
  genuine : ∀ x ∈ xs, Genuine u x

theorem Sane.mono {u : Var.State} {xs ys : List PPVar} (h : Sane u xs) (hy : ∀ y ∈ ys, y ∈ xs) :
    Sane u ys := ⟨h.inv,h.fits,fun y hm => h.genuine y (hy y hm)⟩

theorem Sane.release {u : Var.State} {xs : List PPVar} (h : Sane u xs) {x : PPVar} (hx : x ∈ xs)
    (ho : referenceCountable x = true → x.asId ∈ u.owned) :
    Sane (ppbVarRelease (disown u x) x) xs :=
  ⟨h.inv.release (h.genuine x hx) ho,h.fits.release x,fun y hy =>
    genuine_of_retains (h.genuine y hy) (.releaseOwned u x)⟩

theorem Sane.addRef2 {u : Var.State} {xs : List PPVar} (h : Sane u xs) {x : PPVar}
    (hx : Countable u x) : Sane (ppbVarAddRef2 u x).1 xs :=
  ⟨h.inv.addRef2 x,h.fits.addRef2 hx,fun y hy => genuine_of_retains (h.genuine y hy) (.addRef2 u x)⟩

theorem Sane.step {u v : Var.State} {xs : List PPVar} {op : Op} (h : Sane u xs)
    (hr : Respects u op) (ho : ∀ x ∈ xs, referenceCountable x = true → x.asId ∈ u.owned)
    (hv : Var.step u op = some v) : Sane v xs :=
  ⟨step_inv h.inv hr hv,step_countsFit h.fits hr hv,fun x hx =>
    genuine_step h.inv hr (h.genuine x hx) (ho x hx) hv⟩

theorem countable_release {u : Var.State} {x y : PPVar} (h : Countable u x) :
    Countable (ppbVarRelease (disown u y) y) x := by
  intro e he
  obtain ⟨w,hw,hleft⟩ := release_lookup_some he
  rw [disown_table] at hw
  exact lt_of_le_of_lt hleft.refCount (h w hw)

/-- So many more references fit every count. -/
def Room (u : Var.State) (n : ℕ) : Prop :=
  n < 2^31-1 ∧ ∀ e ∈ u.table.entries, e.2.refCount+n < 2^31

instance (u : Var.State) (n : ℕ) : Decidable (Room u n) := inferInstanceAs (Decidable (_ ∧ _))

/-- Vars are made and counted while no slot has one that is gone, and counts have room. -/
structure Grows (u : Var.State) (xs : List PPVar) (n : ℕ) : Prop where
  sane : Sane u xs
  noDangling : NoDangling u
  live : ∀ x ∈ xs, referenceCountable x = true → (u.table.lookup x.asId).isSome = true
  room : Room u n

theorem Room.countable {u : Var.State} {n : ℕ} (h : Room u (n+1)) (x : PPVar) :
    Countable u x := by
  intro e he
  have hroom := h.2 _ (AList.mem_lookup_iff.mp he)
  push_cast at hroom
  omega

theorem addRef_lookup {u : Var.State} {x : PPVar} {id : ℕ} {e : VarS}
    (h : (ppbVarAddRef u x).table.lookup id = some e) :
    ∃ w, u.table.lookup id = some w ∧ e.refCount ≤ w.refCount+1 := by
  unfold ppbVarAddRef at h
  split_ifs at h
  · exact ⟨e,h,by omega⟩
  · split at h
    · exact ⟨e,h,by omega⟩
    · rename_i w hw
      rcases lookup_put h with ⟨rfl,rfl⟩ | ⟨_,hl⟩
      · exact ⟨w,hw,le_rfl⟩
      · exact ⟨e,hl,by omega⟩

theorem noDangling_addRef {u : Var.State} (h : NoDangling u) (x : PPVar) :
    NoDangling (ppbVarAddRef u x) := by
  unfold ppbVarAddRef
  split_ifs
  · exact h
  · split
    · exact h
    · rename_i w hw
      exact h.put hw fun y hy _ => Or.inl hy

theorem Grows.create {u v : Var.State} {xs : List PPVar} {n : ℕ} {x : PPVar} {content : Content}
    (h : Grows u xs n) (hc : content.slots = []) (hv : createVar u content = some (v,x)) :
    Grows v (x::xs) n := by
  obtain ⟨hsound,hn⟩ := h.sane.inv.sound.create h.noDangling hc hv
  refine ⟨⟨h.sane.inv.create h.noDangling hc hv,h.sane.fits.create hv,fun y hy => ?_⟩,hn,
    fun y hy hcy => ?_,h.room.1,fun e he => ?_⟩
  · rcases List.mem_cons.mp hy with rfl | hy
    · exact created_genuine hv
    · exact genuine_create (h.sane.genuine y hy) (h.live y hy) hv
  · rcases List.mem_cons.mp hy with rfl | hy
    · rw [(createVar_spec hv).2.1]
      rfl
    · exact create_isSome hv (h.live y hy hcy)
  · obtain ⟨id,_,rfl,rfl⟩ := createVar_eq hv
    rcases lookup_put (AList.mem_lookup_iff.mpr he) with ⟨_,hnew⟩ | ⟨_,hl⟩
    · have hroom := h.room.1
      rw [hnew]
      dsimp only
      omega
    · exact h.room.2 e (AList.mem_lookup_iff.mp hl)

theorem Grows.addRef2 {u : Var.State} {xs : List PPVar} {n : ℕ} {x : PPVar}
    (h : Grows u xs (n+1)) (hx : Genuine u x)
    (hs : referenceCountable x = true → (u.table.lookup x.asId).isSome = true) :
    Grows (ppbVarAddRef2 u x).1 (x::xs) n := by
  have hsane : Sane u (x::xs) := ⟨h.sane.inv,h.sane.fits,fun y hy => by
    rcases List.mem_cons.mp hy with rfl | hy
    · exact hx
    · exact h.sane.genuine y hy⟩
  refine ⟨hsane.addRef2 (h.room.countable x),?_,fun y hy hcy => ?_,?_,fun e he => ?_⟩
  · rw [ppbVarAddRef2,own_eq]
    have hown : NoDangling { u with owned := (debtOf u x).toList ++ u.owned } := h.noDangling
    exact noDangling_addRef hown x
  · rw [addRef2_isSome]
    rcases List.mem_cons.mp hy with rfl | hy
    · exact hs hcy
    · exact h.live y hy hcy
  · have hroom := h.room.1
    omega
  · rw [ppbVarAddRef2,own_eq] at he
    obtain ⟨w,hw,hle⟩ := addRef_lookup (AList.mem_lookup_iff.mpr he)
    have hroom := h.room.2 _ (AList.mem_lookup_iff.mp hw)
    push_cast at hroom
    omega

theorem Grows.mono {u : Var.State} {xs ys : List PPVar} {n m : ℕ} (h : Grows u xs n)
    (hm : m ≤ n) (hy : ∀ y ∈ ys, y ∈ xs) : Grows u ys m := by
  refine ⟨h.sane.mono hy,h.noDangling,fun y hm => h.live y (hy y hm),?_,fun e he => ?_⟩
  · have hroom := h.room.1
    omega
  · have hroom := h.room.2 e he
    omega

/-! Conversions. -/

/-- An object of the class `p2n_proxy_class` has a var of its entry's type. -/
def Typed (b : ProxyClasses.State) : Variant → Prop
  | .object (.p2nProxy _ ppobj) => Genuine b.vars ppobj
  | _ => True

instance (b : ProxyClasses.State) (v : Variant) : Decidable (Typed b v) := by
  apply v.casesOn (motive := fun v => Decidable (Typed b v)) <;> intros
  · rename_i o
    apply o.casesOn (motive := fun o => Decidable (Typed b (.object o))) <;> intros <;>
      dsimp only [Typed] <;> infer_instance
  · dsimp only [Typed]
    infer_instance
  · dsimp only [Typed]
    infer_instance

theorem npVariantToPpVar_grows {xs : List PPVar} {n : ℕ}
    (h : npVariantToPpVar c v b = some (b',var)) (hg : Grows b.vars xs (n+1))
    (hv : Converts b v) (ht : Typed b v) : Grows b'.vars (var::xs) n := by
  match v with
  | .object (.p2nProxy _ ppobj) =>
    cases h
    exact hg.addRef2 ht hv
  | .object (.browser _) =>
    obtain ⟨⟨vars,w⟩,hw,he⟩ := Option.map_eq_some_iff.mp h
    cases he
    exact (hg.create rfl hw).mono (Nat.le_succ n) fun _ hy => hy
  | .string data =>
    obtain ⟨⟨vars,w⟩,hw,he⟩ := Option.map_eq_some_iff.mp h
    cases he
    exact (hg.create rfl hw).mono (Nat.le_succ n) fun _ hy => hy
  | .other =>
    cases h
    have hmono := hg.mono (Nat.le_succ n) fun _ hy => hy
    refine ⟨⟨hmono.sane.inv,hmono.sane.fits,fun y hy => ?_⟩,hmono.noDangling,fun y hy hc => ?_,
      hmono.room⟩
    · rcases List.mem_cons.mp hy with rfl | hy
      · exact fun hc => nomatch hc
      · exact hmono.sane.genuine y hy
    · rcases List.mem_cons.mp hy with rfl | hy
      · cases hc
      · exact hmono.live y hy hc

theorem typed_create {vars : Var.State} {content : Content} {w : Variant} (ht : Typed b w)
    (hw : Converts b w) (h : createVar b.vars content = some (vars,var)) :
    Typed { b with vars := vars } w := by
  match w with
  | .object (.p2nProxy _ ppobj) => exact genuine_create ht hw h
  | .object (.browser _) => trivial
  | .string _ => trivial
  | .other => trivial

theorem Typed.convert {w : Variant} (h : npVariantToPpVar c v b = some (b',var)) (ht : Typed b w)
    (hw : Converts b w) : Typed b' w := by
  have hgenuine : ∀ ppobj : PPVar, Genuine b.vars ppobj →
      (referenceCountable ppobj = true → (b.vars.table.lookup ppobj.asId).isSome = true) →
      Genuine b'.vars ppobj := by
    intro ppobj hg hs
    match v with
    | .object (.p2nProxy _ _) =>
      cases h
      exact genuine_of_retains hg (.addRef2 b.vars _)
    | .object (.browser _) =>
      obtain ⟨⟨vars,x⟩,hx,he⟩ := Option.map_eq_some_iff.mp h
      cases he
      exact genuine_create hg hs hx
    | .string data =>
      obtain ⟨⟨vars,x⟩,hx,he⟩ := Option.map_eq_some_iff.mp h
      cases he
      exact genuine_create hg hs hx
    | .other =>
      cases h
      exact hg
  match w with
  | .object (.p2nProxy _ ppobj) => exact hgenuine ppobj ht hw
  | .object (.browser _) => trivial
  | .string _ => trivial
  | .other => trivial

theorem npVariantsToPpVars_grows {vs : List Variant} {vars xs : List PPVar}
    (h : npVariantsToPpVars c vs b = some (b',vars)) (hg : Grows b.vars xs vs.length)
    (hvs : ∀ v ∈ vs, Converts b v ∧ Typed b v) : Grows b'.vars (vars ++ xs) 0 := by
  induction vs generalizing b vars xs with
  | nil =>
    cases h
    exact hg
  | cons v vs ih =>
    obtain ⟨⟨b₁,var⟩,h₁,h⟩ := Option.bind_eq_some_iff.mp h
    obtain ⟨⟨b₂,rest⟩,h₂,he⟩ := Option.map_eq_some_iff.mp h
    cases he
    obtain ⟨hconv,htyped⟩ := hvs v List.mem_cons_self
    have hfirst := npVariantToPpVar_grows h₁ hg hconv htyped
    have hrest := ih h₂ hfirst fun w hw =>
      have hw' := hvs w (List.mem_cons_of_mem _ hw)
      ⟨hw'.1.mono fun _ => npVariantToPpVar_isSome h₁,hw'.2.convert h₁ hw'.1⟩
    exact hrest.mono (Nat.le_refl 0) fun y hy => List.perm_middle.mem_iff.mpr hy

/-- The var a proxy wraps. -/
def objectVars : NpObject → List PPVar
  | .browser _ => []
  | .p2nProxy _ ppobj => [ppobj]

theorem objectRefs_eq (o : NpObject) : objectRefs o = (objectVars o).flatMap refs := by
  cases o with
  | browser _ => rfl
  | p2nProxy _ ppobj => exact (List.flatMap_singleton ..).symm

/-- The books, with the vars proxies wrap among those at hand. -/
def Books (b : ProxyClasses.State) (xs : List PPVar) : Prop :=
  Sane b.vars (xs ++ b.proxies.flatMap objectVars)

theorem ppVarToNpVariant_books {created : Bool} {xs : List PPVar}
    (h : ppVarToNpVariant c created var b = some (b',v)) (hb : Books b xs) (hx : var ∈ xs)
    (hc : Countable b.vars var) : Books b' xs := by
  unfold ppVarToNpVariant at h
  split at h
  · cases h
    exact hb
  · split at h
    · cases h
    · split at h
      · cases h
        exact hb
      · split at h
        · cases h
          refine (hb.addRef2 hc).mono fun y hy => ?_
          -- the new proxy wraps the var
          simp only [List.flatMap_cons,objectVars,List.mem_append,List.mem_singleton] at hy ⊢
          rcases hy with hy | rfl | hy
          · exact Or.inl hy
          · exact Or.inl hx
          · exact Or.inr hy
        · cases h
          exact hb
  · cases h
    exact hb

end ProxyVars
end FreshPlayer
