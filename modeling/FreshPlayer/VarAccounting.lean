import FreshPlayer.VarRelease
import Mathlib.Data.List.Nodup
import Mathlib.Data.List.Perm.Subperm

/-! Reference accounting over whole runs: what each operation of the interface does to
the counts, and when the counts are the references callers and containers have. -/
namespace FreshPlayer
namespace Var

/-- No container has a slot with a var that is gone. -/
def NoDangling (s : State) : Prop :=
  ∀ x ∈ s.slots, referenceCountable x = true → (s.table.lookup x.asId).isSome = true

instance (s : State) : Decidable (NoDangling s) := inferInstanceAs (Decidable (∀ x ∈ s.slots, _))

/-- The reference that storing a var creates; a var that is gone gets none. -/
def debtOf (s : State) (x : PPVar) : Option ℕ :=
  if referenceCountable x && (s.table.lookup x.asId).isSome then some x.asId else none

theorem debtOf_eq_some {s : State} {x : PPVar} {k : ℕ} : debtOf s x = some k ↔
    holds k x = true ∧ (s.table.lookup k).isSome = true := by
  unfold debtOf holds
  constructor
  · intro h
    split_ifs at h with hc
    cases h
    simpa using hc
  · rintro ⟨h,hk⟩
    obtain ⟨hc,rfl⟩ : referenceCountable x = true ∧ x.asId = k := by simpa using h
    simp [hc,hk]

theorem addRef_skip {s : State} {x : PPVar}
    (h : referenceCountable x = false ∨ s.table.lookup x.asId = none) : ppbVarAddRef s x = s := by
  unfold ppbVarAddRef
  rcases h with h | h
  · simp [h]
  · rw [h]; simp

theorem addRef_put {s : State} {x : PPVar} {v : VarS} (hc : referenceCountable x = true)
    (hv : s.table.lookup x.asId = some v) :
    ppbVarAddRef s x = s.put x.asId { v with refCount := v.refCount+1 } := by
  simp [ppbVarAddRef,hc,hv]

/-- Counting a reference settles it. -/
theorem Sound.addRef {s : State} {x : PPVar} {pending : List PPVar}
    (h : Sound s pending (debtOf s x)) : Sound (ppbVarAddRef s x) pending none := by
  cases hd : debtOf s x with
  | none =>
    have hx : referenceCountable x = false ∨ s.table.lookup x.asId = none := by
      by_contra hne
      push Not at hne
      have hs : debtOf s x = some x.asId := by
        simp [debtOf,hne.1,Option.isSome_iff_ne_none.mpr hne.2]
      rw [hd] at hs
      cases hs
    rw [addRef_skip hx,← hd]
    exact h
  | some k =>
    obtain ⟨hh,hk⟩ := debtOf_eq_some.mp hd
    obtain ⟨hc,rfl⟩ := holds_iff.mp hh
    obtain ⟨v,hv⟩ := Option.isSome_iff_exists.mp hk
    rw [hd] at h
    rw [addRef_put hc hv]
    have hslots : List.Perm (s.put x.asId { v with refCount := v.refCount+1 }).slots s.slots :=
      slots_recount hv rfl
    have hrefs : ∀ id, (s.put x.asId { v with refCount := v.refCount+1 }).references id =
        s.references id := references_of_perm rfl hslots
    refine ⟨fun id w hw => ?_,fun id w hw => ?_,fun id w hw => ?_,fun y hy => ?_,fun id hid => ?_,
      h.removed⟩
    · rcases lookup_put hw with ⟨rfl,rfl⟩ | ⟨_,hl⟩
      · exact ⟨(h.entry _ v hv).asId,(h.entry _ v hv).type⟩
      · exact h.entry id w hl
    · rw [hrefs]
      rcases lookup_put hw with ⟨rfl,rfl⟩ | ⟨hne,hl⟩
      · simpa using h.balance _ v hv
      · have hb := h.balance id w hl
        rw [if_neg fun he => hne (Option.some.inj he).symm] at hb
        simpa using hb
    · rcases lookup_put hw with ⟨rfl,rfl⟩ | ⟨_,hl⟩
      · have hp := h.positive _ v hv
        show 0 < v.refCount+1
        omega
      · exact h.positive id w hl
    · have hy' : y ∈ s.slots ++ pending := by
        rcases List.mem_append.mp hy with hy | hy
        · exact List.mem_append_left _ (hslots.mem_iff.mp hy)
        · exact List.mem_append_right _ hy
      exact (h.genuine y hy').put hv rfl
    · rw [isSome_lookup_put hv]
      exact h.owned id hid

theorem own_eq (s : State) (x : PPVar) :
    own s x = { s with owned := (debtOf s x).toList ++ s.owned } := by
  unfold own debtOf
  split_ifs <;> rfl

theorem Sound.own {s : State} (h : Sound s [] none) (x : PPVar) :
    Sound (own s x) [] (debtOf s x) := by
  rw [own_eq]
  refine ⟨h.entry,fun id v hv => ?_,h.positive,h.genuine,fun id hid => ?_,h.removed⟩
  · have hb := h.balance id v hv
    simp only [State.references,List.count_append,List.countP_nil] at hb ⊢
    rw [if_neg (by simp)] at hb
    cases hd : debtOf s x with
    | none => simpa [State.slots] using hb
    | some k =>
      by_cases hk : k = id
      · subst hk
        simp only [if_true,Option.toList_some,List.count_singleton_self]
        simp only [State.slots] at hb ⊢
        push_cast at hb ⊢
        omega
      · simpa [hk,State.slots] using hb
  · rcases List.mem_append.mp hid with hid | hid
    · have hd : debtOf s x = some id := by simpa using hid
      exact (debtOf_eq_some.mp hd).2
    · exact h.owned id hid

theorem Sound.addRef2 {s : State} (h : Sound s [] none) (x : PPVar) :
    Sound (ppbVarAddRef2 s x).1 [] none := by
  have hs := h.own x
  have hd : debtOf (Var.own s x) x = debtOf s x := by rw [own_eq]; rfl
  rw [← hd] at hs
  exact hs.addRef

/-- A caller gives a reference up, which is then in flight. -/
theorem Sound.disown {s : State} {x : PPVar} (h : Sound s [] none) (hg : Genuine s x)
    (ho : referenceCountable x = true → x.asId ∈ s.owned) : Sound (disown s x) [x] none := by
  unfold Var.disown
  split_ifs with hc
  · have hmem := ho hc
    refine ⟨h.entry,fun id v hv => ?_,h.positive,fun y hy => ?_,fun id hid => ?_,h.removed⟩
    · have hb := h.balance id v hv
      simp only [State.references,State.slots,countP_cons_holds,List.countP_nil] at hb ⊢
      rw [if_neg (by simp)] at hb ⊢
      by_cases hid : x.asId = id
      · have hpos : 0 < s.owned.count id := List.count_pos_iff.mpr (hid ▸ hmem)
        rw [hid,List.count_erase_self,if_pos (holds_iff.mpr ⟨hc,hid⟩),hb]
        push_cast
        omega
      · rw [List.count_erase_of_ne (Ne.symm hid),if_neg fun hh => hid (holds_iff.mp hh).2,hb]
    · rcases List.mem_append.mp hy with hy | hy
      · exact h.genuine y (List.mem_append_left _ hy)
      · cases List.mem_singleton.mp hy; exact hg
    · exact h.owned id (List.mem_of_mem_erase hid)
  · refine ⟨h.entry,fun id v hv => ?_,h.positive,fun y hy => ?_,h.owned,h.removed⟩
    · have hb := h.balance id v hv
      rw [countP_cons_holds,if_neg fun hh => hc (holds_iff.mp hh).1]
      exact hb
    · rcases List.mem_append.mp hy with hy | hy
      · exact h.genuine y (List.mem_append_left _ hy)
      · cases List.mem_singleton.mp hy; exact hg

/-! Creation. -/

theorem getNewVarId_fresh {table : AList fun _ : ℕ => VarS} {n varId id : ℕ}
    (h : getNewVarId table n varId = some id) : table.lookup id = none := by
  induction n generalizing varId with
  | zero => cases h
  | succ n ih =>
    simp only [getNewVarId] at h
    split_ifs at h with hl
    · exact ih h
    · cases h
      simpa using hl

theorem getNewVarId_none {table : AList fun _ : ℕ => VarS} {n varId : ℕ}
    (h : getNewVarId table n varId = none) :
    ∀ i < n, (table.lookup ((varId+1+i) % 2^32)).isSome = true := by
  induction n generalizing varId with
  | zero => intro i hi; cases hi
  | succ n ih =>
    simp only [getNewVarId] at h
    split_ifs at h with hl
    intro i hi
    cases i with
    | zero => exact hl
    | succ i =>
      have hshift : (varId+1+(i+1)) % 2^32 = ((varId+1) % 2^32+1+i) % 2^32 := by omega
      rw [hshift]
      exact ih h i (by omega)

/-- An id is found unless all of them are taken. -/
theorem getNewVarId_isSome {table : AList fun _ : ℕ => VarS} (varId : ℕ)
    (h : table.entries.length < 2^32) :
    (getNewVarId table (table.entries.length+1) varId).isSome = true := by
  by_contra hne
  have hall := getNewVarId_none (Option.not_isSome_iff_eq_none.mp hne)
  let ids := (List.range (table.entries.length+1)).map fun i => (varId+1+i) % 2^32
  have hnodup : ids.Nodup := by
    refine List.Nodup.map_on (fun i hi j hj he => ?_) List.nodup_range
    rw [List.mem_range] at hi hj
    omega
  have hsub : ids ⊆ table.keys := by
    intro id hid
    obtain ⟨i,hi,rfl⟩ := List.mem_map.mp hid
    exact AList.mem_keys.mp (AList.lookup_isSome.mp (hall i (List.mem_range.mp hi)))
  have hlen := (hnodup.subperm hsub).length_le
  simp only [ids,List.length_map,List.length_range,AList.keys,List.keys] at hlen
  omega

theorem createVar_eq {s t : State} {c : Content} {var : PPVar}
    (h : createVar s c = some (t,var)) : ∃ id, s.table.lookup id = none ∧ var = ⟨c.type,id⟩ ∧
      t = { s.put id ⟨⟨c.type,id⟩,1,c⟩ with varId := id, owned := id::s.owned } := by
  obtain ⟨id,hid,he⟩ := Option.map_eq_some_iff.mp h
  cases he
  exact ⟨id,getNewVarId_fresh hid,rfl,rfl⟩

theorem createVar_slots {s : State} {c : Content} {id : ℕ} (hs : c.slots = [])
    (hid : s.table.lookup id = none) :
    (s.put id ⟨⟨c.type,id⟩,1,c⟩).slots = s.slots := by
  have hi := holdings_insert_new VarS.slots ⟨⟨c.type,id⟩,1,c⟩ (AList.lookup_eq_none.mp hid)
  refine hi.trans ?_
  rw [VarS.slots,hs,List.nil_append]
  rfl

/-- A new id is in no slot, unless a slot survived its var. -/
theorem references_eq_zero {s : State} (h : Sound s [] none) (hn : NoDangling s) {id : ℕ}
    (hid : s.table.lookup id = none) : s.references id = 0 := by
  have hown : s.owned.count id = 0 := List.count_eq_zero.mpr fun hm => by
    have := h.owned id hm
    simp [hid] at this
  have hslots : s.slots.countP (holds id) = 0 := List.countP_eq_zero.mpr fun x hx hh => by
    obtain ⟨hc,rfl⟩ := holds_iff.mp hh
    have := hn x hx hc
    simp [hid] at this
  rw [State.references,hown,hslots]

theorem Sound.create {s t : State} {c : Content} {var : PPVar} (h : Sound s [] none)
    (hn : NoDangling s) (hs : c.slots = []) (ht : createVar s c = some (t,var)) :
    Sound t [] none ∧ NoDangling t := by
  obtain ⟨id,hid,rfl,rfl⟩ := createVar_eq ht
  have hslots := createVar_slots hs hid
  have hzero := references_eq_zero h hn hid
  have hmono : ∀ k, (s.table.lookup k).isSome = true →
      ((s.put id ⟨⟨c.type,id⟩,1,c⟩).table.lookup k).isSome = true := by
    intro k hk
    by_cases hki : k = id
    · subst hki
      rw [lookup_put_self]
      rfl
    · rw [lookup_put_ne _ _ hki]
      exact hk
  have hrefs : ∀ k, State.references
      { s.put id ⟨⟨c.type,id⟩,1,c⟩ with varId := id, owned := id::s.owned } k =
      s.references k + if id = k then 1 else 0 := by
    intro k
    show (id::s.owned).count k + (s.put id ⟨⟨c.type,id⟩,1,c⟩).slots.countP (holds k) = _
    rw [hslots,State.references,List.count_cons]
    simp only [beq_iff_eq]
    omega
  refine ⟨⟨fun k w hw => ?_,fun k w hw => ?_,fun k w hw => ?_,fun y hy => ?_,fun k hk => ?_,
    h.removed⟩,fun x hx hc => ?_⟩
  · rcases lookup_put hw with ⟨rfl,rfl⟩ | ⟨_,hl⟩
    · exact ⟨rfl,rfl⟩
    · exact h.entry k w hl
  · rw [hrefs]
    rcases lookup_put hw with ⟨rfl,rfl⟩ | ⟨hne,hl⟩
    · rw [hzero]; simp
    · rw [if_neg (Ne.symm hne)]
      exact h.balance k w hl
  · rcases lookup_put hw with ⟨rfl,rfl⟩ | ⟨_,hl⟩
    · exact one_pos
    · exact h.positive k w hl
  · have hy' : y ∈ s.slots := by
      rcases List.mem_append.mp hy with hy | hy
      · exact hslots ▸ hy
      · cases hy
    intro hc v hv
    rcases lookup_put hv with ⟨he,rfl⟩ | ⟨_,hl⟩
    · have hsome := hn y hy' hc
      rw [he,hid] at hsome
      cases hsome
    · exact h.genuine y (List.mem_append_left _ hy') hc v hl
  · rcases List.mem_cons.mp hk with rfl | hk
    · show ((s.put k _).table.lookup k).isSome = true
      rw [lookup_put_self]
      rfl
    · exact hmono k (h.owned k hk)
  · exact hmono _ (hn x (hslots ▸ hx) hc)

/-! Storing a value in a slot. -/

/-- An entry exchanges old slot values for a new one, which is not counted yet. -/
theorem Sound.store {s : State} {id : ℕ} {v : VarS} {c : Content} {old : List PPVar}
    {value : PPVar} (h : Sound s [] none) (hv : s.table.lookup id = some v)
    (hc : c.type = v.content.type)
    (hcount : ∀ k, (s.table.lookup k).isSome = true → c.slots.countP (holds k) +
      old.countP (holds k) = v.slots.countP (holds k) + if holds k value = true then 1 else 0)
    (hmem : ∀ y ∈ c.slots, y ∈ v.slots ∨ y = value ∨ referenceCountable y = false)
    (hold : ∀ y ∈ old, y ∈ v.slots) (hg : Genuine s value) :
    Sound (s.put id ⟨v.var,v.refCount,c⟩) old (debtOf s value) := by
  have hslots : List.Perm (v.slots ++ (s.put id ⟨v.var,v.refCount,c⟩).slots)
      (c.slots ++ s.slots) := holdings_replace VarS.slots ⟨v.var,v.refCount,c⟩ hv
  have hin : ∀ y ∈ v.slots, y ∈ s.slots := fun y hy => mem_holdings.mpr ⟨id,v,hv,hy⟩
  refine ⟨fun k w hw => ?_,fun k w hw => ?_,fun k w hw => ?_,fun y hy => ?_,fun k hk => ?_,
    h.removed⟩
  · rcases lookup_put hw with ⟨rfl,rfl⟩ | ⟨_,hl⟩
    · exact ⟨(h.entry _ v hv).asId,(h.entry _ v hv).type.trans hc.symm⟩
    · exact h.entry k w hl
  · have hk : (s.table.lookup k).isSome = true := by
      rw [← isSome_lookup_put hv,hw]
      rfl
    have hb : w.refCount = s.references k := by
      rcases lookup_put hw with ⟨rfl,rfl⟩ | ⟨_,hl⟩
      · simpa using h.balance _ v hv
      · simpa using h.balance k w hl
    have hdebt : (debtOf s value = some k) = (holds k value = true) :=
      propext (debtOf_eq_some.trans ⟨And.left,fun hh => ⟨hh,hk⟩⟩)
    have hp := hslots.countP_eq (holds k)
    have hn := hcount k hk
    have ho : (s.put id ⟨v.var,v.refCount,c⟩).owned = s.owned := rfl
    simp only [List.countP_append] at hp
    rw [hb]
    simp only [hdebt,State.references,ho]
    split_ifs at hn ⊢ <;> push_cast <;> omega
  · rcases lookup_put hw with ⟨rfl,rfl⟩ | ⟨_,hl⟩
    · exact h.positive _ v hv
    · exact h.positive k w hl
  · have hgen : ∀ y ∈ s.slots, Genuine s y := fun y hy => h.genuine y (List.mem_append_left _ hy)
    have hy' : y ∈ c.slots ++ s.slots ∨ y ∈ v.slots := by
      rcases List.mem_append.mp hy with hy | hy
      · exact Or.inl (hslots.mem_iff.mp (List.mem_append_right _ hy))
      · exact Or.inr (hold y hy)
    have hys : Genuine s y := by
      rcases hy' with hy' | hy'
      · rcases List.mem_append.mp hy' with hy' | hy'
        · rcases hmem y hy' with hy' | rfl | hy'
          · exact hgen y (hin y hy')
          · exact hg
          · exact fun hc => absurd hc (by simp [hy'])
        · exact hgen y hy'
      · exact hgen y (hin y hy')
    exact hys.put hv rfl
  · rw [isSome_lookup_put hv]
    exact h.owned k hk

theorem countP_setSlot {xs : List PPVar} {index id : ℕ} {value : PPVar}
    (h : ∀ old, xs[index]? = some old → holds id old = false) :
    (setSlot xs index value).countP (holds id) =
      xs.countP (holds id) + if holds id value = true then 1 else 0 := by
  have hlen : index < (xs ++ List.replicate (index+1-xs.length) ppMakeUndefined).length := by
    simp only [List.length_append,List.length_replicate]
    omega
  have hold : ¬holds id (xs ++ List.replicate (index+1-xs.length) ppMakeUndefined)[index] = true := by
    by_cases hx : index < xs.length
    · rw [List.getElem_append_left hx,h _ (List.getElem?_eq_getElem hx)]
      simp
    · rw [List.getElem_append_right (not_lt.mp hx),List.getElem_replicate]
      simp [holds,referenceCountable,ppMakeUndefined]
  have hpad : (List.replicate (index+1-xs.length) ppMakeUndefined).countP (holds id) = 0 := by
    rw [List.countP_replicate,if_neg (by simp [holds,referenceCountable,ppMakeUndefined])]
  rw [setSlot,List.countP_set hlen,if_neg hold,List.countP_append,hpad]
  simp

theorem mem_setSlot {xs : List PPVar} {index : ℕ} {value y : PPVar}
    (h : y ∈ setSlot xs index value) : y ∈ xs ∨ y = value ∨ referenceCountable y = false := by
  rcases List.mem_or_eq_of_mem_set h with h | h
  · rcases List.mem_append.mp h with h | h
    · exact Or.inl h
    · rw [List.eq_of_mem_replicate h]
      exact Or.inr (Or.inr rfl)
  · exact Or.inr (Or.inl h)

def Live (s : State) (x : PPVar) : Prop :=
  referenceCountable x = true ∧ (s.table.lookup x.asId).isSome = true

instance (s : State) (x : PPVar) : Decidable (Live s x) := inferInstanceAs (Decidable (_ ∧ _))

def VarS.arraySlot (v : VarS) (index : ℕ) : Option PPVar :=
  match v.content with
  | .array xs => xs[index]?
  | _ => none

def VarS.dictValue (v : VarS) (key : List UInt8) : Option PPVar :=
  match v.content with
  | .dict d => d.lookup key
  | _ => none

theorem Sound.arraySet {s t : State} {array value : PPVar} {index : ℕ} {b : Bool}
    (h : Sound s [] none) (hg : Genuine s value)
    (hfree : ∀ v ∈ s.table.lookup array.asId, ∀ old ∈ v.arraySlot index, ¬Live s old)
    (ht : ppbVarArraySet s array index value = some (t,b)) : Sound t [] none := by
  rcases ppbVarArraySet_some ht with ⟨_,rfl,_⟩ | ⟨var,refCount,xs,_,_,hv,_,rfl⟩
  · exact h
  have hd : debtOf (s.put array.asId ⟨var,refCount,.array (setSlot xs index value)⟩) value =
      debtOf s value := by
    unfold debtOf
    rw [isSome_lookup_put hv]
  have hs : Sound (s.put array.asId ⟨var,refCount,.array (setSlot xs index value)⟩) []
      (debtOf s value) := by
    refine h.store hv rfl (fun k hk => ?_) (fun y hy => mem_setSlot hy) (fun y hy => nomatch hy) hg
    refine countP_setSlot fun old hold => ?_
    by_contra hne
    obtain ⟨hc,rfl⟩ := holds_iff.mp (by simpa using hne)
    exact hfree _ hv old hold ⟨hc,hk⟩
  rw [← hd] at hs
  exact hs.addRef

/-- The replacement in a dictionary may release the old value: the new one is not counted
yet then, and the dictionary itself may go. A caller that owns both is safe, as is an old
value that stays or has no elements. -/
def Replaceable (s : State) (dict value old : PPVar) : Prop :=
  Live s old → ¬Live s value ∨ (dict.asId ∈ s.owned ∧ value.asId ∈ s.owned) ∨
    ∀ v ∈ s.table.lookup old.asId, 1 < v.refCount ∨ (v.slots = [] ∧ old ≠ value)

instance (s : State) (dict value old : PPVar) : Decidable (Replaceable s dict value old) :=
  inferInstanceAs (Decidable (_ → _))

theorem clearElements_nil (n : ℕ) (s : State) : clearElements n s [] = s := by
  cases n <;> rfl

theorem dropRef_lookup_none {s : State} {xs : List PPVar} {x : PPVar} {k : ℕ}
    (h : s.table.lookup k = none) : (dropRef s xs x).1.table.lookup k = none := by
  cases hl : (dropRef s xs x).1.table.lookup k with
  | none => rfl
  | some v =>
    obtain ⟨w,hw,_⟩ := dropRef_lookup hl
    rw [h] at hw
    cases hw

theorem clearElements_lookup_none {n : ℕ} {s : State} {xs : List PPVar} {k : ℕ}
    (h : s.table.lookup k = none) : (clearElements n s xs).table.lookup k = none := by
  induction n generalizing s xs with
  | zero => exact h
  | succ n ih =>
    cases xs with
    | nil => exact h
    | cons x xs => exact ih (dropRef_lookup_none h)

theorem release_lookup_none {s : State} {x : PPVar} {k : ℕ} (h : s.table.lookup k = none) :
    (ppbVarRelease s x).table.lookup k = none :=
  clearElements_lookup_none (dropRef_lookup_none h)

/-- A var that is not live stays so, and its reference is not counted. -/
theorem debtOf_release_none {s : State} {x value : PPVar} (h : debtOf s value = none) :
    debtOf (ppbVarRelease s x) value = none := by
  cases hd : debtOf (ppbVarRelease s x) value with
  | none => rfl
  | some k =>
    obtain ⟨hh,hk⟩ := debtOf_eq_some.mp hd
    cases hl : s.table.lookup k with
    | none => rw [release_lookup_none hl] at hk; cases hk
    | some v =>
      rw [debtOf_eq_some.mpr ⟨hh,by rw [hl]; rfl⟩] at h
      cases h

/-- The books: no release in flight, every reference counted. -/
structure Inv (s : State) : Prop where
  sound : Sound s [] none
  cleared : Cleared s []

theorem addRef_cleared {s : State} {x : PPVar} {ys : List PPVar} (h : Cleared s ys) :
    Cleared (ppbVarAddRef s x) ys := by
  unfold ppbVarAddRef
  split_ifs
  · exact h
  · split <;> exact h

/-- A release that keeps the entry, or takes out one without elements, goes no further. -/
theorem release_quiet {s : State} {x : PPVar} {debt : Option ℕ} (h : Sound s [x] debt)
    (hq : referenceCountable x = true → ∀ v ∈ s.table.lookup x.asId, 1 < v.refCount ∨
      (v.slots = [] ∧ debt ≠ some x.asId)) :
    ppbVarRelease s x = (dropRef s [] x).1 ∧ (dropRef s [] x).2 = [] ∧
    ∀ k, debt = some k → (s.table.lookup k).isSome = true →
      ((dropRef s [] x).1.table.lookup k).isSome = true := by
  have hnil : (dropRef s [] x).2 = [] → ppbVarRelease s x = (dropRef s [] x).1 := by
    intro hnil
    rw [ppbVarRelease,hnil,clearElements_nil]
  rcases dropRef_cases s [] x with ⟨_,he⟩ | ⟨v,hc,hv,⟨hr,he⟩ | ⟨hr,he⟩⟩
  · refine ⟨hnil (by rw [he]),by rw [he],fun k _ hk => ?_⟩
    rw [he]; exact hk
  · rcases hq hc v hv with hlt | ⟨hslots,hne⟩
    · exact absurd hr (not_le.mpr hlt)
    · have hel : (dropRef s [] x).2 = [] := by rw [he,← hslots]; exact h.elementsOf_eq hc hv
      refine ⟨hnil hel,hel,fun k hd hk => ?_⟩
      have hkx : k ≠ x.asId := by
        rintro rfl
        exact hne hd
      rw [he]
      show ((s.table.erase x.asId).lookup k).isSome = true
      rw [AList.lookup_erase_ne hkx]
      exact hk
  · refine ⟨hnil (by rw [he]),by rw [he],fun k _ hk => ?_⟩
    rw [he,isSome_lookup_put hv]
    exact hk

/-- The value replaced is released before the new one is counted. -/
theorem Inv.replace {s : State} {old value : PPVar} (h : Sound s [old] (debtOf s value))
    (hcl : Cleared s []) (hsafe : Held s (debtOf s value) ∨ (referenceCountable old = true →
      ∀ v ∈ s.table.lookup old.asId, 1 < v.refCount ∨
        (v.slots = [] ∧ debtOf s value ≠ some old.asId))) :
    Inv (ppbVarAddRef (ppbVarRelease s old) value) := by
  have hdebt : (∀ k, debtOf s value = some k →
      ((ppbVarRelease s old).table.lookup k).isSome = true) →
      debtOf (ppbVarRelease s old) value = debtOf s value := by
    intro hsome
    cases hd : debtOf s value with
    | none => exact debtOf_release_none hd
    | some k => exact debtOf_eq_some.mpr ⟨(debtOf_eq_some.mp hd).1,hsome k hd⟩
  rcases hsafe with hheld | hquiet
  · have hset := release_settled h hcl hheld
    have hs := hset.sound
    rw [← hdebt fun k hk => hset.sound.owned k (by rw [hset.owned]; exact (hheld k hk).1)] at hs
    exact ⟨hs.addRef,addRef_cleared hset.cleared⟩
  · obtain ⟨hrel,hnil,hsome⟩ := release_quiet h hquiet
    have hs := h.dropRef fun hc hd v hv => (hquiet hc v hv).elim id fun hh => absurd hd hh.2
    have hc := Cleared.dropRef h hcl
    rw [hnil,List.append_nil,← hrel] at hs hc
    rw [← hdebt fun k hk => by rw [hrel]; exact hsome k hk (debtOf_eq_some.mp hk).2] at hs
    exact ⟨hs.addRef,addRef_cleared hc⟩

theorem holdings_dict_insert {d : AList fun _ : List UInt8 => PPVar} {key : List UInt8}
    {value : PPVar} (k : ℕ) :
    (Content.dict (d.insert key value)).slots.countP (holds k) +
      (d.lookup key).toList.countP (holds k) =
    (Content.dict d).slots.countP (holds k) + if holds k value = true then 1 else 0 := by
  cases hl : d.lookup key with
  | none =>
    have hi := holdings_insert_new (fun x : PPVar => [x]) value (AList.lookup_eq_none.mp hl)
    simp only [Content.slots,hi,List.countP_append,List.countP_singleton,Option.toList_none,
      List.countP_nil]
    omega
  | some old =>
    have hr := (holdings_replace (fun x : PPVar => [x]) value hl).countP_eq (holds k)
    simp only [List.countP_append,List.countP_singleton] at hr
    simp only [Content.slots,Option.toList_some,List.countP_singleton]
    omega

theorem mem_dict_slots {d : AList fun _ : List UInt8 => PPVar} {x : PPVar} :
    x ∈ (Content.dict d).slots ↔ ∃ k, d.lookup k = some x := by
  constructor
  · intro hx
    obtain ⟨k,y,hy,hxy⟩ := (mem_holdings (f := fun x : PPVar => [x])).mp hx
    cases List.mem_singleton.mp hxy
    exact ⟨k,hy⟩
  · rintro ⟨k,hk⟩
    exact (mem_holdings (f := fun x => [x])).mpr ⟨k,x,hk,List.mem_singleton_self x⟩

theorem mem_dict_insert {d : AList fun _ : List UInt8 => PPVar} {key : List UInt8}
    {value x : PPVar} (hx : x ∈ (Content.dict (d.insert key value)).slots) :
    x ∈ (Content.dict d).slots ∨ x = value ∨ referenceCountable x = false := by
  obtain ⟨k,hk⟩ := mem_dict_slots.mp hx
  rcases lookup_insert_cases hk with ⟨_,hxv⟩ | ⟨_,hold⟩
  · exact Or.inr (Or.inl hxv)
  · exact Or.inl (mem_dict_slots.mpr ⟨k,hold⟩)

/-- A live old value is the new one if they have one id. -/
theorem eq_of_debt {s u : State} {old value : PPVar} (hg : Genuine s value) (ho : Genuine s old)
    (hlive : Live s old) (hd : debtOf u value = some old.asId) : old = value := by
  obtain ⟨hcv,hid⟩ := holds_iff.mp (debtOf_eq_some.mp hd).1
  obtain ⟨x,hx⟩ := Option.isSome_iff_exists.mp hlive.2
  have hxo := ho hlive.1 x hx
  have hxv := hg hcv x (by rw [hid]; exact hx)
  exact hxo.symm.trans hxv

/-- With the new value stored, the old one may be released before the new one is counted. -/
theorem Replaceable.safe {s : State} {var dict value old : PPVar} {refCount : ℤ}
    {d : AList fun _ : List UInt8 => PPVar} {key : List UInt8} (h : Inv s) (hg : Genuine s value)
    (hv : s.table.lookup dict.asId = some ⟨var,refCount,.dict d⟩) (hl : d.lookup key = some old)
    (hr : Replaceable s dict value old) {u : State}
    (hu : u = s.put dict.asId ⟨var,refCount,.dict (d.insert key value)⟩) :
    Held u (debtOf u value) ∨ (referenceCountable old = true → ∀ w ∈ u.table.lookup old.asId,
      1 < w.refCount ∨ (w.slots = [] ∧ debtOf u value ≠ some old.asId)) := by
  subst hu
  have hold : old ∈ (Content.dict d).slots := mem_dict_slots.mpr ⟨key,hl⟩
  have ho : Genuine s old :=
    h.sound.genuine old (List.mem_append_left _ (mem_holdings.mpr ⟨_,_,hv,hold⟩))
  by_cases hlive : Live s old
  · rcases hr hlive with hdead | ⟨hdict,hvalue⟩ | hquiet
    · refine Or.inl ?_
      have hnone : debtOf (s.put dict.asId ⟨var,refCount,.dict (d.insert key value)⟩) value =
          none := by
        rw [debtOf,isSome_lookup_put hv,if_neg (by simpa [Live] using hdead)]
      rw [hnone]
      exact held_none _
    · refine Or.inl fun k hk => ?_
      have hholds := (debtOf_eq_some.mp hk).1
      refine ⟨(holds_iff.mp hholds).2 ▸ hvalue,dict.asId,hdict,_,lookup_put_self s _ _,value,?_,
        hholds⟩
      exact mem_dict_slots.mpr ⟨key,AList.lookup_insert _⟩
    · refine Or.inr fun _ w hw => ?_
      rcases lookup_put hw with ⟨hid,rfl⟩ | ⟨_,hw'⟩
      · rcases hquiet _ (by rw [hid]; exact hv) with hlt | ⟨hnil,_⟩
        · exact Or.inl hlt
        · rw [VarS.slots] at hnil
          rw [hnil] at hold
          cases hold
      · refine (hquiet w hw').imp_right fun hq => ⟨hq.1,fun hd => ?_⟩
        exact hq.2 (eq_of_debt hg ho hlive hd)
  · refine Or.inr fun hc w hw => absurd ⟨hc,?_⟩ hlive
    rw [← isSome_lookup_put hv,hw]
    rfl

theorem Inv.dictionarySet {s t : State} {dict key value : PPVar} {b : Bool} (h : Inv s)
    (hg : Genuine s value)
    (hr : ∀ v ∈ s.table.lookup dict.asId, ∀ old ∈ v.dictValue (ppbVarVarToUtf8 s key),
      Replaceable s dict value old)
    (ht : ppbVarDictionarySet s dict key value = some (t,b)) : Inv t := by
  rcases ppbVarDictionarySet_some ht with ⟨_,rfl,_⟩ | ⟨var,refCount,d,u,_,_,_,hv,hu,hset⟩
  · exact h
  have hd : debtOf u value = debtOf s value := by
    rw [hu]
    unfold debtOf
    rw [isSome_lookup_put hv]
  have hs : Sound u (d.lookup (ppbVarVarToUtf8 s key)).toList (debtOf u value) := by
    rw [hd,hu]
    refine h.sound.store hv rfl (fun k _ => holdings_dict_insert k) (fun y => mem_dict_insert) ?_ hg
    intro y hy
    exact mem_dict_slots.mpr ⟨_,Option.mem_toList.mp hy⟩
  have hcl : Cleared u [] := by
    rw [hu]
    exact h.cleared
  rcases hset with ⟨hl,rfl⟩ | ⟨old,hl,rfl⟩
  · rw [hl] at hs
    exact ⟨hs.addRef,addRef_cleared hcl⟩
  · rw [hl] at hs
    exact Inv.replace hs hcl ((hr _ hv old hl).safe h hg hv hl hu)

theorem NoDangling.put {s : State} {id : ℕ} {v w : VarS} (hn : NoDangling s)
    (hv : s.table.lookup id = some v) (hw : ∀ y ∈ w.slots, referenceCountable y = true →
      y ∈ v.slots ∨ (s.table.lookup y.asId).isSome = true) : NoDangling (s.put id w) := by
  intro x hx hc
  rw [isSome_lookup_put hv]
  have hp : List.Perm (v.slots ++ (s.put id w).slots) (w.slots ++ s.slots) :=
    holdings_replace VarS.slots w hv
  rcases List.mem_append.mp (hp.mem_iff.mp (List.mem_append_right _ hx)) with hx | hx
  · rcases hw x hx hc with hx | hx
    · exact hn x (mem_holdings.mpr ⟨id,v,hv,hx⟩) hc
    · exact hx
  · exact hn x hx hc

/-- The array of keys as the loop finds it. -/
def KeysArray (s : State) (keys : PPVar) (idx : ℕ) : Prop :=
  ∃ refCount xs, s.table.lookup keys.asId = some ⟨keys,refCount,.array xs⟩ ∧ xs.length = idx

theorem length_setSlot {xs : List PPVar} {value : PPVar} :
    (setSlot xs xs.length value).length = xs.length+1 := by
  simp [setSlot]

/-- The release in the loop gives up one of two references. -/
theorem Inv.releaseKept {s : State} {x : PPVar} {v : VarS} (h : Inv s) (hg : Genuine s x)
    (hc : referenceCountable x = true) (ho : x.asId ∈ s.owned)
    (hv : s.table.lookup x.asId = some v) (hr : 1 < v.refCount) :
    Inv (ppbVarRelease (disown s x) x) ∧ ∃ u : State, u.table = s.table ∧
      ppbVarRelease (disown s x) x = u.put x.asId { v with refCount := v.refCount-1 } := by
  have hs := h.sound.disown hg fun _ => ho
  have htab : (disown s x).table = s.table := by
    rw [disown,if_pos hc]
  have hcl : Cleared (disown s x) [] := by
    rw [disown,if_pos hc]; exact h.cleared
  have hset := release_settled hs hcl (held_none _)
  refine ⟨⟨hset.sound,hset.cleared⟩,disown s x,htab,?_⟩
  have hq : ∀ w ∈ (disown s x).table.lookup x.asId, 1 < w.refCount ∨
      (w.slots = [] ∧ (none : Option ℕ) ≠ some x.asId) := by
    intro w hw
    rw [htab,hv] at hw
    cases hw
    exact Or.inl hr
  rw [(release_quiet hs fun _ => hq).1]
  rcases dropRef_cases (disown s x) [] x with ⟨hx,_⟩ | ⟨w,_,hw,⟨hle,_⟩ | ⟨_,he⟩⟩
  · rw [htab,hv,hc] at hx
    simp at hx
  · rw [htab,hv] at hw
    cases hw
    omega
  · rw [htab,hv] at hw
    cases hw
    rw [he]

theorem createVar_spec {s t : State} {c : Content} {var : PPVar}
    (h : createVar s c = some (t,var)) :
    referenceCountable var = true ∧ t.table.lookup var.asId = some ⟨var,1,c⟩ ∧
    var.asId ∈ t.owned ∧ (Cleared s [] → Cleared t []) ∧
    ∀ k v, s.table.lookup k = some v → k ≠ var.asId ∧ t.table.lookup k = some v := by
  obtain ⟨id,hid,rfl,rfl⟩ := createVar_eq h
  refine ⟨referenceCountable_type c id,lookup_put_self _ _ _,List.mem_cons_self,fun hcl => hcl,
    fun k v hv => ?_⟩
  have hne : k ≠ id := by
    rintro rfl
    rw [hid] at hv
    cases hv
  exact ⟨hne,(lookup_put_ne _ _ hne).trans hv⟩

/-- Storing a new var behind the last slot counts it once more and changes nothing else. -/
theorem arraySet_new {s t : State} {keys key : PPVar} {refCount : ℤ} {xs : List PPVar}
    {c : Content} {b : Bool} (hkeys : s.table.lookup keys.asId = some ⟨keys,refCount,.array xs⟩)
    (htype : keys.type = .array) (hc : referenceCountable key = true)
    (hkey : s.table.lookup key.asId = some ⟨key,1,c⟩) (hne : keys.asId ≠ key.asId)
    (h : ppbVarArraySet s keys xs.length key = some (t,b)) :
    t = (s.put keys.asId ⟨keys,refCount,.array (setSlot xs xs.length key)⟩).put key.asId
      ⟨key,2,c⟩ := by
  simp only [ppbVarArraySet,htype,hkeys] at h
  split_ifs at h with hx hlen
  · exact absurd rfl hx
  · cases h
    exact addRef_put hc ((lookup_put_ne _ _ (Ne.symm hne)).trans hkey)

/-- One round of the loop over the keys. -/
theorem Inv.addKey {s s₁ s₂ : State} {keys key : PPVar} {idx : ℕ} {sKey : List UInt8} {b : Bool}
    (h : Inv s) (hn : NoDangling s) (hk : KeysArray s keys idx)
    (h₁ : ppbVarVarFromUtf8 s sKey = some (s₁,key))
    (h₂ : ppbVarArraySet s₁ keys idx key = some (s₂,b)) :
    Inv (ppbVarRelease (disown s₂ key) key) ∧ NoDangling (ppbVarRelease (disown s₂ key) key) ∧
      KeysArray (ppbVarRelease (disown s₂ key) key) keys (idx+1) := by
  obtain ⟨refCount,xs,hkeys,rfl⟩ := hk
  have htype : keys.type = .array := (h.sound.entry _ _ hkeys).type
  obtain ⟨hs₁,hn₁⟩ := h.sound.create hn rfl h₁
  obtain ⟨hc,hkey₁,hown,hcl,hold⟩ := createVar_spec h₁
  obtain ⟨hne,hkeys₁⟩ := hold _ _ hkeys
  have hg : Genuine s₁ key := fun _ v hv => by
    cases Option.some.inj (hkey₁.symm.trans hv)
    rfl
  -- the slot behind the last one replaces nothing
  have hs₂ : Sound s₂ [] none := hs₁.arraySet hg (fun v hv old hx => by
    cases Option.some.inj (hkeys₁.symm.trans hv)
    simp [VarS.arraySlot] at hx) h₂
  have he := arraySet_new hkeys₁ htype hc hkey₁ hne h₂
  let m := s₁.put keys.asId ⟨keys,refCount,.array (setSlot xs xs.length key)⟩
  have hkeym : m.table.lookup key.asId = some ⟨key,1,.str sKey⟩ :=
    (lookup_put_ne _ _ (Ne.symm hne)).trans hkey₁
  have hm : NoDangling m := hn₁.put hkeys₁ fun y hy hcy => by
    rcases mem_setSlot hy with hy | rfl | hy
    · exact Or.inl hy
    · exact Or.inr (by rw [hkey₁]; rfl)
    · rw [hy] at hcy; cases hcy
  have hn₂ : NoDangling s₂ := by
    rw [he]
    exact hm.put hkeym fun y hy => by cases hy
  have hkey₂ : s₂.table.lookup key.asId = some ⟨key,2,.str sKey⟩ := by
    rw [he]
    exact lookup_put_self _ _ _
  have hcl₂ : Cleared s₂ [] := by rw [he]; exact hcl h.cleared
  have hown₂ : key.asId ∈ s₂.owned := by rw [he]; exact hown
  have hg₂ : Genuine s₂ key := fun _ v hv => by
    cases Option.some.inj (hkey₂.symm.trans hv)
    rfl
  obtain ⟨hinv,w,hw,hrel⟩ := Inv.releaseKept ⟨hs₂,hcl₂⟩ hg₂ hc hown₂ hkey₂ one_lt_two
  have hnw : NoDangling w := by
    intro x hx
    rw [hw]
    exact hn₂ x (by rw [State.slots,← hw]; exact hx)
  refine ⟨hinv,?_,?_⟩
  · rw [hrel]
    exact hnw.put (by rw [hw]; exact hkey₂) fun y hy => by cases hy
  · rw [hrel]
    refine ⟨refCount,setSlot xs xs.length key,(lookup_put_ne _ _ hne).trans ?_,length_setSlot⟩
    rw [hw,he,lookup_put_ne _ _ hne]
    exact lookup_put_self _ _ _

theorem Inv.setKeys {s t : State} {keys : PPVar} {idx : ℕ} {rest : List (List UInt8)}
    (h : Inv s) (hn : NoDangling s) (hk : KeysArray s keys idx)
    (ht : setKeys s keys idx rest = some t) : Inv t := by
  induction rest generalizing s idx with
  | nil => cases ht; exact h
  | cons sKey rest ih =>
    obtain ⟨⟨s₁,key⟩,h₁,ht⟩ := Option.bind_eq_some_iff.mp ht
    obtain ⟨⟨s₂,b⟩,h₂,ht⟩ := Option.bind_eq_some_iff.mp ht
    obtain ⟨hi,hn',hk'⟩ := h.addKey hn hk h₁ h₂
    exact ih hi hn' hk' ht

theorem Inv.dictionaryGetKeys {s t : State} {dict keys : PPVar} (h : Inv s) (hn : NoDangling s)
    (ht : ppbVarDictionaryGetKeys s dict = some (t,keys)) : Inv t := by
  rcases ppbVarDictionaryGetKeys_some ht with ⟨_,rfl,_⟩ | ⟨u,_,_,d,_,hu,_,hset⟩
  · exact h
  obtain ⟨hs₁,hn₁⟩ := h.sound.create hn rfl hu
  obtain ⟨_,hkeys,_,hcl,_⟩ := createVar_spec hu
  exact Inv.setKeys ⟨hs₁,hcl h.cleared⟩ hn₁ ⟨1,[],hkeys,rfl⟩ hset

theorem Inv.addRef2 {s : State} (h : Inv s) (x : PPVar) : Inv (ppbVarAddRef2 s x).1 := by
  refine ⟨h.sound.addRef2 x,addRef_cleared ?_⟩
  rw [own_eq]
  exact h.cleared

theorem Inv.create {s t : State} {c : Content} {var : PPVar} (h : Inv s) (hn : NoDangling s)
    (hs : c.slots = []) (ht : createVar s c = some (t,var)) : Inv t :=
  ⟨(h.sound.create hn hs ht).1,(createVar_spec ht).2.2.2.1 h.cleared⟩

theorem Inv.release {s : State} {x : PPVar} (h : Inv s) (hg : Genuine s x)
    (ho : referenceCountable x = true → x.asId ∈ s.owned) :
    Inv (ppbVarRelease (disown s x) x) := by
  have hcl : Cleared (disown s x) [] := by
    unfold disown
    split_ifs <;> exact h.cleared
  have hset := release_settled (h.sound.disown hg ho) hcl (held_none _)
  exact ⟨hset.sound,hset.cleared⟩

theorem Inv.arraySet {s t : State} {array value : PPVar} {index : ℕ} {b : Bool} (h : Inv s)
    (hg : Genuine s value)
    (hfree : ∀ v ∈ s.table.lookup array.asId, ∀ old ∈ v.arraySlot index, ¬Live s old)
    (ht : ppbVarArraySet s array index value = some (t,b)) : Inv t := by
  refine ⟨h.sound.arraySet hg hfree ht,?_⟩
  rcases ppbVarArraySet_some ht with ⟨_,rfl,_⟩ | ⟨_,_,_,_,_,_,_,rfl⟩
  · exact h.cleared
  · exact addRef_cleared h.cleared

theorem Inv.arrayGet {s t : State} {array var : PPVar} {index : ℕ} (h : Inv s)
    (ht : ppbVarArrayGet s array index = some (t,var)) : Inv t := by
  rw [arrayGet_addRef2 ht]
  exact h.addRef2 var

theorem Inv.dictionaryGet {s t : State} {dict key var : PPVar} (h : Inv s)
    (ht : ppbVarDictionaryGet s dict key = some (t,var)) : Inv t := by
  rw [dictionaryGet_addRef2 ht]
  exact h.addRef2 var

/-! Counts fit an `int` where one that is the largest counts no further reference. -/

/-- The count of every entry fits an `int`. -/
def CountsFit (s : State) : Prop := ∀ id v, s.table.lookup id = some v → v.refCount < 2^31

/-- One more reference on the var can be counted. -/
def Countable (s : State) (x : PPVar) : Prop :=
  ∀ v ∈ s.table.lookup x.asId, v.refCount < 2^31-1

instance (s : State) (x : PPVar) : Decidable (Countable s x) :=
  inferInstanceAs (Decidable (∀ v ∈ s.table.lookup x.asId, _))

theorem create_countsFit : CountsFit State.create := fun id v hv => by simp [State.create] at hv

theorem CountsFit.of_le {s t : State} (h : CountsFit s)
    (ht : ∀ id v, t.table.lookup id = some v →
      ∃ w, s.table.lookup id = some w ∧ v.refCount ≤ w.refCount) : CountsFit t := by
  intro id v hv
  obtain ⟨w,hw,hle⟩ := ht id v hv
  exact lt_of_le_of_lt hle (h id w hw)

theorem CountsFit.put {s : State} (h : CountsFit s) {id : ℕ} {v : VarS} (hv : v.refCount < 2^31) :
    CountsFit (s.put id v) := by
  intro k w hw
  rcases lookup_put hw with ⟨_,rfl⟩ | ⟨_,hl⟩
  · exact hv
  · exact h k w hl

theorem CountsFit.addRef {s : State} (h : CountsFit s) {x : PPVar} (hx : Countable s x) :
    CountsFit (ppbVarAddRef s x) := by
  cases hc : referenceCountable x with
  | false =>
    rw [addRef_skip (Or.inl hc)]
    exact h
  | true =>
    cases hv : s.table.lookup x.asId with
    | none =>
      rw [addRef_skip (Or.inr hv)]
      exact h
    | some v =>
      rw [addRef_put hc hv]
      have hlt := hx v hv
      exact h.put (by dsimp only; omega)

theorem CountsFit.addRef2 {s : State} (h : CountsFit s) {x : PPVar} (hx : Countable s x) :
    CountsFit (ppbVarAddRef2 s x).1 := by
  have hown : CountsFit (own s x) ∧ Countable (own s x) x := by
    rw [own_eq]
    exact ⟨h,hx⟩
  exact hown.1.addRef hown.2

theorem CountsFit.release {s : State} (h : CountsFit s) (x : PPVar) :
    CountsFit (ppbVarRelease (disown s x) x) := by
  have hd : CountsFit (disown s x) := by
    unfold disown
    split_ifs <;> exact h
  exact hd.of_le fun id v hv => (release_lookup_some hv).imp fun _ hw => ⟨hw.1,hw.2.refCount⟩

theorem CountsFit.create {s t : State} {c : Content} {var : PPVar} (h : CountsFit s)
    (ht : createVar s c = some (t,var)) : CountsFit t := by
  obtain ⟨id,_,rfl,rfl⟩ := createVar_eq ht
  have hone : (1 : ℤ) < 2^31 := by decide
  have hput : CountsFit (s.put id ⟨⟨c.type,id⟩,1,c⟩) := h.put hone
  exact hput

/-- A changed content counts no reference. -/
theorem Countable.put {s : State} {x : PPVar} (hx : Countable s x) {id : ℕ} {v w : VarS}
    (hv : s.table.lookup id = some v) (hw : w.refCount = v.refCount) :
    Countable (s.put id w) x := by
  intro u hu
  rcases lookup_put hu with ⟨he,rfl⟩ | ⟨_,hl⟩
  · rw [hw]
    exact hx v (he ▸ hv)
  · exact hx u hl

theorem CountsFit.arraySet {s t : State} {array value : PPVar} {index : ℕ} {b : Bool}
    (h : CountsFit s) (hx : Countable s value)
    (ht : ppbVarArraySet s array index value = some (t,b)) : CountsFit t := by
  rcases ppbVarArraySet_some ht with ⟨_,rfl,_⟩ | ⟨var,refCount,xs,_,_,hv,_,rfl⟩
  · exact h
  · have hlt : refCount < 2^31 := h _ _ hv
    exact (h.put hlt).addRef (hx.put hv rfl)

theorem CountsFit.dictionarySet {s t : State} {dict key value : PPVar} {b : Bool} (h : CountsFit s)
    (hx : Countable s value) (ht : ppbVarDictionarySet s dict key value = some (t,b)) :
    CountsFit t := by
  rcases ppbVarDictionarySet_some ht with ⟨_,rfl,_⟩ | ⟨var,refCount,d,u,_,_,_,hv,hu,hset⟩
  · exact h
  have hlt : refCount < 2^31 := h _ _ hv
  have hput : CountsFit u ∧ Countable u value := by
    rw [hu]
    exact ⟨h.put hlt,hx.put hv rfl⟩
  rcases hset with ⟨_,rfl⟩ | ⟨old,_,rfl⟩
  · exact hput.1.addRef hput.2
  · have hrel : CountsFit (ppbVarRelease u old) :=
      hput.1.of_le fun id v hv => (release_lookup_some hv).imp fun _ hw => ⟨hw.1,hw.2.refCount⟩
    refine hrel.addRef fun v hv => ?_
    obtain ⟨w,hw,hleft⟩ := release_lookup_some hv
    exact lt_of_le_of_lt hleft.refCount (hput.2 w hw)

theorem CountsFit.arrayGet {s t : State} {array var : PPVar} {index : ℕ} (h : CountsFit s)
    (hx : ∀ v ∈ s.table.lookup array.asId, ∀ x ∈ v.arraySlot index, Countable s x)
    (ht : ppbVarArrayGet s array index = some (t,var)) : CountsFit t := by
  unfold ppbVarArrayGet at ht
  split_ifs at ht
  · cases ht
    exact h
  · split at ht
    · rename_i hv
      split at ht
      · cases ht
        exact h
      · rename_i hslot
        cases ht
        exact h.addRef2 (hx _ hv _ hslot)
    · cases ht

theorem CountsFit.dictionaryGet {s t : State} {dict key var : PPVar} (h : CountsFit s)
    (hx : ∀ v ∈ s.table.lookup dict.asId, ∀ x ∈ v.dictValue (ppbVarVarToUtf8 s key),
      Countable s x)
    (ht : ppbVarDictionaryGet s dict key = some (t,var)) : CountsFit t := by
  unfold ppbVarDictionaryGet at ht
  split_ifs at ht
  · cases ht
    exact h
  · split at ht
    · rename_i hv
      split at ht
      · cases ht
        exact h
      · rename_i hvalue
        cases ht
        exact h.addRef2 (hx _ hv _ hvalue)
    · cases ht

/-- A key is made, stored and given up, so that it never counts more than two. -/
theorem CountsFit.setKeys {s t : State} {keys : PPVar} {idx : ℕ} {rest : List (List UInt8)}
    (h : CountsFit s) (ht : setKeys s keys idx rest = some t) : CountsFit t := by
  induction rest generalizing s idx with
  | nil => cases ht; exact h
  | cons sKey rest ih =>
    obtain ⟨⟨s₁,key⟩,h₁,ht⟩ := Option.bind_eq_some_iff.mp ht
    obtain ⟨⟨s₂,b⟩,h₂,ht⟩ := Option.bind_eq_some_iff.mp ht
    have hkey : Countable s₁ key := fun v hv => by
      cases Option.some.inj ((createVar_spec h₁).2.1.symm.trans hv)
      exact (by decide : (1 : ℤ) < 2^31-1)
    exact ih (((h.create h₁).arraySet hkey h₂).release key) ht

theorem CountsFit.dictionaryGetKeys {s t : State} {dict keys : PPVar} (h : CountsFit s)
    (ht : ppbVarDictionaryGetKeys s dict = some (t,keys)) : CountsFit t := by
  rcases ppbVarDictionaryGetKeys_some ht with ⟨_,rfl,_⟩ | ⟨u,_,_,d,_,hu,_,hset⟩
  · exact h
  · exact (h.create hu).setKeys hset

/-- The condition under which an operation keeps the books: vars carry their own type,
no var is created while a slot holds a var that is gone, `array_set` overwrites no live
var, `dictionary_set` replaces a live value only where the order of its release and
the count of the new value does not matter, and no count overflows. -/
def Respects (s : State) : Op → Prop
  | .varFromUtf8 _ | .createObject | .arrayBufferCreate | .dictionaryCreate | .arrayCreate
  | .dictionaryGetKeys _ => NoDangling s
  | .addRef var => Countable s var
  | .release var => Genuine s var
  | .arraySet array index value => Genuine s value ∧ Countable s value ∧
      ∀ v ∈ s.table.lookup array.asId, ∀ old ∈ v.arraySlot index, ¬Live s old
  | .arrayGet array index =>
      ∀ v ∈ s.table.lookup array.asId, ∀ x ∈ v.arraySlot index, Countable s x
  | .dictionarySet dict key value => Genuine s value ∧ Countable s value ∧
      ∀ v ∈ s.table.lookup dict.asId, ∀ old ∈ v.dictValue (ppbVarVarToUtf8 s key),
        Replaceable s dict value old
  | .dictionaryGet dict key =>
      ∀ v ∈ s.table.lookup dict.asId, ∀ x ∈ v.dictValue (ppbVarVarToUtf8 s key), Countable s x

instance (s : State) (o : Op) : Decidable (Respects s o) := by
  cases o <;> unfold Respects <;> infer_instance

theorem step_inv {s t : State} {o : Op} (h : Inv s) (hg : Respects s o)
    (ht : step s o = some t) : Inv t := by
  cases o with
  | addRef var => cases ht; exact h.addRef2 var
  | release var =>
    simp only [step] at ht
    split_ifs at ht with ho
    cases ht
    exact h.release hg ho
  | varFromUtf8 data =>
    obtain ⟨r,hr,rfl⟩ := Option.map_eq_some_iff.mp ht
    exact h.create hg rfl hr
  | createObject =>
    obtain ⟨r,hr,rfl⟩ := Option.map_eq_some_iff.mp ht
    exact h.create hg rfl hr
  | arrayBufferCreate =>
    obtain ⟨r,hr,rfl⟩ := Option.map_eq_some_iff.mp ht
    exact h.create hg rfl hr
  | dictionaryCreate =>
    obtain ⟨r,hr,rfl⟩ := Option.map_eq_some_iff.mp ht
    exact h.create hg rfl hr
  | arrayCreate =>
    obtain ⟨r,hr,rfl⟩ := Option.map_eq_some_iff.mp ht
    exact h.create hg rfl hr
  | arraySet array index value =>
    obtain ⟨r,hr,rfl⟩ := Option.map_eq_some_iff.mp ht
    exact h.arraySet hg.1 hg.2.2 hr
  | arrayGet array index =>
    obtain ⟨r,hr,rfl⟩ := Option.map_eq_some_iff.mp ht
    exact h.arrayGet hr
  | dictionarySet dict key value =>
    obtain ⟨r,hr,rfl⟩ := Option.map_eq_some_iff.mp ht
    exact h.dictionarySet hg.1 hg.2.2 hr
  | dictionaryGet dict key =>
    obtain ⟨r,hr,rfl⟩ := Option.map_eq_some_iff.mp ht
    exact h.dictionaryGet hr
  | dictionaryGetKeys dict =>
    obtain ⟨r,hr,rfl⟩ := Option.map_eq_some_iff.mp ht
    exact h.dictionaryGetKeys hg hr

theorem step_countsFit {s t : State} {o : Op} (h : CountsFit s) (hg : Respects s o)
    (ht : step s o = some t) : CountsFit t := by
  cases o with
  | addRef var => cases ht; exact h.addRef2 hg
  | release var =>
    simp only [step] at ht
    split_ifs at ht
    cases ht
    exact h.release var
  | varFromUtf8 data =>
    obtain ⟨r,hr,rfl⟩ := Option.map_eq_some_iff.mp ht
    exact h.create hr
  | createObject =>
    obtain ⟨r,hr,rfl⟩ := Option.map_eq_some_iff.mp ht
    exact h.create hr
  | arrayBufferCreate =>
    obtain ⟨r,hr,rfl⟩ := Option.map_eq_some_iff.mp ht
    exact h.create hr
  | dictionaryCreate =>
    obtain ⟨r,hr,rfl⟩ := Option.map_eq_some_iff.mp ht
    exact h.create hr
  | arrayCreate =>
    obtain ⟨r,hr,rfl⟩ := Option.map_eq_some_iff.mp ht
    exact h.create hr
  | arraySet array index value =>
    obtain ⟨r,hr,rfl⟩ := Option.map_eq_some_iff.mp ht
    exact h.arraySet hg.2.1 hr
  | arrayGet array index =>
    obtain ⟨r,hr,rfl⟩ := Option.map_eq_some_iff.mp ht
    exact h.arrayGet hg hr
  | dictionarySet dict key value =>
    obtain ⟨r,hr,rfl⟩ := Option.map_eq_some_iff.mp ht
    exact h.dictionarySet hg.2.1 hr
  | dictionaryGet dict key =>
    obtain ⟨r,hr,rfl⟩ := Option.map_eq_some_iff.mp ht
    exact h.dictionaryGet hg hr
  | dictionaryGetKeys dict =>
    obtain ⟨r,hr,rfl⟩ := Option.map_eq_some_iff.mp ht
    exact h.dictionaryGetKeys hr

/-- Counts are the references there are, which an `int` holds, vars went when none was left
and no earlier, and each element of a container that went was released once. -/
structure Accounted (s : State) : Prop where
  counts : ∀ id v, s.table.lookup id = some v →
    v.refCount = s.references id ∧ 0 < s.references id ∧ s.references id < 2^31
  removals : ∀ r ∈ s.removed, r.references = 0
  elements : List.Perm s.cleared (s.removed.flatMap fun r => r.entry.slots)

theorem Inv.accounted {s : State} (h : Inv s) (hf : CountsFit s) : Accounted s where
  counts id v hv := by
    have hb := h.sound.balance id v hv
    have hp := h.sound.positive id v hv
    have hlt := hf id v hv
    rw [if_neg (by simp),List.countP_nil] at hb
    omega
  removals := h.sound.removed
  elements := by
    have hc := h.cleared
    rwa [Cleared,List.append_nil] at hc

theorem create_inv : Inv State.create := by
  refine ⟨⟨?_,?_,?_,?_,?_,?_⟩,List.Perm.refl []⟩
  · intro id v hv; simp [State.create] at hv
  · intro id v hv; simp [State.create] at hv
  · intro id v hv; simp [State.create] at hv
  · intro x hx; simp [State.create,State.slots] at hx
  · intro id hid; simp [State.create] at hid
  · intro r hr; simp [State.create] at hr

/-- Along every run that meets the condition the books are right in every state. -/
theorem references_accounted {s : State} (h : machine.ReachableVia Respects s) : Accounted s :=
  (h.invariant Inv create_inv fun _ _ _ hi hg ht => step_inv hi hg ht).accounted
    (h.invariant CountsFit create_countsFit fun _ _ _ hf hg ht => step_countsFit hf hg ht)

/-- Two strings stored in one slot of an array, the first given up by its caller. -/
def overwrittenSlot : List Op :=
  [.arrayCreate,.varFromUtf8 [97],.arraySet ⟨.array,2⟩ 0 ⟨.string,3⟩,.release ⟨.string,3⟩,
    .varFromUtf8 [98],.arraySet ⟨.array,2⟩ 0 ⟨.string,4⟩]

/-- No reference is left on the first string, yet it keeps its count and stays. -/
theorem overwrittenSlot_leaks :
    ¬∀ (os : List Op) (u : State), machine.exec machine.start os = some u → Accounted u := by
  intro h
  have hc := (h overwrittenSlot _ rfl).counts 3 ⟨⟨.string,3⟩,1,.str [97]⟩ rfl
  exact absurd hc.2.1 (by decide)

/-- A dictionary with an array value that goes when a string replaces it. -/
def replacedValue : List Op :=
  [.dictionaryCreate,.varFromUtf8 [97],.arrayCreate,.arraySet ⟨.array,4⟩ 0 ⟨.string,3⟩,
    .dictionarySet ⟨.dictionary,2⟩ ⟨.string,3⟩ ⟨.array,4⟩,.release ⟨.array,4⟩,
    .dictionaryGetKeys ⟨.dictionary,2⟩,.varFromUtf8 [98],
    .dictionarySet ⟨.dictionary,2⟩ ⟨.string,3⟩ ⟨.string,7⟩]

theorem replacedValue_accounted : ∃ u : State,
    machine.exec machine.start replacedValue = some u ∧ u.removed.length = 1 ∧ Accounted u :=
  ⟨_,rfl,rfl,references_accounted (Machine.reachableVia_of_exec replacedValue .start rfl (by decide))⟩

end Var
end FreshPlayer
