import FreshPlayer.Var
import Mathlib.Data.List.Count
import Mathlib.Algebra.Order.Ring.Int

/-! Releasing a var and, through it, the elements of the containers that go with it.
The invariant speaks of a state with releases still in flight and with at most one
reference that is in a slot already but not counted yet. -/
namespace FreshPlayer
namespace Var

/-- A counted var has the type its entry was created with. -/
def Genuine (s : State) (x : PPVar) : Prop :=
  referenceCountable x = true → ∀ v ∈ s.table.lookup x.asId, v.var = x

instance (s : State) (x : PPVar) : Decidable (Genuine s x) :=
  inferInstanceAs (Decidable (_ → ∀ v ∈ s.table.lookup x.asId, _))

structure EntryOk (id : ℕ) (v : VarS) : Prop where
  asId : v.var.asId = id
  type : v.var.type = v.content.type

/-- The counts agree with the references, counting those in flight. -/
structure Sound (s : State) (pending : List PPVar) (debt : Option ℕ) : Prop where
  entry : ∀ id v, s.table.lookup id = some v → EntryOk id v
  balance : ∀ id v, s.table.lookup id = some v →
    v.refCount + (if debt = some id then 1 else 0) = s.references id + pending.countP (holds id)
  positive : ∀ id v, s.table.lookup id = some v → 0 < v.refCount
  genuine : ∀ x ∈ s.slots ++ pending, Genuine s x
  owned : ∀ id ∈ s.owned, (s.table.lookup id).isSome
  removed : ∀ r ∈ s.removed, r.references = 0

/-- Elements released by destroyed containers, with those in flight, are the elements
of the containers removed. -/
def Cleared (s : State) (pending : List PPVar) : Prop :=
  List.Perm (s.cleared ++ pending) (s.removed.flatMap fun r => r.entry.slots)

theorem referenceCountable_type (c : Content) (id : ℕ) :
    referenceCountable ⟨c.type,id⟩ = true := by cases c <;> rfl

theorem elementsOf_eq {id : ℕ} {v : VarS} (h : EntryOk id v) : elementsOf v.var v = v.slots := by
  unfold elementsOf VarS.slots Content.slots
  rw [h.type]
  cases v.content <;> rfl

theorem holds_iff {id : ℕ} {x : PPVar} :
    holds id x = true ↔ referenceCountable x = true ∧ x.asId = id := by
  simp [holds]

theorem references_of_perm {s t : State} (ho : t.owned = s.owned) (hs : List.Perm t.slots s.slots)
    (id : ℕ) : t.references id = s.references id := by
  unfold State.references
  rw [ho,hs.countP_eq]

/-- Changing only the count of an entry leaves the slots. -/
theorem slots_recount {s : State} {id : ℕ} {v w : VarS} (h : s.table.lookup id = some v)
    (hw : w.slots = v.slots) :
    List.Perm (s.put id w).slots s.slots := by
  have hp := holdings_replace VarS.slots w h
  rw [hw] at hp
  exact (List.perm_append_left_iff _).mp hp

@[simp] theorem lookup_put_self (s : State) (id : ℕ) (v : VarS) :
    (s.put id v).table.lookup id = some v := AList.lookup_insert _

theorem lookup_put_ne (s : State) {id k : ℕ} (v : VarS) (h : k ≠ id) :
    (s.put id v).table.lookup k = s.table.lookup k := AList.lookup_insert_ne h

theorem lookup_put {s : State} {id k : ℕ} {v u : VarS}
    (hk : (s.put id v).table.lookup k = some u) :
    (k = id ∧ u = v) ∨ (k ≠ id ∧ s.table.lookup k = some u) := lookup_insert_cases hk

theorem isSome_lookup_put {s : State} {id k : ℕ} {v w : VarS} (h : s.table.lookup id = some v) :
    ((s.put id w).table.lookup k).isSome = (s.table.lookup k).isSome := isSome_lookup_insert h

/-- A var keeps its type when only counts or contents change. -/
theorem Genuine.put {s : State} {id : ℕ} {v w : VarS} {x : PPVar} (h : Genuine s x)
    (hv : s.table.lookup id = some v) (hw : w.var = v.var) : Genuine (s.put id w) x := by
  intro hc u hu
  rcases lookup_put hu with ⟨hx,rfl⟩ | ⟨_,hl⟩
  · rw [hw]; exact h hc v (hx ▸ hv)
  · exact h hc u hl

theorem Genuine.of_lookup {s t : State} {x : PPVar} (h : Genuine s x)
    (ht : ∀ v, t.table.lookup x.asId = some v → s.table.lookup x.asId = some v) : Genuine t x :=
  fun hc v hv => h hc v (ht v hv)

/-- The four ways a release goes on. -/
theorem dropRef_cases (s : State) (pending : List PPVar) (x : PPVar) :
    ((referenceCountable x = false ∨ s.table.lookup x.asId = none) ∧
      dropRef s pending x = (s,[])) ∨
    ∃ v, referenceCountable x = true ∧ s.table.lookup x.asId = some v ∧
      ((v.refCount ≤ 1 ∧ dropRef s pending x =
          ({ s with
              table := s.table.erase x.asId
              removed := s.removed ++
                [⟨v,s.references x.asId + pending.countP (holds x.asId)⟩] },elementsOf x v)) ∨
        (1 < v.refCount ∧ dropRef s pending x =
          (s.put x.asId { v with refCount := v.refCount-1 },[]))) := by
  unfold dropRef
  cases hc : referenceCountable x with
  | false => exact Or.inl ⟨Or.inl rfl,by simp⟩
  | true =>
    cases hv : s.table.lookup x.asId with
    | none => exact Or.inl ⟨Or.inr rfl,by simp⟩
    | some v =>
      refine Or.inr ⟨v,rfl,rfl,?_⟩
      by_cases hr : v.refCount-1 ≤ 0
      · exact Or.inl ⟨by omega,by simp [hr]⟩
      · exact Or.inr ⟨by omega,by simp [hr]⟩

theorem countP_cons_holds (id : ℕ) (x : PPVar) (xs : List PPVar) :
    (x::xs).countP (holds id) = xs.countP (holds id) + if holds id x = true then 1 else 0 :=
  List.countP_cons

/-- A release that finds no entry changes no count. -/
theorem Sound.skip {s : State} {x : PPVar} {xs : List PPVar} {debt : Option ℕ}
    (h : Sound s (x::xs) debt)
    (hx : referenceCountable x = false ∨ s.table.lookup x.asId = none) : Sound s xs debt where
  entry := h.entry
  balance id v hv := by
    have hh : ¬holds id x = true := by
      rw [holds_iff]
      rintro ⟨hc,rfl⟩
      rcases hx with hx | hx
      · simp [hx] at hc
      · simp [hx] at hv
    rw [h.balance id v hv,countP_cons_holds,if_neg hh,Nat.add_zero]
  positive := h.positive
  genuine y hy := h.genuine y (by
    rcases List.mem_append.mp hy with hy | hy
    · exact List.mem_append_left _ hy
    · exact List.mem_append_right _ (List.mem_cons_of_mem x hy))
  owned := h.owned
  removed := h.removed

theorem Sound.decrement {s : State} {x : PPVar} {xs : List PPVar} {debt : Option ℕ} {v : VarS}
    (h : Sound s (x::xs) debt) (hc : referenceCountable x = true)
    (hv : s.table.lookup x.asId = some v) (hr : 1 < v.refCount) :
    Sound (s.put x.asId { v with refCount := v.refCount-1 }) xs debt := by
  have hslots : List.Perm (s.put x.asId { v with refCount := v.refCount-1 }).slots s.slots :=
    slots_recount hv rfl
  have hrefs : ∀ id, (s.put x.asId { v with refCount := v.refCount-1 }).references id =
      s.references id := references_of_perm rfl hslots
  refine ⟨fun id w hw => ?_,fun id w hw => ?_,fun id w hw => ?_,fun y hy => ?_,fun id hid => ?_,
    h.removed⟩
  · rcases lookup_put hw with ⟨rfl,rfl⟩ | ⟨_,hl⟩
    · exact ⟨(h.entry _ v hv).asId,(h.entry _ v hv).type⟩
    · exact h.entry id w hl
  · rw [hrefs]
    rcases lookup_put hw with ⟨rfl,rfl⟩ | ⟨hne,hl⟩
    · have hb := h.balance _ v hv
      rw [countP_cons_holds,if_pos (holds_iff.mpr ⟨hc,rfl⟩)] at hb
      push_cast at hb ⊢
      omega
    · have hb := h.balance id w hl
      rw [countP_cons_holds,if_neg fun hh => hne (holds_iff.mp hh).2.symm] at hb
      exact hb
  · rcases lookup_put hw with ⟨rfl,rfl⟩ | ⟨_,hl⟩
    · show 0 < v.refCount-1
      omega
    · exact h.positive id w hl
  · have hy' : y ∈ s.slots ++ x::xs := by
      rcases List.mem_append.mp hy with hy | hy
      · exact List.mem_append_left _ (hslots.mem_iff.mp hy)
      · exact List.mem_append_right _ (List.mem_cons_of_mem x hy)
    exact (h.genuine y hy').put hv rfl
  · rw [isSome_lookup_put hv]
    exact h.owned id hid

/-- The last reference on an entry takes it out of the table; its elements are released next. -/
theorem Sound.removal {s : State} {x : PPVar} {xs : List PPVar} {debt : Option ℕ} {v : VarS}
    (h : Sound s (x::xs) debt) (hc : referenceCountable x = true)
    (hv : s.table.lookup x.asId = some v) (hr : v.refCount ≤ 1) (hd : debt ≠ some x.asId) :
    Sound { s with
      table := s.table.erase x.asId
      removed := s.removed ++ [⟨v,s.references x.asId + xs.countP (holds x.asId)⟩] }
      (v.slots ++ xs) debt := by
  have hb := h.balance _ v hv
  rw [countP_cons_holds,if_pos (holds_iff.mpr ⟨hc,rfl⟩),if_neg hd] at hb
  have hp := h.positive _ v hv
  have hzero : s.references x.asId + xs.countP (holds x.asId) = 0 := by
    push_cast at hb
    omega
  have hslots := holdings_erase VarS.slots hv
  have hlookup : ∀ id w, (s.table.erase x.asId).lookup id = some w →
      id ≠ x.asId ∧ s.table.lookup id = some w := fun _ _ hw => lookup_erase_cases hw
  refine ⟨fun id w hw => h.entry id w (hlookup id w hw).2,fun id w hw => ?_,
    fun id w hw => h.positive id w (hlookup id w hw).2,fun y hy => ?_,fun id hid => ?_,?_⟩
  · have hne := (hlookup id w hw).1
    have hw' := h.balance id w (hlookup id w hw).2
    rw [countP_cons_holds,if_neg fun hh => hne (holds_iff.mp hh).2.symm] at hw'
    have hcount := hslots.countP_eq (holds id)
    rw [hw']
    simp only [State.references,State.slots,List.countP_append] at hcount ⊢
    omega
  · have hy' : y ∈ s.slots ++ x::xs := by
      simp only [State.slots,List.mem_append,List.mem_cons,hslots.mem_iff] at hy ⊢
      tauto
    exact (h.genuine y hy').of_lookup fun w hw => (hlookup _ w hw).2
  · have hne : id ≠ x.asId := by
      rintro rfl
      have hcount : 0 < s.owned.count x.asId := List.count_pos_iff.mpr hid
      simp only [State.references] at hzero
      omega
    show ((s.table.erase x.asId).lookup id).isSome = true
    rw [AList.lookup_erase_ne hne]
    exact h.owned id hid
  · intro r hr'
    rcases List.mem_append.mp hr' with hr' | hr'
    · exact h.removed r hr'
    · cases List.mem_singleton.mp hr'
      exact hzero

/-- The genuine owner of an entry releases exactly the slots of it. -/
theorem Sound.elementsOf_eq {s : State} {x : PPVar} {xs : List PPVar} {debt : Option ℕ} {v : VarS}
    (h : Sound s (x::xs) debt) (hc : referenceCountable x = true)
    (hv : s.table.lookup x.asId = some v) : elementsOf x v = v.slots := by
  have hx : v.var = x := h.genuine x (by simp) hc v hv
  rw [← hx]
  exact Var.elementsOf_eq (h.entry _ v hv)

theorem Sound.dropRef {s : State} {x : PPVar} {xs : List PPVar} {debt : Option ℕ}
    (h : Sound s (x::xs) debt)
    (hd : referenceCountable x = true → debt = some x.asId →
      ∀ v ∈ s.table.lookup x.asId, 1 < v.refCount) :
    Sound (dropRef s xs x).1 ((dropRef s xs x).2 ++ xs) debt := by
  rcases dropRef_cases s xs x with ⟨hx,he⟩ | ⟨v,hc,hv,⟨hr,he⟩ | ⟨hr,he⟩⟩
  · rw [he]; exact h.skip hx
  · rw [he,h.elementsOf_eq hc hv]
    exact h.removal hc hv hr fun hdx => absurd (hd hc hdx v hv) (not_lt.mpr hr)
  · rw [he]; exact h.decrement hc hv hr

theorem Cleared.dropRef {s : State} {x : PPVar} {xs ys : List PPVar} {debt : Option ℕ}
    (h : Sound s (x::xs) debt) (hcl : Cleared s ys) :
    Cleared (Var.dropRef s xs x).1 ((Var.dropRef s xs x).2 ++ ys) := by
  rcases dropRef_cases s xs x with ⟨_,he⟩ | ⟨v,hc,hv,⟨_,he⟩ | ⟨_,he⟩⟩
  · rw [he]; exact hcl
  · rw [he,h.elementsOf_eq hc hv]
    simp only [Cleared,List.flatMap_append,List.flatMap_cons,List.flatMap_nil,List.append_nil]
    refine List.Perm.trans ?_ (hcl.append_right v.slots)
    rw [List.append_assoc]
    exact (List.perm_append_comm).append_left _
  · rw [he]; exact hcl

/-- A caller owns the var not counted yet and a container with it in a slot. -/
def Held (s : State) (debt : Option ℕ) : Prop :=
  ∀ k, debt = some k → k ∈ s.owned ∧
    ∃ d ∈ s.owned, ∃ v, s.table.lookup d = some v ∧ ∃ y ∈ v.slots, holds k y = true

theorem held_none (s : State) : Held s none := fun _ h => nomatch h

theorem dropRef_owned (s : State) (xs : List PPVar) (x : PPVar) :
    (dropRef s xs x).1.owned = s.owned := by
  rcases dropRef_cases s xs x with ⟨_,he⟩ | ⟨v,_,_,⟨_,he⟩ | ⟨_,he⟩⟩
  · rw [he]
  · rw [he]
  · rw [he]; rfl

/-- What is left of an entry after a release is the same var with the same content, and counts
no more. -/
structure VarS.LeftOf (v w : VarS) : Prop where
  var : v.var = w.var
  content : v.content = w.content
  refCount : v.refCount ≤ w.refCount

theorem VarS.LeftOf.refl (v : VarS) : v.LeftOf v := ⟨rfl,rfl,le_rfl⟩

theorem VarS.LeftOf.trans {u v w : VarS} (h : u.LeftOf v) (k : v.LeftOf w) : u.LeftOf w :=
  ⟨h.var.trans k.var,h.content.trans k.content,h.refCount.trans k.refCount⟩

theorem dropRef_lookup {s : State} {xs : List PPVar} {x : PPVar} {k : ℕ} {v : VarS}
    (h : (dropRef s xs x).1.table.lookup k = some v) :
    ∃ w, s.table.lookup k = some w ∧ v.LeftOf w := by
  rcases dropRef_cases s xs x with ⟨_,he⟩ | ⟨w,_,hw,⟨_,he⟩ | ⟨_,he⟩⟩
  · rw [he] at h
    exact ⟨v,h,.refl v⟩
  · rw [he] at h
    exact ⟨v,(lookup_erase_cases h).2,.refl v⟩
  · rw [he] at h
    rcases lookup_put h with ⟨rfl,rfl⟩ | ⟨_,hl⟩
    · exact ⟨w,hw,rfl,rfl,by dsimp only; omega⟩
    · exact ⟨v,hl,.refl v⟩

theorem clearElements_lookup {n : ℕ} {s : State} {xs : List PPVar} {k : ℕ} {v : VarS}
    (h : (clearElements n s xs).table.lookup k = some v) :
    ∃ w, s.table.lookup k = some w ∧ v.LeftOf w := by
  induction n generalizing s xs with
  | zero => exact ⟨v,h,.refl v⟩
  | succ n ih =>
    cases xs with
    | nil => exact ⟨v,h,.refl v⟩
    | cons x xs =>
      obtain ⟨w,hw,hleft⟩ := ih h
      obtain ⟨w',hw',hleft'⟩ := dropRef_lookup hw
      exact ⟨w',hw',hleft.trans hleft'⟩

theorem release_lookup_some {s : State} {x : PPVar} {k : ℕ} {v : VarS}
    (h : (ppbVarRelease s x).table.lookup k = some v) :
    ∃ w, s.table.lookup k = some w ∧ v.LeftOf w := by
  obtain ⟨w,hw,hleft⟩ := clearElements_lookup h
  obtain ⟨w',hw',hleft'⟩ := dropRef_lookup hw
  exact ⟨w',hw',hleft.trans hleft'⟩

theorem Held.count {s : State} {x : PPVar} {xs : List PPVar} {debt : Option ℕ}
    (hh : Held s debt) (h : Sound s (x::xs) debt) (hc : referenceCountable x = true)
    (hd : debt = some x.asId) : ∀ v ∈ s.table.lookup x.asId, 1 < v.refCount := by
  intro v hv
  obtain ⟨hk,d,_,w,hw,y,hy,hhold⟩ := hh x.asId hd
  have hown : 0 < s.owned.count x.asId := List.count_pos_iff.mpr hk
  have hslot : 0 < s.slots.countP (holds x.asId) :=
    List.countP_pos_iff.mpr ⟨y,mem_holdings.mpr ⟨d,w,hw,hy⟩,hhold⟩
  have hb := h.balance _ v hv
  rw [if_pos hd,countP_cons_holds,if_pos (holds_iff.mpr ⟨hc,rfl⟩)] at hb
  simp only [State.references] at hb
  push_cast at hb
  omega

theorem Held.dropRef {s : State} {x : PPVar} {xs ys : List PPVar} {debt : Option ℕ}
    (hh : Held s debt) (h : Sound (Var.dropRef s xs x).1 ys debt) :
    Held (Var.dropRef s xs x).1 debt := by
  intro k hk
  obtain ⟨hown,d,hd,v,hv,y,hy,hhold⟩ := hh k hk
  rw [dropRef_owned]
  refine ⟨hown,d,hd,?_⟩
  obtain ⟨w,hw⟩ := Option.isSome_iff_exists.mp (h.owned d (by rw [dropRef_owned]; exact hd))
  obtain ⟨u,hu,hleft⟩ := dropRef_lookup hw
  cases Option.some.inj (hv.symm.trans hu)
  exact ⟨w,hw,y,by rw [VarS.slots,hleft.content]; exact hy,hhold⟩

/-- Every release of an element uses up one slot. -/
theorem dropRef_weight {s : State} {x : PPVar} {xs : List PPVar} {debt : Option ℕ}
    (h : Sound s (x::xs) debt) :
    (Var.dropRef s xs x).2.length + (Var.dropRef s xs x).1.slots.length = s.slots.length := by
  rcases dropRef_cases s xs x with ⟨_,he⟩ | ⟨v,hc,hv,⟨_,he⟩ | ⟨_,he⟩⟩
  · rw [he]; simp
  · rw [he,h.elementsOf_eq hc hv]
    have hlen := (holdings_erase VarS.slots hv).length_eq
    rw [List.length_append] at hlen
    exact hlen.symm
  · rw [he]
    have hlen := (slots_recount (w := { v with refCount := v.refCount-1 }) hv rfl).length_eq
    simpa using hlen

/-- What a release leaves: nothing in flight, and the same references with callers. -/
structure Settled (s t : State) (debt : Option ℕ) : Prop where
  sound : Sound t [] debt
  cleared : Cleared t []
  held : Held t debt
  owned : t.owned = s.owned

theorem clearElements_settled {n : ℕ} {s : State} {pending : List PPVar} {debt : Option ℕ}
    (h : Sound s pending debt) (hcl : Cleared s pending) (hh : Held s debt)
    (hn : pending.length + s.slots.length ≤ n) : Settled s (clearElements n s pending) debt := by
  induction n generalizing s pending with
  | zero =>
    have hp : pending = [] := List.length_eq_zero_iff.mp (by omega)
    subst hp
    exact ⟨h,hcl,hh,rfl⟩
  | succ n ih =>
    cases pending with
    | nil => exact ⟨h,hcl,hh,rfl⟩
    | cons x xs =>
      let u : State := { s with cleared := s.cleared ++ [x] }
      have hu : Sound u (x::xs) debt := ⟨h.entry,h.balance,h.positive,h.genuine,h.owned,h.removed⟩
      have hclu : Cleared u xs := by
        simpa [u,Cleared] using hcl
      have hhu : Held u debt := hh
      have hs := hu.dropRef fun hc hd => hhu.count hu hc hd
      have hw := dropRef_weight hu
      have hus : u.slots = s.slots := rfl
      have hset := ih hs (hclu.dropRef hu) (hhu.dropRef hs) (by
        rw [hus] at hw
        simp only [List.length_append,List.length_cons] at hn ⊢
        omega)
      exact ⟨hset.sound,hset.cleared,hset.held,hset.owned.trans (dropRef_owned u xs x)⟩

/-- A release with its recursion, in a state where the reference given up is in flight. -/
theorem release_settled {s : State} {x : PPVar} {debt : Option ℕ} (h : Sound s [x] debt)
    (hcl : Cleared s []) (hh : Held s debt) : Settled s (ppbVarRelease s x) debt := by
  have hs := h.dropRef fun hc hd => Held.count hh h hc hd
  have hc := Cleared.dropRef h hcl
  rw [List.append_nil] at hs hc
  have hset := clearElements_settled hs hc (Held.dropRef hh hs) le_rfl
  exact ⟨hset.sound,hset.cleared,hset.held,hset.owned.trans (dropRef_owned s [] x)⟩

end Var
end FreshPlayer
