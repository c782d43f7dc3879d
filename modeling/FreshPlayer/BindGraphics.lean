import FreshPlayer.Transition
import Mathlib.Algebra.Order.Ring.Int
import Mathlib.Data.List.Perm.Basic
import Mathlib.Logic.Function.Basic
import Mathlib.Tactic.Ring

/-! Binding graphics devices to an instance, which holds a reference on the device bound to
it. A call acquires the device under either type and has to release it on every way out. -/
namespace FreshPlayer
namespace BindGraphics

inductive ResourceType
  | graphics2d | graphics3d | other
  deriving DecidableEq, Repr

structure Device where
  resourceType : ResourceType
  ppInstance : ℕ
  refCnt : ℤ
  lock : Bool
  deriving DecidableEq, Repr

abbrev Table := ℤ → Option Device

def ppResourceRef (t : Table) (resource : ℤ) : Table :=
  match t resource with
  | none => t
  | some ptr => Function.update t resource (some { ptr with refCnt := ptr.refCnt+1 })

def ppResourceUnref (t : Table) (resource : ℤ) : Table :=
  match t resource with
  | none => t
  | some ptr =>
    if ptr.refCnt-1 ≤ 0 then Function.update t resource none
    else Function.update t resource (some { ptr with refCnt := ptr.refCnt-1 })

/-- `none` while somebody else has the lock. -/
def ppResourceAcquire (t : Table) (resource : ℤ) (type : ResourceType) :
    Option (Table × Option Device) :=
  match t resource with
  | none => some (t,none)
  | some gr =>
    if gr.resourceType ≠ type then some (t,none)
    else if gr.lock then none
    else
      let gr := { gr with refCnt := gr.refCnt+1, lock := true }
      some (Function.update t resource (some gr),some gr)

def ppResourceRelease (t : Table) (resource : ℤ) : Table :=
  match t resource with
  | none => t
  | some gr =>
    ppResourceUnref (Function.update t resource (some { gr with lock := false })) resource

/-- Ghosts are the references the instance took for its binding, and the references and
acquisitions everybody else has. -/
structure State where
  table : Table
  graphics : ℤ
  held : List ℤ
  references : List ℤ
  acquired : List ℤ

def nothingBound : State := ⟨fun _ => none,0,[],[],[]⟩

/-- The branch of either type, the device being acquired. -/
def bindAcquired (ppI : ℕ) (s : State) (device : ℤ) (g : Device) : State × Bool :=
  if ppI ≠ g.ppInstance then (s,false)
  else
    let previousDevice := s.graphics
    let s := { s with graphics := device }
    let s :=
      if device ≠ previousDevice then
        { s with
          table := ppResourceUnref (ppResourceRef s.table device) previousDevice
          held := (device::s.held).erase previousDevice }
      else s
    ({ s with table := ppResourceRelease s.table device },true)

def ppbInstanceBindGraphics (ppI : ℕ) (s : State) (device : ℤ) : Option (State × Bool) :=
  if device = 0 then
    some ({ s with
      table := ppResourceUnref s.table s.graphics
      held := s.held.erase s.graphics
      graphics := 0 },true)
  else
    (ppResourceAcquire s.table device .graphics2d).bind fun (t,g2d) =>
    (ppResourceAcquire t device .graphics3d).map fun (t,g3d) =>
      match g2d, g3d with
      | some g, _ => bindAcquired ppI { s with table := t } device g
      | none, some g => bindAcquired ppI { s with table := t } device g
      | none, none => ({ s with table := t },false)

inductive Action
  | bindGraphics (device : ℤ)
  | allocate (id : ℤ) (type : ResourceType) (ppInstance : ℕ)
  | ref (id : ℤ)
  | unref (id : ℤ)
  | acquire (id : ℤ) (type : ResourceType)
  | release (id : ℤ)
  deriving DecidableEq, Repr

/-- New identifiers are not in use, and the others undo only what they did. -/
def step (ppI : ℕ) (s : State) : Action → Option State
  | .bindGraphics device => (ppbInstanceBindGraphics ppI s device).map Prod.fst
  | .allocate id type ppInstance =>
    if id ≠ 0 ∧ s.table id = none then
      some { s with
        table := Function.update s.table id (some ⟨type,ppInstance,1,false⟩)
        references := id::s.references }
    else none
  | .ref id =>
    if s.table id = none then some s
    else some { s with table := ppResourceRef s.table id, references := id::s.references }
  | .unref id =>
    if id ∈ s.references then
      some { s with table := ppResourceUnref s.table id, references := s.references.erase id }
    else none
  | .acquire id type => (ppResourceAcquire s.table id type).map fun (t,g) =>
    { s with table := t, acquired := if g = none then s.acquired else id::s.acquired }
  | .release id =>
    if id ∈ s.acquired then
      some { s with table := ppResourceRelease s.table id, acquired := s.acquired.erase id }
    else none

def instances (ppI : ℕ) : Machine State Action := ⟨nothingBound,step ppI⟩

/-! References of one table. -/

/-- Every owner of a reference finds its device, which counts them all. -/
structure Owned (t : Table) (owners : List ℤ) : Prop where
  zero : t 0 = none
  found : ∀ id ∈ owners, t id ≠ none
  count : ∀ id d, t id = some d → (owners.count id : ℤ) ≤ d.refCnt

variable {t : Table} {owners : List ℤ} {id : ℤ} {d : Device}

theorem Owned.perm {owners' : List ℤ} (h : Owned t owners) (hp : List.Perm owners owners') :
    Owned t owners' :=
  ⟨h.zero,fun id hi => h.found id (hp.mem_iff.mpr hi),
    fun id d hd => hp.count_eq id ▸ h.count id d hd⟩

theorem Owned.ne_zero (h : Owned t owners) (hi : id ∈ owners) : id ≠ 0 :=
  fun he => h.found id hi (he ▸ h.zero)

theorem ppResourceRef_some (hd : t id = some d) :
    ppResourceRef t id = Function.update t id (some { d with refCnt := d.refCnt+1 }) := by
  simp [ppResourceRef,hd]

theorem ppResourceUnref_some (hd : t id = some d) (hc : 1 < d.refCnt) :
    ppResourceUnref t id = Function.update t id (some { d with refCnt := d.refCnt-1 }) := by
  simp only [ppResourceUnref,hd]
  exact if_neg (by omega)

theorem ppResourceUnref_last (hd : t id = some d) (hc : d.refCnt ≤ 1) :
    ppResourceUnref t id = Function.update t id none := by
  simp only [ppResourceUnref,hd]
  exact if_pos (by omega)

theorem ppResourceUnref_none (hd : t id = none) : ppResourceUnref t id = t := by
  simp [ppResourceUnref,hd]

theorem ppResourceUnref_ne {i : ℤ} (hi : i ≠ id) : ppResourceUnref t id i = t i := by
  cases hd : t id with
  | none => rw [ppResourceUnref_none hd]
  | some d =>
    by_cases hc : 1 < d.refCnt
    · rw [ppResourceUnref_some hd hc,Function.update_of_ne hi]
    · rw [ppResourceUnref_last hd (by omega),Function.update_of_ne hi]

theorem ppResourceRelease_some (hd : t id = some d) (hc : 1 < d.refCnt) :
    ppResourceRelease t id =
      Function.update t id (some { d with refCnt := d.refCnt-1, lock := false }) := by
  have hu : Function.update t id (some { d with lock := false }) id =
      some { d with lock := false } := Function.update_self ..
  simp only [ppResourceRelease,hd]
  rw [ppResourceUnref_some hu hc,Function.update_idem]

/-- An entry changed with one more owner. -/
theorem Owned.gain {e : Device} (h : Owned t owners) (hd : t id = some d)
    (he : e.refCnt = d.refCnt+1) : Owned (Function.update t id (some e)) (id::owners) := by
  have hid : id ≠ 0 := fun h0 => by rw [h0,h.zero] at hd; cases hd
  refine ⟨?_,fun i hi => ?_,fun i d' hi => ?_⟩
  · rw [Function.update_of_ne hid.symm]
    exact h.zero
  · by_cases hii : i = id
    · rw [hii,Function.update_self]
      nofun
    · rw [Function.update_of_ne hii]
      exact h.found i (List.mem_of_ne_of_mem hii hi)
  · by_cases hii : i = id
    · subst hii
      rw [Function.update_self] at hi
      cases hi
      have := h.count i d hd
      rw [List.count_cons_self,he]
      omega
    · rw [Function.update_of_ne hii] at hi
      rw [List.count_cons_of_ne (Ne.symm hii)]
      exact h.count i d' hi

theorem Owned.less (h : Owned t (id::owners)) : Owned t owners := by
  refine ⟨h.zero,fun i hi => h.found i (List.mem_cons_of_mem _ hi),fun i d hi => ?_⟩
  have hle := List.count_le_count_cons (a := i) (b := id) (l := owners)
  have := h.count i d hi
  omega

/-- A device of a new owner. -/
theorem Owned.allocate {e : Device} (h : Owned t owners) (h0 : id ≠ 0) (hn : t id = none)
    (he : e.refCnt = 1) : Owned (Function.update t id (some e)) (id::owners) := by
  refine ⟨?_,fun i hi => ?_,fun i d hi => ?_⟩
  · rw [Function.update_of_ne h0.symm]
    exact h.zero
  · by_cases hii : i = id
    · rw [hii,Function.update_self]
      nofun
    · rw [Function.update_of_ne hii]
      exact h.found i (List.mem_of_ne_of_mem hii hi)
  · by_cases hii : i = id
    · subst hii
      rw [Function.update_self] at hi
      cases hi
      rw [List.count_cons_self,List.count_eq_zero.mpr fun hm => h.found i hm hn,he]
      rfl
    · rw [Function.update_of_ne hii] at hi
      rw [List.count_cons_of_ne (Ne.symm hii)]
      exact h.count i d hi

/-- A reference of an owner dropped. -/
theorem Owned.unref (h : Owned t (id::owners)) : Owned (ppResourceUnref t id) owners := by
  obtain ⟨d,hd⟩ := Option.ne_none_iff_exists'.mp (h.found id List.mem_cons_self)
  have hid := h.ne_zero List.mem_cons_self
  have hcount := h.count id d hd
  rw [List.count_cons_self] at hcount
  refine ⟨?_,fun i hi => ?_,fun i d' hi => ?_⟩
  · rw [ppResourceUnref_ne hid.symm]
    exact h.zero
  · by_cases hii : i = id
    · subst hii
      have hpos := List.count_pos_iff.mpr hi
      rw [ppResourceUnref_some hd (by omega),Function.update_self]
      nofun
    · rw [ppResourceUnref_ne hii]
      exact h.found i (List.mem_cons_of_mem _ hi)
  · by_cases hii : i = id
    · subst hii
      by_cases hc : 1 < d.refCnt
      · rw [ppResourceUnref_some hd hc,Function.update_self] at hi
        cases hi
        dsimp only
        omega
      · rw [ppResourceUnref_last hd (by omega),Function.update_self] at hi
        cases hi
    · rw [ppResourceUnref_ne hii] at hi
      rw [← List.count_cons_of_ne (Ne.symm hii)]
      exact h.count i d' hi

theorem Owned.release (h : Owned t (id::owners)) : Owned (ppResourceRelease t id) owners := by
  obtain ⟨d,hd⟩ := Option.ne_none_iff_exists'.mp (h.found id List.mem_cons_self)
  have hid := h.ne_zero List.mem_cons_self
  simp only [ppResourceRelease,hd]
  refine Owned.unref ⟨?_,fun i hi => ?_,fun i d' hi => ?_⟩
  · rw [Function.update_of_ne hid.symm]
    exact h.zero
  · by_cases hii : i = id
    · rw [hii,Function.update_self]
      nofun
    · rw [Function.update_of_ne hii]
      exact h.found i hi
  · by_cases hii : i = id
    · subst hii
      rw [Function.update_self] at hi
      cases hi
      exact h.count i d hd
    · rw [Function.update_of_ne hii] at hi
      exact h.count i d' hi

theorem acquire_cases {type : ResourceType} {t' : Table} {g : Option Device}
    (h : ppResourceAcquire t id type = some (t',g)) :
    (t' = t ∧ g = none ∧ ∀ d, t id = some d → d.resourceType ≠ type) ∨
    ∃ d, t id = some d ∧ d.resourceType = type ∧ d.lock = false ∧
      g = some { d with refCnt := d.refCnt+1, lock := true } ∧
      t' = Function.update t id (some { d with refCnt := d.refCnt+1, lock := true }) := by
  unfold ppResourceAcquire at h
  cases hd : t id with
  | none =>
    rw [hd] at h
    cases h
    exact Or.inl ⟨rfl,rfl,nofun⟩
  | some d =>
    rw [hd] at h
    dsimp only at h
    by_cases htype : d.resourceType = type
    · rw [if_neg (not_not.mpr htype)] at h
      cases hlock : d.lock with
      | true =>
        rw [if_pos hlock] at h
        cases h
      | false =>
        rw [if_neg (by rw [hlock]; nofun)] at h
        cases h
        exact Or.inr ⟨d,rfl,htype,hlock,rfl,rfl⟩
    · rw [if_pos htype] at h
      cases h
      refine Or.inl ⟨rfl,rfl,fun d' hd' => ?_⟩
      cases hd'
      exact htype

/-! Calls. -/

def State.owning (s : State) : List ℤ := s.held ++ (s.references ++ s.acquired)

/-- One reference on what is bound, and none on anything else. -/
structure OneReference (s : State) : Prop where
  held : s.held = if s.graphics = 0 then [] else [s.graphics]
  owned : Owned s.table s.owning

/-- The acquisitions a device counts beside the references. -/
def State.acquires (s : State) (id : ℤ) (d : Device) : ℤ :=
  d.refCnt - s.references.count id - s.held.count id

/-- Acquire counts and locks are as before. -/
def Settled (s t : State) : Prop :=
  ∀ id d, t.table id = some d →
    ∃ d', s.table id = some d' ∧ d.lock = d'.lock ∧ t.acquires id d = s.acquires id d'

theorem Settled.refl (s : State) : Settled s s := fun _ d hd => ⟨d,hd,rfl,rfl⟩

def Device.taken (d : Device) : Device := { d with refCnt := d.refCnt+1, lock := true }

theorem bindGraphics_cases {ppI : ℕ} {s u : State} {device : ℤ} {r : Bool} (h0 : device ≠ 0)
    (h : ppbInstanceBindGraphics ppI s device = some (u,r)) :
    ((∀ d, s.table device = some d → d.resourceType = .other) ∧ u = s ∧ r = false) ∨
    ∃ d, s.table device = some d ∧ d.resourceType ≠ .other ∧ d.lock = false ∧
      (u,r) = bindAcquired ppI
        { s with table := Function.update s.table device (some d.taken) } device d.taken := by
  unfold ppbInstanceBindGraphics at h
  rw [if_neg h0] at h
  obtain ⟨⟨t2,g2d⟩,h2,h⟩ := Option.bind_eq_some_iff.mp h
  obtain ⟨⟨t3,g3d⟩,h3,h⟩ := Option.map_eq_some_iff.mp h
  rcases acquire_cases h2 with ⟨rfl,rfl,hn2⟩ | ⟨d,hd,htype,hlock,rfl,rfl⟩
  · rcases acquire_cases h3 with ⟨rfl,rfl,hn3⟩ | ⟨d,hd,htype,hlock,rfl,rfl⟩
    · cases h
      refine Or.inl ⟨fun d hd => ?_,rfl,rfl⟩
      have h2 := hn2 d hd
      have h3 := hn3 d hd
      cases htype : d.resourceType with
      | graphics2d => exact absurd htype h2
      | graphics3d => exact absurd htype h3
      | other => rfl
    · exact Or.inr ⟨d,hd,by rw [htype]; nofun,hlock,h.symm⟩
  · rcases acquire_cases h3 with ⟨rfl,rfl,_⟩ | ⟨d',hd',htype',_⟩
    · exact Or.inr ⟨d,hd,by rw [htype]; nofun,hlock,h.symm⟩
    · rw [Function.update_self] at hd'
      cases hd'
      rw [htype] at htype'
      cases htype'

/-- The release of a device that was acquired. -/
theorem release_taken {d : Device} {n : ℤ} (hlock : d.lock = false) (hn : 0 < n) :
    ppResourceRelease (Function.update t id (some { d.taken with refCnt := n+1 })) id =
      Function.update t id (some { d with refCnt := n }) := by
  rw [ppResourceRelease_some (Function.update_self ..) (by dsimp only; omega),
    Function.update_idem,← hlock]
  simp [Device.taken]

theorem unref_update {x : Option Device} {i : ℤ} (hi : i ≠ id) :
    ppResourceUnref (Function.update t i x) id = Function.update (ppResourceUnref t id) i x := by
  have hx : Function.update t i x id = t id := Function.update_of_ne hi.symm ..
  cases hd : t id with
  | none => rw [ppResourceUnref_none hd,ppResourceUnref_none (hx.trans hd)]
  | some d =>
    by_cases hc : 1 < d.refCnt
    · rw [ppResourceUnref_some hd hc,ppResourceUnref_some (hx.trans hd) hc,
        Function.update_comm hi]
    · rw [ppResourceUnref_last hd (by omega),ppResourceUnref_last (hx.trans hd) (by omega),
        Function.update_comm hi]

/-- The device is not released. -/
theorem bindAcquired_refused {ppI : ℕ} {s : State} {device : ℤ} {d : Device}
    (h : d.ppInstance ≠ ppI) : bindAcquired ppI s device d.taken = (s,false) := if_pos h.symm

/-- A device of the instance is bound, and all that remains of the call is its reference
in place of the one on the device bound before. -/
theorem bindAcquired_own {ppI : ℕ} {s : State} {device : ℤ} {d : Device} (h : OneReference s)
    (h0 : device ≠ 0) (hd : s.table device = some d) (hlock : d.lock = false)
    (hown : d.ppInstance = ppI) :
    bindAcquired ppI { s with table := Function.update s.table device (some d.taken) } device
      d.taken = ({ s with
        table := if device = s.graphics then s.table
          else Function.update (ppResourceUnref s.table s.graphics) device
            (some { d with refCnt := d.refCnt+1 })
        graphics := device, held := [device] },true) := by
  have hcount := h.owned.count device d hd
  have hnot : ¬ppI ≠ d.taken.ppInstance := not_not.mpr hown.symm
  unfold bindAcquired
  rw [if_neg hnot]
  by_cases hp : device = s.graphics
  · have hheld : s.held = [device] := by
      rw [h.held,if_neg (hp ▸ h0),hp]
    have hpos : 0 < s.owning.count device :=
      List.count_pos_iff.mpr (List.mem_append_left _ (hheld ▸ List.mem_singleton_self device))
    have hrelease : ppResourceRelease (Function.update s.table device (some d.taken)) device =
        s.table := by
      have htaken : d.taken = { d.taken with refCnt := d.refCnt+1 } := rfl
      rw [htaken,release_taken hlock (by omega),← hd,Function.update_eq_self]
    simp only [hp,ne_eq,not_true_eq_false,if_false,if_true]
    rw [← hp,hrelease,hheld]
  · have hpd : s.graphics ≠ device := Ne.symm hp
    have hheld : (device::s.held).erase s.graphics = [device] := by
      rw [h.held,List.erase_cons_tail (by simpa using hp)]
      split <;> simp
    have href : ppResourceUnref
        (ppResourceRef (Function.update s.table device (some d.taken)) device) s.graphics =
        Function.update (ppResourceUnref s.table s.graphics) device
          (some { d.taken with refCnt := d.refCnt+1+1 }) := by
      rw [ppResourceRef_some (Function.update_self ..),Function.update_idem,unref_update hp]
      rfl
    have hrelease : ppResourceRelease (Function.update (ppResourceUnref s.table s.graphics) device
          (some { d.taken with refCnt := d.refCnt+1+1 })) device =
        Function.update (ppResourceUnref s.table s.graphics) device
          (some { d with refCnt := d.refCnt+1 }) := release_taken hlock (by omega)
    simp only [ne_eq,hp,not_false_iff,if_true,if_false]
    rw [href,hrelease,hheld]

theorem OneReference.nothingBound : OneReference nothingBound :=
  ⟨rfl,rfl,nofun,nofun⟩

/-- What the binding gives up when another one takes its place. -/
theorem OneReference.unbound {s : State} (h : OneReference s) :
    Owned (ppResourceUnref s.table s.graphics) (s.references ++ s.acquired) := by
  have howned := h.owned
  rw [State.owning,h.held] at howned
  by_cases hg : s.graphics = 0
  · rw [if_pos hg] at howned
    rw [hg,ppResourceUnref_none howned.zero]
    exact howned
  · rw [if_neg hg] at howned
    exact howned.unref

theorem OneReference.own {s : State} {device : ℤ} {d : Device} (h : OneReference s)
    (h0 : device ≠ 0) (hd : s.table device = some d) : OneReference { s with
      table := if device = s.graphics then s.table
        else Function.update (ppResourceUnref s.table s.graphics) device
          (some { d with refCnt := d.refCnt+1 })
      graphics := device, held := [device] } := by
  refine ⟨(if_neg h0).symm,?_⟩
  by_cases hp : device = s.graphics
  · have howned := h.owned
    rw [State.owning,h.held,if_neg (hp ▸ h0),← hp] at howned
    simpa [hp,State.owning] using howned
  · simp only [hp,if_false]
    exact h.unbound.gain (by rw [ppResourceUnref_ne hp,hd]) rfl

/-- The call of a device that is refused, in the state it leaves. -/
theorem OneReference.refused {s : State} {device : ℤ} {d : Device} (h : OneReference s)
    (hd : s.table device = some d) :
    OneReference { s with table := Function.update s.table device (some d.taken) } :=
  ⟨h.held,(h.owned.gain (e := d.taken) hd rfl).less⟩

theorem OneReference.unbind {s : State} (h : OneReference s) : OneReference { s with
    table := ppResourceUnref s.table s.graphics, held := s.held.erase s.graphics
    graphics := 0 } := by
  have hheld : s.held.erase s.graphics = [] := by
    rw [h.held]
    split <;> simp
  refine ⟨hheld,?_⟩
  rw [State.owning,hheld]
  exact h.unbound

theorem bindGraphics_oneReference {ppI : ℕ} {s u : State} {device : ℤ} {r : Bool}
    (h : OneReference s) (hr : ppbInstanceBindGraphics ppI s device = some (u,r)) :
    OneReference u := by
  by_cases h0 : device = 0
  · rw [ppbInstanceBindGraphics,if_pos h0] at hr
    cases hr
    exact h.unbind
  · rcases bindGraphics_cases h0 hr with ⟨_,rfl,_⟩ | ⟨d,hd,_,hlock,hu⟩
    · exact h
    · by_cases hown : d.ppInstance = ppI
      · rw [bindAcquired_own h h0 hd hlock hown] at hu
        cases hu
        exact h.own h0 hd
      · rw [bindAcquired_refused hown] at hu
        cases hu
        exact h.refused hd

theorem step_oneReference {ppI : ℕ} {s u : State} {a : Action} (h : OneReference s)
    (hs : step ppI s a = some u) : OneReference u := by
  have howned := h.owned
  cases a with
  | bindGraphics device =>
    obtain ⟨⟨v,r⟩,hv,rfl⟩ := Option.map_eq_some_iff.mp hs
    exact bindGraphics_oneReference h hv
  | allocate id type ppInstance =>
    simp only [step] at hs
    split at hs
    · rename_i hid
      cases hs
      exact ⟨h.held,(howned.allocate hid.1 hid.2 rfl).perm List.perm_middle.symm⟩
    · cases hs
  | ref id =>
    simp only [step] at hs
    split at hs
    · cases hs
      exact h
    · rename_i hid
      obtain ⟨d,hd⟩ := Option.ne_none_iff_exists'.mp hid
      cases hs
      refine ⟨h.held,?_⟩
      dsimp only
      rw [ppResourceRef_some hd]
      exact (howned.gain hd rfl).perm List.perm_middle.symm
  | unref id =>
    simp only [step] at hs
    split at hs
    · rename_i hid
      cases hs
      refine ⟨h.held,Owned.unref (howned.perm ?_)⟩
      exact (((List.perm_cons_erase hid).append_right _).append_left _).trans List.perm_middle
    · cases hs
  | acquire id type =>
    obtain ⟨⟨t,g⟩,hg,rfl⟩ := Option.map_eq_some_iff.mp hs
    rcases acquire_cases hg with ⟨rfl,rfl,_⟩ | ⟨d,hd,_,_,rfl,rfl⟩
    · exact h
    · refine ⟨h.held,(howned.gain hd rfl).perm ?_⟩
      exact (List.perm_middle.symm.trans (List.perm_middle.symm.append_left _))
  | release id =>
    simp only [step] at hs
    split at hs
    · rename_i hid
      cases hs
      refine ⟨h.held,Owned.release (howned.perm ?_)⟩
      exact (((List.perm_cons_erase hid).append_left _).append_left _).trans
        ((List.perm_middle.append_left _).trans List.perm_middle)
    · cases hs

/-- Dropping what is bound leaves the other counts of its device as they were. -/
theorem settled_unbind {s : State} (h : OneReference s) : Settled s { s with
    table := ppResourceUnref s.table s.graphics, held := s.held.erase s.graphics
    graphics := 0 } := by
  intro id d hd
  dsimp only at hd
  by_cases hid : id = s.graphics
  · cases h0 : s.table s.graphics with
    | none =>
      rw [ppResourceUnref_none h0,hid,h0] at hd
      cases hd
    | some d0 =>
      by_cases hc : 1 < d0.refCnt
      · rw [ppResourceUnref_some h0 hc,hid,Function.update_self] at hd
        cases hd
        have hg : s.graphics ≠ 0 := fun hg => by rw [hg,h.owned.zero] at h0; cases h0
        refine ⟨d0,hid ▸ h0,rfl,?_⟩
        simp only [State.acquires,h.held,if_neg hg,hid,List.erase_cons_head,List.count_nil,
          List.count_cons_self]
        push_cast
        ring
      · rw [ppResourceUnref_last h0 (by omega),hid,Function.update_self] at hd
        cases hd
  · rw [ppResourceUnref_ne hid] at hd
    refine ⟨d,hd,rfl,?_⟩
    simp only [State.acquires,List.count_erase_of_ne hid]

theorem settled_own {s : State} {device : ℤ} {d : Device} (h : OneReference s) (h0 : device ≠ 0)
    (hd : s.table device = some d) : Settled s { s with
      table := if device = s.graphics then s.table
        else Function.update (ppResourceUnref s.table s.graphics) device
          (some { d with refCnt := d.refCnt+1 })
      graphics := device, held := [device] } := by
  by_cases hp : device = s.graphics
  · have hheld : s.held = [device] := by
      rw [h.held,if_neg (hp ▸ h0),hp]
    simp only [hp,if_true]
    intro id d' hd'
    refine ⟨d',hd',rfl,?_⟩
    simp only [State.acquires,hheld,hp]
  · simp only [hp,if_false]
    have hout : device ∉ s.held := by
      rw [h.held]
      split
      · exact List.not_mem_nil
      · simpa using hp
    intro id d' hd'
    dsimp only at hd'
    by_cases hid : id = device
    · subst hid
      rw [Function.update_self] at hd'
      cases hd'
      refine ⟨d,hd,rfl,?_⟩
      simp only [State.acquires,List.count_singleton_self,List.count_eq_zero.mpr hout]
      push_cast
      ring
    · rw [Function.update_of_ne hid] at hd'
      obtain ⟨d0,hd0,hl,ha⟩ := settled_unbind h id d' hd'
      refine ⟨d0,hd0,hl,Eq.trans ?_ ha⟩
      have hnil : s.held.erase s.graphics = [] := by
        rw [h.held]
        split <;> simp
      simp only [State.acquires,hnil,List.count_nil,List.count_cons_of_ne (Ne.symm hid)]

/-- A refused call leaves the binding, and every call leaves acquire counts and locks. -/
def BindRight (ppI : ℕ) (s : State) : Action → Prop
  | .bindGraphics device => ∀ u r, ppbInstanceBindGraphics ppI s device = some (u,r) →
      (r = false → u.graphics = s.graphics) ∧ Settled s u
  | _ => True

/-- No graphics context of another instance is bound. -/
def OwnContexts (ppI : ℕ) (s : State) : Action → Prop
  | .bindGraphics device => device ≠ 0 → ∀ d ∈ s.table device,
      d.resourceType ≠ .other → d.ppInstance = ppI
  | _ => True

instance (ppI : ℕ) (s : State) (a : Action) : Decidable (OwnContexts ppI s a) := by
  apply a.casesOn (motive := fun a => Decidable (OwnContexts ppI s a)) <;> intros <;>
    dsimp only [OwnContexts] <;> infer_instance

theorem bindRight_iff {ppI : ℕ} {s u : State} {a : Action} (h : OneReference s)
    (hs : step ppI s a = some u) : BindRight ppI s a ↔ OwnContexts ppI s a := by
  cases a with
  | bindGraphics device =>
    obtain ⟨⟨v,r⟩,hv,rfl⟩ := Option.map_eq_some_iff.mp hs
    have honly : BindRight ppI s (.bindGraphics device) ↔
        (r = false → v.graphics = s.graphics) ∧ Settled s v := by
      refine ⟨fun hb => hb v r hv,fun hb u' r' hu' => ?_⟩
      cases Option.some.inj (hv.symm.trans hu')
      exact hb
    rw [honly]
    by_cases h0 : device = 0
    · rw [ppbInstanceBindGraphics,if_pos h0] at hv
      cases hv
      exact iff_of_true ⟨nofun,settled_unbind h⟩ fun hn => absurd h0 hn
    · rcases bindGraphics_cases h0 hv with ⟨hother,rfl,rfl⟩ | ⟨d,hd,htype,hlock,hu⟩
      · exact iff_of_true ⟨fun _ => rfl,.refl v⟩ fun _ d hd ht => absurd (hother d hd) ht
      · have hguard : OwnContexts ppI s (.bindGraphics device) ↔ d.ppInstance = ppI := by
          refine ⟨fun hg => hg h0 d hd htype,fun hown _ d' hd' _ => ?_⟩
          cases Option.some.inj (hd.symm.trans hd')
          exact hown
        rw [hguard]
        by_cases hown : d.ppInstance = ppI
        · rw [bindAcquired_own h h0 hd hlock hown] at hu
          cases hu
          exact iff_of_true ⟨nofun,settled_own h h0 hd⟩ hown
        · rw [bindAcquired_refused hown] at hu
          cases hu
          refine iff_of_false (fun hb => ?_) hown
          -- the context is left locked
          obtain ⟨d',hd',hl,_⟩ := hb.2 device d.taken (Function.update_self ..)
          cases Option.some.inj (hd.symm.trans hd')
          rw [hlock] at hl
          cases hl
  | allocate id type ppInstance => exact Iff.rfl
  | ref id => exact Iff.rfl
  | unref id => exact Iff.rfl
  | acquire id type => exact Iff.rfl
  | release id => exact Iff.rfl

/-- There is always one reference on what is bound; and the calls of a run leave acquire counts
and locks, and the binding if refused, exactly if none is given a graphics context of another
instance. -/
theorem bind_graphics_balanced_iff {ppI : ℕ} {ls : List Action} {u : State}
    (hr : (instances ppI).exec nothingBound ls = some u) :
    ((instances ppI).AlwaysFrom OneReference nothingBound ls ∧
      (instances ppI).EachFrom (BindRight ppI) nothingBound ls) ↔
      (instances ppI).EachFrom (OwnContexts ppI) nothingBound ls := by
  have halways := Machine.alwaysFrom_of_invariant (M := instances ppI)
    (fun _ _ _ h hs => step_oneReference h hs) OneReference.nothingBound ls
  rw [and_iff_right halways]
  exact Machine.eachFrom_congr OneReference (fun _ _ _ h hs => step_oneReference h hs)
    (fun _ _ _ h hs => bindRight_iff h hs) OneReference.nothingBound hr

/-- Contexts of both kinds are bound in turn while others use them, and unbound. -/
def boundInTurn : List Action :=
  [.allocate 1 .graphics2d 7,.allocate 2 .graphics3d 7,.allocate 3 .other 8,.bindGraphics 1,
    .bindGraphics 1,.acquire 1 .graphics2d,.bindGraphics 2,.bindGraphics 3,.unref 2,
    .release 1,.bindGraphics 0]

theorem boundInTurn_balanced : ∃ u, (instances 7).exec nothingBound boundInTurn = some u ∧
    (instances 7).AlwaysFrom OneReference nothingBound boundInTurn ∧
      (instances 7).EachFrom (BindRight 7) nothingBound boundInTurn := by
  obtain ⟨u,hr⟩ : ∃ u, (instances 7).exec nothingBound boundInTurn = some u := ⟨_,rfl⟩
  exact ⟨u,hr,(bind_graphics_balanced_iff hr).mpr (by decide)⟩

/-- A context of another instance stays locked. -/
def boundForeign : List Action := [.allocate 1 .graphics2d 8,.bindGraphics 1]

theorem boundForeign_locked : ¬∀ (ppI : ℕ) (ls : List Action) (u : State),
    (instances ppI).exec nothingBound ls = some u →
      (instances ppI).EachFrom (BindRight ppI) nothingBound ls := by
  intro h
  have heach : (instances 7).EachFrom (BindRight 7) nothingBound
    ([.allocate 1 .graphics2d 8] ++ [.bindGraphics 1]) := h 7 boundForeign _ rfl
  have hlast : BindRight 7 _ (.bindGraphics 1) := heach.last rfl
  have hcall := hlast _ _ rfl
  obtain ⟨d,hd,hl,_⟩ := hcall.2 1 ⟨.graphics2d,8,2,true⟩ rfl
  cases hd
  cases hl

end BindGraphics
end FreshPlayer
