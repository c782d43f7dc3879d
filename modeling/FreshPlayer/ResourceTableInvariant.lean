import FreshPlayer.ResourceTable
import Mathlib.Data.List.Count

/-! The books of the resource table. Every reference on an entry is a token of a thread
or an acquisition not undone; the section of `unref` works on a state in which one more
reference is being given up. -/
namespace FreshPlayer
namespace ResourceTable

variable {destructors : ℕ → Option ℕ}

/-- References threads have to give up, the one from `allocate` included. -/
def State.held (s : State) (id : ℤ) : ℕ := s.tokens.countP (·.2 == id)

/-- Calls of the destructor made, and about to be made. -/
def State.ended (s : State) (id : ℤ) : ℕ :=
  s.destroyed.countP (·.1 == id) + s.frames.countP (Frame.destroys id)

def typeOf (s : State) (id : ℤ) : Option ℕ := s.allocated[(id-1).toNat]?

structure Books (destructors : ℕ → Option ℕ) (s : State) (giving : Option ℤ) : Prop where
  next : s.resTblNext = s.allocated.length+1
  entry : ∀ id r, s.resTbl.lookup id = some r →
    s.Allocated id ∧ r.selfId = id ∧ typeOf s id = some r.resourceType
  balance : ∀ id r, s.resTbl.lookup id = some r →
    r.refCnt = s.held id + s.outstanding id + if giving = some id then 1 else 0
  positive : ∀ id r, s.resTbl.lookup id = some r → 0 < r.refCnt
  absent : ∀ id, s.resTbl.lookup id = none →
    s.held id = 0 ∧ s.outstanding id = 0 ∧ giving ≠ some id
  tokens : ∀ id, s.Allocated id → (s.held id : ℤ) = 1 + s.refs.count id - s.unrefs.count id
  future : ∀ id, ¬s.Allocated id → s.refs.count id = 0 ∧ s.unrefs.count id = 0 ∧ s.ended id = 0
  lock : ∀ id r, s.resTbl.lookup id = some r →
    s.acquired.countP (·.resource == id) = if r.lock then 1 else 0
  types : ∀ a ∈ s.acquired, ∃ r, s.resTbl.lookup a.resource = some r ∧ r.resourceType = a.type
  once : ∀ id, s.Allocated id → s.ended id = if (s.resTbl.lookup id).isSome then 0 else 1
  ends : ∀ f ∈ s.frames, ∀ id, f.ends id = true → s.Allocated id ∧ s.resTbl.lookup id = none
  called : ∀ p ∈ s.destroyed, ∃ type, typeOf s p.1 = some type ∧ p.2 = destructors type
  calls : ∀ f ∈ s.frames, ∀ ptr d, f.task = .destroying ptr d →
    typeOf s ptr.selfId = some ptr.resourceType ∧ d = destructors ptr.resourceType

theorem perm_cons_eraseP {α : Type*} {p : α → Bool} {l : List α} {a : α}
    (h : l.find? p = some a) : List.Perm l (a::l.eraseP p) := by
  induction l with
  | nil => cases h
  | cons b l ih =>
    rw [List.find?_cons] at h
    rw [List.eraseP_cons]
    cases hb : p b with
    | true =>
      rw [hb] at h
      cases h
      simp
    | false =>
      rw [hb] at h
      exact ((ih h).cons b).trans (.swap a b _)

theorem pop_perm {s : State} {t : ℕ} {f : Frame} (h : s.top t = some f) :
    List.Perm s.frames (f::(s.pop t).frames) := perm_cons_eraseP h

theorem countP_beq {id k : ℤ} (n : ℕ) :
    (n + if (k == id) = true then 1 else 0) = if k = id then n+1 else n := by
  by_cases h : k = id <;> simp [h]

theorem create_books : Books destructors State.create none := by
  refine ⟨rfl,?_,?_,?_,?_,?_,?_,?_,?_,?_,?_,?_,?_⟩
  all_goals simp [State.create,State.held,State.outstanding,State.ended,State.Allocated]
  all_goals omega

theorem Books.fresh {s : State} {g : Option ℤ} (h : Books destructors s g) :
    s.resTbl.lookup s.resTblNext = none := by
  cases hl : s.resTbl.lookup s.resTblNext with
  | none => rfl
  | some r =>
    have ha := (h.entry _ r hl).1.2
    have hn := h.next
    omega

theorem Books.allocate {s : State} (h : Books destructors s none) (t type : ℕ)
    (hb : s.allocated.length+1 < 2^31-1) :
    Books destructors (allocateBy s t type) none := by
  have hfresh := h.fresh
  have hnext := h.next
  have hnew : ∀ id, (allocateBy s t type).Allocated id ↔
      s.Allocated id ∨ id = s.resTblNext := by
    intro id
    simp only [State.Allocated,allocateBy,ppResourceAllocate,State.put,List.length_append,
      List.length_singleton]
    push_cast
    omega
  have hnot : ¬s.Allocated s.resTblNext := by
    unfold State.Allocated
    omega
  have htype : ∀ id type', typeOf s id = some type' →
      typeOf (allocateBy s t type) id = some type' := fun id type' hty =>
    (List.getElem?_append_left (List.getElem?_eq_some_iff.mp hty).1).trans hty
  have hheld : ∀ id, (allocateBy s t type).held id =
      if s.resTblNext = id then s.held id+1 else s.held id := fun id =>
    List.countP_cons.trans (countP_beq _)
  have hzero := h.absent _ hfresh
  refine {
    next := ?next, entry := fun id r hr => ?entry, balance := fun id r hr => ?balance,
    positive := fun id r hr => ?positive, absent := fun id hid => ?absent,
    tokens := fun id ha => ?tokens, future := fun id ha => ?future, lock := fun id r hr => ?lock,
    types := fun a ha => ?types, once := fun id ha => ?once, ends := fun f hf id he => ?ends,
    called := fun p hp => ?called, calls := fun f hf ptr d hd => ?calls }
  case next =>
    show (s.resTblNext+1).bmod (2^32) = ((s.allocated ++ [type]).length : ℤ)+1
    rw [List.length_append,List.length_singleton,hnext]
    push_cast
    rw [Int.bmod_eq_iff (by omega)]
    omega
  case entry =>
    rcases lookup_insert_cases hr with ⟨rfl,rfl⟩ | ⟨hne,hl⟩
    · refine ⟨(hnew _).mpr (Or.inr rfl),rfl,?_⟩
      show (s.allocated ++ [type])[(s.resTblNext-1).toNat]? = some type
      have hidx : (s.resTblNext-1).toNat = s.allocated.length := by omega
      rw [hidx,List.getElem?_concat_length]
    · obtain ⟨ha,hs,hty⟩ := h.entry id r hl
      exact ⟨(hnew _).mpr (Or.inl ha),hs,htype id _ hty⟩
  case balance =>
    rw [hheld]
    rcases lookup_insert_cases hr with ⟨rfl,rfl⟩ | ⟨hne,hl⟩
    · show (1 : ℤ) = ((if _ then _ else _ : ℕ) : ℤ) + (s.outstanding s.resTblNext : ℤ) + _
      rw [if_pos rfl,hzero.1,hzero.2.1]
      simp
    · rw [if_neg (Ne.symm hne)]
      exact h.balance id r hl
  case positive =>
    rcases lookup_insert_cases hr with ⟨rfl,rfl⟩ | ⟨hne,hl⟩
    · exact Int.zero_lt_one
    · exact h.positive id r hl
  case absent =>
    have hne : s.resTblNext ≠ id := by
      rintro rfl
      simp [allocateBy,ppResourceAllocate,State.put] at hid
    have hl : s.resTbl.lookup id = none := by
      rw [← hid]
      exact (AList.lookup_insert_ne (Ne.symm hne)).symm
    rw [hheld,if_neg hne]
    exact h.absent id hl
  case tokens =>
    rw [hheld]
    show ((if _ then _ else _ : ℕ) : ℤ) = 1 + (s.refs.count id : ℤ) - s.unrefs.count id
    by_cases hid : s.resTblNext = id
    · subst hid
      rw [if_pos rfl,hzero.1,(h.future _ hnot).1,(h.future _ hnot).2.1]
      simp
    · rw [if_neg hid]
      exact h.tokens id (((hnew id).mp ha).resolve_right (Ne.symm hid))
  case future =>
    exact h.future id fun hs => ha ((hnew id).mpr (Or.inl hs))
  case lock =>
    rcases lookup_insert_cases hr with ⟨rfl,rfl⟩ | ⟨hne,hl⟩
    · have ho := hzero.2.1
      unfold State.outstanding at ho
      show s.acquired.countP _ = 0
      omega
    · exact h.lock id r hl
  case types =>
    obtain ⟨r,hr,hty⟩ := h.types a ha
    refine ⟨r,(AList.lookup_insert_ne ?_).trans hr,hty⟩
    intro he
    rw [he,hfresh] at hr
    cases hr
  case once =>
    show s.ended id = if ((s.resTbl.insert s.resTblNext _).lookup id).isSome = true then 0 else 1
    by_cases hid : id = s.resTblNext
    · subst hid
      rw [(h.future _ hnot).2.2,AList.lookup_insert]
      rfl
    · rw [AList.lookup_insert_ne hid]
      exact h.once id (((hnew id).mp ha).resolve_right hid)
  case ends =>
    obtain ⟨ha,hl⟩ := h.ends f hf id he
    refine ⟨(hnew id).mpr (Or.inl ha),(AList.lookup_insert_ne ?_).trans hl⟩
    rintro rfl
    exact hnot ha
  case called =>
    obtain ⟨type',hty,hd⟩ := h.called p hp
    exact ⟨type',htype _ _ hty,hd⟩
  case calls =>
    obtain ⟨hty,he⟩ := h.calls f hf ptr d hd
    exact ⟨htype _ _ hty,he⟩

/-- A section that changes one entry, the counts of its id and, in frames, releases only. -/
structure Touches (s t : State) (id : ℤ) (v w : Resource) : Prop where
  found : s.resTbl.lookup id = some v
  left : t.resTbl.lookup id = some w
  other : ∀ k, k ≠ id → t.resTbl.lookup k = s.resTbl.lookup k
  selfId : w.selfId = v.selfId
  type : w.resourceType = v.resourceType
  next : t.resTblNext = s.resTblNext
  allocated : t.allocated = s.allocated
  destroyed : t.destroyed = s.destroyed
  counts : ∀ k, k ≠ id → t.held k = s.held k ∧ t.outstanding k = s.outstanding k ∧
    t.refs.count k = s.refs.count k ∧ t.unrefs.count k = s.unrefs.count k ∧
    t.acquired.countP (·.resource == k) = s.acquired.countP (·.resource == k)
  ended : ∀ k, t.ended k = s.ended k
  frames : ∀ f ∈ t.frames, f ∈ s.frames ∨ ∃ r, f.task = .releasing r

theorem Touches.lookup {s t : State} {id : ℤ} {v w : Resource} (ht : Touches s t id v w) {k : ℤ}
    {r : Resource} (hr : t.resTbl.lookup k = some r) :
    (k = id ∧ r = w) ∨ (k ≠ id ∧ s.resTbl.lookup k = some r) := by
  by_cases hk : k = id
  · subst hk
    exact Or.inl ⟨rfl,Option.some.inj (hr.symm.trans ht.left)⟩
  · exact Or.inr ⟨hk,(ht.other k hk) ▸ hr⟩

theorem Touches.isSome {s t : State} {id : ℤ} {v w : Resource} (ht : Touches s t id v w) (k : ℤ) :
    (t.resTbl.lookup k).isSome = (s.resTbl.lookup k).isSome := by
  by_cases hk : k = id
  · subst hk
    rw [ht.left,ht.found]
    rfl
  · rw [ht.other k hk]

/-- The books after such a section depend on what it did at its id alone. -/
theorem Books.touch {s t : State} {g g' : Option ℤ} {id : ℤ} {v w : Resource}
    (h : Books destructors s g) (ht : Touches s t id v w) (hg : g = none ∨ g = some id)
    (hg' : g' = none ∨ g' = some id)
    (hbal : w.refCnt = t.held id + t.outstanding id + if g' = some id then 1 else 0)
    (hpos : 0 < w.refCnt) (htok : (t.held id : ℤ) = 1 + t.refs.count id - t.unrefs.count id)
    (hlock : t.acquired.countP (·.resource == id) = if w.lock then 1 else 0)
    (htypes : ∀ a ∈ t.acquired, a ∈ s.acquired ∨ (a.resource = id ∧ w.resourceType = a.type)) :
    Books destructors t g' := by
  have hgk : ∀ k, k ≠ id → g ≠ some k ∧ g' ≠ some k := by
    intro k hk
    constructor
    · rcases hg with rfl | rfl
      · simp
      · exact fun he => hk (Option.some.inj he).symm
    · rcases hg' with rfl | rfl
      · simp
      · exact fun he => hk (Option.some.inj he).symm
  have halloc : ∀ k, t.Allocated k ↔ s.Allocated k := by
    intro k
    rw [State.Allocated,State.Allocated,ht.allocated]
  have htype : ∀ k, typeOf t k = typeOf s k := by
    intro k
    rw [typeOf,typeOf,ht.allocated]
  have hid := h.entry id v ht.found
  refine {
    next := ?next, entry := fun k r hr => ?entry, balance := fun k r hr => ?balance,
    positive := fun k r hr => ?positive, absent := fun k hk => ?absent,
    tokens := fun k hk => ?tokens, future := fun k hk => ?future, lock := fun k r hr => ?lock,
    types := fun a ha => ?types, once := fun k hk => ?once, ends := fun f hf k he => ?ends,
    called := fun p hp => ?called, calls := fun f hf ptr d hd => ?calls }
  case next =>
    rw [ht.next,ht.allocated]
    exact h.next
  case entry =>
    rw [halloc,htype]
    rcases ht.lookup hr with ⟨rfl,rfl⟩ | ⟨_,hl⟩
    · exact ⟨hid.1,ht.selfId.trans hid.2.1,by rw [ht.type]; exact hid.2.2⟩
    · exact h.entry k r hl
  case balance =>
    rcases ht.lookup hr with ⟨rfl,rfl⟩ | ⟨hne,hl⟩
    · exact hbal
    · have hb := h.balance k r hl
      rw [if_neg (hgk k hne).1] at hb
      rw [if_neg (hgk k hne).2,(ht.counts k hne).1,(ht.counts k hne).2.1]
      exact hb
  case positive =>
    rcases ht.lookup hr with ⟨rfl,rfl⟩ | ⟨_,hl⟩
    · exact hpos
    · exact h.positive k r hl
  case absent =>
    have hne : k ≠ id := by
      rintro rfl
      rw [ht.left] at hk
      cases hk
    rw [ht.other k hne] at hk
    rw [(ht.counts k hne).1,(ht.counts k hne).2.1]
    exact ⟨(h.absent k hk).1,(h.absent k hk).2.1,(hgk k hne).2⟩
  case tokens =>
    rw [halloc] at hk
    by_cases hne : k = id
    · rw [hne]; exact htok
    · rw [(ht.counts k hne).1,(ht.counts k hne).2.2.1,(ht.counts k hne).2.2.2.1]
      exact h.tokens k hk
  case future =>
    rw [halloc] at hk
    have hne : k ≠ id := by
      rintro rfl
      exact hk hid.1
    rw [(ht.counts k hne).2.2.1,(ht.counts k hne).2.2.2.1,ht.ended]
    exact h.future k hk
  case lock =>
    rcases ht.lookup hr with ⟨rfl,rfl⟩ | ⟨hne,hl⟩
    · exact hlock
    · rw [(ht.counts k hne).2.2.2.2]
      exact h.lock k r hl
  case types =>
    rcases htypes a ha with ha | ⟨ha,hty⟩
    · obtain ⟨r,hr,hty⟩ := h.types a ha
      by_cases hne : a.resource = id
      · rw [hne,ht.found] at hr
        cases hr
        exact ⟨w,hne ▸ ht.left,ht.type.trans hty⟩
      · exact ⟨r,(ht.other _ hne).trans hr,hty⟩
    · exact ⟨w,ha ▸ ht.left,hty⟩
  case once =>
    rw [halloc] at hk
    rw [ht.ended,ht.isSome]
    exact h.once k hk
  case ends =>
    rcases ht.frames f hf with hf | ⟨r,hr⟩
    · obtain ⟨ha,hl⟩ := h.ends f hf k he
      refine ⟨(halloc k).mpr ha,?_⟩
      have hsome := ht.isSome k
      rw [hl] at hsome
      exact Option.not_isSome_iff_eq_none.mp (by rw [hsome]; simp)
    · simp [Frame.ends,hr] at he
  case called =>
    rw [htype]
    exact h.called p (ht.destroyed ▸ hp)
  case calls =>
    rcases ht.frames f hf with hf | ⟨r,hr⟩
    · rw [htype]
      exact h.calls f hf ptr d hd
    · rw [hr] at hd
      cases hd

theorem countP_erase_add {α : Type*} [BEq α] [LawfulBEq α] {l : List α} {a : α} (p : α → Bool)
    (h : a ∈ l) : l.countP p = (l.erase a).countP p + if p a = true then 1 else 0 := by
  rw [(List.perm_cons_erase h).countP_eq,List.countP_cons]

theorem Books.ref {s : State} (h : Books destructors s none) (t : ℕ) (resource : ℤ) :
    Books destructors (refBy s t resource) none := by
  unfold refBy ppResourceRef
  cases hv : s.resTbl.lookup resource with
  | none => exact h
  | some ptr =>
    rw [Option.isSome_some,if_pos rfl]
    have hb := h.balance _ _ hv
    have hp := h.positive _ _ hv
    have ht := h.tokens _ (h.entry _ _ hv).1
    have hl := h.lock _ _ hv
    have hheld : ∀ k, List.countP (·.2 == k) ((t,resource)::s.tokens) =
        if resource = k then s.held k+1 else s.held k := fun k =>
      List.countP_cons.trans (countP_beq _)
    refine h.touch (v := ptr) (w := { ptr with refCnt := ptr.refCnt+1 })
      ⟨hv,AList.lookup_insert _,fun k hk => AList.lookup_insert_ne hk,rfl,rfl,rfl,rfl,rfl,
        fun k hk => ⟨?_,rfl,?_,rfl,rfl⟩,fun _ => rfl,fun f hf => Or.inl hf⟩ (Or.inl rfl) (Or.inl rfl)
      ?_ ?_ ?_ hl fun a ha => Or.inl ha
    · exact (hheld k).trans (if_neg (Ne.symm hk))
    · exact List.count_cons_of_ne (Ne.symm hk)
    · show ptr.refCnt+1 = ((List.countP (·.2 == resource) ((t,resource)::s.tokens) : ℕ) : ℤ) +
        (s.outstanding resource : ℤ) + _
      rw [hheld,if_pos rfl,hb]
      push_cast
      simp
      omega
    · show 0 < ptr.refCnt+1
      omega
    · show ((List.countP (·.2 == resource) ((t,resource)::s.tokens) : ℕ) : ℤ) =
        1 + ((resource::s.refs).count resource : ℤ) - s.unrefs.count resource
      rw [hheld,if_pos rfl,List.count_cons_self]
      push_cast
      omega

theorem Books.acquire {s : State} (h : Books destructors s none) (t : ℕ) (resource : ℤ)
    (type : ℕ) : Books destructors (acquireBy s t resource type) none := by
  rcases acquireBy_cases s t resource type with he | ⟨gr,hv,htype,hlock,he⟩ <;> rw [he]
  · exact h
  · have hb := h.balance _ _ hv
    have hp := h.positive _ _ hv
    have hl := h.lock _ _ hv
    rw [if_neg (by rw [hlock]; nofun)] at hl
    have hacq : ∀ k, List.countP (·.resource == k) (Acquisition.mk t resource type::s.acquired) =
        if resource = k then s.acquired.countP (·.resource == k)+1
          else s.acquired.countP (·.resource == k) := fun k =>
      List.countP_cons.trans (countP_beq _)
    refine h.touch (v := gr) (w := { gr with refCnt := gr.refCnt+1, lock := true })
      ⟨hv,AList.lookup_insert _,fun k hk => AList.lookup_insert_ne hk,rfl,rfl,rfl,rfl,rfl,
        fun k hk => ⟨rfl,?_,rfl,rfl,?_⟩,fun _ => rfl,fun f hf => Or.inl hf⟩ (Or.inl rfl) (Or.inl rfl)
      ?_ ?_ (h.tokens _ (h.entry _ _ hv).1) ?_ fun a ha => ?_
    · show List.countP (·.resource == k) (Acquisition.mk t resource type::s.acquired) + _ = _
      rw [hacq,if_neg (Ne.symm hk)]
      rfl
    · exact (hacq k).trans (if_neg (Ne.symm hk))
    · show gr.refCnt+1 = (s.held resource : ℤ) + ((List.countP (·.resource == resource)
        (Acquisition.mk t resource type::s.acquired) + s.frames.countP (Frame.releases resource) : ℕ) : ℤ)
        + _
      rw [hacq,if_pos rfl,hb]
      unfold State.outstanding
      push_cast
      simp
      omega
    · show 0 < gr.refCnt+1
      omega
    · exact (hacq resource).trans (by rw [if_pos rfl,hl]; rfl)
    · rcases List.mem_cons.mp ha with rfl | ha
      · exact Or.inr ⟨rfl,htype⟩
      · exact Or.inl ha

/-- The first section of a release turns a resource held into a release under way. -/
theorem Books.unlock {s : State} (h : Books destructors s none) {a : Acquisition}
    (ha : a ∈ s.acquired) : Books destructors
      (unlockSection { s with acquired := s.acquired.erase a } a.thread a.resource) none := by
  obtain ⟨gr,hv,_⟩ := h.types a ha
  have hb := h.balance _ _ hv
  have hl := h.lock _ _ hv
  have hp := h.positive _ _ hv
  have hacq : ∀ k, s.acquired.countP (·.resource == k) =
      (s.acquired.erase a).countP (·.resource == k) + if (a.resource == k) = true then 1 else 0 :=
    fun k => countP_erase_add _ ha
  have hrel : ∀ k, List.countP (Frame.releases k)
      (Frame.mk a.thread (.releasing a.resource)::s.frames) =
      s.frames.countP (Frame.releases k) + if (a.resource == k) = true then 1 else 0 := fun k =>
    List.countP_cons
  have hacq' := hacq a.resource
  have hrel' := hrel a.resource
  rw [beq_self_eq_true,if_pos rfl] at hacq' hrel'
  unfold unlockSection
  simp only [hv]
  refine h.touch (v := gr) (w := { gr with lock := false })
    ⟨hv,AList.lookup_insert _,fun k hk => AList.lookup_insert_ne hk,rfl,rfl,rfl,rfl,rfl,
      fun k hk => ⟨rfl,?_,rfl,rfl,?_⟩,fun k => ?_,fun f hf => ?_⟩ (Or.inl rfl) (Or.inl rfl)
    ?_ hp (h.tokens _ (h.entry _ _ hv).1) ?_ fun b hb =>
      Or.inl (List.mem_of_mem_erase hb)
  · show (s.acquired.erase a).countP (·.resource == k) + List.countP (Frame.releases k)
      (Frame.mk a.thread (.releasing a.resource)::s.frames) = _
    have hak := hacq k
    unfold State.outstanding
    rw [hrel k]
    omega
  · have hak := hacq k
    rw [if_neg (by simpa using Ne.symm hk)] at hak
    exact hak.symm
  · show s.destroyed.countP _ + List.countP (Frame.destroys k)
      (Frame.mk a.thread (.releasing a.resource)::s.frames) = _
    rw [List.countP_cons]
    rfl
  · rcases List.mem_cons.mp hf with rfl | hf
    · exact Or.inr ⟨a.resource,rfl⟩
    · exact Or.inl hf
  · show gr.refCnt = (s.held a.resource : ℤ) + (((s.acquired.erase a).countP (·.resource == a.resource)
      + List.countP (Frame.releases a.resource)
        (Frame.mk a.thread (.releasing a.resource)::s.frames) : ℕ) : ℤ) + _
    rw [hb,State.outstanding]
    simp only [reduceCtorEq,if_false]
    omega
  · show (s.acquired.erase a).countP (·.resource == a.resource) = 0
    split_ifs at hl <;> omega

/-- Giving up a token of one's own. -/
theorem Books.giveToken {s : State} (h : Books destructors s none) {t : ℕ} {resource : ℤ}
    (ht : (t,resource) ∈ s.tokens) : Books destructors
      { s with tokens := s.tokens.erase (t,resource), unrefs := resource::s.unrefs }
      (some resource) := by
  have hheld : ∀ k, s.held k = (s.tokens.erase (t,resource)).countP (·.2 == k) +
      if (resource == k) = true then 1 else 0 := fun k => countP_erase_add _ ht
  have hheld' := hheld resource
  rw [beq_self_eq_true,if_pos rfl] at hheld'
  obtain ⟨ptr,hv⟩ : ∃ ptr, s.resTbl.lookup resource = some ptr := by
    cases hv : s.resTbl.lookup resource with
    | none =>
      have := (h.absent _ hv).1
      omega
    | some ptr => exact ⟨ptr,rfl⟩
  have hb := h.balance _ _ hv
  have htok := h.tokens _ (h.entry _ _ hv).1
  refine h.touch ⟨hv,hv,fun k hk => rfl,rfl,rfl,rfl,rfl,rfl,fun k hk => ⟨?_,rfl,rfl,?_,rfl⟩,
    fun _ => rfl,fun f hf => Or.inl hf⟩ (Or.inl rfl) (Or.inr rfl) ?_ (h.positive _ _ hv) ?_
    (h.lock _ _ hv) fun a ha => Or.inl ha
  · have hk' := hheld k
    rw [if_neg (by simpa using Ne.symm hk)] at hk'
    exact hk'.symm
  · exact List.count_cons_of_ne (Ne.symm hk)
  · show ptr.refCnt = (((s.tokens.erase (t,resource)).countP (·.2 == resource) : ℕ) : ℤ) +
      (s.outstanding resource : ℤ) + _
    simp only [reduceCtorEq,if_false] at hb
    simp only [if_true]
    omega
  · show (((s.tokens.erase (t,resource)).countP (·.2 == resource) : ℕ) : ℤ) =
      1 + (s.refs.count resource : ℤ) - ((resource::s.unrefs).count resource : ℤ)
    rw [List.count_cons_self]
    push_cast
    omega

/-- The second section of a release starts by giving up the acquisition. -/
theorem Books.popReleasing {s : State} (h : Books destructors s none) {t t' : ℕ} {resource : ℤ}
    (ht : s.top t = some ⟨t',.releasing resource⟩) :
    Books destructors (s.pop t) (some resource) := by
  have hperm := pop_perm ht
  have hrel : ∀ k, s.frames.countP (Frame.releases k) =
      (s.pop t).frames.countP (Frame.releases k) + if (resource == k) = true then 1 else 0 :=
    fun k => by rw [hperm.countP_eq,List.countP_cons]; rfl
  have hrel' := hrel resource
  rw [beq_self_eq_true,if_pos rfl] at hrel'
  obtain ⟨ptr,hv⟩ : ∃ ptr, s.resTbl.lookup resource = some ptr := by
    cases hv : s.resTbl.lookup resource with
    | none =>
      have ho := (h.absent _ hv).2.1
      unfold State.outstanding at ho
      omega
    | some ptr => exact ⟨ptr,rfl⟩
  have hb := h.balance _ _ hv
  refine h.touch ⟨hv,hv,fun k hk => rfl,rfl,rfl,rfl,rfl,rfl,fun k hk => ⟨rfl,?_,rfl,rfl,rfl⟩,
    fun k => ?_,fun f hf => Or.inl ?_⟩ (Or.inl rfl) (Or.inr rfl) ?_ (h.positive _ _ hv)
    (h.tokens _ (h.entry _ _ hv).1) (h.lock _ _ hv) fun a ha => Or.inl ha
  · have hk' := hrel k
    rw [if_neg (by simpa using Ne.symm hk)] at hk'
    unfold State.outstanding
    rw [hk']
    rfl
  · unfold State.ended
    rw [hperm.countP_eq,List.countP_cons]
    rfl
  · exact hperm.mem_iff.mpr (List.mem_cons_of_mem _ hf)
  · show ptr.refCnt = (s.held resource : ℤ) + ((s.acquired.countP (·.resource == resource) +
      (s.pop t).frames.countP (Frame.releases resource) : ℕ) : ℤ) + _
    unfold State.outstanding at hb
    simp only [reduceCtorEq,if_false] at hb
    simp only [if_true]
    omega

/-- The last reference takes the entry out of the table and its destructor will be called. -/
theorem Books.remove {s : State} {resource : ℤ} {ptr : Resource}
    (h : Books destructors s (some resource)) (hv : s.resTbl.lookup resource = some ptr)
    (hle : ptr.refCnt-1 ≤ 0) (t : ℕ) : Books destructors
      { s with
        resTbl := s.resTbl.erase resource
        frames := ⟨t,.destroying { ptr with refCnt := ptr.refCnt-1 }
          (destructors ptr.resourceType)⟩::s.frames } none := by
  have hb := h.balance _ _ hv
  have hid := h.entry _ _ hv
  have hheld : s.held resource = 0 := by
    simp only [if_true] at hb
    omega
  have hout : s.outstanding resource = 0 := by
    simp only [if_true] at hb
    omega
  have hends : ∀ k, List.countP (Frame.destroys k)
      (Frame.mk t (.destroying { ptr with refCnt := ptr.refCnt-1 }
        (destructors ptr.resourceType))::s.frames) =
      s.frames.countP (Frame.destroys k) + if (resource == k) = true then 1 else 0 := fun k => by
    rw [List.countP_cons,← hid.2.1]
    rfl
  have hrel : ∀ k, List.countP (Frame.releases k)
      (Frame.mk t (.destroying { ptr with refCnt := ptr.refCnt-1 }
        (destructors ptr.resourceType))::s.frames) = s.frames.countP (Frame.releases k) := fun k =>
    List.countP_cons
  have hacq : s.acquired.countP (·.resource == resource) = 0 := by
    unfold State.outstanding at hout
    omega
  refine {
    next := h.next, entry := fun k r hr => h.entry k r (lookup_erase_cases hr).2,
    balance := fun k r hr => ?balance,
    positive := fun k r hr => h.positive k r (lookup_erase_cases hr).2,
    absent := fun k hk => ?absent, tokens := h.tokens, future := fun k hk => ?future,
    lock := fun k r hr => h.lock k r (lookup_erase_cases hr).2, types := fun a ha => ?types,
    once := fun k hk => ?once, ends := fun f hf k he => ?ends, called := h.called,
    calls := fun f hf p d hd => ?calls }
  case balance =>
    obtain ⟨hne,hl⟩ := lookup_erase_cases hr
    have hbk := h.balance k r hl
    rw [if_neg fun he => hne (Option.some.inj he).symm] at hbk
    show r.refCnt = (s.held k : ℤ) + ((_ + List.countP (Frame.releases k) _ : ℕ) : ℤ) + _
    rw [hrel,hbk]
    rfl
  case absent =>
    show s.held k = 0 ∧ _ + List.countP (Frame.releases k) _ = 0 ∧ _
    rw [hrel]
    by_cases hne : k = resource
    · subst hne
      exact ⟨hheld,hout,by simp⟩
    · have hl : s.resTbl.lookup k = none := (AList.lookup_erase_ne hne).symm.trans hk
      exact ⟨(h.absent k hl).1,(h.absent k hl).2.1,by simp⟩
  case future =>
    have hne : resource ≠ k := by
      rintro rfl
      exact hk hid.1
    refine ⟨(h.future k hk).1,(h.future k hk).2.1,?_⟩
    show _ + List.countP (Frame.destroys k) _ = 0
    rw [hends,if_neg (by simpa using hne)]
    exact (h.future k hk).2.2
  case types =>
    obtain ⟨r,hr,hty⟩ := h.types a ha
    have hne : a.resource ≠ resource := fun he =>
      List.countP_eq_zero.mp hacq a ha (by simp [he])
    exact ⟨r,(AList.lookup_erase_ne hne).trans hr,hty⟩
  case once =>
    have ho := h.once k hk
    unfold State.ended at ho
    show _ + List.countP (Frame.destroys k) _ =
      if ((s.resTbl.erase resource).lookup k).isSome = true then 0 else 1
    rw [hends]
    by_cases hne : k = resource
    · subst hne
      rw [hv] at ho
      simp only [Option.isSome_some,if_true,AList.lookup_erase,beq_self_eq_true] at ho ⊢
      simp only [Option.isSome_none,Bool.false_eq_true,if_false]
      omega
    · rw [AList.lookup_erase_ne hne,if_neg (by simpa using Ne.symm hne)]
      exact ho
  case ends =>
    rcases List.mem_cons.mp hf with rfl | hf
    · have hk : ptr.selfId = k := by simpa [Frame.ends] using he
      rw [← hk,hid.2.1]
      exact ⟨hid.1,AList.lookup_erase _ _⟩
    · obtain ⟨ha,hl⟩ := h.ends f hf k he
      refine ⟨ha,?_⟩
      by_cases hne : k = resource
      · rw [hne]; exact AList.lookup_erase _ _
      · exact (AList.lookup_erase_ne hne).trans hl
  case calls =>
    rcases List.mem_cons.mp hf with rfl | hf
    · cases hd
      refine ⟨?_,rfl⟩
      show typeOf s ptr.selfId = some ptr.resourceType
      rw [hid.2.1]
      exact hid.2.2
    · exact h.calls f hf p d hd

theorem Books.unref {s : State} {resource : ℤ} (h : Books destructors s (some resource)) (t : ℕ) :
    Books destructors (unrefSection destructors s t resource) none := by
  unfold unrefSection
  cases hv : s.resTbl.lookup resource with
  | none => exact absurd rfl (h.absent _ hv).2.2
  | some ptr =>
    dsimp only
    split_ifs with hle
    · exact h.remove hv hle t
    · have hb := h.balance _ _ hv
      have hl := h.lock _ _ hv
      refine h.touch (v := ptr) (w := { ptr with refCnt := ptr.refCnt-1 })
        ⟨hv,AList.lookup_insert _,fun k hk => AList.lookup_insert_ne hk,rfl,rfl,rfl,rfl,rfl,
          fun k hk => ⟨rfl,rfl,rfl,rfl,rfl⟩,fun _ => rfl,fun f hf => Or.inl hf⟩ (Or.inr rfl)
        (Or.inl rfl) ?_ (not_le.mp hle) (h.tokens _ (h.entry _ _ hv).1) hl fun a ha => Or.inl ha
      show ptr.refCnt-1 = (s.held resource : ℤ) + (s.outstanding resource : ℤ) + _
      simp only [if_true] at hb
      simp only [reduceCtorEq,if_false]
      omega

/-- Frames and calls of destructors change, the table and its counts do not. -/
theorem Books.reframe {s : State} {g : Option ℤ} (h : Books destructors s g) {frames : List Frame}
    {destroyed : List (ℤ × Option ℕ)}
    (hrel : ∀ k, frames.countP (Frame.releases k) = s.frames.countP (Frame.releases k))
    (hend : ∀ k, destroyed.countP (·.1 == k) + frames.countP (Frame.destroys k) = s.ended k)
    (hf : ∀ f ∈ frames, (∀ k, f.ends k = true → ∃ f' ∈ s.frames, f'.ends k = true) ∧
      (f ∈ s.frames ∨ ∀ ptr d, f.task ≠ .destroying ptr d))
    (hd : ∀ p ∈ destroyed, ∃ type, typeOf s p.1 = some type ∧ p.2 = destructors type) :
    Books destructors { s with frames := frames, destroyed := destroyed } g := by
  have hout : ∀ k, State.outstanding { s with frames := frames, destroyed := destroyed } k =
      s.outstanding k := fun k => by
    unfold State.outstanding
    rw [hrel k]
  refine ⟨h.next,h.entry,fun k r hr => ?_,h.positive,fun k hk => ?_,h.tokens,fun k hk => ?_,
    h.lock,h.types,fun k hk => ?_,fun f hm k he => ?_,hd,fun f hm ptr d he => ?_⟩
  · rw [hout]
    exact h.balance k r hr
  · rw [hout]
    exact h.absent k hk
  · exact ⟨(h.future k hk).1,(h.future k hk).2.1,(hend k).trans (h.future k hk).2.2⟩
  · exact (hend k).trans (h.once k hk)
  · obtain ⟨f',hm',he'⟩ := (hf f hm).1 k he
    exact h.ends f' hm' k he'
  · exact h.calls f ((hf f hm).2.resolve_right fun hn => hn ptr d he) ptr d he

theorem Books.destroy {s : State} {g : Option ℤ} (h : Books destructors s g) {t t' : ℕ}
    {ptr : Resource} {d : Option ℕ} (ht : s.top t = some ⟨t',.destroying ptr d⟩) :
    Books destructors { s.pop t with
      frames := ⟨t,.inDestructor ptr⟩::(s.pop t).frames
      destroyed := s.destroyed ++ [(ptr.selfId,d)] } g := by
  have hperm := pop_perm ht
  have hmem : Frame.mk t' (.destroying ptr d) ∈ s.frames := hperm.mem_iff.mpr List.mem_cons_self
  refine h.reframe (fun k => ?_) (fun k => ?_) (fun f hf => ?_) fun p hp => ?_
  · rw [hperm.countP_eq,List.countP_cons,List.countP_cons]
    rfl
  · have hcall : (s.destroyed ++ [(ptr.selfId,d)]).countP (·.1 == k) =
        s.destroyed.countP (·.1 == k) + if (ptr.selfId == k) = true then 1 else 0 := by
      rw [List.countP_append,List.countP_cons,List.countP_nil,Nat.zero_add]
    have hold : List.countP (Frame.destroys k) (Frame.mk t' (.destroying ptr d)::(s.pop t).frames) =
        (s.pop t).frames.countP (Frame.destroys k) + if (ptr.selfId == k) = true then 1 else 0 :=
      List.countP_cons
    have hnew : List.countP (Frame.destroys k) (Frame.mk t (.inDestructor ptr)::(s.pop t).frames) =
        (s.pop t).frames.countP (Frame.destroys k) := List.countP_cons
    unfold State.ended
    rw [hperm.countP_eq,hcall,hold,hnew]
    omega
  · rcases List.mem_cons.mp hf with rfl | hf
    · exact ⟨fun k he => ⟨_,hmem,he⟩,Or.inr fun _ _ hn => nomatch hn⟩
    · have hf' := hperm.mem_iff.mpr (List.mem_cons_of_mem _ hf)
      exact ⟨fun k he => ⟨f,hf',he⟩,Or.inl hf'⟩
  · rcases List.mem_append.mp hp with hp | hp
    · exact h.called p hp
    · cases List.mem_singleton.mp hp
      exact ⟨_,h.calls _ hmem ptr d rfl⟩

theorem Books.destructorReturns {s : State} {g : Option ℤ} (h : Books destructors s g)
    {t t' : ℕ} {ptr : Resource} (ht : s.top t = some ⟨t',.inDestructor ptr⟩) :
    Books destructors (s.pop t) g := by
  have hperm := pop_perm ht
  refine h.reframe (fun k => ?_) (fun k => ?_) (fun f hf => ?_) h.called
  · rw [hperm.countP_eq,List.countP_cons]
    rfl
  · unfold State.ended
    rw [hperm.countP_eq,List.countP_cons]
    rfl
  · have hf' := hperm.mem_iff.mpr (List.mem_cons_of_mem _ hf)
    exact ⟨fun k he => ⟨f,hf',he⟩,Or.inl hf'⟩

/-- Fewer than `2^31-1` allocations. -/
def FewAllocations (s : State) : Action → Prop
  | .allocate _ _ => s.allocated.length+1 < 2^31-1
  | _ => True

instance (s : State) (a : Action) : Decidable (FewAllocations s a) := by
  apply a.casesOn (motive := fun a => Decidable (FewAllocations s a)) <;> intros <;>
    dsimp only [FewAllocations] <;> infer_instance

/-- Few enough references as well: none is added to a resource that has as many as an `int`
counts. -/
def FewReferences (s : State) : Action → Prop
  | .allocate _ _ => s.allocated.length+1 < 2^31-1
  | .ref _ resource => ∀ r ∈ s.resTbl.lookup resource, r.refCnt < 2^31-1
  | .acquire _ resource type => ∀ r ∈ s.resTbl.lookup resource,
      r.resourceType = type → r.lock = false → r.refCnt < 2^31-1
  | _ => True

instance (s : State) (a : Action) : Decidable (FewReferences s a) := by
  apply a.casesOn (motive := fun a => Decidable (FewReferences s a)) <;> intros <;>
    dsimp only [FewReferences] <;> infer_instance

theorem FewReferences.allocations {s : State} {a : Action} (h : FewReferences s a) :
    FewAllocations s a := by
  cases a with
  | allocate t type => exact h
  | _ => trivial

theorem step_books {s u : State} {a : Action} (h : Books destructors s none)
    (hg : FewAllocations s a) (hu : step destructors s a = some u) : Books destructors u none := by
  cases a with
  | allocate t type =>
    simp only [step] at hu
    split_ifs at hu
    cases hu
    exact h.allocate t type hg
  | ref t resource =>
    simp only [step] at hu
    split_ifs at hu
    cases hu
    exact h.ref t resource
  | unref t resource =>
    simp only [step] at hu
    split_ifs at hu with hc
    cases hu
    exact (h.giveToken hc.2).unref t
  | acquire t resource type =>
    simp only [step] at hu
    split_ifs at hu
    cases hu
    exact h.acquire t resource type
  | release a =>
    simp only [step] at hu
    split_ifs at hu with hc
    cases hu
    exact h.unlock hc.2
  | releaseUnref t =>
    simp only [step] at hu
    split at hu <;> cases hu
    rename_i ht
    exact (h.popReleasing ht).unref t
  | destroy t =>
    simp only [step] at hu
    split at hu <;> cases hu
    rename_i ht
    exact h.destroy ht
  | destructorReturns t =>
    simp only [step] at hu
    split at hu <;> cases hu
    rename_i ht
    exact h.destructorReturns ht

theorem Books.count_eq {s : State} (h : Books destructors s none) {id : ℤ}
    (ha : s.Allocated id) : s.count id = s.held id + s.outstanding id := by
  have ht := h.tokens id ha
  unfold State.count
  omega

/-- Where an entry is after a section: still gone, or taken out just now with the call of
its destructor next on the thread. -/
def Follows (s u : State) (id : ℤ) : Prop :=
  (s.resTbl.lookup id = none → u.resTbl.lookup id = none) ∧
  ((s.resTbl.lookup id).isSome = true → u.resTbl.lookup id = none →
    ∃ t ptr d, u.top t = some ⟨t,.destroying ptr d⟩ ∧ ptr.selfId = id)

theorem follows_of_isSome {s u : State} {id : ℤ}
    (h : (u.resTbl.lookup id).isSome = (s.resTbl.lookup id).isSome) : Follows s u id := by
  refine ⟨fun hn => ?_,fun hs hn => ?_⟩
  · rw [hn] at h
    exact Option.not_isSome_iff_eq_none.mp (by simp [h])
  · rw [hn,hs] at h
    cases h

theorem unref_follows {s : State} {g : Option ℤ} (h : Books destructors s g) (t : ℕ)
    (resource id : ℤ) : Follows s (unrefSection destructors s t resource) id := by
  unfold unrefSection
  cases hv : s.resTbl.lookup resource with
  | none => exact follows_of_isSome rfl
  | some ptr =>
    dsimp only
    split_ifs
    · refine ⟨fun hn => ?_,fun hs hn => ?_⟩
      · by_cases hid : id = resource
        · rw [hid]; exact AList.lookup_erase _ _
        · exact (AList.lookup_erase_ne hid).trans hn
      · have hid : id = resource := by
          by_contra hid
          have hl : s.resTbl.lookup id = none := (AList.lookup_erase_ne hid).symm.trans hn
          rw [hl] at hs
          cases hs
        refine ⟨t,{ ptr with refCnt := ptr.refCnt-1 },destructors ptr.resourceType,?_,
          (h.entry _ _ hv).2.1.trans hid.symm⟩
        simp [State.top]
    · exact follows_of_isSome (isSome_lookup_insert hv)

theorem step_follows {s u : State} {a : Action} (h : Books destructors s none)
    (hu : step destructors s a = some u) {id : ℤ} (ha : s.Allocated id) : Follows s u id := by
  cases a with
  | allocate t type =>
    simp only [step] at hu
    split_ifs at hu
    cases hu
    refine follows_of_isSome ?_
    have hne : id ≠ s.resTblNext := by
      have hn := h.next
      unfold State.Allocated at ha
      omega
    exact congrArg Option.isSome (AList.lookup_insert_ne hne)
  | ref t resource =>
    simp only [step] at hu
    split_ifs at hu
    cases hu
    refine follows_of_isSome ?_
    unfold refBy ppResourceRef
    cases hv : s.resTbl.lookup resource with
    | none => rfl
    | some ptr => exact isSome_lookup_insert hv
  | unref t resource =>
    simp only [step] at hu
    split_ifs at hu with hc
    cases hu
    exact unref_follows (h.giveToken hc.2) t resource id
  | acquire t resource type =>
    simp only [step] at hu
    split_ifs at hu
    cases hu
    refine follows_of_isSome ?_
    rcases acquireBy_cases s t resource type with he | ⟨gr,hv,_,_,he⟩ <;> rw [he]
    exact isSome_lookup_insert hv
  | release a =>
    simp only [step] at hu
    split_ifs at hu with hc
    cases hu
    refine follows_of_isSome ?_
    unfold unlockSection
    dsimp only
    split
    · rfl
    · rename_i gr hv
      exact isSome_lookup_insert hv
  | releaseUnref t =>
    simp only [step] at hu
    split at hu <;> cases hu
    rename_i ht
    exact unref_follows (h.popReleasing ht) t _ id
  | destroy t =>
    simp only [step] at hu
    split at hu <;> cases hu
    exact follows_of_isSome rfl
  | destructorReturns t =>
    simp only [step] at hu
    split at hu <;> cases hu
    exact follows_of_isSome rfl

/-! Counts fit an `int` where one that is the largest counts no further reference. -/

def CountsFit (s : State) : Prop := ∀ id r, s.resTbl.lookup id = some r → r.refCnt < 2^31

theorem CountsFit.insert {s t : State} (h : CountsFit s) {id : ℤ} {r : Resource}
    (hr : r.refCnt < 2^31) (ht : t.resTbl = s.resTbl.insert id r) : CountsFit t := by
  intro k v hv
  rw [ht] at hv
  rcases lookup_insert_cases hv with ⟨_,rfl⟩ | ⟨_,hl⟩
  · exact hr
  · exact h k v hl

theorem CountsFit.unref {s : State} (h : CountsFit s) (t : ℕ) (resource : ℤ) :
    CountsFit (unrefSection destructors s t resource) := by
  unfold unrefSection
  cases hv : s.resTbl.lookup resource with
  | none => exact h
  | some ptr =>
    have hlt := h _ _ hv
    dsimp only
    split_ifs
    · exact fun k v hl => h k v (lookup_erase_cases hl).2
    · exact h.insert (by dsimp only; omega) rfl

theorem step_countsFit {s u : State} {a : Action} (h : CountsFit s) (hg : FewReferences s a)
    (hu : step destructors s a = some u) : CountsFit u := by
  cases a with
  | allocate t type =>
    simp only [step] at hu
    split_ifs at hu
    cases hu
    have hone : (1 : ℤ) < 2^31 := by decide
    exact h.insert hone rfl
  | ref t resource =>
    simp only [step] at hu
    split_ifs at hu
    cases hu
    unfold refBy ppResourceRef
    cases hv : s.resTbl.lookup resource with
    | none => exact h
    | some ptr =>
      have hlt := hg ptr hv
      exact h.insert (by dsimp only; omega) rfl
  | unref t resource =>
    simp only [step] at hu
    split_ifs at hu
    cases hu
    apply CountsFit.unref
    exact h
  | acquire t resource type =>
    simp only [step] at hu
    split_ifs at hu
    cases hu
    rcases acquireBy_cases s t resource type with he | ⟨gr,hv,htype,hlock,he⟩ <;> rw [he]
    · exact h
    · have hlt := hg gr hv htype hlock
      exact h.insert (by dsimp only; omega) rfl
  | release a =>
    simp only [step] at hu
    split_ifs at hu
    cases hu
    unfold unlockSection
    cases hv : s.resTbl.lookup a.resource with
    | none => exact h
    | some gr =>
      have hlt := h _ _ hv
      exact h.insert (r := { gr with lock := false }) hlt rfl
  | releaseUnref t =>
    simp only [step] at hu
    split at hu <;> cases hu
    apply CountsFit.unref
    exact h
  | destroy t =>
    simp only [step] at hu
    split at hu <;> cases hu
    exact h
  | destructorReturns t =>
    simp only [step] at hu
    split at hu <;> cases hu
    exact h

/-- What holds of the table in every state. -/
structure TableOk (destructors : ℕ → Option ℕ) (s : State) : Prop where
  counts : ∀ id r, s.resTbl.lookup id = some r → r.heldCnt = s.count id ∧ 0 < r.heldCnt
  present : ∀ id, (s.resTbl.lookup id).isSome = true ↔ s.Allocated id ∧ 0 < s.count id
  gone : ∀ id, s.Allocated id → s.resTbl.lookup id = none → s.count id = 0 ∧
    ∀ a u, step destructors s a = some u → u.resTbl.lookup id = none
  moment : ∀ id a u, (s.resTbl.lookup id).isSome = true → step destructors s a = some u →
    u.resTbl.lookup id = none →
    ∃ t ptr d, u.top t = some ⟨t,.destroying ptr d⟩ ∧ ptr.selfId = id
  once : ∀ id, s.destroyed.countP (·.1 == id) + s.frames.countP (Frame.destroys id) =
    if s.Allocated id ∧ s.resTbl.lookup id = none then 1 else 0
  registered : ∀ p ∈ s.destroyed, ∃ type, typeOf s p.1 = some type ∧ p.2 = destructors type
  unacquired : ∀ f ∈ s.frames, ∀ id, f.ends id = true → ∀ a ∈ s.acquired, a.resource ≠ id
  acquiredType : ∀ a ∈ s.acquired, ∃ r, s.resTbl.lookup a.resource = some r ∧
    r.resourceType = a.type
  exclusive : ∀ id, s.acquired.countP (·.resource == id) ≤ 1

theorem Resource.heldCnt_eq {r : Resource} (h0 : 0 < r.refCnt) (h1 : r.refCnt < 2^31) :
    r.heldCnt = r.refCnt := by
  unfold Resource.heldCnt
  rw [Int.bmod_eq_of_le] <;> omega

theorem Books.tableOk {s : State} (h : Books destructors s none) (hf : CountsFit s) :
    TableOk destructors s where
  counts id r hr := by
    have hb := h.balance id r hr
    rw [if_neg (by simp)] at hb
    rw [h.count_eq (h.entry id r hr).1,Resource.heldCnt_eq (h.positive id r hr) (hf id r hr)]
    exact ⟨by omega,h.positive id r hr⟩
  present id := by
    constructor
    · intro hs
      obtain ⟨r,hr⟩ := Option.isSome_iff_exists.mp hs
      have hb := h.balance id r hr
      have hp := h.positive id r hr
      rw [if_neg (by simp)] at hb
      refine ⟨(h.entry id r hr).1,?_⟩
      rw [h.count_eq (h.entry id r hr).1]
      omega
    · rintro ⟨ha,hc⟩
      by_contra hs
      have hz := h.absent id (Option.not_isSome_iff_eq_none.mp hs)
      rw [h.count_eq ha,hz.1,hz.2.1] at hc
      simp at hc
  gone id ha hn := by
    have hz := h.absent id hn
    refine ⟨?_,fun a u hu => (step_follows h hu ha).1 hn⟩
    rw [h.count_eq ha,hz.1,hz.2.1]
    rfl
  moment id a u hs hu hn := by
    obtain ⟨r,hr⟩ := Option.isSome_iff_exists.mp hs
    exact (step_follows h hu (h.entry id r hr).1).2 hs hn
  once id := by
    by_cases ha : s.Allocated id
    · have ho := h.once id ha
      unfold State.ended at ho
      rw [ho]
      cases hl : s.resTbl.lookup id with
      | none => simp [ha]
      | some r => simp
    · rw [if_neg fun hc => ha hc.1]
      exact (h.future id ha).2.2
  registered := h.called
  unacquired f hf id he a ha hr := by
    obtain ⟨_,hl⟩ := h.ends f hf id he
    obtain ⟨r,hr',_⟩ := h.types a ha
    rw [hr,hl] at hr'
    cases hr'
  acquiredType := h.types
  exclusive id := by
    cases hl : s.resTbl.lookup id with
    | none =>
      have ho := (h.absent id hl).2.1
      unfold State.outstanding at ho
      omega
    | some r =>
      rw [h.lock id r hl]
      split_ifs <;> omega

/-- The table invariant, in every state of every run with fewer than `2^31-1` allocations, and
references of one resource that an `int` counts. -/
theorem resource_table_invariant (destructors : ℕ → Option ℕ) {s : State}
    (h : (machine destructors).ReachableVia FewReferences s) : TableOk destructors s :=
  (h.invariant (fun s => Books destructors s none) create_books
    fun _ _ _ hi hg hu => step_books hi hg.allocations hu).tableOk
    (h.invariant CountsFit (fun id r hr => by simp [machine,State.create] at hr)
      fun _ _ _ hf hg hu => step_countsFit hf hg hu)

/-- Thread 2 gives up its last reference while thread 1 has the resource acquired; the
destructor runs at the end of the release and uses the table itself. -/
def lastReferenceWhileAcquired : List Action :=
  [.allocate 2 5,.acquire 1 1 5,.acquire 3 1 5,.unref 2 1,.release ⟨1,1,5⟩,.acquire 3 1 4,
    .releaseUnref 1,.ref 3 1,.destroy 1,.allocate 1 6,.unref 1 2,.destroy 1]

theorem lastReferenceWhileAcquired_ok : ∃ s : State,
    (machine fun _ => some 0).exec (machine fun _ => some 0).start lastReferenceWhileAcquired =
      some s ∧ s.destroyed.length = 2 ∧ TableOk (fun _ => some 0) s :=
  ⟨_,rfl,rfl,resource_table_invariant _
    (Machine.reachableVia_of_exec lastReferenceWhileAcquired .start rfl (by decide))⟩

/-! The references of one resource. -/

/-- A thread in plain code has a resource with a count. -/
def Counting (s : State) (n : ℤ) : Prop :=
  s.frames = [] ∧ ∃ r, s.resTbl.lookup 1 = some r ∧ r.refCnt = n

theorem refs_exec (n : ℕ) {s : State} {m : ℤ} (h : Counting s m) :
    ∃ u, (machine destructors).exec s (List.replicate n (.ref 0 1)) = some u ∧
      Counting u (m+n) := by
  induction n generalizing s m with
  | zero => exact ⟨s,rfl,by simpa using h⟩
  | succ n ih =>
    obtain ⟨hframes,r,hr,hm⟩ := h
    have hfree : s.free 0 = true := by simp [State.free,State.top,hframes]
    have hstep : (machine destructors).step s (.ref 0 1) = some (refBy s 0 1) := if_pos hfree
    have hnext : Counting (refBy s 0 1) (m+1) := by
      unfold refBy ppResourceRef
      rw [hr]
      exact ⟨hframes,_,AList.lookup_insert _,by rw [← hm]⟩
    obtain ⟨u,hu,hlast⟩ := ih hnext
    refine ⟨u,?_,?_⟩
    · rw [List.replicate_succ,Machine.exec_cons,hstep]
      exact hu
    · rwa [add_assoc,add_comm (1 : ℤ),← Nat.cast_succ] at hlast

/-- One allocation, and a reference more than an `int` counts. -/
def manyReferences : List Action := .allocate 0 5::List.replicate (2^31-1) (.ref 0 1)

theorem manyReferences_exec : ∃ u, (machine fun _ => none).exec (machine fun _ => none).start
    manyReferences = some u ∧ Counting u (2^31) := by
  have hfirst : Counting (allocateBy .create 0 5) 1 := ⟨rfl,_,AList.lookup_insert _,rfl⟩
  have hstep : (machine fun _ => none).step (machine fun _ => none).start (.allocate 0 5) =
      some (allocateBy .create 0 5) := rfl
  obtain ⟨u,hu,hlast⟩ := refs_exec (2^31-1) hfirst
  refine ⟨u,?_,?_⟩
  · rw [manyReferences,Machine.exec_cons,hstep,Option.bind_some]
    exact hu
  · have hsum : (1 : ℤ)+((2^31-1 : ℕ) : ℤ) = 2^31 := by decide
    rwa [hsum] at hlast

theorem manyReferences_overflow : ¬∀ (destructors : ℕ → Option ℕ) (ls : List Action) (u : State),
    (machine destructors).exec (machine destructors).start ls = some u →
      (machine destructors).EachFrom FewAllocations (machine destructors).start ls →
        TableOk destructors u := by
  intro h
  obtain ⟨u,hu,_,r,hr,hcount⟩ := manyReferences_exec
  have hfew : (machine fun _ => none).EachFrom FewAllocations (machine fun _ => none).start
      manyReferences := by
    refine ⟨by decide,fun t _ => Machine.eachFrom_of_forall (fun a ha s => ?_) t⟩
    rw [List.eq_of_mem_replicate ha]
    trivial
  have hok := (h _ manyReferences u hu hfew).counts 1 r hr
  have hneg : r.heldCnt = -2^31 := by
    rw [Resource.heldCnt,hcount]
    decide
  rw [hneg] at hok
  exact absurd hok.2 (by decide)

end ResourceTable
end FreshPlayer
