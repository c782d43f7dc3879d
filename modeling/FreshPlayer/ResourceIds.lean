import FreshPlayer.ResourceTable

/-! Freshness of resource ids. The counter is the number of the next allocation wrapped
to an `int`, so an id comes back after 2^32 allocations, whether the resource that had
it is still in the table or not. A ghost numbers the allocations of the ids in use. -/
namespace FreshPlayer
namespace ResourceTable

variable {destructors : ℕ → Option ℕ}

/-- An allocation returns neither 0 nor the id of a resource in the table. -/
def ReturnsFreshId (s : State) : Action → Prop
  | .allocate _ _ => s.resTblNext ≠ 0 ∧ s.resTbl.lookup s.resTblNext = none
  | _ => True

/-- `born id` is the number, from 1, of the last allocation that returned `id`. -/
structure Dated extends State where
  born : ℤ → ℕ

/-- The allocation under way. -/
def Dated.number (s : Dated) : ℕ := s.allocated.length+1

def Dated.record (s : Dated) : Action → ℤ → ℕ
  | .allocate _ _ => fun id => if id = s.resTblNext then s.number else s.born id
  | _ => s.born

def Dated.step (destructors : ℕ → Option ℕ) (s : Dated) (a : Action) : Option Dated :=
  (ResourceTable.step destructors s.toState a).map fun t => ⟨t,s.record a⟩

def datedMachine (destructors : ℕ → Option ℕ) : Machine Dated Action :=
  ⟨⟨.create,fun _ => 0⟩,Dated.step destructors⟩

/-- The number of an allocation is no multiple of 2^32, and no resource in the table was
allocated a multiple of 2^32 allocations earlier. -/
def Unrepeated (s : Dated) : Action → Prop
  | .allocate _ _ => ¬(2^32 : ℤ) ∣ s.number ∧
      ∀ id, (s.resTbl.lookup id).isSome = true → ¬(2^32 : ℤ) ∣ (s.number : ℤ) - s.born id
  | _ => True

/-! What a section does to the counter and to the ids in the table. -/

/-- Only resources already there are in the table afterwards. -/
structure NoNewIds (s t : State) : Prop where
  next : t.resTblNext = s.resTblNext
  allocated : t.allocated = s.allocated
  ids : ∀ id, (t.resTbl.lookup id).isSome = true → (s.resTbl.lookup id).isSome = true

theorem NoNewIds.of_table {s t : State} (hn : t.resTblNext = s.resTblNext)
    (ha : t.allocated = s.allocated) (ht : t.resTbl = s.resTbl) : NoNewIds s t :=
  ⟨hn,ha,fun id h => by rw [← ht]; exact h⟩

theorem NoNewIds.put {s t : State} {id : ℤ} {r r' : Resource}
    (hl : s.resTbl.lookup id = some r) (hn : t.resTblNext = s.resTblNext)
    (ha : t.allocated = s.allocated) (ht : t.resTbl = s.resTbl.insert id r') : NoNewIds s t := by
  refine ⟨hn,ha,fun k hk => ?_⟩
  rw [ht,isSome_lookup_insert hl] at hk
  exact hk

theorem NoNewIds.erase {s t : State} {id : ℤ} (hn : t.resTblNext = s.resTblNext)
    (ha : t.allocated = s.allocated) (ht : t.resTbl = s.resTbl.erase id) : NoNewIds s t := by
  refine ⟨hn,ha,fun k hk => ?_⟩
  obtain ⟨r,hr⟩ := Option.isSome_iff_exists.mp hk
  rw [ht] at hr
  rw [(lookup_erase_cases hr).2]
  rfl

theorem ref_noNewIds (s : State) (t : ℕ) (resource : ℤ) :
    NoNewIds s (refBy s t resource) := by
  unfold refBy ppResourceRef
  cases hl : s.resTbl.lookup resource with
  | none => exact .of_table rfl rfl rfl
  | some r => exact .put hl rfl rfl rfl

theorem acquire_noNewIds (s : State) (t : ℕ) (resource : ℤ) (type : ℕ) :
    NoNewIds s (acquireBy s t resource type) := by
  rcases acquireBy_cases s t resource type with he | ⟨gr,hl,_,_,he⟩ <;> rw [he]
  · exact .of_table rfl rfl rfl
  · exact .put hl rfl rfl rfl

theorem unlock_noNewIds {s s' : State} (t : ℕ) (resource : ℤ) (hn : s'.resTblNext = s.resTblNext)
    (ha : s'.allocated = s.allocated) (ht : s'.resTbl = s.resTbl) :
    NoNewIds s (unlockSection s' t resource) := by
  unfold unlockSection
  split
  · exact .of_table hn ha ht
  · rename_i r hl
    rw [ht] at hl
    exact .put hl hn ha (by rw [← ht]; rfl)

theorem unref_noNewIds {s s' : State} (t : ℕ) (resource : ℤ) (hn : s'.resTblNext = s.resTblNext)
    (ha : s'.allocated = s.allocated) (ht : s'.resTbl = s.resTbl) :
    NoNewIds s (unrefSection destructors s' t resource) := by
  unfold unrefSection
  split
  · exact .of_table hn ha ht
  · rename_i r hl
    rw [ht] at hl
    dsimp only
    split_ifs
    · exact .erase hn ha (by rw [← ht])
    · exact .put hl hn ha (by rw [← ht]; rfl)

/-- Ids enter the table by allocation only. -/
theorem step_noNewIds {s u : State} {a : Action} (ha : ∀ t type, a ≠ .allocate t type)
    (hu : step destructors s a = some u) : NoNewIds s u := by
  cases a with
  | allocate t type => exact absurd rfl (ha t type)
  | ref t resource =>
    simp only [step] at hu
    split at hu <;> cases hu
    exact ref_noNewIds s t resource
  | unref t resource =>
    simp only [step] at hu
    split at hu <;> cases hu
    exact unref_noNewIds t resource rfl rfl rfl
  | acquire t resource type =>
    simp only [step] at hu
    split at hu <;> cases hu
    exact acquire_noNewIds s t resource type
  | release a =>
    simp only [step] at hu
    split at hu <;> cases hu
    exact unlock_noNewIds a.thread a.resource rfl rfl rfl
  | releaseUnref t =>
    simp only [step] at hu
    split at hu <;> cases hu
    exact unref_noNewIds t _ rfl rfl rfl
  | destroy t =>
    simp only [step] at hu
    split at hu <;> cases hu
    exact .of_table rfl rfl rfl
  | destructorReturns t =>
    simp only [step] at hu
    split at hu <;> cases hu
    exact .of_table rfl rfl rfl

/-! Ids are the numbers of their allocations, wrapped. -/

structure Dates (s : Dated) : Prop where
  next : s.resTblNext = (s.number : ℤ).bmod (2^32)
  ids : ∀ id, (s.resTbl.lookup id).isSome = true → id = (s.born id : ℤ).bmod (2^32)

theorem bmod_eq_bmod_iff_dvd (m k : ℤ) :
    m.bmod (2^32) = k.bmod (2^32) ↔ (2^32 : ℤ) ∣ m - k := by
  rw [Int.bmod_eq_bmod_iff_bmod_sub_eq_zero,← Int.dvd_iff_bmod_eq_zero]
  norm_cast

theorem Dates.fresh_iff {s : Dated} (h : Dates s) (a : Action) :
    ReturnsFreshId s.toState a ↔ Unrepeated s a := by
  cases a with
  | allocate t type =>
    refine and_congr (not_congr ?_) ?_
    · have hz := bmod_eq_bmod_iff_dvd s.number 0
      rw [Int.zero_bmod,sub_zero] at hz
      rw [h.next,hz]
    · constructor
      · intro hn id hs hd
        have hid := h.ids id hs
        rw [h.next,(bmod_eq_bmod_iff_dvd _ _).mpr hd,← hid] at hn
        simp [hn] at hs
      · intro hall
        by_contra hn
        have hs := Option.isSome_iff_ne_none.mpr hn
        refine hall _ hs ((bmod_eq_bmod_iff_dvd _ _).mp ?_)
        rw [← h.ids _ hs,h.next]
  | _ => exact Iff.rfl

theorem Dates.create : Dates ⟨.create,fun _ => 0⟩ where
  next := by simp [Dated.number,State.create,Int.bmod]
  ids id h := by simp [State.create] at h

theorem Dates.allocate {s : Dated} (h : Dates s) (t type : ℕ) :
    Dates ⟨allocateBy s.toState t type,s.record (.allocate t type)⟩ where
  next := by
    have hlen : (s.allocated ++ [type]).length = s.number := by simp [Dated.number]
    change (s.resTblNext+1).bmod (2^32) = (((s.allocated ++ [type]).length+1 : ℕ) : ℤ).bmod (2^32)
    rw [hlen,h.next,Int.bmod_add_bmod,Nat.cast_add,Nat.cast_one]
  ids id hs := by
    simp only [Dated.record]
    by_cases hid : id = s.resTblNext
    · rw [if_pos hid,hid,h.next]
    · rw [if_neg hid]
      refine h.ids id ?_
      simpa only [allocateBy,ppResourceAllocate,State.put,AList.lookup_insert_ne hid] using hs

theorem Dates.other {s : Dated} {t : State} (h : Dates s) (hn : NoNewIds s.toState t) :
    Dates ⟨t,s.born⟩ where
  next := by
    change t.resTblNext = ((t.allocated.length+1 : ℕ) : ℤ).bmod (2^32)
    rw [hn.next,hn.allocated]
    exact h.next
  ids id hs := h.ids id (hn.ids id hs)

theorem Dates.step {s u : Dated} {a : Action} (h : Dates s)
    (hu : s.step destructors a = some u) : Dates u := by
  obtain ⟨t,ht,rfl⟩ := Option.map_eq_some_iff.mp hu
  cases a with
  | allocate th type =>
    simp only [ResourceTable.step] at ht
    split at ht <;> cases ht
    exact h.allocate th type
  | _ => exact h.other (step_noNewIds (by simp) ht)

/-- In every run, of any length, all allocations return fresh ids exactly if none of them
repeats an id: the number of an allocation is no multiple of 2^32 and no resource in the
table was allocated a multiple of 2^32 allocations earlier. -/
theorem fresh_ids_iff_unrepeated (destructors : ℕ → Option ℕ) (ls : List Action) :
    (machine destructors).EachFrom ReturnsFreshId (machine destructors).start ls ↔
      (datedMachine destructors).EachFrom Unrepeated (datedMachine destructors).start ls := by
  suffices hruns : ∀ s : Dated, Dates s → ((machine destructors).EachFrom ReturnsFreshId s.toState ls ↔
      (datedMachine destructors).EachFrom Unrepeated s ls) from hruns _ .create
  induction ls with
  | nil => exact fun _ _ => Iff.rfl
  | cons a ls ih =>
    intro s hd
    refine and_congr (hd.fresh_iff a) ⟨fun h u hu => ?_,fun h t ht => ?_⟩
    · obtain ⟨t,ht,rfl⟩ := Option.map_eq_some_iff.mp hu
      exact (ih _ (hd.step hu)).mp (h t ht)
    · have hu : s.step destructors a = some ⟨t,s.record a⟩ := Option.map_eq_some_iff.mpr ⟨t,ht,rfl⟩
      exact (ih _ (hd.step hu)).mpr (h _ hu)

/-! A resource kept while others come and go. -/

/-- A resource is allocated and given up at once. -/
def comeAndGo (id : ℤ) : List Action :=
  [.allocate 0 5,.unref 0 id,.destroy 0,.destructorReturns 0]

/-- The allocations with the numbers from `m` to `m+n-1`. -/
def manyComeAndGo : ℕ → ℕ → List Action
  | 0, _ => []
  | n+1, m => comeAndGo ((m : ℤ).bmod (2^32)) ++ manyComeAndGo n (m+1)

/-- The thread is in plain code, the next allocation has the number `m`, and the
resource with id 1 is in the table. -/
structure Idle (s : State) (m : ℕ) : Prop where
  frames : s.frames = []
  next : s.resTblNext = (m : ℤ).bmod (2^32)
  kept : (s.resTbl.lookup 1).isSome = true

theorem comeAndGo_exec {s : State} {m : ℕ} (h : Idle s m) (hne : (m : ℤ).bmod (2^32) ≠ 1) :
    ∃ u, (machine fun _ => none).exec s (comeAndGo ((m : ℤ).bmod (2^32))) = some u ∧
      Idle u (m+1) := by
  obtain ⟨resTbl,next,frames,tokens,acquired,allocated,refs,unrefs,destroyed⟩ := s
  obtain ⟨hf,hn,hk⟩ := h
  simp only at hf hn hk
  subst hf
  rw [← hn] at hne ⊢
  simp only [comeAndGo,Machine.exec,machine,step,State.free,State.top,allocateBy,ppResourceAllocate,
    State.put,unrefSection,State.pop,List.find?_nil,List.mem_cons,true_or,and_self,if_true,
    AList.lookup_insert,List.find?_cons,beq_self_eq_true,Option.bind_some,sub_self,le_refl,
    List.eraseP_cons,cond_true]
  refine ⟨_,rfl,rfl,?_,?_⟩
  · rw [hn,Int.bmod_add_bmod]
    push_cast
    rfl
  · rw [AList.lookup_erase_ne (Ne.symm hne),AList.lookup_insert_ne (Ne.symm hne)]
    exact hk

/-- The id 1 does not come back before 2^32 allocations. -/
theorem bmod_ne_one {m : ℕ} (h2 : 2 ≤ m) (hm : m ≤ 2^32) : (m : ℤ).bmod (2^32) ≠ 1 := by
  intro h
  have hd : (2^32 : ℤ) ∣ (m : ℤ) - 1 := (bmod_eq_bmod_iff_dvd m 1).mp h
  have hle := Int.le_of_dvd (by omega) hd
  omega

theorem manyComeAndGo_exec {n m : ℕ} {s : State} (h : Idle s m) (h2 : 2 ≤ m)
    (hm : m+n ≤ 2^32+1) :
    ∃ u, (machine fun _ => none).exec s (manyComeAndGo n m) = some u ∧ Idle u (m+n) := by
  induction n generalizing m s with
  | zero => exact ⟨s,rfl,h⟩
  | succ n ih =>
    obtain ⟨t,ht,hidle⟩ := comeAndGo_exec h (bmod_ne_one h2 (by omega))
    obtain ⟨u,hu,hlast⟩ := ih hidle (by omega) (by omega)
    refine ⟨u,?_,by rwa [Nat.add_right_comm,Nat.add_assoc] at hlast⟩
    rw [manyComeAndGo,Machine.exec_append,ht]
    exact hu

/-- The first resource is kept while 2^32-1 others come and go. -/
def idsComeBack : List Action := .allocate 0 5::manyComeAndGo (2^32-1) 2

theorem idsComeBack_replaces_live : ¬∀ ls : List Action,
    (machine fun _ => none).EachFrom ReturnsFreshId (machine fun _ => none).start ls := by
  intro h
  have hfirst : Idle (allocateBy .create 0 5) 2 := by
    refine ⟨rfl,by simp [allocateBy,ppResourceAllocate,State.create],?_⟩
    simp only [allocateBy,ppResourceAllocate,State.create,State.put,AList.lookup_insert,Option.isSome_some]
  obtain ⟨s,hs,hidle⟩ := manyComeAndGo_exec (n := 2^32-1) hfirst (le_refl 2) (by omega)
  have hrun : (machine fun _ => none).exec (machine fun _ => none).start idsComeBack = some s := by
    have hstep : (machine fun _ => none).step (machine fun _ => none).start (.allocate 0 5) =
        some (allocateBy .create 0 5) := rfl
    rw [idsComeBack,Machine.exec_cons,hstep,Option.bind_some]
    exact hs
  have hlast := (h (idsComeBack ++ [.allocate 0 5])).last hrun
  have hnext : s.resTblNext = 1 := by
    rw [hidle.next]
    decide
  rw [ReturnsFreshId,hnext] at hlast
  have hkept := hidle.kept
  rw [hlast.2] at hkept
  exact absurd hkept (by decide)

end ResourceTable
end FreshPlayer
