import FreshPlayer.AsyncNetworkOwned
import FreshPlayer.Transition

/-! The lives of network tasks, each with the rest of the network as it happens to be: when a
task is gone, everything it owned was given back once. -/
namespace FreshPlayer
namespace AsyncNetwork

open Deed

/-- A task while it is there, with what it owns. -/
structure Life where
  task : Option Task
  owned : Owned

/-- What happens to a task; the rest of the network is as it is at the time. -/
inductive LifeAction
  | run (s : State) (r : Returned)
  | occur (o : Occurrence)
  | abort

/-- A disconnect of its socket aborts the task when the network thread has none in hand. -/
def Life.step (l : Life) : LifeAction → Option Life
  | .run s r => l.task.bind fun t => (runTask s t r).map fun p => ⟨p.2,l.owned.runTask s t r⟩
  | .occur o => l.task.bind fun t => (t.pc.occur o).map fun pc =>
    ⟨some { t with pc := pc, onWorker := true },l.owned⟩
  | .abort => l.task.bind fun t =>
    if t.mapped = true ∧ t.onWorker = false then some ⟨t.leftover,l.owned.abort⟩ else none

/-- The lives of a task that has just been made. -/
def life (t : Task) (fromAddress : Bool) : Machine Life LifeAction :=
  ⟨⟨some t,.create t.type fromAddress⟩,Life.step⟩

/-- The task is freed, or waits for an event that could not be added. -/
def Life.Over (l : Life) : Prop := ∀ t ∈ l.task, t.pc.isUnheard = true

/-- A task has no event yet when one is mapped, and a receive for a from-address finds its
socket; a task that is aborted owns an event that has been added, and nothing else. -/
def Tidy (l : Life) : LifeAction → Prop
  | .run s _ => ∀ t ∈ l.task, l.owned.RunTidy s t
  | .occur _ => True
  | .abort => (l.owned.host = none ∧ l.owned.addr = none ∧ l.owned.addrFromResource = none) ∧
    ∀ t ∈ l.task, t.pc.isAdding = false

instance (l : Life) : ∀ a, Decidable (Tidy l a)
  | .run s _ => inferInstanceAs (Decidable (∀ t ∈ l.task, l.owned.RunTidy s t))
  | .occur _ => .isTrue trivial
  | .abort => inferInstanceAs (Decidable (_ ∧ ∀ t ∈ l.task, t.pc.isAdding = false))

/-- While the task is there. -/
structure Life.Alive (l : Life) (t : Task) : Prop where
  task : l.task = some t
  custody : Custody l.owned.log l.owned.held
  fits : Fits t l.owned

/-- An event is added after it was freed, by a thread whose task was aborted meanwhile. -/
inductive Life.Inv (l : Life) : Prop
  | alive (t : Task) (h : l.Alive t)
  | gone (ht : l.task = none) (hc : Custody l.owned.log l.owned.held) (hh : l.owned.held = [])
  | misused (ht : l.task = none) (hs : ¬Sound l.owned.log)

/-- Everything is there or was given back once, nothing was used afterwards, and no thread is
about to use a freed event. -/
structure Life.Good (l : Life) : Prop where
  complete : Complete l.owned.log l.owned.held
  sound : Sound l.owned.log
  unfreed : ∀ t ∈ l.task, t.pc.isFreed = false

variable {l l' : Life}

theorem Life.Inv.alive_of_step {a : LifeAction} (h : l.Inv) (hs : l.step a = some l') :
    ∃ t, l.Alive t := by
  have hnone : l.task = none → False := by
    intro hn
    cases a <;> simp [Life.step,hn] at hs
  cases h with
  | alive t ht => exact ⟨t,ht⟩
  | gone ht _ _ => exact (hnone ht).elim
  | misused ht _ => exact (hnone ht).elim

/-- From what was carried to what is there. -/
theorem Life.Alive.carried {t : Task} {o : Owned} {u : Option Task} {g : Prop} (h : l.Alive t)
    (hf : t.pc.isFreed = false) (hc : Carries l.owned.books o.books g)
    (hu : ∀ v ∈ u, v.pc.isFreed = false) : Life.Good ⟨u,o⟩ ↔ l.Good ∧ g := by
  have hcomplete := hc.complete h.custody
  constructor
  · intro hgood
    obtain ⟨hbefore,hg⟩ := hcomplete.mp hgood.complete
    refine ⟨⟨hbefore,h.custody.sound,fun v hv => ?_⟩,hg⟩
    rw [h.task] at hv
    cases hv
    exact hf
  · rintro ⟨hgood,hg⟩
    exact ⟨hcomplete.mpr ⟨hgood.complete,hg⟩,(hc.custody h.custody).sound,hu⟩

/-- What a step does to the invariant and to what was given back. -/
structure Life.Steps (l l' : Life) (g : Prop) : Prop where
  inv : l'.Inv
  good : l'.Good ↔ l.Good ∧ g

theorem Life.Alive.run {t : Task} {s : State} {r : Returned} {p : State × Option Task}
    (h : l.Alive t) (hr : runTask s t r = some p) :
    l.Steps ⟨p.2,l.owned.runTask s t r⟩ (l.owned.RunTidy s t) := by
  cases hf : t.pc.isFreed with
  | false =>
    have htends := tends_runTask h.fits hf hr
    refine ⟨?_,h.carried hf htends.carries fun v hv => (htends.fits v hv).2⟩
    have hcustody := htends.carries.custody h.custody
    cases hp : p.2 with
    | none => exact .gone rfl hcustody (htends.gone hp)
    | some u => exact .alive u ⟨rfl,hcustody,(htends.fits u hp).1⟩
  | true =>
    obtain ⟨_,e,he,hrel⟩ := h.fits.freed hf
    have hbad : ∀ g, l.Good ∧ g → False := fun g hg =>
      absurd (hf.symm.trans (hg.1.unfreed t h.task)) nofun
    have hafter : p.2 = none ∧ l.owned.runTask s t r = l.owned.uses l.owned.ev := by
      unfold Pc.isFreed at hf
      unfold FreshPlayer.AsyncNetwork.runTask at hr
      unfold Owned.runTask
      cases hpc : t.pc <;> rw [hpc] at hf hr <;> cases hf
      cases hr
      exact ⟨rfl,rfl⟩
    rw [hafter.1,hafter.2]
    have hsound : ¬Sound (l.owned.uses l.owned.ev).log := by
      rw [Option.mem_def.mp he]
      exact fun hs => hs.1 hrel
    exact ⟨.misused rfl hsound,fun hgood => absurd hgood.sound hsound,fun hg => (hbad _ hg).elim⟩

theorem Life.Alive.occur {t : Task} {o : Occurrence} {pc : Pc} (h : l.Alive t)
    (ho : t.pc.occur o = some pc) :
    l.Steps ⟨some { t with pc := pc, onWorker := true },l.owned⟩ True := by
  have hpc : t.pc.isFreed = false ∧ pc.isFreed = false ∧ pc.isAdding = false ∧
      pc.isUnheard = false ∧ pc.callback = t.pc.callback ∧ t.pc ≠ .push ∧ t.pc ≠ .stage3 := by
    unfold Pc.occur at ho
    split at ho
    · rename_i callback result hat
      cases ho
      rw [hat]
      exact ⟨rfl,rfl,rfl,rfl,rfl,nofun,nofun⟩
    · rename_i ev timeout hat
      cases ho
      rw [hat]
      exact ⟨rfl,rfl,rfl,rfl,rfl,nofun,nofun⟩
    · cases ho
  obtain ⟨hf,hf',hadding,hunheard,hcallback,hpush,hstage3⟩ := hpc
  refine ⟨.alive _ ⟨rfl,h.custody,h.fits.connects hstage3 hcallback,
    h.fits.receives hpush hcallback,fun ha => ?_,fun hu => ?_,fun hf => ?_⟩,
    h.carried hf (.refl _) fun v hv => ?_⟩
  · exact absurd (ha.symm.trans hadding) nofun
  · exact absurd (hu.symm.trans hunheard) nofun
  · exact absurd (hf.symm.trans hf') nofun
  · cases hv
    exact hf'

theorem exists_leftover {t : Task} (h : t.pc.isAdding = true) :
    ∃ u, t.leftover = some u ∧ u.pc.isFreed = true ∧ u.mapped = false ∧
      u.pc.isAdding = false ∧ u.pc.isUnheard = false := by
  unfold Task.leftover
  cases hpc : t.pc with
  | adding ev => exact ⟨_,rfl,rfl,rfl,rfl,rfl⟩
  | _ => rw [hpc] at h; cases h

/-- Where its thread is about to add the event, the task leaves a freed one behind. -/
theorem Life.Alive.abort {t : Task} (h : l.Alive t) (hm : t.mapped = true) :
    l.Steps ⟨t.leftover,l.owned.abort⟩ (Tidy l .abort) := by
  have hcarries := l.owned.carries_abort
  have hcustody := hcarries.custody h.custody
  have hf : t.pc.isFreed = false := by
    by_contra hne
    have hmapped := (h.fits.freed (by simpa using hne)).1
    exact absurd (hm.symm.trans hmapped) nofun
  have htask : (∀ u ∈ l.task, u.pc.isAdding = false) ↔ t.pc.isAdding = false := by
    rw [h.task]
    exact ⟨fun hu => hu t rfl,fun ht v hv => Option.some.inj hv ▸ ht⟩
  cases ha : t.pc.isAdding with
  | false =>
    have hleft : t.leftover = none := leftover_none ha
    have hgood := h.carried hf hcarries fun v hv => absurd hv (Option.not_mem_none v)
    rw [hleft]
    refine ⟨.gone rfl hcustody l.owned.held_abort,hgood.trans (and_congr_right fun _ => ?_)⟩
    exact (and_iff_left (htask.mpr ha)).symm
  | true =>
    obtain ⟨hev,hne⟩ := h.fits.adding ha
    obtain ⟨e,he⟩ := Option.ne_none_iff_exists'.mp hne
    obtain ⟨u,hleft,hfreed,hmapped,hadding,hunheard⟩ := exists_leftover ha
    have hrelease : .release e ∈ l.owned.abort.log := by
      simp [Owned.abort,Owned.eventFree,Owned.gSliceFree,he]
    have hfits : Fits u l.owned.abort :=
      ⟨fun hn => absurd rfl hn,fun hn => absurd rfl hn,
        fun hn => absurd (hn.symm.trans hadding) nofun,
        fun hn => absurd (hn.symm.trans hunheard) nofun,fun _ => ⟨hmapped,e,hev.trans he,hrelease⟩⟩
    rw [hleft]
    refine ⟨.alive u ⟨rfl,hcustody,hfits⟩,iff_of_false (fun hgood => ?_) fun hg => ?_⟩
    · exact absurd (hfreed.symm.trans (hgood.unfreed u rfl)) nofun
    · exact absurd (ha.symm.trans (htask.mp hg.2.2)) nofun

theorem Life.steps {a : LifeAction} (h : l.Inv) (hs : l.step a = some l') :
    l.Steps l' (Tidy l a) := by
  obtain ⟨t,ht⟩ := h.alive_of_step hs
  cases a with
  | run s r =>
    simp only [Life.step,ht.task,Option.bind_some,Option.map_eq_some_iff] at hs
    obtain ⟨p,hp,rfl⟩ := hs
    have hsteps := ht.run hp
    refine ⟨hsteps.inv,hsteps.good.trans (and_congr_right fun _ => ?_)⟩
    rw [Tidy,ht.task]
    exact ⟨fun htidy v hv => Option.some.inj hv ▸ htidy,fun htidy => htidy t rfl⟩
  | occur o =>
    simp only [Life.step,ht.task,Option.bind_some,Option.map_eq_some_iff] at hs
    obtain ⟨pc,hpc,rfl⟩ := hs
    exact ht.occur hpc
  | abort =>
    simp only [Life.step,ht.task,Option.bind_some] at hs
    split at hs
    · rename_i hc
      cases hs
      exact ht.abort hc.1
    · cases hs

theorem Owned.create_books (type : TaskType) (fromAddress : Bool) :
    (create type fromAddress).books = ([],[]) ∨
      (create type fromAddress).books = ([.create 0],[0]) := by
  cases type <;> cases fromAddress <;> decide

theorem Owned.create_fits {t : Task} (ht : t.pc = .push) (fromAddress : Bool) :
    Fits t (create t.type fromAddress) := by
  have haddr : (create t.type fromAddress).addr = none := by
    cases t.type <;> cases fromAddress <;> rfl
  have hfrom : (create t.type fromAddress).addrFromResource ≠ none → t.type = .udpRecv := by
    cases t.type <;> cases fromAddress <;> decide
  refine ⟨fun hne => absurd haddr hne,fun hne => .inl ⟨ht,hfrom hne⟩,fun ha => ?_,fun hu => ?_,
    fun hf => ?_⟩
  · rw [ht] at ha
    cases ha
  · rw [ht] at hu
    cases hu
  · rw [ht] at hf
    cases hf

theorem life_start {t : Task} (ht : t.pc = .push) (fromAddress : Bool) :
    (life t fromAddress).start.Inv ∧ (life t fromAddress).start.Good := by
  let o : Owned := .create t.type fromAddress
  have hbooks : Custody o.books.1 o.books.2 ∧ Complete o.books.1 o.books.2 := by
    rcases Owned.create_books t.type fromAddress with hb | hb
    · rw [hb]
      exact ⟨.nil,.nil⟩
    · rw [hb]
      exact ⟨Custody.nil.create,Custody.nil.complete_create.mpr .nil⟩
  refine ⟨.alive t ⟨rfl,hbooks.1,Owned.create_fits ht fromAddress⟩,hbooks.2,hbooks.1.sound,?_⟩
  rintro u ⟨⟩
  rw [ht]
  rfl

/-- At the end of a life. -/
theorem Life.Inv.over (h : l.Inv) (ho : l.Over) :
    (Complete l.owned.log [] ∧ Sound l.owned.log) ↔ l.task = none ∧ l.Good := by
  cases h with
  | alive t ht =>
    have hevent : l.owned.event ≠ none := ht.fits.unheard (ho t ht.task)
    refine iff_of_false (fun hc => ?_) fun hn => ?_
    · have hcustody : Custody l.owned.log (l.owned.held ++ []) := by
        rw [List.append_nil]
        exact ht.custody
      exact hevent (Owned.held_eq_nil.mp (hcustody.complete_lose.mp hc.1).2).1
    · rw [ht.task] at hn
      cases hn.1
  | gone ht hc hh =>
    rw [hh] at hc
    constructor
    · rintro ⟨hcomplete,hsound⟩
      refine ⟨ht,by rwa [hh],hsound,fun t htask => ?_⟩
      rw [ht] at htask
      cases htask
    · rintro ⟨_,hgood⟩
      exact ⟨hh ▸ hgood.complete,hgood.sound⟩
  | misused ht hs => exact iff_of_false (fun hc => hs hc.2) fun hg => hs hg.2.sound

def connectingTo (hostIsAddress : Bool) : Task :=
  { Task.create .tcpConnect (some ⟨0,7,0⟩) 1 5 with hostIsAddress := hostIsAddress }

/-- A socket is there. -/
def connectable : State := ppResourceAllocate { machine.start with fds := [5] } .tcpSocket 5

/-- The host is an address, and is connected. -/
def connectAtOnce : List LifeAction :=
  [.run connectable ⟨0,.other⟩,.run connectable ⟨0,.other⟩,.run connectable ⟨-1,.einprogress⟩,
    .run connectable ⟨0,.other⟩,.run connectable ⟨0,.other⟩,.occur (.event false),
    .run connectable ⟨0,.other⟩]

/-- What is left when it is freed. -/
def freedWith (ev : Option ℕ) (log : List Deed) : Life := ⟨none,⟨none,none,none,none,ev,log⟩⟩

/-- The first address of the host is refused, the second is connected. -/
def connectAtSecond : List LifeAction :=
  [.run connectable ⟨1,.other⟩,.occur (.dns ⟨true,.ipv4A,2⟩),.run connectable ⟨0,.other⟩,
    .run connectable ⟨-1,.einprogress⟩,.run connectable ⟨0,.other⟩,.run connectable ⟨0,.other⟩,
    .occur (.event false),.run connectable ⟨-1,.econnrefused⟩,
    .run connectable ⟨-1,.einprogress⟩,.run connectable ⟨0,.other⟩,.run connectable ⟨0,.other⟩,
    .occur (.event false),.run connectable ⟨0,.other⟩]


end AsyncNetwork
end FreshPlayer
