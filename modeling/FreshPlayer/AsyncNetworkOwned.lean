import FreshPlayer.AsyncNetworkSections
import FreshPlayer.Custody

/-! What a network task owns, from the request that makes it to the end of its memory: its
event, its host string, its addresses and its reference on the resource of the from-address. -/
namespace FreshPlayer
namespace AsyncNetwork

open Deed

/-- What is `none` is null in the code, and `ev` is the local pointer of the thread that adds
an event. -/
structure Owned where
  event : Option ℕ
  host : Option ℕ
  addr : Option ℕ
  addrFromResource : Option ℕ
  ev : Option ℕ
  log : List Deed
  deriving DecidableEq, Repr

namespace Owned

def uses (o : Owned) (thing : Option ℕ) : Owned := { o with log := thing.toList.map .use ++ o.log }

def eventFree (o : Owned) : Owned :=
  { o with event := none, log := o.event.toList.map .release ++ o.log }

def freeHost (o : Owned) : Owned :=
  { o with host := none, log := o.host.toList.map .release ++ o.log }

def freeAddr (o : Owned) : Owned :=
  { o with addr := none, log := o.addr.toList.map .release ++ o.log }

def unrefAddrFromResource (o : Owned) : Owned :=
  { o with addrFromResource := none, log := o.addrFromResource.toList.map .release ++ o.log }

/-- Whatever the task still has is lost. -/
def gSliceFree (o : Owned) : Owned := ⟨none,none,none,none,o.ev,o.log⟩

def mallocAddr (o : Owned) : Owned :=
  { o with addr := some o.log.length, log := .create o.log.length::o.log }

/-- With `event_new`, whose event nobody else has before. -/
def addEventMapping (o : Owned) : Owned :=
  { o with event := some o.log.length, ev := some o.log.length
           log := .create o.log.length::o.log }

def taskDestroy (o : Owned) : Owned := o.eventFree.freeHost.gSliceFree

def handleTcpConnectStage4 (o : Owned) (s : State) (t : Task) (timeout : Bool) (r : Returned) :
    Owned :=
  match s.acquire t.resource .tcpSocket with
  | none => (o.uses o.host).freeAddr.taskDestroy
  | some ts =>
    if !timeout && (s.returns ts.sock r).ret = 0 then o.freeAddr.taskDestroy
    else if t.addrPtr+1 < t.addrCount then o
    else (o.uses o.host).freeAddr.taskDestroy

def handleTcpConnectStage3 (o : Owned) (s : State) (t : Task) (r : Returned) : Owned :=
  let (o,r) := match t.addrType with
    | .ipv4A | .ipv6Aaaa => (o.uses o.addr,s.returns t.sock r)
    | .other => (o,⟨-1,r.errno⟩)
  if r.ret ≠ 0 ∧ r.errno ≠ .einprogress then (o.uses o.host).freeAddr.taskDestroy else o

def handleTcpConnectStage2 (o : Owned) (result : DnsResult) : Owned :=
  if result.ok = false ∨ result.count < 1 then (o.uses o.host).taskDestroy
  else match result.type with
    | .ipv4A | .ipv6Aaaa => o.mallocAddr
    | .other => (o.uses o.host).taskDestroy

def queueDnsRequest (o : Owned) (r : Returned) : Owned :=
  let o := o.uses o.host
  if r.ret = 0 then (o.uses o.host).taskDestroy else o

def handleTcpConnectStage1 (o : Owned) (t : Task) (r : Returned) : Owned :=
  let o := o.uses o.host
  if t.hostIsAddress then o else o.queueDnsRequest r

def handleTcpConnectWithNetAddress (o : Owned) (t : Task) : Owned :=
  match t.netaddr with
  | .ipv4A | .ipv6Aaaa => o
  | .other => o.taskDestroy

def newSocketEvent (o : Owned) (s : State) (t : Task) (type : ResourceType) : Owned :=
  match s.acquire t.resource type with
  | none => o.taskDestroy
  | some _ => o

def handleUdpRecvStage1 (o : Owned) (s : State) (t : Task) : Owned :=
  match s.acquire t.resource .udpSocket with
  | none => o.taskDestroy
  | some _ => o.uses o.addrFromResource

def handleUdpSendStage1 (o : Owned) (s : State) (t : Task) (r : Returned) : Owned :=
  match s.acquire t.resource .udpSocket with
  | none => o.taskDestroy
  | some us => if 0 ≤ (s.returns us.sock r).ret then o.taskDestroy else o

def handleUdpRecvStage2 (o : Owned) (s : State) (t : Task) : Owned :=
  match s.acquire t.resource .udpSocket with
  | none => o.taskDestroy
  | some _ => (o.uses o.addrFromResource).unrefAddrFromResource.taskDestroy

/-- What `handle_disconnect_stage2` does to another task. -/
def abort (o : Owned) : Owned := o.eventFree.gSliceFree

def handleHostResolveStage2 (o : Owned) (s : State) (t : Task) (result : DnsResult) : Owned :=
  if result.ok = false ∨ result.count < 1 then (o.uses o.host).taskDestroy
  else match s.acquire t.resource .hostResolver with
    | none => o.taskDestroy
    | some _ => match result.type with
      | .ipv4A | .ipv6Aaaa => o.taskDestroy
      | .other => (o.uses o.host).taskDestroy

def asyncNetworkTaskPush (o : Owned) (s : State) (t : Task) (r : Returned) : Owned :=
  match t.type with
  | .tcpConnect => o.handleTcpConnectStage1 t r
  | .tcpConnectWithNetaddress => o.handleTcpConnectWithNetAddress t
  | .disconnect => o
  | .tcpRead | .tcpWrite => o.newSocketEvent s t .tcpSocket
  | .udpRecv => o.handleUdpRecvStage1 s t
  | .udpSend => o.handleUdpSendStage1 s t r
  | .hostResolve => o.queueDnsRequest r

def dnsCall (o : Owned) (s : State) (t : Task) (callback : DnsCallback) (result : DnsResult) :
    Owned :=
  match callback with
  | .handleTcpConnectStage2 => o.handleTcpConnectStage2 result
  | .handleHostResolveStage2 => o.handleHostResolveStage2 s t result

/-- Reading, writing and sending end the task, and so does its own disconnect. -/
def eventCall (o : Owned) (s : State) (t : Task) (ev : Event) (timeout : Bool) (r : Returned) :
    Owned :=
  match ev.callback with
  | .handleTcpConnectStage4 => o.handleTcpConnectStage4 s t timeout r
  | .handleUdpRecvStage2 => o.handleUdpRecvStage2 s t
  | .handleTcpReadStage2 | .handleTcpWriteStage2 | .handleUdpSendStage2
  | .handleDisconnectStage2 => o.taskDestroy

/-- The next section of the task. -/
def runTask (o : Owned) (s : State) (t : Task) (r : Returned) : Owned :=
  match t.pc with
  | .push => o.asyncNetworkTaskPush s t r
  | .dnsCall callback result => o.dnsCall s t callback result
  | .stage3 => o.handleTcpConnectStage3 s t r
  | .mapping _ => o.addEventMapping
  | .adding _ | .freed _ => o.uses o.ev
  | .eventCall ev timeout => o.eventCall s t ev timeout r
  | .dns _ | .waiting _ | .unheard _ => o

end Owned

/-- The host is copied by a connect and by a resolve; `fromAddress` says that a receive is one
of `ppb_udp_socket_recv_from_1_0`. -/
def Owned.create (type : TaskType) (fromAddress : Bool) : Owned :=
  let new : Owned := ⟨none,none,none,none,none,[]⟩
  match type with
  | .tcpConnect | .hostResolve => { new with host := some 0, log := [.create 0] }
  | .udpRecv => if fromAddress then { new with addrFromResource := some 0, log := [.create 0] }
    else new
  | .tcpConnectWithNetaddress | .tcpRead | .tcpWrite | .udpSend | .disconnect => new

/-- The task finds its socket, if it has to give back a reference. -/
def Owned.Finds (o : Owned) (s : State) (t : Task) : Prop :=
  o.addrFromResource ≠ none → s.acquire t.resource .udpSocket ≠ none

/-- An event is mapped for a task that has none. -/
def Owned.RunTidy (o : Owned) (s : State) (t : Task) : Prop :=
  match t.pc with
  | .push | .eventCall _ _ => o.Finds s t
  | .mapping _ => o.event = none
  | _ => True

instance (o : Owned) (s : State) (t : Task) : Decidable (o.Finds s t) :=
  inferInstanceAs (Decidable (_ → _))

instance (o : Owned) (s : State) (t : Task) : Decidable (o.RunTidy s t) := by
  unfold Owned.RunTidy
  split <;> infer_instance

/-! Custody of what a task owns. -/

namespace Owned

variable {o : Owned}

def held (o : Owned) : List ℕ :=
  o.event.toList ++ (o.host.toList ++ (o.addr.toList ++ o.addrFromResource.toList))

def books (o : Owned) : List Deed × List ℕ := (o.log,o.held)

theorem carries_useHost (o : Owned) : Carries o.books (o.uses o.host).books True := by
  refine .useOption fun i hi => ?_
  simp [held,Option.mem_def.mp hi]

theorem carries_useAddr (o : Owned) : Carries o.books (o.uses o.addr).books True := by
  refine .useOption fun i hi => ?_
  simp [held,Option.mem_def.mp hi]

theorem carries_useAddrFromResource (o : Owned) :
    Carries o.books (o.uses o.addrFromResource).books True := by
  refine .useOption fun i hi => ?_
  simp [held,Option.mem_def.mp hi]

theorem carries_useEv (h : o.ev = o.event) : Carries o.books (o.uses o.ev).books True := by
  refine .useOption fun i hi => ?_
  rw [h] at hi
  simp [held,Option.mem_def.mp hi]

theorem carries_eventFree (o : Owned) : Carries o.books o.eventFree.books True :=
  .releaseOption o.log o.event _

theorem carries_freeHost (o : Owned) : Carries o.books o.freeHost.books True := by
  refine ((Carries.perm ?_).trans (.releaseOption o.log o.host _)).congr and_self_iff
  exact List.perm_append_comm_assoc _ _ _

theorem carries_freeAddr (o : Owned) : Carries o.books o.freeAddr.books True := by
  refine ((Carries.perm ?_).trans (.releaseOption o.log o.addr _)).congr and_self_iff
  exact ((List.perm_append_comm_assoc _ _ _).append_left _).trans
    (List.perm_append_comm_assoc _ _ _)

theorem carries_unrefAddrFromResource (o : Owned) :
    Carries o.books o.unrefAddrFromResource.books True := by
  refine ((Carries.perm ?_).trans (.releaseOption o.log o.addrFromResource _)).congr and_self_iff
  refine List.perm_iff_count.mpr fun i => ?_
  simp only [held,unrefAddrFromResource,List.count_append,Option.toList_none,List.count_nil]
  omega

theorem held_eq_nil : o.held = [] ↔
    o.event = none ∧ o.host = none ∧ o.addr = none ∧ o.addrFromResource = none := by
  simp only [held,List.append_eq_nil_iff,Option.toList_eq_nil_iff]

theorem carries_gSliceFree (o : Owned) : Carries o.books o.gSliceFree.books (o.held = []) := by
  have h := Carries.lose o.log o.held []
  rw [List.append_nil] at h
  exact h

theorem carries_taskDestroy (o : Owned) :
    Carries o.books o.taskDestroy.books (o.addr = none ∧ o.addrFromResource = none) := by
  refine ((o.carries_eventFree.trans o.eventFree.carries_freeHost).trans
    (carries_gSliceFree _)).congr ?_
  rw [held_eq_nil]
  simp [eventFree,freeHost]

@[simp] theorem held_taskDestroy (o : Owned) : o.taskDestroy.held = [] := rfl

@[simp] theorem held_abort (o : Owned) : o.abort.held = [] := rfl

theorem carries_abort (o : Owned) : Carries o.books o.abort.books
    (o.host = none ∧ o.addr = none ∧ o.addrFromResource = none) := by
  refine (o.carries_eventFree.trans (carries_gSliceFree _)).congr ?_
  rw [held_eq_nil]
  simp [eventFree]

theorem carries_mallocAddr (h : o.addr = none) : Carries o.books o.mallocAddr.books True := by
  refine ((Carries.create o.log o.held).trans (.perm ?_)).congr and_self_iff
  refine List.perm_iff_count.mpr fun i => ?_
  simp only [held,mallocAddr,h,Option.toList_none,Option.toList_some,List.count_append,
    List.count_cons,List.count_nil]
  omega

theorem carries_addEventMapping (o : Owned) :
    Carries o.books o.addEventMapping.books (o.event = none) := by
  refine ((Carries.lose o.log o.event.toList _).trans (.create o.log _)).congr ?_
  rw [and_iff_left trivial,Option.toList_eq_nil_iff]

end Owned

/-! Sections. -/

def Pc.callback (pc : Pc) : Option EventCallback := pc.event.map Event.callback

/-- Where a task has addresses. -/
def Pc.Connects (pc : Pc) : Prop := pc = .stage3 ∨ pc.callback = some .handleTcpConnectStage4

/-- Where a task can have a reference on the resource of a from-address. -/
def Task.Receives (t : Task) : Prop :=
  (t.pc = .push ∧ t.type = .udpRecv) ∨ t.pc.callback = some .handleUdpRecvStage2

/-- What a task owns fits the place where it is. -/
structure Fits (t : Task) (o : Owned) : Prop where
  addr : o.addr ≠ none → t.pc.Connects
  addrFrom : o.addrFromResource ≠ none → t.Receives
  adding : t.pc.isAdding = true → o.ev = o.event ∧ o.event ≠ none
  unheard : t.pc.isUnheard = true → o.event ≠ none
  freed : t.pc.isFreed = true → t.mapped = false ∧ ∃ e ∈ o.ev, .release e ∈ o.log

/-- A section of a task that owned `o`; nothing is lost exactly if `g`. -/
structure Tends (o : Owned) (p : State × Option Task) (o' : Owned) (g : Prop) : Prop where
  carries : Carries o.books o'.books g
  fits : ∀ u ∈ p.2, Fits u o' ∧ u.pc.isFreed = false
  gone : p.2 = none → o'.held = []

section

variable {o o' : Owned} {s : State} {t : Task} {r : Returned}

theorem Fits.addr_none (h : Fits t o) (h3 : t.pc ≠ .stage3)
    (h4 : t.pc.callback ≠ some .handleTcpConnectStage4) : o.addr = none := by
  by_contra hne
  rcases h.addr hne with hpc | hpc
  · exact h3 hpc
  · exact h4 hpc

theorem Fits.addrFrom_none (h : Fits t o) (hp : t.pc ≠ .push)
    (h2 : t.pc.callback ≠ some .handleUdpRecvStage2) : o.addrFromResource = none := by
  by_contra hne
  rcases h.addrFrom hne with hpc | hpc
  · exact hp hpc.1
  · exact h2 hpc

/-- What a task owns at one place with an event it may own at another with the same event. -/
theorem Fits.connects (h : Fits t o) (h3 : t.pc ≠ .stage3) {pc : Pc}
    (hpc : pc.callback = t.pc.callback) (hne : o.addr ≠ none) : pc.Connects := by
  rcases h.addr hne with hat | hat
  · exact absurd hat h3
  · exact .inr (hpc.trans hat)

theorem Fits.receives (h : Fits t o) (hp : t.pc ≠ .push) {u : Task}
    (hu : u.pc.callback = t.pc.callback) (hne : o.addrFromResource ≠ none) : u.Receives := by
  rcases h.addrFrom hne with hat | hat
  · exact absurd hat.1 hp
  · exact .inr (hu.trans hat)

theorem Tends.congr {p : State × Option Task} {g g' : Prop} (h : Tends o p o' g) (hg : g ↔ g') :
    Tends o p o' g' := propext hg ▸ h

theorem tends_destroy {o' : Owned} (s : State) (h : Carries o.books o'.books True) :
    Tends o (s,none) o'.taskDestroy (o'.addr = none ∧ o'.addrFromResource = none) :=
  ⟨(h.trans o'.carries_taskDestroy).congr (and_iff_right trivial),
    fun u hu => absurd hu (Option.not_mem_none u),fun _ => o'.held_taskDestroy⟩

theorem tends_destroyed {o' : Owned} (s : State) (h : Carries o.books o'.books True)
    (haddr : o'.addr = none) (hfrom : o'.addrFromResource = none) :
    Tends o (s,none) o'.taskDestroy True :=
  (tends_destroy s h).congr (iff_true_intro ⟨haddr,hfrom⟩)

theorem tends_on {u : Task} {g : Prop} (s : State) (h : Carries o.books o'.books g)
    (haddr : o'.addr ≠ none → u.pc.Connects) (hfrom : o'.addrFromResource ≠ none → u.Receives)
    (hadding : u.pc.isAdding = true → o'.ev = o'.event ∧ o'.event ≠ none)
    (hunheard : u.pc.isUnheard = true → o'.event ≠ none) (hfreed : u.pc.isFreed = false) :
    Tends o (s,some u) o' g := by
  refine ⟨h,fun v hv => ?_,nofun⟩
  cases hv
  exact ⟨⟨haddr,hfrom,hadding,hunheard,fun hf => absurd (hf.symm.trans hfreed) nofun⟩,hfreed⟩

/-- A task that owns neither addresses nor a reference goes on. -/
theorem tends_plain {u : Task} (s : State) (h : Carries o.books o'.books True)
    (haddr : o'.addr = none) (hfrom : o'.addrFromResource = none)
    (hadding : u.pc.isAdding = false) (hunheard : u.pc.isUnheard = false)
    (hfreed : u.pc.isFreed = false) : Tends o (s,some u) o' True :=
  tends_on s h (absurd haddr) (absurd hfrom) (fun ha => absurd (ha.symm.trans hadding) nofun)
    (fun hu => absurd (hu.symm.trans hunheard) nofun) hfreed

theorem tends_queueDnsRequest (haddr : o.addr = none) (hfrom : o.addrFromResource = none)
    (callback : DnsCallback) :
    Tends o (queueDnsRequest s t callback r) (o.queueDnsRequest r) True := by
  have huse := o.carries_useHost
  have htwice := (huse.trans (o.uses o.host).carries_useHost).congr and_self_iff
  unfold queueDnsRequest Owned.queueDnsRequest
  dsimp only
  split
  · exact tends_destroyed _ htwice haddr hfrom
  · exact tends_plain _ huse haddr hfrom rfl rfl rfl

theorem tends_handleTcpConnectStage1 (haddr : o.addr = none) (hfrom : o.addrFromResource = none) :
    Tends o (handleTcpConnectStage1 s t r) (o.handleTcpConnectStage1 t r) True := by
  have huse := o.carries_useHost
  unfold handleTcpConnectStage1 Owned.handleTcpConnectStage1
  dsimp only
  split
  · exact tends_plain _ huse haddr hfrom rfl rfl rfl
  · have h := tends_queueDnsRequest (s := s) (t := t) (r := r) (o := o.uses o.host) haddr hfrom
      .handleTcpConnectStage2
    exact ⟨(huse.trans h.carries).congr and_self_iff,h.fits,h.gone⟩

theorem tends_handleTcpConnectWithNetAddress (haddr : o.addr = none)
    (hfrom : o.addrFromResource = none) :
    Tends o (handleTcpConnectWithNetAddress s t) (o.handleTcpConnectWithNetAddress t) True := by
  unfold handleTcpConnectWithNetAddress Owned.handleTcpConnectWithNetAddress
  cases t.netaddr with
  | ipv4A => exact tends_plain _ (.refl _) haddr hfrom rfl rfl rfl
  | ipv6Aaaa => exact tends_plain _ (.refl _) haddr hfrom rfl rfl rfl
  | other => exact tends_destroyed _ (.refl _) haddr hfrom

theorem tends_newSocketEvent (haddr : o.addr = none) (hfrom : o.addrFromResource = none)
    (type : ResourceType) (callback : EventCallback) :
    Tends o (newSocketEvent s t type callback) (o.newSocketEvent s t type) True := by
  unfold newSocketEvent Owned.newSocketEvent
  cases s.acquire t.resource type with
  | none => exact tends_destroyed _ (.refl _) haddr hfrom
  | some rs => exact tends_plain _ (.refl _) haddr hfrom rfl rfl rfl

/-- A receive that does not find its socket loses the reference. -/
theorem tends_unfound (haddr : o.addr = none) (hn : s.acquire t.resource .udpSocket = none) :
    Tends o (s,none) o.taskDestroy (o.Finds s t) := by
  refine (tends_destroy s (.refl _)).congr ?_
  rw [and_iff_right haddr,Owned.Finds,hn]
  exact ⟨fun h hne => absurd h hne,fun h => by_contra fun hne => h hne rfl⟩

theorem finds_of_some {us : Resource} (h : s.acquire t.resource .udpSocket = some us) :
    True ↔ o.Finds s t :=
  iff_of_true trivial fun _ => by rw [h]; nofun

theorem tends_handleUdpRecvStage1 (haddr : o.addr = none) :
    Tends o (handleUdpRecvStage1 s t) (o.handleUdpRecvStage1 s t) (o.Finds s t) := by
  unfold handleUdpRecvStage1 newSocketEvent Owned.handleUdpRecvStage1
  cases hacquire : s.acquire t.resource .udpSocket with
  | none => exact tends_unfound haddr hacquire
  | some us =>
    refine Tends.congr ?_ (finds_of_some hacquire)
    exact tends_on _ o.carries_useAddrFromResource (absurd haddr) (fun _ => .inr rfl) nofun nofun
      rfl

theorem tends_handleUdpSendStage1 (haddr : o.addr = none) (hfrom : o.addrFromResource = none) :
    Tends o (handleUdpSendStage1 s t r) (o.handleUdpSendStage1 s t r) True := by
  unfold handleUdpSendStage1 Owned.handleUdpSendStage1
  cases s.acquire t.resource .udpSocket with
  | none => exact tends_destroyed _ (.refl _) haddr hfrom
  | some us =>
    dsimp only
    split
    · exact tends_destroyed _ (.refl _) haddr hfrom
    · exact tends_plain _ (.refl _) haddr hfrom rfl rfl rfl

theorem tends_push (ht : t.pc = .push) (h : Fits t o) :
    Tends o (asyncNetworkTaskPush s t r) (o.asyncNetworkTaskPush s t r) (o.Finds s t) := by
  have haddr : o.addr = none := h.addr_none (by rw [ht]; nofun) (by rw [ht]; nofun)
  by_cases htype : t.type = .udpRecv
  · unfold asyncNetworkTaskPush Owned.asyncNetworkTaskPush
    rw [htype]
    exact tends_handleUdpRecvStage1 haddr
  · have hfrom : o.addrFromResource = none := by
      by_contra hne
      rcases h.addrFrom hne with hpc | hpc
      · exact htype hpc.2
      · rw [ht] at hpc
        cases hpc
    have hfinds : True ↔ o.Finds s t := iff_of_true trivial fun hne => absurd hfrom hne
    refine Tends.congr ?_ hfinds
    unfold asyncNetworkTaskPush Owned.asyncNetworkTaskPush
    cases htt : t.type with
    | tcpConnect => exact tends_handleTcpConnectStage1 haddr hfrom
    | tcpConnectWithNetaddress => exact tends_handleTcpConnectWithNetAddress haddr hfrom
    | tcpRead => exact tends_newSocketEvent haddr hfrom _ _
    | tcpWrite => exact tends_newSocketEvent haddr hfrom _ _
    | udpRecv => exact absurd htt htype
    | udpSend => exact tends_handleUdpSendStage1 haddr hfrom
    | disconnect => exact tends_plain _ (.refl _) haddr hfrom rfl rfl rfl
    | hostResolve => exact tends_queueDnsRequest haddr hfrom _

theorem tends_handleTcpConnectStage2 (result : DnsResult) (haddr : o.addr = none)
    (hfrom : o.addrFromResource = none) :
    Tends o (handleTcpConnectStage2 s t result) (o.handleTcpConnectStage2 result) True := by
  have huse := o.carries_useHost
  unfold handleTcpConnectStage2 Owned.handleTcpConnectStage2
  dsimp only
  split
  · exact tends_destroyed _ huse haddr hfrom
  · have hmalloc := Owned.carries_mallocAddr haddr
    cases result.type with
    | ipv4A => exact tends_on _ hmalloc (fun _ => .inl rfl) (absurd hfrom) nofun nofun rfl
    | ipv6Aaaa => exact tends_on _ hmalloc (fun _ => .inl rfl) (absurd hfrom) nofun nofun rfl
    | other => exact tends_destroyed _ huse haddr hfrom

theorem tends_handleHostResolveStage2 (result : DnsResult) (haddr : o.addr = none)
    (hfrom : o.addrFromResource = none) :
    Tends o (handleHostResolveStage2 s t result) (o.handleHostResolveStage2 s t result) True := by
  have huse := o.carries_useHost
  unfold handleHostResolveStage2 Owned.handleHostResolveStage2
  split
  · exact tends_destroyed _ huse haddr hfrom
  · cases s.acquire t.resource .hostResolver with
    | none => exact tends_destroyed _ (.refl _) haddr hfrom
    | some hr =>
      dsimp only
      cases result.type with
      | ipv4A => exact tends_destroyed _ (.refl _) haddr hfrom
      | ipv6Aaaa => exact tends_destroyed _ (.refl _) haddr hfrom
      | other => exact tends_destroyed _ huse haddr hfrom

/-- The end of a connect that has its addresses. -/
theorem tends_freeAddr {o' : Owned} (s : State) (h : Carries o.books o'.books True)
    (hfrom : o'.addrFromResource = none) : Tends o (s,none) o'.freeAddr.taskDestroy True :=
  tends_destroyed s ((h.trans o'.carries_freeAddr).congr and_self_iff) rfl hfrom

theorem tends_handleTcpConnectStage3 (hfrom : o.addrFromResource = none) :
    Tends o (handleTcpConnectStage3 s t r) (o.handleTcpConnectStage3 s t r) True := by
  have hpair : ∀ (s' : State) (o' : Owned) (r : Returned), Carries o.books o'.books True →
      o'.addrFromResource = none →
      Tends o (if r.ret ≠ 0 ∧ r.errno ≠ .einprogress then finish s' t (getPpErrno r.errno)
          else goOn s' t (.mapping ⟨some t.sock,.handleTcpConnectStage4⟩))
        (if r.ret ≠ 0 ∧ r.errno ≠ .einprogress then (o'.uses o'.host).freeAddr.taskDestroy
          else o') True := by
    intro s' o' r hc hf
    split
    · exact tends_freeAddr _ ((hc.trans o'.carries_useHost).congr and_self_iff) hf
    · exact tends_on _ hc (fun _ => .inr rfl) (absurd hf) nofun nofun rfl
  unfold handleTcpConnectStage3 Owned.handleTcpConnectStage3
  cases t.addrType with
  | ipv4A => exact hpair _ _ _ o.carries_useAddr hfrom
  | ipv6Aaaa => exact hpair _ _ _ o.carries_useAddr hfrom
  | other => exact hpair _ _ _ (.refl _) hfrom

theorem tends_handleTcpConnectStage4 (timeout : Bool) (hfrom : o.addrFromResource = none) :
    Tends o (handleTcpConnectStage4 s t timeout r) (o.handleTcpConnectStage4 s t timeout r)
      True := by
  have huse := o.carries_useHost
  unfold handleTcpConnectStage4 Owned.handleTcpConnectStage4
  cases s.acquire t.resource .tcpSocket with
  | none => exact tends_freeAddr _ huse hfrom
  | some ts =>
    dsimp only
    split
    · exact tends_freeAddr _ (.refl _) hfrom
    · split
      · exact tends_on _ (.refl _) (fun _ => .inl rfl) (absurd hfrom) nofun nofun rfl
      · exact tends_freeAddr _ huse hfrom

theorem tends_handleUdpRecvStage2 (sock : ℤ) (haddr : o.addr = none) :
    Tends o (handleUdpRecvStage2 s t sock r) (o.handleUdpRecvStage2 s t) (o.Finds s t) := by
  unfold handleUdpRecvStage2 Owned.handleUdpRecvStage2
  cases hacquire : s.acquire t.resource .udpSocket with
  | none => exact tends_unfound haddr hacquire
  | some us =>
    have hunref := (o.carries_useAddrFromResource.trans
      (o.uses o.addrFromResource).carries_unrefAddrFromResource).congr and_self_iff
    exact (tends_destroyed _ hunref haddr rfl).congr (finds_of_some hacquire)

theorem tends_dnsCall {callback : DnsCallback} {result : DnsResult}
    (ht : t.pc = .dnsCall callback result) (h : Fits t o) :
    Tends o (dnsCall s t callback result) (o.dnsCall s t callback result) True := by
  have haddr : o.addr = none := h.addr_none (by rw [ht]; nofun) (by rw [ht]; nofun)
  have hfrom : o.addrFromResource = none := h.addrFrom_none (by rw [ht]; nofun) (by rw [ht]; nofun)
  cases callback with
  | handleTcpConnectStage2 => exact tends_handleTcpConnectStage2 result haddr hfrom
  | handleHostResolveStage2 => exact tends_handleHostResolveStage2 result haddr hfrom

theorem tends_eventCall {ev : Event} {timeout : Bool} (ht : t.pc = .eventCall ev timeout)
    (h : Fits t o) :
    Tends o (eventCall s t ev timeout r) (o.eventCall s t ev timeout r) (o.Finds s t) := by
  obtain ⟨fd,callback⟩ := ev
  have hcallback : t.pc.callback = some callback := by rw [ht]; rfl
  have haddr : callback ≠ .handleTcpConnectStage4 → o.addr = none := fun hne =>
    h.addr_none (by rw [ht]; nofun) (by rw [hcallback]; exact fun he => hne (Option.some.inj he))
  have hfrom : callback ≠ .handleUdpRecvStage2 → o.addrFromResource = none := fun hne =>
    h.addrFrom_none (by rw [ht]; nofun)
      (by rw [hcallback]; exact fun he => hne (Option.some.inj he))
  have hfinds : callback ≠ .handleUdpRecvStage2 → (True ↔ o.Finds s t) := fun hne =>
    iff_of_true trivial fun h => absurd (hfrom hne) h
  cases callback with
  | handleTcpConnectStage4 =>
    exact (tends_handleTcpConnectStage4 timeout (hfrom nofun)).congr (hfinds nofun)
  | handleUdpRecvStage2 => exact tends_handleUdpRecvStage2 _ (haddr nofun)
  | handleTcpReadStage2 =>
    exact (tends_destroyed _ (.refl _) (haddr nofun) (hfrom nofun)).congr (hfinds nofun)
  | handleTcpWriteStage2 =>
    exact (tends_destroyed _ (.refl _) (haddr nofun) (hfrom nofun)).congr (hfinds nofun)
  | handleUdpSendStage2 =>
    exact (tends_destroyed _ (.refl _) (haddr nofun) (hfrom nofun)).congr (hfinds nofun)
  | handleDisconnectStage2 =>
    exact (tends_destroyed _ (.refl _) (haddr nofun) (hfrom nofun)).congr (hfinds nofun)

theorem tends_addEventMapping {ev : Event} (ht : t.pc = .mapping ev) (h : Fits t o) :
    Tends o (addEventMapping s t ev) o.addEventMapping (o.event = none) := by
  have hcallback : t.pc.callback = some ev.callback := by rw [ht]; rfl
  exact tends_on _ o.carries_addEventMapping (h.connects (by rw [ht]; nofun) hcallback.symm)
    (h.receives (by rw [ht]; nofun) hcallback.symm) (fun _ => ⟨rfl,Option.some_ne_none _⟩) nofun rfl

theorem tends_eventAdd {ev : Event} (ht : t.pc = .adding ev) (h : Fits t o) :
    Tends o (eventAdd s t ev) (o.uses o.ev) True := by
  have hadding := h.adding (by rw [ht]; rfl)
  have huse := Owned.carries_useEv hadding.1
  have hcallback : t.pc.callback = some ev.callback := by rw [ht]; rfl
  have haddr : ∀ pc : Pc, pc.callback = some ev.callback → o.addr ≠ none → pc.Connects :=
    fun pc hpc => h.connects (by rw [ht]; nofun) (hpc.trans hcallback.symm)
  have hfrom : ∀ u : Task, u.pc.callback = some ev.callback → o.addrFromResource ≠ none →
      u.Receives :=
    fun u hu => h.receives (by rw [ht]; nofun) (hu.trans hcallback.symm)
  unfold eventAdd
  split
  · exact tends_on _ huse (haddr _ rfl) (hfrom _ rfl) nofun nofun rfl
  · dsimp only
    split
    · exact tends_on _ huse (haddr _ rfl) (hfrom _ rfl) nofun nofun rfl
    · exact tends_on _ huse (haddr _ rfl) (hfrom _ rfl) nofun (fun _ => hadding.2) rfl

theorem tends_runTask {p : State × Option Task} (h : Fits t o) (hf : t.pc.isFreed = false)
    (hr : runTask s t r = some p) : Tends o p (o.runTask s t r) (o.RunTidy s t) := by
  unfold runTask at hr
  unfold Owned.runTask Owned.RunTidy
  cases hpc : t.pc with
  | push =>
    rw [hpc] at hr
    cases hr
    exact tends_push hpc h
  | dns callback => rw [hpc] at hr; cases hr
  | dnsCall callback result =>
    rw [hpc] at hr
    cases hr
    exact tends_dnsCall hpc h
  | stage3 =>
    rw [hpc] at hr
    cases hr
    exact tends_handleTcpConnectStage3 (h.addrFrom_none (by rw [hpc]; nofun) (by rw [hpc]; nofun))
  | mapping ev =>
    rw [hpc] at hr
    cases hr
    exact tends_addEventMapping hpc h
  | adding ev =>
    rw [hpc] at hr
    cases hr
    exact tends_eventAdd hpc h
  | freed ev => rw [hpc] at hf; cases hf
  | waiting ev => rw [hpc] at hr; cases hr
  | unheard ev => rw [hpc] at hr; cases hr
  | eventCall ev timeout =>
    rw [hpc] at hr
    cases hr
    exact tends_eventCall hpc h

end

end AsyncNetwork
end FreshPlayer
