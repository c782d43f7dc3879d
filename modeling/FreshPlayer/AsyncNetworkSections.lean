import FreshPlayer.AsyncNetwork
import Mathlib.Data.List.Perm.Basic
import Mathlib.Data.Prod.Lex

/-! What one section of a network task can do: its task goes on, is finished with its
callback posted, or is dropped without. The rest of the network stays as it is, apart from
the section that closes a socket. -/
namespace FreshPlayer
namespace AsyncNetwork

/-- A thread has the task in hand. -/
def Pc.inHand : Pc → Bool
  | .dns _ | .waiting _ | .unheard _ => false
  | _ => true

def Pc.event : Pc → Option Event
  | .mapping ev | .adding ev | .freed ev | .waiting ev | .unheard ev | .eventCall ev _ => some ev
  | _ => none

def Pc.isAdding : Pc → Bool
  | .adding _ => true
  | _ => false

def Pc.isUnheard : Pc → Bool
  | .unheard _ => true
  | _ => false

def Pc.isFreed : Pc → Bool
  | .freed _ => true
  | _ => false

/-- The next section closes the socket. -/
def Pc.isClosing : Pc → Bool
  | .eventCall ev _ => ev.callback = .handleDisconnectStage2
  | _ => false

/-- The stages a task goes through, downwards. -/
def Pc.phase : Pc → ℕ
  | .push => 4
  | .dns _ => 3
  | .dnsCall _ _ => 2
  | .stage3 | .mapping _ | .adding _ | .waiting _ | .eventCall _ _ => 1
  | .freed _ | .unheard _ => 0

/-- The way of an event, gone once for each address. -/
def Pc.rank : Pc → ℕ
  | .stage3 => 4
  | .mapping _ => 3
  | .adding _ => 2
  | .waiting _ => 1
  | _ => 0

def Task.addrsLeft (t : Task) : ℕ := t.addrCount-t.addrPtr

/-- What each section of a task lowers. -/
def Task.measure (t : Task) : ℕ ×ₗ ℕ ×ₗ ℕ := toLex (t.pc.phase,toLex (t.addrsLeft,t.pc.rank))

theorem measure_lt_of_phase {t u : Task} (h : u.pc.phase < t.pc.phase) : u.measure < t.measure :=
  Prod.Lex.toLex_lt_toLex.mpr (.inl h)

theorem measure_lt_of_addrs {t u : Task} (hp : u.pc.phase = t.pc.phase)
    (h : u.addrsLeft < t.addrsLeft) : u.measure < t.measure :=
  Prod.Lex.toLex_lt_toLex.mpr (.inr ⟨hp,Prod.Lex.toLex_lt_toLex.mpr (.inl h)⟩)

theorem measure_lt_of_rank {t u : Task} (hp : u.pc.phase = t.pc.phase)
    (ha : u.addrsLeft = t.addrsLeft) (h : u.pc.rank < t.pc.rank) : u.measure < t.measure :=
  Prod.Lex.toLex_lt_toLex.mpr (.inr ⟨hp,Prod.Lex.toLex_lt_toLex.mpr (.inr ⟨ha,h⟩)⟩)

/-- The type of the resource without which the next section drops the task. -/
def Task.acquires (t : Task) : Option ResourceType :=
  match t.pc with
  | .push => match t.type with
    | .tcpRead | .tcpWrite => some .tcpSocket
    | .udpRecv | .udpSend => some .udpSocket
    | _ => none
  | .dnsCall .handleHostResolveStage2 result =>
    if result.ok = false ∨ result.count < 1 then none else some .hostResolver
  | .eventCall ev _ => match ev.callback with
    | .handleTcpConnectStage4 => some .tcpSocket
    | .handleUdpRecvStage2 => some .udpSocket
    | _ => none
  | _ => none

/-- The descriptor on which the next section registers the event. -/
def Task.addsTo (t : Task) : Option ℤ :=
  match t.pc with
  | .adding ev => ev.fd
  | _ => none

/-- The task belongs to a disconnect. -/
def Task.disconnects (t : Task) : Prop :=
  t.type = .disconnect ∨ ∃ ev ∈ t.pc.event, ev.callback = .handleDisconnectStage2

/-- What a disconnect or the creation of a resource decides about it. -/
def Resource.core (r : Resource) : ResourceType × ℤ × Bool := (r.resourceType,r.sock,r.destroyed)

/-- All that the sections of a task leave as it is. -/
structure Keeps (s s' : State) (t : Task) : Prop where
  tasks : s'.tasks = s.tasks
  accepted : s'.accepted = s.accepted
  fds : s'.fds = s.fds
  next : s'.resTblNext = s.resTblNext
  resources : ∀ k, (s'.resources k).map Resource.core = (s.resources k).map Resource.core
  calls : ∃ new, s'.calls = new ++ s.calls ∧ ∀ c ∈ new, c.resource = t.resource ∧ c.call ≠ .close

theorem Keeps.refl (s : State) (t : Task) : Keeps s s t :=
  ⟨rfl,rfl,rfl,rfl,fun _ => rfl,[],rfl,by simp⟩

theorem Keeps.trans {s s' s'' : State} {t : Task} (h : Keeps s s' t) (h' : Keeps s' s'' t) :
    Keeps s s'' t where
  tasks := h'.tasks.trans h.tasks
  accepted := h'.accepted.trans h.accepted
  fds := h'.fds.trans h.fds
  next := h'.next.trans h.next
  resources k := (h'.resources k).trans (h.resources k)
  calls := by
    obtain ⟨new,hn,hc⟩ := h.calls
    obtain ⟨new',hn',hc'⟩ := h'.calls
    refine ⟨new' ++ new,by rw [hn',hn,List.append_assoc],fun c hm => ?_⟩
    obtain hm | hm := List.mem_append.mp hm
    · exact hc' c hm
    · exact hc c hm

theorem Keeps.called (s : State) {call : Call} (t : Task) (fd : ℤ) (hc : call ≠ .close) :
    Keeps s (s.called call t fd) t :=
  ⟨rfl,rfl,rfl,rfl,fun _ => rfl,[_],rfl,by simpa using hc⟩

theorem Keeps.post (s : State) (t u : Task) (result : ℤ) : Keeps s (s.post u result) t :=
  ⟨rfl,rfl,rfl,rfl,fun _ => rfl,[],rfl,by simp⟩

theorem Keeps.resource {s s' : State} {t : Task} (h : Keeps s s' t) {k : ℕ} {rs' : Resource}
    (hr : s'.resources k = some rs') : ∃ rs, s.resources k = some rs ∧ rs.core = rs'.core := by
  have hk := h.resources k
  rw [hr] at hk
  obtain ⟨rs,hrs,hc⟩ := Option.map_eq_some_iff.mp hk.symm
  exact ⟨rs,hrs,hc⟩

theorem State.acquire_some {s : State} {k : ℕ} {type : ResourceType} {rs : Resource}
    (h : s.acquire k type = some rs) : s.resources k = some rs ∧ rs.resourceType = type := by
  obtain ⟨hr,ht⟩ := Option.filter_eq_some_iff.mp h
  exact ⟨hr,by simpa using ht⟩

theorem Keeps.put {s : State} (t : Task) {k : ℕ} {type : ResourceType} {rs rs' : Resource}
    (h : s.acquire k type = some rs) (hc : rs'.core = rs.core) :
    Keeps s (s.put k (some rs')) t := by
  refine ⟨rfl,rfl,rfl,rfl,fun j => ?_,[],rfl,by simp⟩
  by_cases hj : j = k
  · subst hj
    simp only [State.put,if_pos,(State.acquire_some h).1,Option.map_some,hc]
  · simp only [State.put,if_neg hj]

/-- What a task takes along when it goes on. -/
structure Follows (s : State) (t u : Task) : Prop where
  operation : u.operation = t.operation
  resource : u.resource = t.resource
  disconnects : u.disconnects → t.disconnects
  inHand : u.onWorker = true → u.pc.inHand = true
  notFreed : u.pc.isFreed = false
  heard : u.pc.isUnheard = true → ∃ fd ∈ t.addsTo, fd ∉ s.fds
  descends : u.measure < t.measure

/-- Nothing was posted because the resource is gone, or because that was done before. -/
def Dropped (s : State) (t : Task) : Prop :=
  t.pc.isFreed = true ∨ ∃ type ∈ t.acquires, s.acquire t.resource type = none

inductive Ends (s : State) (t : Task) : State × Option Task → Prop
  | goesOn {s' : State} {u : Task} : Keeps s s' t → s'.posted = s.posted → Follows s t u →
      Ends s t (s',some u)
  | finished {s' : State} (result : ℤ) : Keeps s s' t →
      s'.posted = s.posted ++ (t.operation.map (⟨·,result⟩)).toList → Ends s t (s',none)
  | dropped {s' : State} : Keeps s s' t → s'.posted = s.posted → Dropped s t → Ends s t (s',none)

theorem ends_finish {s s' : State} {t u : Task} (hk : Keeps s s' t) (hp : s'.posted = s.posted)
    (hu : u.operation = t.operation) (result : ℤ) : Ends s t (finish s' u result) := by
  refine .finished result (hk.trans (.post s' t u result)) ?_
  simp only [State.post,hp,hu]

theorem ends_goOn {s s' : State} {t u : Task} {pc : Pc} (hk : Keeps s s' t)
    (hp : s'.posted = s.posted) (hu : u.operation = t.operation) (hr : u.resource = t.resource)
    (ht : u.type = t.type) (hpc : pc.inHand = true) (hfree : pc.isFreed = false)
    (hd : ∀ ev ∈ pc.event, ev.callback = .handleDisconnectStage2 → t.disconnects)
    (hlt : ({ u with pc := pc } : Task).measure < t.measure) : Ends s t (goOn s' u pc) := by
  refine .goesOn hk hp ⟨hu,hr,?_,fun _ => hpc,hfree,fun hh => ?_,hlt⟩
  · rintro (h | ⟨ev,hev,he⟩)
    · exact .inl (ht ▸ h)
    · exact hd ev hev he
  · cases pc <;> simp [Pc.isUnheard,Pc.inHand] at hh hpc

theorem ends_park {s s' : State} {t : Task} {pc : Pc} (hk : Keeps s s' t)
    (hp : s'.posted = s.posted) (hfree : pc.isFreed = false)
    (hd : ∀ ev ∈ pc.event, ev.callback = .handleDisconnectStage2 → t.disconnects)
    (hh : pc.isUnheard = true → ∃ fd ∈ t.addsTo, fd ∉ s.fds)
    (hlt : ({ t with pc := pc, onWorker := false } : Task).measure < t.measure) :
    Ends s t (park s' t pc) := by
  refine .goesOn hk hp ⟨rfl,rfl,?_,fun hw => (Bool.false_ne_true hw).elim,hfree,hh,hlt⟩
  rintro (h | ⟨ev,hev,he⟩)
  · exact .inl h
  · exact hd ev hev he

theorem ends_dropped {s : State} {t : Task} {type : ResourceType} (ha : t.acquires = some type)
    (hn : s.acquire t.resource type = none) : Ends s t (s,none) :=
  .dropped (.refl s t) rfl (.inr ⟨type,ha,hn⟩)

theorem push_descends {t u : Task} (ht : t.pc = .push) (hu : u.pc.phase < 4) :
    u.measure < t.measure :=
  measure_lt_of_phase (by rw [ht]; exact hu)

theorem queueDnsRequest_ends {s : State} {t : Task} (ht : t.pc = .push) (callback : DnsCallback)
    (r : Returned) : Ends s t (queueDnsRequest s t callback r) := by
  unfold queueDnsRequest
  split_ifs
  · exact ends_finish (.refl s t) rfl rfl _
  · exact ends_park (.refl s t) rfl rfl (by simp [Pc.event]) (by simp [Pc.isUnheard])
      (push_descends ht (by simp [Pc.phase]))

theorem handleTcpConnectStage1_ends {s : State} {t : Task} (ht : t.pc = .push) (r : Returned) :
    Ends s t (handleTcpConnectStage1 s t r) := by
  unfold handleTcpConnectStage1
  split_ifs
  · exact ends_goOn (.refl s t) rfl rfl rfl rfl rfl rfl (by simp [Pc.event])
      (push_descends ht (by simp [Pc.phase]))
  · exact queueDnsRequest_ends ht _ r

theorem handleTcpConnectWithNetAddress_ends {s : State} {t : Task} (ht : t.pc = .push) :
    Ends s t (handleTcpConnectWithNetAddress s t) := by
  unfold handleTcpConnectWithNetAddress
  split
  · exact ends_goOn (.refl s t) rfl rfl rfl rfl rfl rfl (by simp [Pc.event])
      (push_descends ht (by simp [Pc.phase]))
  · exact ends_goOn (.refl s t) rfl rfl rfl rfl rfl rfl (by simp [Pc.event])
      (push_descends ht (by simp [Pc.phase]))
  · exact ends_finish (.refl s t) rfl rfl _

theorem handleTcpConnectStage2_ends {s : State} {t : Task} {callback : DnsCallback}
    {result : DnsResult} (ht : t.pc = .dnsCall callback result) :
    Ends s t (handleTcpConnectStage2 s t result) := by
  have hlt : ∀ u : Task, u.pc = .stage3 → u.measure < t.measure :=
    fun u hu => measure_lt_of_phase (by rw [ht,hu]; simp [Pc.phase])
  have hk : Keeps s (s.called .fcntl t t.sock) t := .called s t t.sock (by decide)
  unfold handleTcpConnectStage2
  split_ifs
  · exact ends_finish (.refl s t) rfl rfl _
  · dsimp only
    split
    · exact ends_goOn hk rfl rfl rfl rfl rfl rfl (by simp [Pc.event]) (hlt _ rfl)
    · exact ends_goOn hk rfl rfl rfl rfl rfl rfl (by simp [Pc.event]) (hlt _ rfl)
    · exact ends_finish hk rfl rfl _

theorem handleTcpConnectStage3_ends {s : State} {t : Task} (ht : t.pc = .stage3) (r : Returned) :
    Ends s t (handleTcpConnectStage3 s t r) := by
  have hpair : ∀ (s' : State) (r : Returned), Keeps s s' t → s'.posted = s.posted →
      Ends s t (if r.ret ≠ 0 ∧ r.errno ≠ .einprogress then finish s' t (getPpErrno r.errno)
        else goOn s' t (.mapping ⟨some t.sock,.handleTcpConnectStage4⟩)) := by
    intro s' r hk hp
    split_ifs
    · exact ends_finish hk hp rfl _
    · exact ends_goOn hk hp rfl rfl rfl rfl rfl (by simp [Pc.event])
        (measure_lt_of_rank (by rw [ht]; rfl) rfl (by rw [ht]; simp [Pc.rank]))
  have hk : Keeps s (s.called .connect t t.sock) t := .called s t t.sock (by decide)
  unfold handleTcpConnectStage3
  cases t.addrType with
  | ipv4A => exact hpair _ _ hk rfl
  | ipv6Aaaa => exact hpair _ _ hk rfl
  | other => exact hpair _ _ (.refl s t) rfl

theorem handleTcpConnectStage4_ends {s : State} {t : Task} (ha : t.acquires = some .tcpSocket)
    (hphase : t.pc.phase = 1) (timeout : Bool) (r : Returned) :
    Ends s t (handleTcpConnectStage4 s t timeout r) := by
  unfold handleTcpConnectStage4
  split
  · rename_i hn
    exact ends_dropped ha hn
  · rename_i ts hts
    have htail : ∀ (s' : State) (b : Bool) (errno : Errno), Keeps s s' t → s'.posted = s.posted →
        s'.acquire t.resource .tcpSocket = some ts →
        let s'' := s'.put t.resource (some { ts with isConnected := b })
        Ends s t (if b then finish s'' t ppOk
          else if t.addrPtr+1 < t.addrCount then goOn s'' { t with addrPtr := t.addrPtr+1 } .stage3
          else finish s'' { t with addrPtr := t.addrPtr+1 } (getPpErrno errno)) := by
      intro s' b errno hk hp hts'
      have hmarked : Keeps s' (s'.put t.resource (some { ts with isConnected := b })) t :=
        .put t hts' rfl
      have hput := hk.trans hmarked
      dsimp only
      split_ifs with _ hleft
      · exact ends_finish hput hp rfl _
      · refine ends_goOn hput hp rfl rfl rfl rfl rfl (by simp [Pc.event])
          (measure_lt_of_addrs hphase.symm ?_)
        simp only [Task.addrsLeft]
        omega
      · exact ends_finish hput hp rfl _
    cases timeout with
    | true => exact htail s _ _ (.refl s t) rfl hts
    | false => exact htail (s.called .getpeername t ts.sock) _ _ (.called s t _ (by decide)) rfl hts

theorem newSocketEvent_ends {s : State} {t : Task} {type : ResourceType}
    (ht : t.pc = .push) (ha : t.acquires = some type) {callback : EventCallback}
    (hc : callback ≠ .handleDisconnectStage2) : Ends s t (newSocketEvent s t type callback) := by
  unfold newSocketEvent
  split
  · rename_i hn
    exact ends_dropped ha hn
  · exact ends_goOn (.refl s t) rfl rfl rfl rfl rfl rfl
      (by simpa [Pc.event] using fun h => absurd h hc) (push_descends ht (by simp [Pc.phase]))

theorem handleUdpSendStage1_ends {s : State} {t : Task} (ht : t.pc = .push)
    (ha : t.acquires = some .udpSocket) (r : Returned) : Ends s t (handleUdpSendStage1 s t r) := by
  unfold handleUdpSendStage1
  split
  · rename_i hn
    exact ends_dropped ha hn
  · rename_i us _
    have hk : Keeps s (s.called .send t us.sock) t := .called s t us.sock (by decide)
    dsimp only
    split_ifs
    · exact ends_finish hk rfl rfl _
    · exact ends_goOn hk rfl rfl rfl rfl rfl rfl (by simp [Pc.event])
        (push_descends ht (by simp [Pc.phase]))

theorem Keeps.noteEof (s : State) (t : Task) (k : ℕ) (type : ResourceType) (r : Returned) :
    Keeps s (s.noteEof k type r) t ∧ (s.noteEof k type r).posted = s.posted := by
  unfold State.noteEof
  split
  · rename_i rs hrs
    split_ifs
    · exact ⟨.put t hrs rfl,rfl⟩
    · exact ⟨.refl s t,rfl⟩
  · exact ⟨.refl s t,rfl⟩

theorem receive_ends (s : State) (t : Task) (sock : ℤ) (type : ResourceType) (r : Returned)
    (result : ℤ) :
    Ends s t (finish ((s.called .recv t sock).noteEof t.resource type r) t result) := by
  have hk : Keeps s (s.called .recv t sock) t := .called s t sock (by decide)
  obtain ⟨hk',hp⟩ := Keeps.noteEof (s.called .recv t sock) t t.resource type r
  exact ends_finish (hk.trans hk') hp rfl _

theorem handleUdpRecvStage2_ends {s : State} {t : Task} (ha : t.acquires = some .udpSocket)
    (sock : ℤ) (r : Returned) : Ends s t (handleUdpRecvStage2 s t sock r) := by
  unfold handleUdpRecvStage2
  split
  · rename_i hn
    exact ends_dropped ha hn
  · exact receive_ends s t sock _ _ _

theorem sendReady_ends (s : State) (t : Task) (sock : ℤ) (r : Returned) :
    Ends s t (sendReady s t sock r) :=
  ends_finish (.called s t sock (by decide)) rfl rfl _

theorem handleHostResolveStage2_ends {s : State} {t : Task} {result : DnsResult}
    (ha : t.pc = .dnsCall .handleHostResolveStage2 result) :
    Ends s t (handleHostResolveStage2 s t result) := by
  unfold handleHostResolveStage2
  split_ifs with hbad
  · exact ends_finish (.refl s t) rfl rfl _
  · split
    · rename_i hn
      refine ends_dropped ?_ hn
      rw [Task.acquires,ha]
      exact if_neg hbad
    · split <;> exact ends_finish (.refl s t) rfl rfl _

theorem eventAdd_ends {s : State} {t : Task} {ev : Event} (ht : t.pc = .adding ev) :
    Ends s t (eventAdd s t ev) := by
  have hd : ∀ ev' ∈ t.pc.event, ev'.callback = .handleDisconnectStage2 → t.disconnects :=
    fun ev' hev he => .inr ⟨ev',hev,he⟩
  rw [ht] at hd
  have hwaiting : ∀ u : Task, u.pc = .waiting ev → u.addrsLeft = t.addrsLeft →
      u.measure < t.measure := fun u hu ha =>
    measure_lt_of_rank (by rw [ht,hu]; rfl) ha (by rw [ht,hu]; simp [Pc.rank])
  unfold eventAdd
  split
  · exact ends_park (.refl s t) rfl rfl hd (by simp [Pc.isUnheard]) (hwaiting _ rfl rfl)
  · rename_i fd hfd
    have hk : Keeps s (s.called .eventAdd t fd) t := .called s t fd (by decide)
    have hadds : t.addsTo = some fd := by rw [Task.addsTo,ht]; exact hfd
    dsimp only
    split_ifs with hm
    · exact ends_park hk rfl rfl hd (by simp [Pc.isUnheard]) (hwaiting _ rfl rfl)
    · exact ends_park hk rfl rfl hd (fun _ => ⟨fd,hadds,hm⟩)
        (measure_lt_of_phase (by rw [ht]; simp [Pc.phase]))

theorem eventAddFreed_ends {s : State} {t : Task} {ev : Event} (ht : t.pc = .freed ev) :
    Ends s t (eventAddFreed s t ev) := by
  have hdrop : Dropped s t := .inl (by rw [ht]; rfl)
  unfold eventAddFreed
  cases ev.fd with
  | none => exact .dropped (.refl s t) rfl hdrop
  | some fd => exact .dropped (.called s t fd (by decide)) rfl hdrop

theorem asyncNetworkTaskPush_ends {s : State} {t : Task} (ht : t.pc = .push) (r : Returned) :
    Ends s t (asyncNetworkTaskPush s t r) := by
  have hacq : t.acquires = match t.type with
      | .tcpRead | .tcpWrite => some .tcpSocket
      | .udpRecv | .udpSend => some .udpSocket
      | _ => none := by rw [Task.acquires,ht]
  unfold asyncNetworkTaskPush
  cases htype : t.type with
  | tcpConnect => exact handleTcpConnectStage1_ends ht r
  | tcpConnectWithNetaddress => exact handleTcpConnectWithNetAddress_ends ht
  | tcpRead | tcpWrite | udpRecv =>
    rw [htype] at hacq
    exact newSocketEvent_ends ht hacq (by decide)
  | udpSend =>
    rw [htype] at hacq
    exact handleUdpSendStage1_ends ht hacq r
  | disconnect =>
    exact ends_goOn (.refl s t) rfl rfl rfl rfl rfl rfl (fun _ _ _ => .inl htype)
      (push_descends ht (by simp [Pc.phase]))
  | hostResolve => exact queueDnsRequest_ends ht _ r

theorem eventCall_ends {s : State} {t : Task} {ev : Event} {timeout : Bool}
    (ht : t.pc = .eventCall ev timeout) (hc : ev.callback ≠ .handleDisconnectStage2)
    (r : Returned) : Ends s t (eventCall s t ev timeout r) := by
  have hacq : t.acquires = match ev.callback with
      | .handleTcpConnectStage4 => some .tcpSocket
      | .handleUdpRecvStage2 => some .udpSocket
      | _ => none := by rw [Task.acquires,ht]
  unfold eventCall
  cases hcb : ev.callback with
  | handleTcpConnectStage4 =>
    rw [hcb] at hacq
    exact handleTcpConnectStage4_ends hacq (by rw [ht]; rfl) timeout r
  | handleTcpReadStage2 => exact receive_ends s t _ _ _ _
  | handleTcpWriteStage2 | handleUdpSendStage2 => exact sendReady_ends s t _ r
  | handleUdpRecvStage2 =>
    rw [hcb] at hacq
    exact handleUdpRecvStage2_ends hacq _ r
  | handleDisconnectStage2 => exact absurd hcb hc

/-- A section closes the socket of its task, or ends in one of the three ways. -/
theorem runTask_cases {s : State} {t : Task} {r : Returned} {p : State × Option Task}
    (h : runTask s t r = some p) :
    t.pc.isClosing = true ∧ p = handleDisconnectStage2 s t ∨
      t.pc.isClosing = false ∧ Ends s t p := by
  unfold runTask at h
  cases hpc : t.pc with
  | push => rw [hpc] at h; cases h; exact .inr ⟨rfl,asyncNetworkTaskPush_ends hpc r⟩
  | dns _ | waiting _ | unheard _ => rw [hpc] at h; cases h
  | dnsCall callback result =>
    rw [hpc] at h
    cases h
    cases callback with
    | handleTcpConnectStage2 => exact .inr ⟨rfl,handleTcpConnectStage2_ends hpc⟩
    | handleHostResolveStage2 => exact .inr ⟨rfl,handleHostResolveStage2_ends hpc⟩
  | stage3 => rw [hpc] at h; cases h; exact .inr ⟨rfl,handleTcpConnectStage3_ends hpc r⟩
  | mapping ev =>
    rw [hpc] at h
    cases h
    refine .inr ⟨rfl,ends_goOn (.refl s t) rfl rfl rfl rfl rfl rfl (fun ev' hev he => ?_)
      (measure_lt_of_rank (by rw [hpc]; rfl) rfl (by rw [hpc]; simp [Pc.rank]))⟩
    exact .inr ⟨ev',by rw [hpc]; exact hev,he⟩
  | adding ev => rw [hpc] at h; cases h; exact .inr ⟨rfl,eventAdd_ends hpc⟩
  | freed ev => rw [hpc] at h; cases h; exact .inr ⟨rfl,eventAddFreed_ends hpc⟩
  | eventCall ev timeout =>
    rw [hpc] at h
    cases h
    by_cases hc : ev.callback = .handleDisconnectStage2
    · refine .inl ⟨by simp [Pc.isClosing,hc],?_⟩
      unfold eventCall
      rw [hc]
    · exact .inr ⟨by simp [Pc.isClosing,hc],eventCall_ends hpc hc r⟩

/-- Evdns and libevent call back with the request or the event they were left. -/
theorem Pc.occur_cases {pc pc' : Pc} {o : Occurrence} (h : pc.occur o = some pc') :
    (∃ callback result, pc = .dns callback ∧ pc' = .dnsCall callback result) ∨
      ∃ ev timeout, pc = .waiting ev ∧ pc' = .eventCall ev timeout := by
  unfold Pc.occur at h
  split at h <;> cases h
  · exact .inl ⟨_,_,rfl,rfl⟩
  · exact .inr ⟨_,_,rfl,rfl⟩

theorem leftover_none {t : Task} (h : t.pc.isAdding = false) : t.leftover = none := by
  unfold Task.leftover
  cases hpc : t.pc with
  | adding ev => rw [hpc] at h; cases h
  | _ => rfl

/-- A new task of a request, without its operation. -/
structure Task.New (t : Task) (k : ℕ) : Prop where
  resource : t.resource = k
  type : t.type ≠ .disconnect
  pc : t.pc = .push
  onWorker : t.onWorker = false

/-- A request is refused, makes a task, or binds and completes at once. -/
theorem request_cases (s : State) (k callback callbackMl : ℕ) (q : Request) :
    (request s k callback callbackMl q).1 = s ∨
    (∃ t : Task, t.New k ∧ request s k callback callbackMl q = s.push t callback callbackMl) ∨
    ∃ us us' : Resource, s.acquire k .udpSocket = some us ∧ us'.core = us.core ∧
      (request s k callback callbackMl q).1 = { s.put k (some us') with
        accepted := ⟨s.accepted.length,callback,callbackMl⟩::s.accepted
        posted := s.posted ++ [⟨⟨s.accepted.length,callback,callbackMl⟩,ppOk⟩] } := by
  have hnew : ∀ (type : TaskType) (sock : ℤ), type ≠ .disconnect →
      (Task.create type none k sock).New k := fun type sock ht => ⟨rfl,ht,rfl,rfl⟩
  cases q with
  | tcpConnect hostIsAddress =>
    simp only [request,ppbTcpSocketConnect]
    split
    · exact .inl rfl
    · exact .inr (.inl ⟨_,⟨rfl,by simp [Task.create],rfl,rfl⟩,rfl⟩)
  | tcpConnectWithNetAddress addr =>
    simp only [request,ppbTcpSocketConnectWithNetAddress]
    split
    · exact .inl rfl
    · exact .inr (.inl ⟨_,⟨rfl,by simp [Task.create],rfl,rfl⟩,rfl⟩)
  | tcpRead n =>
    simp only [request,ppbTcpSocketRead]
    split_ifs
    · exact .inl rfl
    · split
      · exact .inl rfl
      · split_ifs
        · exact .inl rfl
        · exact .inl rfl
        · exact .inr (.inl ⟨_,hnew _ _ (by decide),rfl⟩)
  | tcpWrite n =>
    simp only [request,ppbTcpSocketWrite]
    split_ifs
    · exact .inl rfl
    · split
      · exact .inl rfl
      · split_ifs
        · exact .inl rfl
        · exact .inr (.inl ⟨_,hnew _ _ (by decide),rfl⟩)
  | udpBind r =>
    simp only [request,ppbUdpSocketBind]
    split
    · exact .inl rfl
    · rename_i us hus
      split_ifs
      · exact .inl rfl
      · exact .inr (.inr ⟨us,{ us with bound := true },hus,rfl,rfl⟩)
  | udpRecvFrom =>
    simp only [request,ppbUdpSocketRecvFrom]
    split
    · exact .inl rfl
    · exact .inr (.inl ⟨_,hnew _ _ (by decide),rfl⟩)
  | udpSendTo =>
    simp only [request,ppbUdpSocketSendTo]
    split
    · exact .inl rfl
    · exact .inr (.inl ⟨_,hnew _ _ (by decide),rfl⟩)
  | hostResolve =>
    simp only [request,ppbHostResolverResolve]
    split
    · exact .inl rfl
    · exact .inr (.inl ⟨_,hnew _ _ (by decide),rfl⟩)

/-- What the creation, closing and release of resources do: they make disconnect tasks, each
for a resource that was not marked and then is, or is gone. -/
structure Manages (s s' : State) (new : List Task) : Prop where
  tasks : s'.tasks = new ++ s.tasks
  accepted : s'.accepted = s.accepted
  posted : s'.posted = s.posted
  calls : s'.calls = s.calls
  next : s.resTblNext ≤ s'.resTblNext
  resources : ∀ k rs', s'.resources k = some rs' → s.resTblNext ≤ k ∧ k < s'.resTblNext ∨
    ∃ rs, s.resources k = some rs ∧ (rs.destroyed = true → rs'.destroyed = true)
  disconnects : ∀ t ∈ new, t = Task.create .disconnect none t.resource t.sock ∧
    (∃ rs, s.resources t.resource = some rs ∧ rs.destroyed = false) ∧
    ∀ rs', s'.resources t.resource = some rs' → rs'.destroyed = true

theorem Manages.same (s : State) : Manages s s [] :=
  ⟨rfl,rfl,rfl,rfl,Nat.le_refl _,fun _ rs h => .inr ⟨rs,h,id⟩,by simp⟩

/-- A resource is replaced, or removed, and may have its disconnect task made. -/
theorem Manages.put {s : State} {k : ℕ} {rs : Resource} {r : Option Resource} {new : List Task}
    (h : s.resources k = some rs) (hr : ∀ rs' ∈ r, rs.destroyed = true → rs'.destroyed = true)
    (hn : new = [] ∨ new = disconnectTask k rs ∧ ∀ rs' ∈ r, rs'.destroyed = true) :
    Manages s { s.put k r with tasks := new ++ s.tasks } new := by
  refine ⟨rfl,rfl,rfl,rfl,Nat.le_refl _,fun j rs' hj => .inr ?_,fun t ht => ?_⟩
  · by_cases hjk : j = k
    · subst hjk
      simp only [State.put,if_pos] at hj
      exact ⟨rs,h,hr rs' hj⟩
    · simp only [State.put,if_neg hjk] at hj
      exact ⟨rs',hj,id⟩
  · obtain rfl | ⟨rfl,hd⟩ := hn
    · cases ht
    · unfold disconnectTask at ht
      split_ifs at ht with hds
      · cases ht
      · cases List.mem_singleton.mp ht
        refine ⟨rfl,⟨rs,h,by simpa using hds⟩,fun rs' hrs' => ?_⟩
        simp only [State.put,Task.create,if_pos] at hrs'
        exact hd rs' hrs'

theorem Manages.allocate (s : State) (fds : List ℤ) (type : ResourceType) (sock : ℤ) :
    Manages s (ppResourceAllocate { s with fds := fds } type sock) [] := by
  refine ⟨rfl,rfl,rfl,rfl,Nat.le_succ _,fun k rs' hk => ?_,by simp⟩
  by_cases hks : k = s.resTblNext
  · exact .inl ⟨hks.ge,hks ▸ Nat.lt_succ_self _⟩
  · simp only [ppResourceAllocate,State.put,if_neg hks] at hk
    exact .inr ⟨rs',hk,id⟩

theorem createSocket_manages {s s' : State} {type : ResourceType} {sock : ℤ}
    (h : createSocket s type sock = some s') : Manages s s' [] := by
  unfold createSocket at h
  split_ifs at h
  · cases h
    exact .allocate s s.fds type sock
  · cases h
    exact .allocate s (sock::s.fds) type sock

theorem ppbTcpSocketDestroy_marks (s : State) (k : ℕ) (rs : Resource) :
    (ppbTcpSocketDestroy s k rs).2.destroyed = true := by
  unfold ppbTcpSocketDestroy
  split_ifs with hd
  · exact hd
  · rfl

theorem ppbTcpSocketDisconnect_manages (s : State) (k : ℕ) :
    ∃ new, Manages s (ppbTcpSocketDisconnect s k) new := by
  unfold ppbTcpSocketDisconnect
  split
  · exact ⟨[],.same s⟩
  · rename_i ts hts
    have hmark : ∀ rs' ∈ some (ppbTcpSocketDestroy s k ts).2, rs'.destroyed = true := by
      rintro _ ⟨⟩
      exact ppbTcpSocketDestroy_marks s k ts
    exact ⟨disconnectTask k ts,.put (State.acquire_some hts).1 (fun rs' hr _ => hmark rs' hr)
      (.inr ⟨rfl,hmark⟩)⟩

theorem ppbUdpSocketClose_manages (s : State) (k : ℕ) :
    ∃ new, Manages s (ppbUdpSocketClose s k) new := by
  unfold ppbUdpSocketClose
  split
  · exact ⟨[],.same s⟩
  · rename_i us hus
    have hmark : ∀ rs' ∈ some (ppbUdpSocketDestroy s k us).2, rs'.destroyed = true := by
      rintro _ ⟨⟩
      rfl
    exact ⟨disconnectTask k us,.put (State.acquire_some hus).1 (fun rs' hr _ => hmark rs' hr)
      (.inr ⟨rfl,hmark⟩)⟩

theorem ppResourceRef_manages (s : State) (k : ℕ) : Manages s (ppResourceRef s k) [] := by
  unfold ppResourceRef
  split
  · exact .same s
  · rename_i rs hrs
    refine .put hrs ?_ (.inl rfl)
    rintro _ ⟨⟩ hd
    exact hd

theorem ppResourceUnref_manages (s : State) (k : ℕ) :
    ∃ new, Manages s (ppResourceUnref s k) new := by
  unfold ppResourceUnref
  split
  · exact ⟨[],.same s⟩
  · rename_i rs hrs
    split_ifs
    · refine ⟨[],.put hrs ?_ (.inl rfl)⟩
      rintro _ ⟨⟩ hd
      exact hd
    · have hgone : ∀ rs' ∈ (none : Option Resource), rs'.destroyed = true := by simp
      have hput : Manages s { s.put k none with tasks := disconnectTask k rs ++ s.tasks }
          (disconnectTask k rs) := .put hrs (by simp) (.inr ⟨rfl,hgone⟩)
      dsimp only
      split
      · exact ⟨_,hput⟩
      · exact ⟨_,hput⟩
      · exact ⟨[],.put hrs (by simp) (.inl rfl)⟩

/-- The steps other than requests and those of tasks. -/
theorem step_manages {s s' : State} {a : Action} (h : step s a = some s') :
    (∃ new, Manages s s' new) ∨ (∃ k callback callbackMl q, a = .request k callback callbackMl q) ∨
      (∃ i r, a = .run i r) ∨ ∃ i o, a = .occur i o := by
  cases a with
  | createTcpSocket sock => exact .inl ⟨[],createSocket_manages h⟩
  | createUdpSocket sock => exact .inl ⟨[],createSocket_manages h⟩
  | createHostResolver => cases h; exact .inl ⟨[],.allocate s s.fds _ _⟩
  | openFile fd =>
    simp only [step] at h
    split_ifs at h
    cases h
    exact .inl ⟨[],rfl,rfl,rfl,rfl,Nat.le_refl _,fun _ rs h => .inr ⟨rs,h,id⟩,by simp⟩
  | ref k => cases h; exact .inl ⟨[],ppResourceRef_manages s k⟩
  | unref k => cases h; exact .inl (ppResourceUnref_manages s k)
  | request k callback callbackMl q => exact .inr (.inl ⟨k,callback,callbackMl,q,rfl⟩)
  | tcpDisconnect k => cases h; exact .inl (ppbTcpSocketDisconnect_manages s k)
  | udpClose k => cases h; exact .inl (ppbUdpSocketClose_manages s k)
  | run i r => exact .inr (.inr (.inl ⟨i,r,rfl⟩))
  | occur i o => exact .inr (.inr (.inr ⟨i,o,rfl⟩))

end AsyncNetwork
end FreshPlayer
