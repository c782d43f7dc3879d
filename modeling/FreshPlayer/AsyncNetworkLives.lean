import FreshPlayer.AsyncNetworkCleanup
import FreshPlayer.AsyncNetworkCompletion

/-! The lives of network tasks are those of the tasks of the network: what a step of the
network does to a task is a step of its life, and each task of a network has lived one. -/
namespace FreshPlayer
namespace AsyncNetwork

variable {s s' : State} {t u : Task}

/-! The network thread. -/

/-- A section does not give the task to the network thread, and leaves no event called. -/
def Stays (t : Task) (p : State × Option Task) : Prop :=
  ∀ u ∈ p.2, (u.onWorker = true → t.onWorker = true) ∧ u.pc.isClosing = false

theorem stays_none (s : State) : Stays t (s,none) := fun u hu => absurd hu (Option.not_mem_none u)

theorem stays_on {u : Task} (s : State) (hw : u.onWorker = true → t.onWorker = true)
    (hpc : u.pc.isClosing = false) : Stays t (s,some u) := by
  rintro v ⟨⟩
  exact ⟨hw,hpc⟩

theorem queueDnsRequest_stays (callback : DnsCallback) (r : Returned) :
    Stays t (queueDnsRequest s t callback r) := by
  unfold queueDnsRequest
  split
  · exact stays_none _
  · exact stays_on _ nofun rfl

theorem newSocketEvent_stays (type : ResourceType) (callback : EventCallback) :
    Stays t (newSocketEvent s t type callback) := by
  unfold newSocketEvent
  split
  · exact stays_none _
  · exact stays_on _ id rfl

theorem push_stays (r : Returned) : Stays t (asyncNetworkTaskPush s t r) := by
  unfold asyncNetworkTaskPush
  cases t.type with
  | tcpConnect =>
    dsimp only
    unfold handleTcpConnectStage1
    split
    · exact stays_on _ id rfl
    · exact queueDnsRequest_stays _ r
  | tcpConnectWithNetaddress =>
    dsimp only
    unfold handleTcpConnectWithNetAddress
    cases t.netaddr with
    | ipv4A => exact stays_on _ id rfl
    | ipv6Aaaa => exact stays_on _ id rfl
    | other => exact stays_none _
  | disconnect => exact stays_on _ id rfl
  | tcpRead => exact newSocketEvent_stays _ _
  | tcpWrite => exact newSocketEvent_stays _ _
  | udpRecv => exact newSocketEvent_stays _ _
  | udpSend =>
    dsimp only
    unfold handleUdpSendStage1
    split
    · exact stays_none _
    · dsimp only
      split
      · exact stays_none _
      · exact stays_on _ id rfl
  | hostResolve => exact queueDnsRequest_stays _ r

theorem dnsCall_stays (callback : DnsCallback) (result : DnsResult) :
    Stays t (dnsCall s t callback result) := by
  cases callback with
  | handleTcpConnectStage2 =>
    unfold dnsCall handleTcpConnectStage2
    dsimp only
    split
    · exact stays_none _
    · cases result.type with
      | ipv4A => exact stays_on _ id rfl
      | ipv6Aaaa => exact stays_on _ id rfl
      | other => exact stays_none _
  | handleHostResolveStage2 =>
    unfold dnsCall handleHostResolveStage2
    dsimp only
    split
    · exact stays_none _
    · split
      · exact stays_none _
      · cases result.type <;> exact stays_none _

theorem stage3_stays (r : Returned) : Stays t (handleTcpConnectStage3 s t r) := by
  have hpair : ∀ (s : State) (r : Returned),
      Stays t (if r.ret ≠ 0 ∧ r.errno ≠ .einprogress then finish s t (getPpErrno r.errno)
        else goOn s t (.mapping ⟨some t.sock,.handleTcpConnectStage4⟩)) := by
    intro s r
    split
    · exact stays_none _
    · exact stays_on _ id rfl
  unfold handleTcpConnectStage3
  cases t.addrType <;> exact hpair _ _

theorem stage4_stays (timeout : Bool) (r : Returned) :
    Stays t (handleTcpConnectStage4 s t timeout r) := by
  unfold handleTcpConnectStage4
  split
  · exact stays_none _
  · dsimp only
    split
    · exact stays_none _
    · split
      · exact stays_on _ id rfl
      · exact stays_none _

theorem eventCall_stays (ev : Event) (timeout : Bool) (r : Returned) :
    Stays t (eventCall s t ev timeout r) := by
  unfold eventCall
  cases ev.callback with
  | handleTcpConnectStage4 => exact stage4_stays timeout r
  | handleTcpReadStage2 => exact stays_none _
  | handleTcpWriteStage2 => exact stays_none _
  | handleUdpRecvStage2 =>
    dsimp only
    unfold handleUdpRecvStage2
    split
    · exact stays_none _
    · exact stays_none _
  | handleUdpSendStage2 => exact stays_none _
  | handleDisconnectStage2 => exact stays_none _

theorem eventAdd_stays (ev : Event) : Stays t (eventAdd s t ev) := by
  unfold eventAdd
  split
  · exact stays_on _ nofun rfl
  · dsimp only
    split
    · exact stays_on _ nofun rfl
    · exact stays_on _ nofun rfl

theorem runTask_stays {r : Returned} {p : State × Option Task} (h : runTask s t r = some p) :
    Stays t p := by
  unfold runTask at h
  cases hpc : t.pc with
  | push => rw [hpc] at h; cases h; exact push_stays r
  | dnsCall callback result => rw [hpc] at h; cases h; exact dnsCall_stays callback result
  | stage3 => rw [hpc] at h; cases h; exact stage3_stays r
  | mapping ev => rw [hpc] at h; cases h; exact stays_on _ id rfl
  | adding ev => rw [hpc] at h; cases h; exact eventAdd_stays ev
  | freed ev => rw [hpc] at h; cases h; exact stays_none _
  | eventCall ev timeout => rw [hpc] at h; cases h; exact eventCall_stays ev timeout r
  | dns _ | waiting _ | unheard _ => rw [hpc] at h; cases h

/-- The network thread has one task in hand, which is the one to close a socket if there is
one. -/
structure OneWorker (s : State) : Prop where
  closing : ∀ t ∈ s.tasks, t.pc.isClosing = true → t.onWorker = true
  one : s.tasks.countP (·.onWorker) ≤ 1

/-! Steps. -/

/-- A step of the life of a task. -/
def Turns (t : Task) (u : Option Task) : Prop :=
  ∃ a : LifeAction, ∀ o, ∃ o', Life.step ⟨some t,o⟩ a = some ⟨u,o'⟩

theorem turns_run {r : Returned} {p : State × Option Task} (h : runTask s t r = some p) :
    Turns t p.2 :=
  ⟨.run s r,fun o => ⟨o.runTask s t r,by simp [Life.step,h]⟩⟩

theorem turns_occur {o : Occurrence} {pc : Pc} (h : t.pc.occur o = some pc) :
    Turns t (some { t with pc := pc, onWorker := true }) :=
  ⟨.occur o,fun owned => ⟨owned,by simp [Life.step,h]⟩⟩

theorem turns_abort (hm : t.mapped = true) (hw : t.onWorker = false) : Turns t t.leftover :=
  ⟨.abort,fun o => ⟨o.abort,by simp [Life.step,hm,hw]⟩⟩

/-- Each task stays as it is or takes a step of its life, and the others are new. -/
structure Passes (s s' : State) : Prop where
  lives : ∀ t ∈ s.tasks, t ∈ s'.tasks ∨ ∃ u, Turns t u ∧ ∀ v ∈ u, v ∈ s'.tasks
  origins : ∀ u ∈ s'.tasks, u.pc = .push ∨ u ∈ s.tasks ∨ ∃ t ∈ s.tasks, Turns t (some u)

/-- What a step keeps of the network thread, and what it is to the tasks. -/
structure Goes (s s' : State) : Prop where
  worker : OneWorker s'
  passes : Passes s s'

theorem OneWorker.new (new : List Task) (h : OneWorker s) (hs : s'.tasks = new ++ s.tasks)
    (hn : ∀ t ∈ new, t.pc = .push ∧ t.onWorker = false) : Goes s s' := by
  have hnone : new.countP (·.onWorker) = 0 := by
    rw [List.countP_eq_zero]
    exact fun t ht hw => absurd (hw.symm.trans (hn t ht).2) nofun
  refine ⟨⟨fun t ht hc => ?_,?_⟩,⟨fun t ht => .inl ?_,fun u hu => ?_⟩⟩
  · rw [hs] at ht
    rcases List.mem_append.mp ht with ht | ht
    · rw [(hn t ht).1] at hc
      cases hc
    · exact h.closing t ht hc
  · rw [hs,List.countP_append,hnone,Nat.zero_add]
    exact h.one
  · rw [hs]
    exact List.mem_append_right new ht
  · rw [hs] at hu
    rcases List.mem_append.mp hu with hu | hu
    · exact .inl (hn u hu).1
    · exact .inr (.inl hu)

/-- A task that takes a step while the others stay. -/
theorem passes_turn {i : ℕ} {u : Option Task} (ht : s.tasks[i]? = some t) (hu : Turns t u)
    (hs : s'.tasks = u.toList ++ s.tasks.eraseIdx i) : Passes s s' := by
  have hperm := taken_perm ht
  constructor
  · intro v hv
    rcases List.mem_cons.mp (hperm.mem_iff.mp hv) with rfl | hv
    · refine .inr ⟨u,hu,fun w hw => ?_⟩
      rw [hs]
      exact List.mem_append_left _ (Option.mem_toList.mpr hw)
    · refine .inl ?_
      rw [hs]
      exact List.mem_append_right _ hv
  · intro v hv
    rw [hs] at hv
    rcases List.mem_append.mp hv with hv | hv
    · have hsome : u = some v := Option.mem_toList.mp hv
      exact .inr (.inr ⟨t,mem_taken ht,hsome ▸ hu⟩)
    · exact .inr (.inl (List.mem_of_mem_eraseIdx hv))

theorem OneWorker.turn {i : ℕ} {p : State × Option Task} (h : OneWorker s)
    (ht : s.tasks[i]? = some t) (hp : Stays t p)
    (hs : s'.tasks = p.2.toList ++ s.tasks.eraseIdx i) : OneWorker s' := by
  have hone := h.one
  rw [(taken_perm ht).countP_eq,List.countP_cons] at hone
  refine ⟨fun v hv hc => ?_,?_⟩
  · rw [hs] at hv
    rcases List.mem_append.mp hv with hv | hv
    · exact absurd (hc.symm.trans (hp v (Option.mem_toList.mp hv)).2) nofun
    · exact h.closing v (List.mem_of_mem_eraseIdx hv) hc
  · rw [hs,List.countP_append]
    cases hu : p.2 with
    | none => simp only [Option.toList_none,List.countP_nil]; omega
    | some u =>
      have hworker := (hp u hu).1
      simp only [Option.toList_some,List.countP_singleton]
      split
      · rename_i hw
        rw [if_pos (hworker hw)] at hone
        omega
      · omega

/-- While a socket is closed no other task is in the hands of the network thread. -/
theorem OneWorker.others {i : ℕ} (h : OneWorker s) (ht : s.tasks[i]? = some t)
    (hc : t.pc.isClosing = true) : ∀ u ∈ s.tasks.eraseIdx i, u.onWorker = false := by
  have hone := h.one
  rw [(taken_perm ht).countP_eq,List.countP_cons,if_pos (h.closing t (mem_taken ht) hc)] at hone
  have hnone : (s.tasks.eraseIdx i).countP (·.onWorker) = 0 := by omega
  exact fun u hu => by simpa using List.countP_eq_zero.mp hnone u hu

theorem leftover_some {v : Task} (h : u.leftover = some v) :
    v.onWorker = u.onWorker ∧ v.pc.isClosing = false := by
  unfold Task.leftover at h
  split at h
  · cases h
    exact ⟨rfl,rfl⟩
  · cases h

theorem abortedBy_mapped (h : u.abortedBy t = true) : u.mapped = true :=
  (Bool.and_eq_true_iff.mp h).1

/-- The tasks left by `handle_disconnect_stage2`. -/
theorem mem_abort {v : Task} : v ∈ (s.abort t).tasks ↔
    (∃ u ∈ s.tasks, u.abortedBy t = true ∧ u.leftover = some v) ∨
      (v ∈ s.tasks ∧ v.abortedBy t = false) := by
  simp [State.abort,List.mem_filterMap,and_assoc]

theorem OneWorker.disconnect {i : ℕ} (h : OneWorker s) (ht : s.tasks[i]? = some t)
    (hc : t.pc.isClosing = true) {r : Returned} {p : State × Option Task}
    (hr : runTask { s with tasks := s.tasks.eraseIdx i } t r = some p)
    (hp : p = handleDisconnectStage2 { s with tasks := s.tasks.eraseIdx i } t)
    (hs : s'.tasks = p.2.toList ++ p.1.tasks) : Goes s s' := by
  have hothers := h.others ht hc
  have hgone : p.2 = none := by rw [hp]; rfl
  have hmem : ∀ v, v ∈ s'.tasks ↔
      (∃ u ∈ s.tasks.eraseIdx i, u.abortedBy t = true ∧ u.leftover = some v) ∨
        (v ∈ s.tasks.eraseIdx i ∧ v.abortedBy t = false) := by
    intro v
    rw [hs,hgone,hp]
    simp only [Option.toList_none,List.nil_append,handleDisconnectStage2,State.close_tasks]
    exact mem_abort
  refine ⟨⟨fun v hv hcv => ?_,?_⟩,⟨fun u hu => ?_,fun v hv => ?_⟩⟩
  · rcases (hmem v).mp hv with ⟨u,hu,_,hl⟩ | ⟨hv,_⟩
    · have hcv' := hcv.symm.trans (leftover_some hl).2
      cases hcv'
    · exact h.closing v (List.mem_of_mem_eraseIdx hv) hcv
  · have hnone : s'.tasks.countP (·.onWorker) = 0 := by
      rw [List.countP_eq_zero]
      intro v hv hw
      rcases (hmem v).mp hv with ⟨u,hu,_,hl⟩ | ⟨hv,_⟩
      · have hw' := hw.symm.trans ((leftover_some hl).1.trans (hothers u hu))
        cases hw'
      · have hw' := hw.symm.trans (hothers v hv)
        cases hw'
    omega
  · rcases List.mem_cons.mp ((taken_perm ht).mem_iff.mp hu) with rfl | hu
    · refine .inr ⟨none,?_,fun v hv => absurd hv (Option.not_mem_none v)⟩
      rw [← hgone]
      exact turns_run hr
    · cases ha : u.abortedBy t with
      | false => exact .inl ((hmem u).mpr (.inr ⟨hu,ha⟩))
      | true =>
        refine .inr ⟨u.leftover,turns_abort (abortedBy_mapped ha) (hothers u hu),fun v hv => ?_⟩
        exact (hmem v).mpr (.inl ⟨u,hu,ha,hv⟩)
  · rcases (hmem v).mp hv with ⟨u,hu,ha,hl⟩ | ⟨hv,_⟩
    · have hturn := turns_abort (abortedBy_mapped ha) (hothers u hu)
      rw [hl] at hturn
      exact .inr (.inr ⟨u,List.mem_of_mem_eraseIdx hu,hturn⟩)
    · exact .inr (.inl (List.mem_of_mem_eraseIdx hv))

theorem OneWorker.run {i : ℕ} {r : Returned} (h : OneWorker s) (hs : runAt s i r = some s') :
    Goes s s' := by
  obtain ⟨t,ht,hs⟩ := Option.bind_eq_some_iff.mp hs
  obtain ⟨p,hp,rfl⟩ := Option.map_eq_some_iff.mp hs
  obtain ⟨hclosing,he⟩ | ⟨_,he⟩ := runTask_cases hp
  · exact h.disconnect ht hclosing hp he rfl
  · have hkept : p.1.tasks = s.tasks.eraseIdx i := by
      cases he with
      | goesOn hk _ _ => exact hk.tasks
      | finished _ hk _ => exact hk.tasks
      | dropped hk _ _ => exact hk.tasks
    have htasks : ({ p.1 with tasks := p.2.toList ++ p.1.tasks } : State).tasks =
        p.2.toList ++ s.tasks.eraseIdx i := by rw [hkept]
    exact ⟨h.turn ht (runTask_stays hp) htasks,passes_turn ht (turns_run hp) htasks⟩

/-- The network thread takes a task when it has none. -/
theorem OneWorker.occur {i : ℕ} {o : Occurrence} (h : OneWorker s)
    (hs : occurAt s i o = some s') : Goes s s' := by
  unfold occurAt at hs
  split at hs
  · cases hs
  · rename_i hidle
    obtain ⟨t,ht,hs⟩ := Option.bind_eq_some_iff.mp hs
    obtain ⟨pc,hpc,rfl⟩ := Option.map_eq_some_iff.mp hs
    have hnone : ∀ u ∈ s.tasks, u.onWorker = false := by simpa using hidle
    refine ⟨⟨fun v hv hc => ?_,?_⟩,passes_turn ht (turns_occur hpc) rfl⟩
    · rcases List.mem_cons.mp hv with rfl | hv
      · rfl
      · exact h.closing v (List.mem_of_mem_eraseIdx hv) hc
    · have hzero : (s.tasks.eraseIdx i).countP (·.onWorker) = 0 := by
        rw [List.countP_eq_zero]
        exact fun u hu => by simp [hnone u (List.mem_of_mem_eraseIdx hu)]
      rw [List.countP_cons,hzero]
      exact Nat.le_refl 1

theorem OneWorker.request (h : OneWorker s) (k callback callbackMl : ℕ) (q : Request) :
    Goes s (request s k callback callbackMl q).1 := by
  obtain heq | ⟨t,hnew,heq⟩ | ⟨us,us',_,_,heq⟩ := request_cases s k callback callbackMl q
  · rw [heq]
    exact h.new [] rfl fun u hu => absurd hu List.not_mem_nil
  · rw [heq]
    refine h.new [{ t with operation := some ⟨s.accepted.length,callback,callbackMl⟩ }] rfl
      fun u hu => ?_
    rw [List.mem_singleton.mp hu]
    exact ⟨hnew.pc,hnew.onWorker⟩
  · rw [heq]
    exact h.new [] rfl fun u hu => absurd hu List.not_mem_nil

theorem step_goes {a : Action} (h : OneWorker s) (hs : step s a = some s') : Goes s s' := by
  obtain ⟨new,hm⟩ | ⟨k,callback,callbackMl,q,rfl⟩ | ⟨i,r,rfl⟩ | ⟨i,o,rfl⟩ := step_manages hs
  · refine h.new new hm.tasks fun t ht => ?_
    rw [(hm.disconnects t ht).1]
    exact ⟨rfl,rfl⟩
  · cases hs
    exact h.request k callback callbackMl q
  · exact h.run hs
  · exact h.occur hs

theorem start_oneWorker : OneWorker machine.start where
  closing := by simp [machine]
  one := by simp [machine]

/-- In a network, each step lets a task stay as it is or take a step of its life. -/
theorem step_lives {a : Action} (h : machine.Reachable s) (hs : step s a = some s')
    (ht : t ∈ s.tasks) : t ∈ s'.tasks ∨ ∃ u, Turns t u ∧ ∀ v ∈ u, v ∈ s'.tasks :=
  have hw := h.invariant OneWorker start_oneWorker fun _ _ _ hi _ hs => (step_goes hi hs).worker
  (step_goes hw hs).passes.lives t ht

/-- It has lived from its request to where it is. -/
def Task.Lived (u : Task) : Prop :=
  ∃ t : Task, t.pc = .push ∧ ∀ fromAddress, ∃ actions o,
    (life t fromAddress).exec (life t fromAddress).start actions = some ⟨some u,o⟩

theorem Task.Lived.turn (h : t.Lived) (hu : Turns t (some u)) : u.Lived := by
  obtain ⟨t₀,hpush,hlived⟩ := h
  obtain ⟨a,ha⟩ := hu
  refine ⟨t₀,hpush,fun fromAddress => ?_⟩
  obtain ⟨actions,o,hr⟩ := hlived fromAddress
  obtain ⟨o',hs⟩ := ha o
  refine ⟨actions ++ [a],o',?_⟩
  rw [Machine.exec_append,hr,Option.bind_some,Machine.exec_cons]
  exact congrArg (Option.bind · _) hs

/-- Each task of a network lives a life. -/
theorem task_lived (h : machine.Reachable s) : ∀ u ∈ s.tasks, u.Lived := by
  refine (h.invariant (fun s => OneWorker s ∧ ∀ u ∈ s.tasks, u.Lived)
    ⟨start_oneWorker,by simp [machine]⟩ fun s a s' hi _ hs => ?_).2
  have hgoes := step_goes hi.1 hs
  refine ⟨hgoes.worker,fun u hu => ?_⟩
  rcases hgoes.passes.origins u hu with hpush | hu | ⟨t,ht,hturn⟩
  · exact ⟨u,hpush,fun fromAddress => ⟨[],_,rfl⟩⟩
  · exact hi.2 u hu
  · exact (hi.2 t ht).turn hturn

end AsyncNetwork
end FreshPlayer
