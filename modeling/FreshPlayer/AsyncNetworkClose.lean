import FreshPlayer.AsyncNetworkSections

/-! No network task uses a descriptor that a disconnect of its socket has closed, as long as
each disconnect closes it when all other tasks of the socket can be aborted, and nothing is
accepted for the socket afterwards. -/
namespace FreshPlayer
namespace AsyncNetwork

def State.Closed (s : State) (k : ℕ) : Prop := ∃ c ∈ s.calls, c.call = .close ∧ c.resource = k

instance (s : State) (k : ℕ) : Decidable (s.Closed k) :=
  inferInstanceAs (Decidable (∃ c ∈ s.calls, _))

/-- Connecting, sending, receiving and registering an event. -/
def Call.uses : Call → Bool
  | .connect | .send | .recv | .eventAdd => true
  | .fcntl | .getpeername | .close => false

/-- The later call does not use what the earlier one closed for the same socket. -/
def Syscall.Respects (later earlier : Syscall) : Prop :=
  earlier.call = .close → later.call.uses = true →
    ¬(later.resource = earlier.resource ∧ later.fd = earlier.fd)

instance (c d : Syscall) : Decidable (c.Respects d) :=
  inferInstanceAs (Decidable (_ → _ → ¬_))

def State.NoUseAfterClose (s : State) : Prop := s.calls.Pairwise Syscall.Respects

/-- A socket is closed when its other tasks are in the table with their events added, and
no operation is accepted for it then. -/
def ClosesLast (s : State) : Action → Prop
  | .run i _ => ∀ t ∈ s.tasks[i]?, t.pc.isClosing = true →
    ∀ u ∈ s.tasks.eraseIdx i, u.resource = t.resource → u.mapped = true ∧ u.pc.isAdding = false
  | .request k callback callbackMl q =>
    (request s k callback callbackMl q).2 = ppOkCompletionpending → ¬s.Closed k
  | _ => True

instance (s : State) : ∀ a, Decidable (ClosesLast s a)
  | .run i _ => inferInstanceAs (Decidable (∀ t ∈ s.tasks[i]?, _))
  | .request .. => inferInstanceAs (Decidable (_ → _))
  | .createTcpSocket _ | .createUdpSocket _ | .createHostResolver | .openFile _ | .ref _
  | .unref _ | .tcpDisconnect _ | .udpClose _ | .occur .. => .isTrue trivial

/-- Its disconnect was asked for. -/
def State.Marked (s : State) (k : ℕ) : Prop :=
  k < s.resTblNext ∧ ∀ rs, s.resources k = some rs → rs.destroyed = true

structure CloseInv (s : State) : Prop where
  calls : s.NoUseAfterClose
  gone : ∀ t ∈ s.tasks, ¬s.Closed t.resource
  marked : ∀ k, s.Closed k → s.Marked k
  disconnecting : ∀ t ∈ s.tasks, t.disconnects → s.Marked t.resource
  known : ∀ k rs, s.resources k = some rs → k < s.resTblNext

theorem CloseInv.manages {s s' : State} {new : List Task} (h : CloseInv s)
    (hm : Manages s s' new) : CloseInv s' := by
  have hclosed : ∀ k, s'.Closed k ↔ s.Closed k := fun k => by rw [State.Closed,State.Closed,hm.calls]
  have hmarked : ∀ k, s.Marked k → s'.Marked k := by
    intro k hk
    refine ⟨hk.1.trans_le hm.next,fun rs' hrs' => ?_⟩
    obtain ⟨hle,_⟩ | ⟨rs,hrs,hd⟩ := hm.resources k rs' hrs'
    · exact absurd hk.1 (Nat.not_lt.mpr hle)
    · exact hd (hk.2 rs hrs)
  refine ⟨?_,fun t ht => ?_,fun k hk => hmarked k (h.marked k ((hclosed k).mp hk)),fun t ht hd => ?_,
    fun k rs' hk => ?_⟩
  · rw [State.NoUseAfterClose,hm.calls]
    exact h.calls
  · rw [hm.tasks] at ht
    rw [hclosed]
    obtain ht | ht := List.mem_append.mp ht
    · obtain ⟨_,⟨rs,hrs,hd⟩,_⟩ := hm.disconnects t ht
      intro hc
      rw [(h.marked _ hc).2 rs hrs] at hd
      cases hd
    · exact h.gone t ht
  · rw [hm.tasks] at ht
    obtain ht | ht := List.mem_append.mp ht
    · obtain ⟨_,⟨rs,hrs,_⟩,hd⟩ := hm.disconnects t ht
      exact ⟨(h.known _ rs hrs).trans_le hm.next,hd⟩
    · exact hmarked _ (h.disconnecting t ht hd)
  · obtain ⟨_,hlt⟩ | ⟨rs,hrs,_⟩ := hm.resources k rs' hk
    · exact hlt
    · exact (h.known k rs hrs).trans_le hm.next

/-- Resources kept up to what no disconnect decides. -/
theorem marked_of_core {s s' : State} (hn : s'.resTblNext = s.resTblNext)
    (hr : ∀ k rs', s'.resources k = some rs' → ∃ rs, s.resources k = some rs ∧ rs.core = rs'.core)
    {k : ℕ} (h : s.Marked k) : s'.Marked k := by
  refine ⟨hn ▸ h.1,fun rs' hrs' => ?_⟩
  obtain ⟨rs,hrs,hc⟩ := hr k rs' hrs'
  have hd : rs.destroyed = rs'.destroyed := congrArg (·.2.2) hc
  rw [← hd]
  exact h.2 rs hrs

theorem CloseInv.request {s : State} (h : CloseInv s) {k callback callbackMl : ℕ} {q : Request}
    (hg : ClosesLast s (.request k callback callbackMl q)) :
    CloseInv (request s k callback callbackMl q).1 := by
  obtain he | ⟨t,hnew,he⟩ | ⟨us,us',hus,hcore,he⟩ := request_cases s k callback callbackMl q
  · rw [he]
    exact h
  · have hopen : ¬s.Closed k := hg (by rw [he]; rfl)
    rw [he]
    refine ⟨h.calls,fun u hu => ?_,h.marked,fun u hu hd => ?_,h.known⟩
    · obtain rfl | hu := List.mem_cons.mp hu
      · exact hnew.resource ▸ hopen
      · exact h.gone u hu
    · obtain rfl | hu := List.mem_cons.mp hu
      · obtain hd | ⟨ev,hev,_⟩ := hd
        · exact absurd hd hnew.type
        · have hev' : ev ∈ t.pc.event := hev
          rw [hnew.pc] at hev'
          cases hev'
      · exact h.disconnecting u hu hd
  · rw [he]
    have hkeep : Keeps s (s.put k (some us')) (Task.create .udpRecv none k 0) := .put _ hus hcore
    have hmarked : ∀ j, s.Marked j → (s.put k (some us')).Marked j :=
      fun j => marked_of_core hkeep.next fun _ _ => hkeep.resource
    refine ⟨h.calls,h.gone,fun j hj => hmarked j (h.marked j hj),
      fun t ht hd => hmarked _ (h.disconnecting t ht hd),fun j rs' hj => ?_⟩
    obtain ⟨rs,hrs,_⟩ := hkeep.resource hj
    exact h.known j rs hrs

theorem CloseInv.occur {s s' : State} (h : CloseInv s) {i : ℕ} {o : Occurrence}
    (hs : occurAt s i o = some s') : CloseInv s' := by
  unfold occurAt at hs
  split_ifs at hs
  obtain ⟨t,ht,hs⟩ := Option.bind_eq_some_iff.mp hs
  obtain ⟨pc,hpc,rfl⟩ := Option.map_eq_some_iff.mp hs
  have hmem : t ∈ s.tasks := List.mem_of_getElem? ht
  refine ⟨h.calls,fun u hu => ?_,h.marked,fun u hu hd => ?_,h.known⟩
  · obtain rfl | hu := List.mem_cons.mp hu
    · exact h.gone t hmem
    · exact h.gone u (List.mem_of_mem_eraseIdx hu)
  · obtain rfl | hu := List.mem_cons.mp hu
    · refine h.disconnecting t hmem ?_
      obtain hd | ⟨ev,hev,he⟩ := hd
      · exact .inl hd
      · obtain ⟨_,_,_,rfl⟩ | ⟨ev',_,hpc',rfl⟩ := Pc.occur_cases hpc
        · cases hev
        · exact .inr ⟨ev,by rw [hpc']; exact hev,he⟩
    · exact h.disconnecting u (List.mem_of_mem_eraseIdx hu) hd

/-- A section that does not close: its calls are for the resource of its task. -/
theorem CloseInv.ends {s : State} (h : CloseInv s) {i : ℕ} {t : Task} (ht : s.tasks[i]? = some t)
    {p : State × Option Task} (he : Ends { s with tasks := s.tasks.eraseIdx i } t p) :
    CloseInv { p.1 with tasks := p.2.toList ++ p.1.tasks } := by
  have hmem : t ∈ s.tasks := List.mem_of_getElem? ht
  obtain ⟨hk,hnew⟩ : Keeps { s with tasks := s.tasks.eraseIdx i } p.1 t ∧
      ∀ u ∈ p.2, u.resource = t.resource ∧ (u.disconnects → t.disconnects) := by
    cases he with
    | goesOn hk _ hf => exact ⟨hk,by rintro _ ⟨⟩; exact ⟨hf.resource,hf.disconnects⟩⟩
    | finished _ hk _ => exact ⟨hk,by simp⟩
    | dropped hk _ _ => exact ⟨hk,by simp⟩
  obtain ⟨new,hcalls,hc⟩ := hk.calls
  have hclosed : ∀ k, p.1.Closed k → s.Closed k := by
    rintro k ⟨c,hm,hclose,rfl⟩
    rw [hcalls] at hm
    obtain hm | hm := List.mem_append.mp hm
    · exact absurd hclose (hc c hm).2
    · exact ⟨c,hm,hclose,rfl⟩
  have hmarked : ∀ k, s.Marked k → p.1.Marked k :=
    fun k => marked_of_core hk.next fun _ _ => hk.resource
  have htasks : ∀ u ∈ p.2.toList ++ p.1.tasks, ∃ v ∈ s.tasks, u.resource = v.resource ∧
      (u.disconnects → v.disconnects) := by
    intro u hu
    obtain hu | hu := List.mem_append.mp hu
    · exact ⟨t,hmem,hnew u (Option.mem_toList.mp hu)⟩
    · rw [hk.tasks] at hu
      exact ⟨u,List.mem_of_mem_eraseIdx hu,rfl,id⟩
  refine ⟨?_,fun u hu hcl => ?_,fun k hcl => hmarked k (h.marked k (hclosed k hcl)),
    fun u hu hd => ?_,fun k rs' hk' => ?_⟩
  · change p.1.calls.Pairwise _
    rw [hcalls]
    refine List.pairwise_append.mpr ⟨?_,h.calls,fun c hm e hme hclose _ hsame => ?_⟩
    · exact List.pairwise_of_forall_mem_list fun c _ e hme hclose => absurd hclose (hc e hme).2
    · exact h.gone t hmem ⟨e,hme,hclose,hsame.1.symm.trans (hc c hm).1⟩
  · obtain ⟨v,hv,hr,_⟩ := htasks u hu
    exact h.gone v hv (hr ▸ hclosed _ hcl)
  · obtain ⟨v,hv,hr,hd'⟩ := htasks u hu
    exact hmarked _ (hr ▸ h.disconnecting v hv (hd' hd))
  · obtain ⟨rs,hrs,_⟩ := hk.resource hk'
    exact hk.next.symm ▸ h.known k rs hrs

/-- No task of the socket is left when it is closed. -/
theorem abort_others {s : State} {t : Task}
    (hg : ∀ u ∈ s.tasks, u.resource = t.resource → u.mapped = true ∧ u.pc.isAdding = false)
    {u : Task} (hu : u ∈ (s.abort t).tasks) : u ∈ s.tasks ∧ u.resource ≠ t.resource := by
  obtain hu | hu := List.mem_append.mp hu
  · obtain ⟨v,hv,huv⟩ := List.mem_filterMap.mp hu
    obtain ⟨hv,hab⟩ := List.mem_filter.mp hv
    have hres : v.resource = t.resource := by
      simpa using (Bool.and_eq_true_iff.mp hab).2
    rw [leftover_none (hg v hv hres).2] at huv
    cases huv
  · obtain ⟨hu,hab⟩ := List.mem_filter.mp hu
    refine ⟨hu,fun hres => ?_⟩
    rw [Task.abortedBy,(hg u hu hres).1,hres] at hab
    simp at hab

theorem CloseInv.disconnect {s : State} (h : CloseInv s) {i : ℕ} {t : Task}
    (ht : s.tasks[i]? = some t) (hclosing : t.pc.isClosing = true)
    (hg : ∀ u ∈ s.tasks.eraseIdx i, u.resource = t.resource →
      u.mapped = true ∧ u.pc.isAdding = false) :
    CloseInv (handleDisconnectStage2 { s with tasks := s.tasks.eraseIdx i } t).1 := by
  have hmem : t ∈ s.tasks := List.mem_of_getElem? ht
  have hmarked : s.Marked t.resource := by
    refine h.disconnecting t hmem (.inr ?_)
    cases hpc : t.pc with
    | eventCall ev timeout =>
      rw [hpc] at hclosing
      exact ⟨ev,rfl,by simpa [Pc.isClosing] using hclosing⟩
    | _ => rw [hpc] at hclosing; cases hclosing
  have hrest : ∀ u ∈ (State.abort { s with tasks := s.tasks.eraseIdx i } t).tasks,
      u ∈ s.tasks ∧ u.resource ≠ t.resource := by
    intro u hu
    obtain ⟨hu,hr⟩ := abort_others (s := { s with tasks := s.tasks.eraseIdx i }) hg hu
    exact ⟨List.mem_of_mem_eraseIdx hu,hr⟩
  unfold handleDisconnectStage2 State.close
  split_ifs
  · have hclosed : ∀ k, State.Closed (State.called (State.abort { s with
        tasks := s.tasks.eraseIdx i } t) .close t t.sock) k → k = t.resource ∨ s.Closed k := by
      rintro k ⟨c,hm,hclose,rfl⟩
      obtain rfl | hm := List.mem_cons.mp hm
      · exact .inl rfl
      · exact .inr ⟨c,hm,hclose,rfl⟩
    refine ⟨?_,fun u hu hcl => ?_,fun k hcl => ?_,fun u hu => h.disconnecting u (hrest u hu).1,h.known⟩
    · exact List.pairwise_cons.mpr ⟨fun _ _ _ huses => (Bool.false_ne_true huses).elim,h.calls⟩
    · obtain hr | hcl := hclosed _ hcl
      · exact (hrest u hu).2 hr
      · exact h.gone u (hrest u hu).1 hcl
    · obtain rfl | hcl := hclosed k hcl
      · exact hmarked
      · exact h.marked k hcl
  · exact ⟨h.calls,fun u hu => h.gone u (hrest u hu).1,h.marked,
      fun u hu => h.disconnecting u (hrest u hu).1,h.known⟩

theorem step_closeInv {s s' : State} {a : Action} (h : CloseInv s) (hg : ClosesLast s a)
    (hs : step s a = some s') : CloseInv s' := by
  obtain ⟨new,hm⟩ | ⟨k,callback,callbackMl,q,rfl⟩ | ⟨i,r,rfl⟩ | ⟨i,o,rfl⟩ := step_manages hs
  · exact h.manages hm
  · cases hs
    exact h.request hg
  · obtain ⟨t,ht,hs⟩ := Option.bind_eq_some_iff.mp hs
    obtain ⟨p,hp,rfl⟩ := Option.map_eq_some_iff.mp hs
    obtain ⟨hclosing,rfl⟩ | ⟨_,he⟩ := runTask_cases hp
    · exact h.disconnect ht hclosing (hg t ht hclosing)
    · exact h.ends ht he
  · exact h.occur hs

theorem start_closeInv : CloseInv machine.start where
  calls := .nil
  gone := by simp [machine]
  marked := by
    rintro k ⟨c,hc,_⟩
    cases hc
  disconnecting := by simp [machine]
  known := by simp [machine]

/-- A receive is aborted by the close of its socket. -/
def receiveThenClose : List Action :=
  [.createUdpSocket 5,.request 1 7 0 .udpRecvFrom,.run 0 ⟨0,.other⟩,.run 0 ⟨0,.other⟩,
    .run 0 ⟨0,.other⟩,.udpClose 1,.run 0 ⟨0,.other⟩,.run 0 ⟨0,.other⟩,.run 0 ⟨0,.other⟩,
    .occur 0 (.event true),.run 0 ⟨0,.other⟩]

/-- A socket is disconnected while its host is being resolved. -/
def disconnectWhileResolving : List Action :=
  [.createTcpSocket 5,.request 1 7 0 (.tcpConnect false),.run 0 ⟨1,.other⟩,.tcpDisconnect 1,
    .run 0 ⟨0,.other⟩,.run 0 ⟨0,.other⟩,.run 0 ⟨0,.other⟩,.occur 0 (.event true),.run 0 ⟨0,.other⟩,
    .openFile 5,.occur 0 (.dns ⟨true,.ipv4A,1⟩),.run 0 ⟨0,.other⟩,.run 0 ⟨0,.other⟩]

end AsyncNetwork
end FreshPlayer
