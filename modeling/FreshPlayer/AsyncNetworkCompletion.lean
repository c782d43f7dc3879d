import FreshPlayer.AsyncNetworkSections
import Mathlib.Data.List.Nodup
import Mathlib.Data.Multiset.DershowitzManna

/-! Every accepted operation has a task or has its callback posted, once, as long as no
task is run into the sections that lose it: its resource is gone, the descriptor for its
event is closed, or a disconnect finds it between the table of tasks and libevent. -/
namespace FreshPlayer
namespace AsyncNetwork

/-- Its next section loses neither the task nor one that it aborts. -/
def Task.Completes (s : State) (others : List Task) (t : Task) : Prop :=
  (∀ type ∈ t.acquires, (s.acquire t.resource type).isSome) ∧
  (∀ fd ∈ t.addsTo, fd ∈ s.fds) ∧
  (t.pc.isClosing = true → ∀ u ∈ others, u.abortedBy t = true → u.pc.isAdding = false)

instance (s : State) (others : List Task) (t : Task) : Decidable (t.Completes s others) :=
  inferInstanceAs (Decidable (_ ∧ _ ∧ _))

def Completing (s : State) : Action → Prop
  | .run i _ => ∀ t ∈ s.tasks[i]?, t.Completes s (s.tasks.eraseIdx i)
  | _ => True

instance (s : State) : ∀ a, Decidable (Completing s a)
  | .run i _ => inferInstanceAs (Decidable (∀ t ∈ s.tasks[i]?, _))
  | .createTcpSocket _ | .createUdpSocket _ | .createHostResolver | .openFile _ | .ref _
  | .unref _ | .request .. | .tcpDisconnect _ | .udpClose _ | .occur .. => .isTrue trivial

/-- The operations posted, and those of the tasks. -/
def State.operations (s : State) : List Operation :=
  s.posted.map Completion.operation ++ s.tasks.filterMap Task.operation

structure CompletionInv (s : State) : Prop where
  operations : s.operations.Perm s.accepted
  numbers : s.accepted.map Operation.number = (List.range s.accepted.length).reverse
  silent : ∀ t ∈ s.tasks, t.disconnects → t.operation = none
  heard : ∀ t ∈ s.tasks, t.pc.isUnheard = false
  notFreed : ∀ t ∈ s.tasks, t.pc.isFreed = false
  inHand : ∀ t ∈ s.tasks, t.onWorker = true → t.pc.inHand = true

theorem CompletionInv.nodup {s : State} (h : CompletionInv s) : s.accepted.Nodup := by
  have hn : (s.accepted.map Operation.number).Nodup := by
    rw [h.numbers]
    exact (List.reverse_perm _).nodup_iff.mpr List.nodup_range
  exact List.Nodup.of_map _ hn

/-- The task a step takes, and the others. -/
theorem taken_perm {l : List Task} {i : ℕ} {t : Task} (h : l[i]? = some t) :
    l.Perm (t::l.eraseIdx i) := by
  obtain ⟨hi,ht⟩ := List.getElem?_eq_some_iff.mp h
  exact ht ▸ (List.getElem_cons_eraseIdx_perm hi).symm

theorem mem_taken {l : List Task} {i : ℕ} {t : Task} (h : l[i]? = some t) : t ∈ l :=
  List.mem_of_getElem? h

theorem operations_taken {s : State} {i : ℕ} {t : Task} (h : s.tasks[i]? = some t) :
    s.operations.Perm (s.posted.map Completion.operation ++
      (t.operation.toList ++ (s.tasks.eraseIdx i).filterMap Task.operation)) := by
  have hp := (taken_perm h).filterMap Task.operation
  have hc : (t::s.tasks.eraseIdx i).filterMap Task.operation =
      t.operation.toList ++ (s.tasks.eraseIdx i).filterMap Task.operation := by
    cases ho : t.operation <;> simp [ho]
  rw [hc] at hp
  exact hp.append_left _

/-- The tasks that stay are among those there were. -/
theorem CompletionInv.of_tasks {s s' : State} (h : CompletionInv s)
    (ho : s'.operations.Perm s'.accepted) (ha : s'.accepted = s.accepted)
    (ht : ∀ t ∈ s'.tasks, t ∈ s.tasks ∨ ((t.disconnects → t.operation = none) ∧
      t.pc.isUnheard = false ∧ t.pc.isFreed = false ∧ (t.onWorker = true → t.pc.inHand = true))) :
    CompletionInv s' where
  operations := ho
  numbers := by rw [ha]; exact h.numbers
  silent t hm := (ht t hm).elim (h.silent t) And.left
  heard t hm := (ht t hm).elim (h.heard t) (·.2.1)
  notFreed t hm := (ht t hm).elim (h.notFreed t) (·.2.2.1)
  inHand t hm := (ht t hm).elim (h.inHand t) (·.2.2.2)

theorem CompletionInv.manages {s s' : State} {new : List Task} (h : CompletionInv s)
    (hm : Manages s s' new) : CompletionInv s' := by
  have hnew : ∀ t ∈ new, t.operation = none ∧ t.pc = .push ∧ t.onWorker = false := by
    intro t ht
    rw [(hm.disconnects t ht).1]
    exact ⟨rfl,rfl,rfl⟩
  have hops : s'.operations = s.operations := by
    have hnil : new.filterMap Task.operation = [] :=
      List.filterMap_eq_nil_iff.mpr fun t ht => (hnew t ht).1
    simp only [State.operations,hm.tasks,hm.posted,List.filterMap_append,hnil,List.nil_append]
  refine h.of_tasks (by rw [hops,hm.accepted]; exact h.operations) hm.accepted fun t ht => ?_
  rw [hm.tasks] at ht
  obtain ht | ht := List.mem_append.mp ht
  · obtain ⟨hop,hpc,hw⟩ := hnew t ht
    refine .inr ⟨fun _ => hop,by rw [hpc]; rfl,by rw [hpc]; rfl,fun hw' => ?_⟩
    rw [hw] at hw'
    cases hw'
  · exact .inl ht

theorem numbers_cons {l : List Operation}
    (h : l.map Operation.number = (List.range l.length).reverse) (callback callbackMl : ℕ) :
    ((⟨l.length,callback,callbackMl⟩ : Operation)::l).map Operation.number =
      (List.range (l.length+1)).reverse := by
  rw [List.range_succ,List.reverse_append,List.map_cons,h]
  rfl

theorem CompletionInv.request {s : State} (h : CompletionInv s) (k callback callbackMl : ℕ)
    (q : Request) : CompletionInv (request s k callback callbackMl q).1 := by
  obtain he | ⟨t,hnew,he⟩ | ⟨us,us',_,_,he⟩ := request_cases s k callback callbackMl q
  · rw [he]
    exact h
  · rw [he]
    refine ⟨?_,numbers_cons h.numbers callback callbackMl,?_,?_,?_,?_⟩
    · simp only [State.operations,State.push,List.filterMap_cons]
      exact List.perm_middle.trans (h.operations.cons _)
    all_goals
      intro u hu
      obtain rfl | hu := List.mem_cons.mp hu
    · rintro (ht | ⟨ev,hev,_⟩)
      · exact absurd ht hnew.type
      · have hev' : ev ∈ t.pc.event := hev
        rw [hnew.pc] at hev'
        cases hev'
    · exact h.silent u hu
    · exact hnew.pc ▸ rfl
    · exact h.heard u hu
    · exact hnew.pc ▸ rfl
    · exact h.notFreed u hu
    · intro _
      exact hnew.pc ▸ rfl
    · exact h.inHand u hu
  · rw [he]
    refine ⟨?_,numbers_cons h.numbers callback callbackMl,h.silent,h.heard,h.notFreed,h.inHand⟩
    simp only [State.operations,State.put,List.map_append,List.map_cons,List.map_nil,
      List.append_assoc]
    exact List.perm_middle.trans (h.operations.cons _)

theorem CompletionInv.occur {s s' : State} (h : CompletionInv s) {i : ℕ} {o : Occurrence}
    (hs : occurAt s i o = some s') : CompletionInv s' := by
  unfold occurAt at hs
  split_ifs at hs
  obtain ⟨t,ht,hs⟩ := Option.bind_eq_some_iff.mp hs
  obtain ⟨pc,hpc,rfl⟩ := Option.map_eq_some_iff.mp hs
  have hops := operations_taken ht
  refine h.of_tasks ?_ rfl fun u hu => ?_
  · refine (List.Perm.trans ?_ hops.symm).trans h.operations
    cases t.operation <;> simp [State.operations]
  · obtain rfl | hu := List.mem_cons.mp hu
    · have hsilent := h.silent t (mem_taken ht)
      obtain ⟨callback,result,_,rfl⟩ | ⟨ev,timeout,hpc',rfl⟩ := Pc.occur_cases hpc
      · refine .inr ⟨?_,rfl,rfl,fun _ => rfl⟩
        rintro (hd | ⟨ev,hev,_⟩)
        · exact hsilent (.inl hd)
        · cases hev
      · refine .inr ⟨?_,rfl,rfl,fun _ => rfl⟩
        rintro (hd | ⟨ev',hev,he⟩)
        · exact hsilent (.inl hd)
        · exact hsilent (.inr ⟨ev',by rw [hpc']; exact hev,he⟩)
    · exact .inl (List.mem_of_mem_eraseIdx hu)

/-- A section that ends in one of the three ways, none of them the drop. -/
theorem CompletionInv.ends {s : State} (h : CompletionInv s) {i : ℕ} {t : Task}
    (ht : s.tasks[i]? = some t) (hc : t.Completes s (s.tasks.eraseIdx i))
    {p : State × Option Task} (he : Ends { s with tasks := s.tasks.eraseIdx i } t p) :
    CompletionInv { p.1 with tasks := p.2.toList ++ p.1.tasks } := by
  have hops := operations_taken ht
  have hold : ∀ {s' : State} {u : Task}, Keeps { s with tasks := s.tasks.eraseIdx i } s' t →
      u ∈ s'.tasks → u ∈ s.tasks := by
    intro s' u hk hu
    rw [hk.tasks] at hu
    exact List.mem_of_mem_eraseIdx hu
  cases he with
  | @goesOn s' u hk hp hf =>
    refine h.of_tasks ?_ hk.accepted fun v hv => ?_
    · rw [hk.accepted]
      refine (List.Perm.trans ?_ hops.symm).trans h.operations
      have hou := hf.operation
      cases hop : t.operation <;> rw [hop] at hou <;>
        simp [State.operations,hp,hk.tasks,hou]
    · obtain rfl | hv := List.mem_cons.mp hv
      · refine .inr ⟨fun hd => ?_,?_,hf.notFreed,hf.inHand⟩
        · rw [hf.operation]
          exact h.silent t (mem_taken ht) (hf.disconnects hd)
        · by_contra hh
          obtain ⟨fd,hadds,hclosed⟩ := hf.heard (by simpa using hh)
          exact hclosed (hc.2.1 fd hadds)
      · exact .inl (hold hk hv)
  | @finished s' result hk hp =>
    refine h.of_tasks ?_ hk.accepted fun v hv => .inl (hold hk hv)
    rw [hk.accepted]
    refine (List.Perm.trans ?_ hops.symm).trans h.operations
    cases hop : t.operation <;> simp [State.operations,hp,hk.tasks,hop]
  | @dropped s' hk hp hd =>
    exfalso
    obtain hfreed | ⟨type,ha,hgone⟩ := hd
    · rw [h.notFreed t (mem_taken ht)] at hfreed
      cases hfreed
    · have hsome := hc.1 type ha
      change s.acquire t.resource type = none at hgone
      rw [hgone] at hsome
      cases hsome

theorem filterMap_leftover {l : List Task} (h : ∀ u ∈ l, u.pc.isAdding = false) :
    l.filterMap Task.leftover = [] :=
  List.filterMap_eq_nil_iff.mpr fun u hu => leftover_none (h u hu)

@[simp] theorem State.close_tasks (s : State) (t : Task) (fd : ℤ) :
    (s.close t fd).tasks = s.tasks := by
  unfold State.close
  split_ifs <;> rfl

@[simp] theorem State.close_posted (s : State) (t : Task) (fd : ℤ) :
    (s.close t fd).posted = s.posted := by
  unfold State.close
  split_ifs <;> rfl

@[simp] theorem State.close_accepted (s : State) (t : Task) (fd : ℤ) :
    (s.close t fd).accepted = s.accepted := by
  unfold State.close
  split_ifs <;> rfl

/-- The disconnect posts for the tasks it aborts. -/
theorem CompletionInv.disconnect {s : State} (h : CompletionInv s) {i : ℕ} {t : Task}
    (ht : s.tasks[i]? = some t) (hc : t.Completes s (s.tasks.eraseIdx i))
    (hclosing : t.pc.isClosing = true) :
    CompletionInv (handleDisconnectStage2 { s with tasks := s.tasks.eraseIdx i } t).1 := by
  have hleft : ((s.tasks.eraseIdx i).filter (·.abortedBy t)).filterMap Task.leftover = [] :=
    filterMap_leftover fun u hu => hc.2.2 hclosing u (List.mem_filter.mp hu).1 (List.mem_filter.mp hu).2
  have hsilent : t.operation = none := by
    refine h.silent t (mem_taken ht) (.inr ?_)
    cases hpc : t.pc with
    | eventCall ev timeout =>
      rw [hpc] at hclosing
      exact ⟨ev,rfl,by simpa [Pc.isClosing] using hclosing⟩
    | _ => rw [hpc] at hclosing; cases hclosing
  have hops := operations_taken ht
  rw [hsilent] at hops
  have hsplit := (List.filter_append_perm (·.abortedBy t) (s.tasks.eraseIdx i)).filterMap Task.operation
  rw [List.filterMap_append] at hsplit
  have haccepted : (handleDisconnectStage2 { s with tasks := s.tasks.eraseIdx i } t).1.accepted =
      s.accepted := State.close_accepted _ _ _
  refine h.of_tasks ?_ haccepted fun v hv => ?_
  · rw [haccepted]
    refine (List.Perm.trans ?_ hops.symm).trans h.operations
    have hmap : ∀ l : List Operation,
        (l.map fun o => (⟨o,ppErrorAborted⟩ : Completion)).map Completion.operation = l := by
      intro l
      rw [List.map_map]
      exact List.map_id l
    simp only [State.operations,handleDisconnectStage2,State.close_tasks,State.close_posted,
      State.abort,hleft,List.nil_append,List.map_append,hmap,List.append_assoc,Option.toList_none]
    exact hsplit.append_left _
  · simp only [handleDisconnectStage2,State.close_tasks,State.abort,hleft,List.nil_append] at hv
    exact .inl (List.mem_of_mem_eraseIdx (List.mem_filter.mp hv).1)

theorem CompletionInv.run {s s' : State} (h : CompletionInv s) {i : ℕ} {r : Returned}
    (hg : Completing s (.run i r)) (hs : runAt s i r = some s') : CompletionInv s' := by
  obtain ⟨t,ht,hs⟩ := Option.bind_eq_some_iff.mp hs
  obtain ⟨p,hp,rfl⟩ := Option.map_eq_some_iff.mp hs
  have hc : t.Completes s (s.tasks.eraseIdx i) := hg t ht
  obtain ⟨hclosing,rfl⟩ | ⟨_,he⟩ := runTask_cases hp
  · exact h.disconnect ht hc hclosing
  · exact h.ends ht hc he

theorem step_completionInv {s s' : State} {a : Action} (h : CompletionInv s)
    (hg : Completing s a) (hs : step s a = some s') : CompletionInv s' := by
  obtain ⟨new,hm⟩ | ⟨k,callback,callbackMl,q,rfl⟩ | ⟨i,r,rfl⟩ | ⟨i,o,rfl⟩ := step_manages hs
  · exact h.manages hm
  · cases hs
    exact h.request k callback callbackMl q
  · exact h.run hg hs
  · exact h.occur hs

theorem start_completionInv : CompletionInv machine.start where
  operations := .refl _
  numbers := rfl
  silent := by simp [machine]
  heard := by simp [machine]
  notFreed := by simp [machine]
  inHand := by simp [machine]

/-- Steps of the tasks, not requests. -/
def Action.ofTask : Action → Bool
  | .run _ _ | .occur _ _ => true
  | _ => false

def TaskStep (s' s : State) : Prop := ∃ a : Action, a.ofTask = true ∧ step s a = some s'

/-- What is left to do of all tasks. -/
def State.measures (s : State) : Multiset (ℕ ×ₗ ℕ ×ₗ ℕ) := (s.tasks.map Task.measure : List _)

/-- A step replaces a task, and others, by less. -/
theorem measures_lt {s s' : State} (taken left : List Task) {kept : List Task}
    (hs : s.tasks.Perm (taken ++ kept)) (hs' : s'.tasks = left ++ kept) (hne : taken ≠ [])
    (hlt : ∀ u ∈ left, ∃ t ∈ taken, u.measure < t.measure) :
    s'.measures.IsDershowitzMannaLT s.measures := by
  refine ⟨(kept.map Task.measure : List _),(left.map Task.measure : List _),
    (taken.map Task.measure : List _),?_,?_,?_,?_⟩
  · simpa using hne
  · simp [State.measures,hs',add_comm]
  · rw [State.measures,Multiset.coe_eq_coe.mpr (hs.map _)]
    simp [add_comm]
  · intro m hm
    obtain ⟨u,hu,rfl⟩ := List.mem_map.mp hm
    obtain ⟨t,ht,hut⟩ := hlt u hu
    exact ⟨t.measure,List.mem_map_of_mem ht,hut⟩

theorem leftover_descends {u v : Task} (h : v ∈ u.leftover) : v.measure < u.measure := by
  unfold Task.leftover at h
  split at h
  · rename_i ev he
    cases h
    exact measure_lt_of_phase (by rw [he]; simp [Pc.phase])
  · cases h

theorem runAt_descends {s s' : State} {i : ℕ} {r : Returned} (h : runAt s i r = some s') :
    s'.measures.IsDershowitzMannaLT s.measures := by
  obtain ⟨t,ht,h⟩ := Option.bind_eq_some_iff.mp h
  obtain ⟨p,hp,rfl⟩ := Option.map_eq_some_iff.mp h
  have hperm := taken_perm ht
  obtain ⟨_,rfl⟩ | ⟨_,he⟩ := runTask_cases hp
  · have hsplit := (List.filter_append_perm (·.abortedBy t) (s.tasks.eraseIdx i)).symm
    refine measures_lt (t::(s.tasks.eraseIdx i).filter (·.abortedBy t))
      (((s.tasks.eraseIdx i).filter (·.abortedBy t)).filterMap Task.leftover)
      (hperm.trans (hsplit.cons t)) ?_ (List.cons_ne_nil _ _) fun v hv => ?_
    · exact State.close_tasks (State.abort { s with tasks := s.tasks.eraseIdx i } t) t t.sock
    obtain ⟨u,hu,huv⟩ := List.mem_filterMap.mp hv
    exact ⟨u,List.mem_cons_of_mem _ hu,leftover_descends huv⟩
  · cases he with
    | @goesOn s' u hk _ hf =>
      refine measures_lt [t] [u] hperm ?_ (List.cons_ne_nil _ _) fun v hv => ?_
      · simp [hk.tasks]
      · cases List.mem_singleton.mp hv
        exact ⟨t,List.mem_singleton_self t,hf.descends⟩
    | finished _ hk _ =>
      exact measures_lt [t] [] hperm hk.tasks (List.cons_ne_nil _ _) (by simp)
    | dropped hk _ _ =>
      exact measures_lt [t] [] hperm hk.tasks (List.cons_ne_nil _ _) (by simp)

theorem occurAt_descends {s s' : State} {i : ℕ} {o : Occurrence} (h : occurAt s i o = some s') :
    s'.measures.IsDershowitzMannaLT s.measures := by
  unfold occurAt at h
  split_ifs at h
  obtain ⟨t,ht,h⟩ := Option.bind_eq_some_iff.mp h
  obtain ⟨pc,hpc,rfl⟩ := Option.map_eq_some_iff.mp h
  refine measures_lt [t] [{ t with pc := pc, onWorker := true }]
    (taken_perm ht) rfl (List.cons_ne_nil _ _) fun v hv => ⟨t,List.mem_singleton_self t,?_⟩
  cases List.mem_singleton.mp hv
  obtain ⟨callback,result,hp,rfl⟩ | ⟨ev,timeout,hp,rfl⟩ := Pc.occur_cases hpc
  · exact measure_lt_of_phase (by rw [hp]; simp [Pc.phase])
  · exact measure_lt_of_rank (by rw [hp]; rfl) rfl (by rw [hp]; simp [Pc.rank])

/-- The tasks cannot step forever. -/
theorem taskStep_wellFounded : WellFounded TaskStep := by
  refine Subrelation.wf (r := InvImage Multiset.IsDershowitzMannaLT State.measures) ?_
    (InvImage.wf _ Multiset.wellFounded_isDershowitzMannaLT)
  rintro s' s ⟨a,ha,hs⟩
  cases a with
  | run i r => exact runAt_descends hs
  | occur i o => exact occurAt_descends hs
  | _ => cases ha

theorem runTask_some {t : Task} (h : t.pc.inHand = true) (s : State) (r : Returned) :
    ∃ p, runTask s t r = some p := by
  unfold runTask
  cases hpc : t.pc with
  | dns _ | waiting _ | unheard _ => rw [hpc] at h; cases h
  | _ => exact ⟨_,rfl⟩

theorem runAt_some {s : State} {i : ℕ} {t : Task} (ht : s.tasks[i]? = some t)
    (h : t.pc.inHand = true) (r : Returned) : ∃ s', runAt s i r = some s' := by
  obtain ⟨p,hp⟩ := runTask_some h { s with tasks := s.tasks.eraseIdx i } r
  exact ⟨_,by rw [runAt,ht,Option.bind_some,hp,Option.map_some]⟩

theorem occurAt_some {s : State} {i : ℕ} {t : Task} {o : Occurrence} {pc : Pc}
    (hw : s.tasks.any (·.onWorker) = false) (ht : s.tasks[i]? = some t) (hpc : t.pc.occur o = some pc) :
    ∃ s', occurAt s i o = some s' := by
  refine ⟨{ s with tasks := { t with pc := pc, onWorker := true }::s.tasks.eraseIdx i },?_⟩
  rw [occurAt,hw,if_neg Bool.false_ne_true,ht,Option.bind_some,hpc,Option.map_some]

/-- Some task can step while there is one. -/
theorem CompletionInv.progress {s : State} (h : CompletionInv s) (hne : s.tasks ≠ []) :
    ∃ s', TaskStep s' s := by
  have hrun : ∀ t ∈ s.tasks, t.pc.inHand = true → ∃ s', TaskStep s' s := by
    intro t ht hpc
    obtain ⟨i,hi⟩ := List.getElem?_of_mem ht
    obtain ⟨s',hs'⟩ := runAt_some hi hpc ⟨0,.other⟩
    exact ⟨s',.run i ⟨0,.other⟩,rfl,hs'⟩
  by_cases hw : ∃ t ∈ s.tasks, t.onWorker = true
  · obtain ⟨t,ht,htw⟩ := hw
    exact hrun t ht (h.inHand t ht htw)
  · obtain ⟨t,rest,htr⟩ := List.exists_cons_of_ne_nil hne
    have ht : t ∈ s.tasks := htr ▸ List.mem_cons_self
    have hidle : s.tasks.any (·.onWorker) = false := by
      refine List.any_eq_false.mpr fun u hu hu' => hw ⟨u,hu,hu'⟩
    have hoccur : ∀ (o : Occurrence) (pc : Pc), t.pc.occur o = some pc → ∃ s', TaskStep s' s := by
      intro o pc hpc
      obtain ⟨s',hs'⟩ := occurAt_some hidle (i := 0) (by rw [htr]; rfl) hpc
      exact ⟨s',.occur 0 o,rfl,hs'⟩
    have hheard := h.heard t ht
    cases hpc : t.pc with
    | dns callback => exact hoccur (.dns ⟨true,.ipv4A,1⟩) _ (by rw [hpc]; rfl)
    | waiting ev => exact hoccur (.event false) _ (by rw [hpc]; rfl)
    | unheard ev => rw [hpc] at hheard; cases hheard
    | _ => exact hrun t ht (by rw [hpc]; rfl)

/-- An accepted operation has its one task or was posted once. While there are tasks one
can step, and they cannot step forever. -/
structure CompletionOk (s : State) : Prop where
  once : ∀ o ∈ s.accepted, (s.posted.map Completion.operation).count o +
    (s.tasks.filterMap Task.operation).count o = 1
  progress : s.tasks ≠ [] → ∃ s', TaskStep s' s
  ends : Acc TaskStep s

/-- A connect that succeeds with its second address, and a read that a disconnect aborts. -/
def connectThenAbort : List Action :=
  [.createTcpSocket 5,.request 1 7 0 (.tcpConnect false),.run 0 ⟨1,.other⟩,
    .occur 0 (.dns ⟨true,.ipv4A,2⟩),.run 0 ⟨0,.other⟩,.run 0 ⟨-1,.einprogress⟩,.run 0 ⟨0,.other⟩,
    .run 0 ⟨0,.other⟩,.occur 0 (.event true),.run 0 ⟨0,.other⟩,.run 0 ⟨0,.other⟩,.run 0 ⟨0,.other⟩,
    .run 0 ⟨0,.other⟩,.occur 0 (.event false),.run 0 ⟨0,.other⟩,.request 1 8 0 (.tcpRead 10),
    .run 0 ⟨0,.other⟩,.run 0 ⟨0,.other⟩,.run 0 ⟨0,.other⟩,.tcpDisconnect 1,.run 0 ⟨0,.other⟩,
    .run 0 ⟨0,.other⟩,.run 0 ⟨0,.other⟩,.occur 0 (.event true),.run 0 ⟨0,.other⟩]

/-- A resolver is released while its host is being resolved. -/
def releaseWhileResolving : List Action :=
  [.createHostResolver,.request 1 7 0 .hostResolve,.run 0 ⟨1,.other⟩,.unref 1,
    .occur 0 (.dns ⟨true,.ipv4A,1⟩),.run 0 ⟨0,.other⟩]

end AsyncNetwork
end FreshPlayer
