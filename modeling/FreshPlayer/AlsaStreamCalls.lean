import FreshPlayer.AlsaStreamTables

/-! What a call has done when it returns, where calls do not overlap. A stream that was
destroyed is closed by then and is not heard again. -/
namespace FreshPlayer
namespace AlsaStreams

open Rendezvous

variable {d e : Data} {as : ℕ}

/-- Clients have all streams but one that is being made or destroyed. -/
def OwnedBut (besides : Option ℕ) (d : Data) : Prop :=
  ∀ b, (d.streams.lookup b).isSome = true → b ∈ d.owned ∨ besides = some b

/-- The thread polls the files of the streams that are allocated. -/
def Polls (d : Data) : Prop := d.fds = d.activeStreamsHt.flatMap d.fdsOf

structure Settled (besides : Option ℕ) (d : Data) : Prop where
  sound : Sound d
  toDelete : d.streamsToDelete = []
  polls : Polls d
  rebuilt : d.thread = .running → d.rebuildFds = false
  owned : OwnedBut besides d

structure Clear (d : Data) : Prop extends Settled none d where
  thread : d.thread ≠ .starting
  started : ∀ as ∈ d.owned, d.thread = .running

structure Asked (l : List ℕ) (besides : Option ℕ) (d : Data) : Prop where
  sound : Sound d
  thread : d.thread = .running
  rebuild : d.rebuildFds = true
  toDelete : d.streamsToDelete = l
  owned : OwnedBut besides d

def Holds : Call → Data → Prop
  | .start, d => d.thread = .starting ∧ d.streamsToDelete = [] ∧ Sound d ∧ OwnedBut none d
  | .create as _, d => Asked [] (some as) d ∧ (d.streams.lookup as).isSome = true ∧ as ∉ d.owned
  | .destroy as, d => Asked [as] (some as) d

/-- A destroyed stream. -/
structure Gone (as : ℕ) (d : Data) : Prop where
  made : as < d.made
  freed : d.streams.lookup as = none

def Served : Call → Data → Prop
  | .start, d => Settled none d ∧ d.thread = .running
  | .create as _, d => (Settled (some as) d ∧ d.thread = .running) ∧
      (d.streams.lookup as).isSome = true ∧ as ∉ d.owned
  | .destroy as, d => (Settled none d ∧ d.thread = .running) ∧ Gone as d

theorem Sound.settled (h : Sound d) {o : Option ℕ}
    (ho : ∀ b, (d.streams.lookup b).isSome = true → b ∉ d.streamsToDelete →
      b ∈ d.owned ∨ o = some b) :
    Settled o (doRebuildFds d) ∧ (doRebuildFds d).thread = .running := by
  obtain ⟨hsound,hdel,hnone,hfds⟩ := h.rebuild
  refine ⟨⟨hsound,hnone,hfds,fun _ => rfl,fun b hb => ?_⟩,rfl⟩
  rw [hdel.streams] at hb
  split_ifs at hb with hmem
  · cases hb
  · rw [hdel.owned]
    exact ho b hb hmem

/-- The same streams with the same files, and the same requests. -/
structure Quiet (d e : Data) : Prop where
  sound : Sound d → Sound e
  streams : ∀ b, (e.streams.lookup b).map Stream.fds = (d.streams.lookup b).map Stream.fds
  activeStreamsHt : e.activeStreamsHt = d.activeStreamsHt
  fds : e.fds = d.fds
  owned : e.owned = d.owned
  streamsToDelete : e.streamsToDelete = d.streamsToDelete
  thread : e.thread = d.thread
  rebuildFds : e.rebuildFds = d.rebuildFds
  made : e.made = d.made

theorem Quiet.isSome (h : Quiet d e) (b : ℕ) :
    (e.streams.lookup b).isSome = (d.streams.lookup b).isSome := by
  have hmap := congrArg Option.isSome (h.streams b)
  rwa [Option.isSome_map,Option.isSome_map] at hmap

theorem Quiet.ownedBut {o : Option ℕ} (h : Quiet d e) (ho : OwnedBut o d) : OwnedBut o e := by
  intro b hb
  rw [h.owned]
  exact ho b ((h.isSome b).symm.trans hb)

theorem Quiet.settled {o : Option ℕ} (h : Quiet d e) (hs : Settled o d) : Settled o e := by
  have hfdsOf : e.fdsOf = d.fdsOf := funext fun b => by rw [Data.fdsOf,Data.fdsOf,h.streams]
  refine ⟨h.sound hs.sound,h.streamsToDelete.trans hs.toDelete,?_,fun ht => ?_,h.ownedBut hs.owned⟩
  · rw [Polls,h.fds,h.activeStreamsHt,hfdsOf]
    exact hs.polls
  · rw [h.rebuildFds]
    exact hs.rebuilt (h.thread ▸ ht)

theorem Quiet.asked {l : List ℕ} {o : Option ℕ} (h : Quiet d e) (ha : Asked l o d) :
    Asked l o e :=
  ⟨h.sound ha.sound,h.thread.trans ha.thread,h.rebuildFds.trans ha.rebuild,
    h.streamsToDelete.trans ha.toDelete,h.ownedBut ha.owned⟩

theorem Quiet.gone (h : Quiet d e) (hg : Gone as d) : Gone as e := by
  refine ⟨h.made ▸ hg.made,?_⟩
  have hmap := h.streams as
  rw [hg.freed] at hmap
  exact Option.map_eq_none_iff.mp hmap

theorem Quiet.keeps (h : Quiet d e) : (Clear d → Clear e) ∧
    ∀ u, (Holds u d → Holds u e) ∧ (Served u d → Served u e) := by
  refine ⟨fun hc => ⟨h.settled hc.toSettled,h.thread ▸ hc.thread,?_⟩,fun u => ?_⟩
  · rw [h.owned,h.thread]
    exact hc.started
  cases u with
  | start =>
    refine ⟨fun hu => ?_,fun hu => ⟨h.settled hu.1,h.thread.trans hu.2⟩⟩
    obtain ⟨ht,hdel,hsound,hown⟩ := hu
    exact ⟨h.thread.trans ht,h.streamsToDelete.trans hdel,h.sound hsound,h.ownedBut hown⟩
  | create as fds =>
    refine ⟨fun hu => ⟨h.asked hu.1,(h.isSome as).trans hu.2.1,h.owned ▸ hu.2.2⟩,fun hu => ?_⟩
    exact ⟨⟨h.settled hu.1.1,h.thread.trans hu.1.2⟩,(h.isSome as).trans hu.2.1,h.owned ▸ hu.2.2⟩
  | destroy as =>
    exact ⟨h.asked,fun hu => ⟨⟨h.settled hu.1.1,h.thread.trans hu.1.2⟩,h.gone hu.2⟩⟩

theorem fds_insert {stream stream' : Stream} (hs : d.streams.lookup as = some stream)
    (hf : stream'.fds = stream.fds) (b : ℕ) :
    ((d.streams.insert as stream').lookup b).map Stream.fds =
      (d.streams.lookup b).map Stream.fds := by
  by_cases hb : b = as
  · subst hb
    rw [AList.lookup_insert,hs]
    exact congrArg some hf
  · rw [AList.lookup_insert_ne hb]

theorem Settled.clear (h : Settled none d) (ht : d.thread = .running) : Clear d :=
  ⟨h,by rw [ht]; exact nofun,fun _ _ => ht⟩

theorem quiet_modify {stream stream' : Stream} (hs : d.streams.lookup as = some stream)
    (hf : stream'.fds = stream.fds) :
    Quiet d { d with streams := d.streams.insert as stream' } :=
  ⟨fun h => h.modify hs hf,fds_insert hs hf,rfl,rfl,rfl,rfl,rfl,rfl,rfl⟩

theorem quiet_work (d : Data) (r : Ready) : Quiet d (processFd d r) := by
  have hsound : Sound d → Sound (processFd d r) := fun h => (h.work r).1
  revert hsound
  unfold processFd
  split
  · exact fun h => ⟨h,fun _ => rfl,rfl,rfl,rfl,rfl,rfl,rfl,rfl⟩
  · split
    · exact fun h => ⟨h,fun _ => rfl,rfl,rfl,rfl,rfl,rfl,rfl,rfl⟩
    · split <;> exact fun h => ⟨h,fun _ => rfl,rfl,rfl,rfl,rfl,rfl,rfl,rfl⟩

theorem quiet_act {a : Act} (ha : act d a = some e) : Quiet d e := by
  have hsound : Sound d → Sound e := fun h => (h.act ha).1
  cases a with
  | pause as enabled =>
    simp only [act] at ha
    split_ifs at ha
    obtain ⟨stream,hs,rfl⟩ := Option.map_eq_some_iff.mp ha
    exact quiet_modify hs rfl
  | createFails fds =>
    simp only [act] at ha
    split_ifs at ha
    cases ha
    exact ⟨hsound,fun _ => rfl,rfl,rfl,rfl,rfl,rfl,rfl,rfl⟩

theorem post_holds {u : Call} (h : Clear d) (hl : ∀ p, look u = some p → p d = true)
    (hp : post d u = some e) : Holds u e := by
  have hsound := h.sound
  cases u with
  | start =>
    have hnot : d.thread = .notStarted := of_decide_eq_true (hl _ rfl)
    rw [post,if_pos hnot] at hp
    cases hp
    exact ⟨rfl,h.toDelete,⟨⟨hsound.active,hsound.nodup,hsound.byFd,hsound.closed,hsound.once,
      hsound.made,hsound.stale⟩,hsound.ownedNodup,hsound.owned,hsound.deleteNodup,
      hsound.toDelete⟩,h.owned⟩
  | create as fds =>
    simp only [post] at hp
    split_ifs at hp with hok
    obtain ⟨hstarted,rfl,hfds⟩ := hok
    cases hp
    refine ⟨⟨hsound.create hfds,?_,rfl,h.toDelete,fun b hb => ?_⟩,by simp,fun hown => ?_⟩
    · cases hthread : d.thread with
      | running => rfl
      | notStarted => exact absurd hthread hstarted
      | starting => exact absurd hthread h.thread
    · dsimp only at hb ⊢
      by_cases hnew : b = d.made
      · exact .inr (hnew ▸ rfl)
      · rw [AList.lookup_insert_ne hnew] at hb
        exact .inl ((h.owned b hb).resolve_right (Option.some_ne_none b).symm)
    · obtain ⟨stream,hs⟩ := Option.isSome_iff_exists.mp (hsound.owned _ hown)
      exact Nat.lt_irrefl _ (hsound.made _ stream hs)
  | destroy as =>
    simp only [post] at hp
    split_ifs at hp with hown
    cases hp
    refine ⟨hsound.destroy hown,h.started as hown,rfl,by rw [h.toDelete],fun b hb => ?_⟩
    dsimp only
    rw [hsound.ownedNodup.mem_erase_iff]
    by_cases hb' : b = as
    · exact .inr (hb' ▸ rfl)
    · exact .inl ⟨hb',(h.owned b hb).resolve_right (Option.some_ne_none b).symm⟩

theorem contract (κ : Type) : Contract κ service (fun _ _ => True) (fun _ _ => True)
    Clear Holds Served where
  post d u e h _ hl hp := post_holds h hl hp
  looked u p hp d hd := by
    cases u with
    | start =>
      cases hp
      have hnot : d.thread = .notStarted := of_decide_eq_true hd
      exact ⟨fun r => decide_eq_true ((quiet_work d r).thread.trans hnot),
        fun a e ha => decide_eq_true ((quiet_act ha).thread.trans hnot)⟩
    | create as fds => cases hp
    | destroy as => cases hp
  notPending d h := by
    have hthread := h.thread
    cases ht : d.thread with
    | running => simp [service,ht,h.rebuilt ht]
    | notStarted => simp [service,ht]
    | starting => exact absurd ht hthread
  notPendingAgain d u h := by
    have hidle : ∀ {o}, Settled o d → d.thread = .running → service.pending d = false :=
      fun hs ht => by simp [service,ht,hs.rebuilt ht]
    cases u with
    | start => exact hidle h.1 h.2
    | create as fds => exact hidle h.1.1 h.1.2
    | destroy as => exact hidle h.1.1 h.1.2
  serve d u _ h := by
    cases u with
    | start =>
      obtain ⟨-,-,hsound,hown⟩ := h
      exact hsound.settled fun b hb _ => hown b hb
    | create as fds =>
      obtain ⟨hasked,hsome,hown⟩ := h
      obtain ⟨-,hdel,-,-⟩ := hasked.sound.rebuild
      refine ⟨hasked.sound.settled fun b hb _ => hasked.owned b hb,?_,hdel.owned ▸ hown⟩
      have hkeep := hdel.streams as
      rw [if_neg (by rw [hasked.toDelete]; exact List.not_mem_nil)] at hkeep
      exact hkeep ▸ hsome
    | destroy as =>
      obtain ⟨-,hdel,-,-⟩ := h.sound.rebuild
      have hmem : as ∈ d.streamsToDelete := by simp [h.toDelete]
      refine ⟨h.sound.settled fun b hb hkeep => ?_,?_,?_⟩
      · refine .inl ((h.owned b hb).resolve_right ?_)
        rintro ⟨rfl⟩
        exact hkeep hmem
      · obtain ⟨stream,hs⟩ := Option.isSome_iff_exists.mp (h.sound.toDelete as hmem).1
        exact hdel.made ▸ h.sound.made as stream hs
      · exact (hdel.streams as).trans (if_pos hmem)
  finish d u h := by
    cases u with
    | start => exact h.1.clear h.2
    | create as fds =>
      obtain ⟨⟨hset,hthread⟩,hsome,hown⟩ := h
      obtain ⟨stream,hs⟩ := Option.isSome_iff_exists.mp hsome
      simp only [service,finish,hs]
      have hsound := hset.sound.finishCreate hs hown (by simp [hset.toDelete])
      have hmod : Settled (some as) { d with
          streams := d.streams.insert as { stream with hasCallback := true } } :=
        (@quiet_modify _ _ _ { stream with hasCallback := true } hs rfl).settled hset
      refine Settled.clear ⟨hsound,hset.toDelete,hmod.polls,hset.rebuilt,fun b hb => ?_⟩ hthread
      obtain hmem | hnew := hmod.owned b hb
      · exact .inl (List.mem_cons_of_mem as hmem)
      · cases hnew
        exact .inl List.mem_cons_self
    | destroy as => exact h.1.1.clear h.1.2
  work d r := (quiet_work d r).keeps
  act d a e _ ha := ⟨(quiet_act ha).keeps.1,fun _ => (quiet_act ha).keeps.2⟩

variable {κ : Type} [DecidableEq κ]

theorem created_clear : Clear Data.create :=
  ⟨⟨created_sound,rfl,rfl,fun _ => rfl,by simp [OwnedBut,Data.create]⟩,nofun,nofun⟩

theorem stage {s : State Data Call κ} (h : (machine κ).ReachableVia Serial s) :
    Stage service Clear Holds Served s :=
  stage_of_reachableVia (contract κ) created_clear (fun hs _ => ⟨hs,within_true _ _⟩) h

/-- Between calls nothing is left to delete, and the thread polls the files of all streams
that clients have, and no others. -/
theorem settled_between {s : State Data Call κ} (h : (machine κ).ReachableVia Serial s)
    (hc : ∀ c, s.calls c = none) : s.data.streamsToDelete = [] ∧
    (∀ as, as ∈ s.data.owned ↔ (s.data.streams.lookup as).isSome = true) ∧
    ∀ fd, fd ∈ s.data.fds ↔ ∃ as ∈ s.data.owned, s.data.streamByFdHt.lookup fd = some as := by
  obtain ⟨hclear,-⟩ := (stage h).clear hc
  have hsound := hclear.sound
  have hown : ∀ as, as ∈ s.data.owned ↔ (s.data.streams.lookup as).isSome = true :=
    fun as => ⟨hsound.owned as,fun has => (hclear.owned as has).resolve_right nofun⟩
  refine ⟨hclear.toDelete,hown,fun fd => ?_⟩
  rw [hclear.polls,List.mem_flatMap]
  refine exists_congr fun as => ?_
  rw [hsound.active,hown,hsound.byFd]
  refine and_congr_right fun hsome => ?_
  obtain ⟨stream,hs⟩ := Option.isSome_iff_exists.mp hsome
  rw [Data.fdsOf,hs]
  simp

/-- A step does not bring a stream back. -/
theorem gone_step {s t : State Data Call κ} {l : Label Call Unit Ready Act κ}
    (hs : Sound s.data) (ht : step service s l = some t) (h : Gone as s.data) :
    Gone as t.data ∧ t.data.heard.count as = s.data.heard.count as := by
  have hdata := step_data _ ht
  cases l with
  | call c u =>
    obtain ⟨-,-,hsame⟩ | ⟨hne,hp⟩ := call_data ht
    · rw [hsame]
      exact ⟨h,rfl⟩
    cases u with
    | start => exact absurd rfl hne
    | create b fds =>
      simp only [post] at hp
      split_ifs at hp with hok
      obtain ⟨-,rfl,-⟩ := hok
      rw [← Option.some.inj hp]
      refine ⟨⟨Nat.lt_succ_of_lt h.made,?_⟩,rfl⟩
      dsimp only
      rw [AList.lookup_insert_ne (Nat.ne_of_lt h.made)]
      exact h.freed
    | destroy b =>
      simp only [post] at hp
      split_ifs at hp
      rw [← Option.some.inj hp]
      exact ⟨⟨h.made,h.freed⟩,rfl⟩
  | proceed c =>
    rw [← Option.some.inj (proceed_data ht).2]
    exact ⟨⟨h.made,h.freed⟩,rfl⟩
  | arrive c => rw [hdata]; exact ⟨h,rfl⟩
  | workerArrive => rw [hdata]; exact ⟨h,rfl⟩
  | ret c =>
    obtain ⟨u,-,hd⟩ := hdata
    rw [hd]
    cases u with
    | start => exact ⟨h,rfl⟩
    | destroy b => exact ⟨h,rfl⟩
    | create b fds =>
      simp only [service,finish]
      split
      · rename_i stream hstream
        have hgone := (@quiet_modify _ _ _ { stream with hasCallback := true } hstream rfl).gone h
        exact ⟨⟨hgone.made,hgone.freed⟩,rfl⟩
      · exact ⟨⟨h.made,h.freed⟩,rfl⟩
  | act c a =>
    have hheard := (hs.act hdata.2).2.2.2.2.2
    exact ⟨(quiet_act hdata.2).gone h,by rw [hheard]⟩
  | serve w =>
    obtain ⟨-,hdel,-,-⟩ := hs.rebuild
    have hserve : t.data = doRebuildFds s.data := hdata.2
    rw [hserve,hdel.heard]
    refine ⟨⟨hdel.made ▸ h.made,?_⟩,rfl⟩
    rw [hdel.streams,h.freed,ite_self]
  | work r =>
    rw [hdata.2]
    refine ⟨(quiet_work _ r).gone h,?_⟩
    obtain heq | ⟨b,stream,hb,-,-,heq⟩ := processFd_cases hs.toTables r
    · exact congrArg (fun d => d.heard.count as) heq
    · have hne : b ≠ as := by
        rintro rfl
        rw [h.freed] at hb
        cases hb
      refine (congrArg (fun d => d.heard.count as) heq).trans ?_
      simp [List.count_append,List.count_replicate,hne]

theorem gone_exec {s t : State Data Call κ} {ls : List (Label Call Unit Ready Act κ)}
    (hs : (machine κ).Reachable s) (h : Gone as s.data) (ht : (machine κ).exec s ls = some t) :
    Gone as t.data ∧ t.data.heard.count as = s.data.heard.count as := by
  induction ls generalizing s with
  | nil =>
    cases ht
    exact ⟨h,rfl⟩
  | cons l ls ih =>
    obtain ⟨v,hv,ht⟩ := Option.bind_eq_some_iff.mp ht
    obtain ⟨hgone,hheard⟩ := gone_step (safe hs).1 hv h
    obtain ⟨hgone,hsame⟩ := ih (.step hs trivial hv) hgone ht
    exact ⟨hgone,hsame.trans hheard⟩

theorem Started.exec {s t : State Data Call κ} {ls : List (Label Call Unit Ready Act κ)}
    (h : Started s) (ht : (machine κ).exec s ls = some t) : Started t :=
  Machine.invariant_of_exec Started (fun _ _ _ hi _ ht => hi.step ht) h ht
    (Machine.eachFrom_of_forall (fun _ _ _ => trivial) s)

omit [DecidableEq κ] in
/-- Where calls do not overlap nobody looks while another one is about to start the thread. -/
theorem startsAlone_of_serial (s : State Data Call κ) (l : Label Call Unit Ready Act κ)
    (h : Serial s l) : StartsAlone s l := by
  cases l with
  | call c u =>
    cases u with
    | start => exact fun c' hc' => by rw [h c'] at hc'; cases hc'
    | _ => trivial
  | _ => trivial

/-- When `destroy` returns the stream is closed, once, and its callback is not called again:
whatever it used may be freed. What others do afterwards does not matter, and they start no
second thread. -/
theorem destroyed_silent {s t u : State Data Call κ} {c : κ}
    {ls : List (Label Call Unit Ready Act κ)} (h : (machine κ).ReachableVia Serial s)
    (hc : s.calls c = some (.released (.destroy as)))
    (ht : (machine κ).step s (.ret c) = some t) (hr : (machine κ).exec t ls = some u) :
    u.data.closed.count as = 1 ∧ u.data.heard.count as = t.data.heard.count as ∧
      (∀ fd, u.data.streamByFdHt.lookup fd ≠ some as) ∧ u.data.threads = 1 := by
  obtain ⟨hgone,hrun⟩ : Gone as t.data ∧ t.data.thread = .running := by
    obtain ⟨hserved,-⟩ := (stage h).served hc
    have hstep := ht
    simp only [Rendezvous.machine,step,hc] at hstep
    cases hstep
    exact ⟨hserved.2,hserved.1.2⟩
  have hserial : Serial s (.ret c : Label Call Unit Ready Act κ) := trivial
  have hreach : (machine κ).ReachableVia Serial t := .step h hserial ht
  have hstarted : Started t := by
    refine (started_or_not startsAlone_of_serial hreach).resolve_left fun hnot => ?_
    have hthread := hnot.thread
    rw [hrun] at hthread
    cases hthread
  obtain ⟨hgone,hheard⟩ := gone_exec hreach.reachable hgone hr
  have htables := (safe (hreach.reachable.exec hr)).1.toTables
  refine ⟨List.count_eq_one_of_mem htables.once ((htables.closed as).mpr ⟨hgone.made,hgone.freed⟩),
    hheard,fun fd hfd => ?_,(hstarted.exec hr).threads⟩
  obtain ⟨stream,hs,-⟩ := (htables.byFd fd as).mp hfd
  rw [hgone.freed] at hs
  cases hs

/-- Two clients make streams, the first is heard. -/
def twoStreams : List (Label Call Unit Ready Act Bool) :=
  startThread false ++ serve false (.create 0 [7,8]) ++ serve true (.create 1 [9]) ++
    [.act false (.pause 0 false),.work ⟨1,2⟩]

theorem twoStreams_settled : ∃ s : State Data Call Bool,
    (machine Bool).exec (machine Bool).start twoStreams = some s ∧ s.data.heard = [0,0] ∧
    s.data.streamsToDelete = [] ∧
    (∀ as, as ∈ s.data.owned ↔ (s.data.streams.lookup as).isSome = true) ∧
    ∀ fd, fd ∈ s.data.fds ↔ ∃ as ∈ s.data.owned, s.data.streamByFdHt.lookup fd = some as := by
  obtain ⟨s,hs,hc,hheard⟩ : ∃ s : State Data Call Bool,
      (machine Bool).exec (machine Bool).start twoStreams = some s ∧
      (∀ c, s.calls c = none) ∧ s.data.heard = [0,0] := ⟨_,rfl,by decide,rfl⟩
  have hreach : (machine Bool).ReachableVia Serial s :=
    Machine.reachableVia_of_exec twoStreams .start hs (by decide)
  exact ⟨s,hs,hheard,settled_between hreach hc⟩

theorem twoStreams_silent : ∃ s t u : State Data Call Bool,
    (machine Bool).exec (machine Bool).start (twoStreams ++ (serve false (.destroy 0)).take 4) =
      some s ∧ (machine Bool).step s (.ret false) = some t ∧
    (machine Bool).exec t [.work ⟨0,2⟩,.work ⟨1,2⟩] = some u ∧ u.data.closed.count 0 = 1 ∧
    u.data.heard.count 0 = t.data.heard.count 0 ∧
    (∀ fd, u.data.streamByFdHt.lookup fd ≠ some 0) ∧ u.data.threads = 1 := by
  obtain ⟨s,hs,hc,t,ht,u,hr⟩ : ∃ s : State Data Call Bool, (machine Bool).exec
      (machine Bool).start (twoStreams ++ (serve false (.destroy 0)).take 4) = some s ∧
      s.calls false = some (.released (.destroy 0)) ∧
      ∃ t, (machine Bool).step s (.ret false) = some t ∧
        ∃ u, (machine Bool).exec t [.work ⟨0,2⟩,.work ⟨1,2⟩] = some u :=
    ⟨_,rfl,rfl,_,rfl,_,rfl⟩
  have hreach : (machine Bool).ReachableVia Serial s :=
    Machine.reachableVia_of_exec _ .start hs (by decide)
  exact ⟨s,t,u,hs,ht,hr,destroyed_silent hreach hc ht hr⟩

/-- Clients that destroy at the same time let each other go: the first has returned from
`destroy`, and its stream is open and heard. -/
example : ∃ t u : State Data Call Bool,
    (machine Bool).exec (machine Bool).start twoClients = some t ∧ t.calls false = none ∧
    t.data.owned = [] ∧ (machine Bool).exec t [.work ⟨1,2⟩] = some u ∧
    u.data.closed.count 0 = 0 ∧ u.data.heard.count 0 = t.data.heard.count 0+2 :=
  ⟨_,_,rfl,rfl,rfl,rfl,rfl,rfl⟩

end AlsaStreams
end FreshPlayer
