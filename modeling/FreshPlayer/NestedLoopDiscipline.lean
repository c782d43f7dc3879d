import FreshPlayer.NestedLoops

/-! Which quit ends which nested run. Quits carry only a depth, so a run is safe
while every queued quit it would take is its own; that is an invariant as long as
quits are posted, runs entered and runs left in an order that keeps it. -/
namespace FreshPlayer
namespace NestedLoops
open MessageLoop

/-- The tasks an activation can still find. -/
def queued (ml : MessageLoop.State) : List Task := ml.asyncQ ++ ml.intQ.keys

theorem mem_queued_of_accept {L : Ledger} {x y : Task}
    (h : y ∈ (L.accept x).asyncQ ++ (L.accept x).intQ.keys) :
    y ∈ L.asyncQ ++ L.intQ.keys ∨ y = x := by
  simp only [Ledger.accept,List.mem_append,List.mem_singleton] at h ⊢
  tauto

theorem mem_queued_of_move {L : Ledger} {y : Task}
    (h : y ∈ L.move.asyncQ ++ L.move.intQ.keys) : y ∈ L.asyncQ ++ L.intQ.keys := by
  obtain ⟨q,tree,accepted,taken,called⟩ := L
  cases q with
  | nil => exact h
  | cons x rest =>
    rcases List.mem_append.mp h with h | h
    · exact List.mem_append_left _ (List.mem_cons_of_mem x h)
    · rcases mem_of_mem_insertKey h with rfl | h
      · simp
      · exact List.mem_append_right _ h

theorem mem_queued_of_take {L : Ledger} {x y : Task}
    (h : y ∈ (L.take x).asyncQ ++ (L.take x).intQ.keys) : y ∈ L.asyncQ ++ L.intQ.keys := by
  rcases List.mem_append.mp h with h | h
  · exact List.mem_append_left _ h
  · exact List.mem_append_right _ (List.eraseP_subset h)

/-- A queued quit that an activation at this depth would take is the owner's. -/
def Undisturbed (ml : MessageLoop.State) (owner : Owner) (depth : ℤ) : Prop :=
  owner ≠ .loop → ∀ x ∈ queued ml, x.terminate = true → taskTreeTraverseFunc depth x = true →
    x.addressee = owner

instance (ml : MessageLoop.State) (owner : Owner) (depth : ℤ) :
    Decidable (Undisturbed ml owner depth) := inferInstanceAs (Decidable (_ → _))

/-- A nested activation on its way out has taken its own quit, and its call was answered. -/
def FrameOk (calls : List Call) (f : Frame) : Prop :=
  f.owner ≠ .loop → f.flags.exitOnEmpty = false ∧
    (f.pc = .leaving ∨ f.teardown = true → f.cause = some f.owner ∧ answered calls f.owner = true)

structure LoopOk (calls : List Call) (ml : MessageLoop.State) : Prop where
  posted : ∀ x ∈ queued ml, x.terminate = true → answered calls x.addressee = true
  frames : ∀ f ∈ ml.frames, FrameOk calls f
  head : ∀ f ∈ ml.frames.head?, f.pc ≠ .leaving → Undisturbed ml f.owner f.depth

/-- Answered calls stay answered. -/
def Grows (calls calls' : List Call) : Prop :=
  ∀ o, answered calls o = true → answered calls' o = true

theorem Grows.refl (calls : List Call) : Grows calls calls := fun _ h => h

theorem grows_append (calls : List Call) (c : Call) : Grows calls (calls ++ [c]) := by
  intro o h
  cases o with
  | call n =>
    simp only [answered,Option.any_eq_true] at h ⊢
    obtain ⟨d,hd,hr⟩ := h
    exact ⟨d,by rw [List.getElem?_append_left (List.getElem?_eq_some_iff.mp hd).1,hd],hr⟩
  | _ => rfl

theorem grows_set (calls : List Call) (n : ℕ) (c : Call) :
    Grows calls (calls.set n { c with responded := true }) := by
  intro o h
  cases o with
  | call k =>
    simp only [answered,Option.any_eq_true] at h ⊢
    obtain ⟨d,hd,hr⟩ := h
    by_cases hk : n = k
    · subst hk
      refine ⟨_,List.getElem?_set_self (List.getElem?_eq_some_iff.mp hd).1,rfl⟩
    · exact ⟨d,by rw [List.getElem?_set_ne hk,hd],hr⟩
  | _ => rfl

theorem answered_set {calls : List Call} {n : ℕ} {c : Call} (h : calls[n]? = some c) :
    answered (calls.set n { c with responded := true }) (.call n) = true := by
  simp [answered,List.getElem?_set_self (List.getElem?_eq_some_iff.mp h).1]

theorem FrameOk.grow {calls calls' : List Call} {f : Frame} (h : FrameOk calls f)
    (hg : Grows calls calls') : FrameOk calls' f :=
  fun ho => ⟨(h ho).1,fun hp => ⟨((h ho).2 hp).1,hg _ ((h ho).2 hp).2⟩⟩

theorem LoopOk.grow {calls calls' : List Call} {ml : MessageLoop.State} (h : LoopOk calls ml)
    (hg : Grows calls calls') : LoopOk calls' ml where
  posted x hx ht := hg _ (h.posted x hx ht)
  frames f hf := (h.frames f hf).grow hg
  head := h.head

/-- The queues only lose tasks and the innermost activation moves on. -/
theorem LoopOk.advance {calls : List Call} {ml ml' : MessageLoop.State} {f f' : Frame}
    {fs : List Frame} (h : LoopOk calls ml) (hf : ml.frames = f::fs) (hpc : f.pc ≠ .leaving)
    (hq : ∀ x ∈ queued ml', x ∈ queued ml) (hf' : ml'.frames = f'::fs)
    (ho : f'.owner = f.owner) (hd : f'.depth = f.depth) (hok : FrameOk calls f') :
    LoopOk calls ml' where
  posted x hx := h.posted x (hq x hx)
  frames g hg := by
    rw [hf'] at hg
    rcases List.mem_cons.mp hg with rfl | hg
    · exact hok
    · exact h.frames g (by rw [hf]; exact List.mem_cons_of_mem f hg)
  head g hg _ hne x hx := by
    rw [hf'] at hg
    cases hg
    have hu := h.head f (by rw [hf]; rfl) hpc
    rw [ho] at hne
    rw [ho,hd]
    exact hu hne x (hq x hx)

/-- Activations stay as they are. -/
theorem LoopOk.post {calls : List Call} {ml ml' : MessageLoop.State} {y : Task}
    (h : LoopOk calls ml) (hf : ml'.frames = ml.frames)
    (hq : ∀ x ∈ queued ml', x ∈ queued ml ∨ x = y)
    (ha : y.terminate = true → answered calls y.addressee = true)
    (hm : y.terminate = true → ∀ f ∈ ml.frames.head?, f.owner ≠ .loop → f.pc ≠ .leaving →
      taskTreeTraverseFunc f.depth y = true → y.addressee = f.owner) : LoopOk calls ml' where
  posted x hx ht := by
    rcases hq x hx with hx | rfl
    · exact h.posted x hx ht
    · exact ha ht
  frames := by rw [hf]; exact h.frames
  head f hm' hp hne x hx ht htr := by
    rw [hf] at hm'
    rcases hq x hx with hx | rfl
    · exact h.head f hm' hp hne x hx ht htr
    · exact hm ht f hm' hne hp htr

theorem LoopOk.postWork {calls : List Call} {ml : MessageLoop.State} (h : LoopOk calls ml)
    (b : Bool) (cb : Callback) (ms r d : ℤ) (now : Timespec) :
    LoopOk calls (ppbMessageLoopPostWorkWithResult ml b cb ms r d now).2 := by
  unfold ppbMessageLoopPostWorkWithResult
  split_ifs
  · exact h
  · exact h
  · exact h
  · refine h.post rfl (fun x hx => mem_queued_of_accept hx) ?_ ?_ <;>
      exact fun ht => absurd ht (by simp)

/-- The condition on posting a quit: the innermost activation either leaves already,
or does not take it, or is the one it is for. -/
def QuitMatches (ml : MessageLoop.State) (depth : ℤ) (addressee : Owner) : Prop :=
  ∀ f ∈ ml.frames.head?, f.owner ≠ .loop → f.pc ≠ .leaving → (depth = 0 ∨ f.depth ≤ depth) →
    addressee = f.owner

instance (ml : MessageLoop.State) (depth : ℤ) (o : Owner) : Decidable (QuitMatches ml depth o) :=
  inferInstanceAs (Decidable (∀ f ∈ ml.frames.head?, _))

theorem LoopOk.postQuit {calls : List Call} {ml : MessageLoop.State} {depth : ℤ} {o : Owner}
    (h : LoopOk calls ml) (b : Bool) (now : Timespec) (ha : answered calls o = true)
    (hm : QuitMatches ml depth o) :
    LoopOk calls (ppbMessageLoopPostQuitDepth ml b depth now o).2 := by
  unfold ppbMessageLoopPostQuitDepth
  split_ifs
  · exact h
  · refine h.post rfl (fun x hx => mem_queued_of_accept hx) (fun _ => ha) ?_
    intro _ f hf hne hp ht
    refine hm f hf hne hp ?_
    simpa [taskTreeTraverseFunc] using ht

/-- The depth at which an activation with these flags will run. -/
def entryDepth (ml : MessageLoop.State) (flags : Flags) : ℤ :=
  if flags.increaseDepth then ml.depth+1 else ml.depth

theorem LoopOk.enter {calls : List Call} {ml : MessageLoop.State} {flags : Flags} {o : Owner}
    (h : LoopOk calls ml) (b : Bool) (hx : o ≠ .loop → flags.exitOnEmpty = false)
    (hu : Undisturbed ml o (entryDepth ml flags)) :
    LoopOk calls (runIntEnter ml b flags o).2 := by
  have hq : queued (runIntEnter ml b flags o).2 = queued ml := by
    unfold queued
    rw [runIntEnter_ledger]
  rcases runIntEnter_spec ml b flags o with ⟨_,he⟩ | ⟨_,f,hent⟩
  · rw [he]; exact h
  · refine ⟨by rw [hq]; exact h.posted,fun g hg => ?_,fun g hg _ => ?_⟩
    · rw [hent.frames] at hg
      rcases List.mem_cons.mp hg with rfl | hg
      · refine fun hne => ⟨by rw [hent.flags_eq]; exact hx (hent.owner ▸ hne),fun hl => ?_⟩
        rcases hl with hl | hl
        · exact absurd hl hent.pc
        · simp [hent.teardown] at hl
      · exact h.frames g hg
    · rw [hent.frames] at hg
      cases hg
      rw [hent.owner,hent.frameDepth]
      unfold Undisturbed
      rw [hq]
      exact hu

/-- Runs that belong to no nested call take every quit. -/
theorem LoopOk.enterLoop {calls : List Call} {ml ml' : MessageLoop.State} {flags : Flags}
    (h : LoopOk calls ml) (hs : MessageLoop.step ml (.enter true flags .loop) = some ml') :
    LoopOk calls ml' := by
  obtain ⟨_,rfl⟩ := step_enter hs
  exact h.enter true (fun hne => absurd rfl hne) fun hne => absurd rfl hne

/-- One turn of the loop, seen by the innermost activation: it goes on, or leaves for
want of tasks, or takes a quit it finds appropriate. -/
theorem runIntIterate_cases (ml : MessageLoop.State) (f : Frame) (fs : List Frame)
    (now : Timespec) (hpc : f.pc ≠ .leaving) (hf : ml.frames = f::fs) :
    (∀ x ∈ queued (runIntIterate ml f fs now), x ∈ queued ml) ∧
    ∃ f' : Frame, (runIntIterate ml f fs now).frames = f'::fs ∧ f'.owner = f.owner ∧
      f'.flags = f.flags ∧ f'.depth = f.depth ∧
      ((f'.cause = f.cause ∧ f'.teardown = f.teardown ∧
          (f'.pc = .leaving → f.teardown = true ∨ f.flags.exitOnEmpty = true)) ∨
        ∃ x ∈ queued ml, x.terminate = true ∧ taskTreeTraverseFunc f.depth x = true ∧
          f'.cause = some x.addressee) := by
  constructor
  · intro x hx
    rcases runIntIterate_ledger ml f fs now with h | ⟨y,_,h⟩
    · rw [queued,h] at hx; exact hx
    · rw [queued,h] at hx; exact mem_queued_of_take hx
  · unfold runIntIterate
    split
    · rename_i x hx
      split_ifs with hdue
      · unfold runIntDue
        split_ifs with ht hn ha hc
        · exact ⟨_,rfl,rfl,rfl,rfl,Or.inr ⟨x,by simp [queued,KeyTree.first_mem hx],ht,
            KeyTree.first_holds hx,rfl⟩⟩
        · exact ⟨_,rfl,rfl,rfl,rfl,Or.inr ⟨x,by simp [queued,KeyTree.first_mem hx],ht,
            KeyTree.first_holds hx,rfl⟩⟩
        · exact ⟨_,rfl,rfl,rfl,rfl,Or.inr ⟨x,by simp [queued,KeyTree.first_mem hx],ht,
            KeyTree.first_holds hx,rfl⟩⟩
        · exact ⟨f,hf,rfl,rfl,rfl,Or.inl ⟨rfl,rfl,fun h => absurd h hpc⟩⟩
        · exact ⟨_,rfl,rfl,rfl,rfl,Or.inl ⟨rfl,rfl,fun h => by cases h⟩⟩
      · exact ⟨_,rfl,rfl,rfl,rfl,Or.inl ⟨rfl,rfl,fun h => by cases h⟩⟩
    · split_ifs with h
      · exact ⟨_,rfl,rfl,rfl,rfl,Or.inl ⟨rfl,rfl,fun _ => by simpa using h⟩⟩
      · exact ⟨_,rfl,rfl,rfl,rfl,Or.inl ⟨rfl,rfl,fun h => by cases h⟩⟩

theorem LoopOk.iterate {calls : List Call} {ml : MessageLoop.State} {f : Frame}
    {fs : List Frame} (h : LoopOk calls ml) (hf : ml.frames = f::fs) (hpc : f.pc = .looping)
    (now : Timespec) : LoopOk calls (runIntIterate ml f fs now) := by
  have hl : f.pc ≠ .leaving := by simp [hpc]
  have hold := h.frames f (by simp [hf])
  obtain ⟨hq,f',hf',ho,hfl,hd,hcase⟩ := runIntIterate_cases ml f fs now hl hf
  refine h.advance hf hl hq hf' ho hd fun hne => ?_
  rw [ho] at hne ⊢
  rw [hfl]
  refine ⟨(hold hne).1,fun hp => ?_⟩
  rcases hcase with ⟨hc,ht,hleave⟩ | ⟨x,hx,hterm,htr,hc⟩
  · rw [hc]
    refine (hold hne).2 (Or.inr ?_)
    rcases hp with hp | hp
    · simpa [(hold hne).1] using hleave hp
    · rwa [ht] at hp
  · have hown : x.addressee = f.owner := h.head f (by simp [hf]) hl hne x hx hterm htr
    exact ⟨by rw [hc,hown],hown ▸ h.posted x hx hterm⟩

/-- The innermost activation resumes. -/
theorem LoopOk.resume {calls : List Call} {ml ml' : MessageLoop.State} {f : Frame}
    {fs : List Frame} (h : LoopOk calls ml) (hf : ml.frames = f::fs) (hpc : f.pc ≠ .leaving)
    (hq : ∀ x ∈ queued ml', x ∈ queued ml) (pc : Pc) (hpc' : pc ≠ .leaving)
    (hf' : ml'.frames = { f with pc := pc }::fs) : LoopOk calls ml' := by
  refine h.advance hf hpc hq hf' rfl rfl fun hne => ?_
  have hold := h.frames f (by simp [hf]) hne
  refine ⟨hold.1,fun hp => hold.2 (hp.imp_left fun hl => absurd hl hpc')⟩

theorem LoopOk.pump {calls : List Call} {ml : MessageLoop.State} {f : Frame}
    {fs : List Frame} (h : LoopOk calls ml) (hf : ml.frames = f::fs) (hpc : f.pc = .pumping) :
    LoopOk calls (runIntPump ml f fs) := by
  have hq : ∀ x ∈ queued (runIntPump ml f fs), x ∈ queued ml := by
    intro x hx
    rw [queued,runIntPump_ledger] at hx
    exact mem_queued_of_move hx
  unfold runIntPump at hq ⊢
  split_ifs at hq ⊢ with he
  · exact h.resume hf (by simp [hpc]) hq .looping (by simp) rfl
  · exact h.resume hf (by simp [hpc]) hq .pumping (by simp) (by rw [← hpc]; exact hf)

theorem LoopOk.leave {calls : List Call} {ml : MessageLoop.State} {f : Frame}
    {fs : List Frame} (h : LoopOk calls ml) (hf : ml.frames = f::fs)
    (hg : ∀ g ∈ fs.head?, Undisturbed ml g.owner g.depth) :
    LoopOk calls (runIntLeave ml f fs) := by
  have hq : ∀ x ∈ queued (runIntLeave ml f fs), x ∈ queued ml := by
    intro x hx
    rw [queued,runIntLeave_ledger] at hx
    split_ifs at hx
    · simp [Ledger.discard] at hx
    · exact hx
  refine ⟨fun x hx => h.posted x (hq x hx),fun g hm => ?_,fun g hm _ hne x hx => ?_⟩
  · exact h.frames g (by rw [hf]; exact List.mem_cons_of_mem f hm)
  · exact hg g hm hne x (hq x hx)

/-! The whole system. -/

/-- A nested run returned because of its own quit, posted by its responder. -/
def Return.Proper (r : Return) : Prop := r.cause = some r.owner ∧ r.responded = true

instance (r : Return) : Decidable r.Proper := inferInstanceAs (Decidable (_ ∧ _))

structure Inv (s : State) : Prop where
  loops : ∀ m, LoopOk s.calls (s.threads m).ml
  returned : ∀ r ∈ s.returned, r.Proper

/-- A section touches one loop; the others see at most more answers. -/
theorem Inv.update {s t : State} (h : Inv s) (m : ℕ) (hg : Grows s.calls t.calls)
    (ht : ∀ k, k ≠ m → t.threads k = s.threads k) (hm : LoopOk t.calls (t.threads m).ml)
    (hr : ∀ r ∈ t.returned, r.Proper) : Inv t := by
  refine ⟨fun k => ?_,hr⟩
  by_cases hk : k = m
  · rw [hk]; exact hm
  · rw [ht k hk]; exact (h.loops k).grow hg

theorem Inv.setThread {s : State} (h : Inv s) (m : ℕ) (c : Control) {ml : MessageLoop.State}
    (hm : LoopOk s.calls ml) : Inv (s.setThread m ⟨ml,c⟩) := by
  refine h.update m (.refl _) (fun k hk => ?_) ?_ h.returned
  · exact Function.update_of_ne hk _ _
  · simpa only [State.setThread,Function.update_self] using hm

theorem Inv.record {s : State} (h : Inv s) {o : Owner} {c : Option Owner} (hc : c = some o)
    (ha : answered s.calls o = true) : Inv (s.record o c) := by
  refine ⟨h.loops,fun r hr => ?_⟩
  rcases List.mem_append.mp hr with hr | hr
  · exact h.returned r hr
  · cases List.mem_singleton.mp hr
    exact ⟨hc,ha⟩

theorem Inv.withCalls {s : State} (h : Inv s) {calls : List Call} (hg : Grows s.calls calls) :
    Inv { s with calls := calls } :=
  ⟨fun m => (h.loops m).grow hg,h.returned⟩

theorem runIntEnter_ok {ml : MessageLoop.State} {flags : Flags} {o : Owner}
    (ha : ml.alive = true) (hn : flags.nested = true) :
    (runIntEnter ml true flags o).1 = .ok := by
  simp [runIntEnter,ha,hn]

theorem Inv.enterNested {s : State} (h : Inv s) {m : ℕ} {flags : Flags} {o : Owner}
    (after : Control) (hn : flags.nested = true) (hx : flags.exitOnEmpty = false)
    (ha : (s.threads m).ml.alive = true)
    (hu : Undisturbed (s.threads m).ml o (entryDepth (s.threads m).ml flags)) :
    Inv (enterNested s m flags o after) := by
  simp only [NestedLoops.enterNested,runIntEnter_ok ha hn,if_true]
  exact h.setThread m .idle ((h.loops m).enter true (fun _ => hx) hu)

theorem Inv.callPost {s : State} (h : Inv s) (m : ℕ) (z b : Bool) (comt : Callback)
    (now : Timespec) : Inv (callPost s m z b comt now) := by
  have hg := grows_append s.calls
  unfold NestedLoops.callPost
  exact (h.withCalls (hg _)).setThread m _ (((h.loops m).postWork b comt 0 0 _ now).grow (hg _))

theorem Inv.respond {s : State} (h : Inv s) {n : ℕ} {c : Call} (hc : s.calls[n]? = some c)
    (now : Timespec) (hm : QuitMatches (s.threads c.mLoop).ml c.depth (.call n)) :
    Inv (respond s n c now) := by
  have hg := grows_set s.calls n c
  refine (h.withCalls hg).setThread c.mLoop _ ?_
  exact ((h.loops c.mLoop).grow hg).postQuit false now (answered_set hc) hm

theorem Inv.leaveRun {s : State} (h : Inv s) {m : ℕ} {f : Frame} {fs : List Frame}
    (hf : (s.threads m).ml.frames = f::fs) (hpc : f.pc = .leaving)
    (hg : ∀ g ∈ fs.head?, Undisturbed (s.threads m).ml g.owner g.depth) :
    Inv (leaveRun s m f (runIntLeave (s.threads m).ml f fs)) := by
  have hl := (h.loops m).leave hf hg
  have hok := (h.loops m).frames f (by simp [hf])
  unfold NestedLoops.leaveRun
  split
  · exact h.setThread m _ hl
  · rename_i n ho
    have hp := (hok (by simp [ho])).2 (Or.inl hpc)
    rw [ho] at hp
    exact (h.record hp.1 hp.2).setThread m _ hl
  · rename_i run ho
    have hp := (hok (by simp [ho])).2 (Or.inl hpc)
    rw [ho] at hp
    exact (h.record hp.1 hp.2).setThread m _ hl

theorem Inv.stepLoop {s t : State} {m : ℕ} {a : Action} (h : Inv s)
    (ht : stepLoop s m a = some t)
    (hs : ∀ ml, MessageLoop.step (s.threads m).ml a = some ml → LoopOk s.calls ml) : Inv t := by
  unfold NestedLoops.stepLoop at ht
  split_ifs at ht
  obtain ⟨ml,hml,rfl⟩ := Option.map_eq_some_iff.mp ht
  exact h.setThread m _ (hs ml hml)

/-- The run a thread is about to enter, with its flags. -/
def Control.entering : Control → Option (Owner × Flags)
  | .callPosted n => some (.call n,⟨true,true,false⟩)
  | .flashPrepared run => some (.flash run,⟨true,false,false⟩)
  | _ => none

/-- The order of quits, entries and exits under which depths identify runs: a quit is
posted only when the innermost activation of the loop would not take it or is the one
it is for, and a run starts, or is returned to, with no other quit queued that it would
take. Nested runs start on a thread that has a loop. -/
def QuitsMatch (s : State) : Label → Prop
  | .postQuit i _ _ => ∀ q ∈ s.quits[i]?, QuitMatches (s.threads q.1).ml q.2 .loop
  | .respond n _ => ∀ c ∈ s.calls[n]?, QuitMatches (s.threads c.mLoop).ml c.depth (.call n)
  | .flashQuit r _ => (s.fml r).running = true →
      QuitMatches (s.threads (s.fml r).messageLoop).ml (s.fml r).depth (.flash (s.fml r).run)
  | .callRun m | .flashRun m => ∀ e ∈ (s.threads m).control.entering,
      (s.threads m).ml.alive = true ∧
        Undisturbed (s.threads m).ml e.1 (entryDepth (s.threads m).ml e.2)
  | .leave m => ∀ g ∈ (s.threads m).ml.frames.tail.head?,
      Undisturbed (s.threads m).ml g.owner g.depth
  | _ => True

instance (s : State) (l : Label) : Decidable (QuitsMatch s l) := by
  cases l <;> unfold QuitsMatch <;> infer_instance

theorem step_inv {s t : State} {l : Label} (h : Inv s) (hg : QuitsMatch s l)
    (ht : step s l = some t) : Inv t := by
  cases l with
  | postWork m b cb ms r d now =>
    cases ht
    exact h.setThread m _ ((h.loops m).postWork b cb ms r d now)
  | readDepth m => cases ht; exact ⟨h.loops,h.returned⟩
  | postQuit i d now =>
    obtain ⟨q,hq,rfl⟩ := Option.map_eq_some_iff.mp ht
    have hs : Inv { s with quits := s.quits.eraseIdx i } := ⟨h.loops,h.returned⟩
    exact hs.setThread q.1 _ ((h.loops q.1).postQuit d now rfl (hg q hq))
  | run m =>
    exact h.stepLoop ht fun ml hml => (h.loops m).enterLoop hml
  | activateBrowserThread m =>
    exact h.stepLoop ht fun ml hml => (h.loops m).enterLoop hml
  | callPost m z b comt now =>
    simp only [step] at ht
    split_ifs at ht
    cases ht
    exact h.callPost m z b comt now
  | callRun m =>
    simp only [step] at ht
    split at ht <;> cases ht
    rename_i n hc
    have he := hg (.call n,⟨true,true,false⟩) (by rw [hc]; rfl)
    exact h.enterNested _ rfl rfl he.1 he.2
  | respond n now =>
    simp only [step] at ht
    split at ht
    · rename_i c hc
      split_ifs at ht
      cases ht
      exact h.respond hc now (hg c hc)
    · cases ht
  | flashPrepare m r =>
    simp only [step] at ht
    split_ifs at ht
    cases ht
    refine Inv.setThread ?_ m _ (h.loops m)
    exact ⟨h.loops,h.returned⟩
  | flashRun m =>
    simp only [step] at ht
    split at ht <;> cases ht
    rename_i run hc
    have he := hg (.flash run,⟨true,false,false⟩) (by rw [hc]; rfl)
    exact h.enterNested _ rfl rfl he.1 he.2
  | flashQuit r now =>
    cases ht
    simp only [ppbFlashMessageLoopQuit]
    split_ifs with hr
    · exact h.setThread _ _ ((h.loops _).postQuit false now rfl (hg hr))
    · exact h
  | flashFinish m =>
    simp only [step] at ht
    split at ht <;> cases ht
    refine Inv.setThread ?_ m _ (h.loops m)
    exact ⟨h.loops,h.returned⟩
  | pump m =>
    refine h.stepLoop ht fun ml hml => ?_
    obtain ⟨f,fs,hf,hpc,rfl⟩ := step_pump hml
    exact (h.loops m).pump hf hpc
  | iterate m now =>
    refine h.stepLoop ht fun ml hml => ?_
    obtain ⟨f,fs,hf,hpc,rfl⟩ := step_iterate hml
    exact (h.loops m).iterate hf hpc now
  | pop m =>
    refine h.stepLoop ht fun ml hml => ?_
    obtain ⟨f,fs,timeout,hf,hpc,rfl⟩ := step_pop hml
    exact (h.loops m).resume hf (by simp [hpc]) (fun x hx => mem_queued_of_move hx) .looping
      (by simp) rfl
  | callbackReturns m =>
    refine h.stepLoop ht fun ml hml => ?_
    obtain ⟨f,fs,task,hf,hpc,rfl⟩ := step_callbackReturns hml
    exact (h.loops m).resume hf (by simp [hpc]) (fun x hx => hx) .looping (by simp) rfl
  | leave m =>
    simp only [step] at ht
    split at ht <;> try cases ht
    rename_i f fs _ hf
    obtain ⟨ml,hml,rfl⟩ := Option.map_eq_some_iff.mp ht
    simp only [MessageLoop.step,hf] at hml
    split_ifs at hml with hpc
    cases hml
    refine h.leaveRun hf hpc fun g hm => hg g ?_
    rw [hf]
    exact hm

/-- Along every run that meets the condition, a synchronous call returns from its
nested run, and Run from its own, only through the quit posted for it. -/
theorem nested_runs_end_by_own_quit (refCnt : ℕ → ℤ) {s : State}
    (h : (machine refCnt).ReachableVia QuitsMatch s) : ∀ r ∈ s.returned, r.Proper := by
  refine (h.invariant Inv ⟨fun m => ⟨?_,?_,?_⟩,?_⟩ fun s l t hi hg ht => step_inv hi hg ht).returned
  · intro x hx; simp [machine,State.create,MessageLoop.State.create,queued] at hx
  · intro f hf; simp [machine,State.create,MessageLoop.State.create] at hf
  · intro f hf; simp [machine,State.create,MessageLoop.State.create] at hf
  · intro r hr; simp [machine,State.create] at hr

/-- A callback runs a Flash message loop, in which a callback makes a synchronous call
whose work is called. -/
def callInFlash : List Label :=
  [.postWork 0 false ⟨some 0,0⟩ 0 0 0 ⟨0,0⟩,.run 0,.iterate 0 ⟨0,0⟩,.pop 0,.iterate 0 ⟨0,0⟩,
    .flashPrepare 0 7,.flashRun 0,
    .postWork 0 false ⟨some 1,0⟩ 0 0 0 ⟨1,0⟩,.iterate 0 ⟨1,0⟩,.pop 0,.iterate 0 ⟨1,0⟩,
    .callPost 0 false false ⟨some 2,0⟩ ⟨2,0⟩,.callRun 0,
    .iterate 0 ⟨2,0⟩,.pop 0,.iterate 0 ⟨2,0⟩,.callbackReturns 0]

/-- Quit of the Flash loop, posted before the response, ends the run of the call. -/
theorem flashQuit_ends_a_call : ¬∀ (ls : List Label) (u : State),
    (machine fun _ => 1).exec (machine fun _ => 1).start ls = some u →
      ∀ r ∈ u.returned, r.Proper := by
  intro h
  exact absurd (h (callInFlash ++ [.flashQuit 7 ⟨3,0⟩,.iterate 0 ⟨3,0⟩,.pop 0,.iterate 0 ⟨3,0⟩,
    .leave 0]) _ rfl) (by decide)

/-- The same with the response before Quit. -/
def callAnswered : List Label :=
  callInFlash ++ [.respond 0 ⟨3,0⟩,.iterate 0 ⟨3,0⟩,.pop 0,.iterate 0 ⟨3,0⟩,.leave 0,
    .callbackReturns 0,.flashQuit 7 ⟨4,0⟩,.iterate 0 ⟨4,0⟩,.pop 0,.iterate 0 ⟨4,0⟩,.leave 0,
    .flashFinish 0]

theorem callAnswered_returns_twice : ∃ u : State,
    (machine fun _ => 1).exec (machine fun _ => 1).start callAnswered = some u ∧
    u.returned.length = 2 ∧ ∀ r ∈ u.returned, r.Proper :=
  ⟨_,rfl,rfl,nested_runs_end_by_own_quit (fun _ => 1)
    (Machine.reachableVia_of_exec callAnswered .start rfl (by decide))⟩

end NestedLoops
end FreshPlayer
