import FreshPlayer.MessageLoopProgress

/-! Calls on the browser thread. Its loop does not run most of the time, so that each call is
queued there and the browser asked to run the loop until it is empty. -/
namespace FreshPlayer
namespace BrowserCalls

open MessageLoop

/-- `scheduling` has the tasks queued whose activation was not asked for yet, `activations`
those the browser was asked for. `calls` is a ghost. -/
structure State where
  loop : MessageLoop.State
  scheduling : List Task
  activations : List Task
  calls : List Task

def activateFlags : Flags := ⟨true,true,true⟩

/-- The first half of the call queues the task. -/
def ppbCoreCallOnBrowserThread (s : State) (func userData : ℕ) (now : Timespec) : State :=
  match ppbMessageLoopPostWorkWithResult s.loop true ⟨some func,userData⟩ 0 0 0 now with
  | (.ok,loop) =>
    let tasks := loop.accepted.getLast?.toList
    { s with loop := loop, scheduling := s.scheduling ++ tasks, calls := s.calls ++ tasks }
  | (_,loop) => { s with loop := loop }

/-- `schedule` is the second half, which asks an instance that may be gone. The browser runs
`activate_browser_thread_ml_ptac` when it likes, or drops it with its instance. -/
inductive Action
  | call (func userData : ℕ) (now : Timespec)
  | schedule (k : ℕ) (alive : Bool)
  | activate (k : ℕ)
  | drop (k : ℕ)
  | loop (a : MessageLoop.Action)
  deriving DecidableEq, Repr

def step (s : State) : Action → Option State
  | .call func userData now => some (ppbCoreCallOnBrowserThread s func userData now)
  | .schedule k alive => (s.scheduling[k]?).map fun task =>
    { s with
      scheduling := s.scheduling.eraseIdx k
      activations := if alive then s.activations ++ [task] else s.activations }
  | .activate k => (s.activations[k]?).bind fun _ =>
    (MessageLoop.step s.loop (.enter true activateFlags .loop)).map fun loop =>
      { s with loop := loop, activations := s.activations.eraseIdx k }
  | .drop k => (s.activations[k]?).map fun _ =>
    { s with activations := s.activations.eraseIdx k }
  | .loop a => (MessageLoop.step s.loop a).map fun loop => { s with loop := loop }

def machine (refCnt : ℤ) : Machine State Action := ⟨⟨.create refCnt,[],[],[]⟩,step⟩

/-- A loop that runs until it is empty, as activations do, is not ended by a quit. -/
def HeedsNoQuit (s : MessageLoop.State) : MessageLoop.Action → Prop
  | .iterate now => ∀ f ∈ s.frames.head?, f.flags.exitOnEmpty = true →
      1 < f.depth ∨ f.flags.increaseDepth = false →
      ∀ task ∈ findFirstTaskWithAppropriateDepth s.intQ f.depth, timeoutOf task now ≤ 0 →
        task.terminate = false
  | _ => True

/-- No task is lost, no activation dropped. -/
def Keeps (s : State) : Action → Prop
  | .schedule _ alive => alive = true
  | .drop _ => False
  | .loop a => LosesNothing s.loop a ∧ HeedsNoQuit s.loop a
  | .call _ _ _ | .activate _ => True

instance (s : MessageLoop.State) (a : MessageLoop.Action) : Decidable (HeedsNoQuit s a) := by
  apply a.casesOn (motive := fun a => Decidable (HeedsNoQuit s a)) <;> intros <;>
    dsimp only [HeedsNoQuit] <;> infer_instance

instance (s : State) (a : Action) : Decidable (Keeps s a) := by
  unfold Keeps
  split <;> infer_instance

/-- The task was taken, or a loop that runs until it is empty will find it. -/
def Covered (s : MessageLoop.State) (task : Task) : Prop :=
  task ∈ s.taken ∨
  (task ∈ s.asyncQ ∧ ∃ f ∈ s.frames.head?, f.flags.exitOnEmpty = true ∧ f.pc = .pumping) ∨
  (task ∈ s.intQ.keys ∧ ∃ f ∈ s.frames, f.flags.exitOnEmpty = true ∧ f.pc ≠ .leaving)

variable {s t : MessageLoop.State} {task x : Task}

/-- More tasks in `async_q` and the same activations. -/
theorem Covered.mono (h : Covered s task) (hf : t.frames = s.frames)
    (ha : ∀ x ∈ s.asyncQ, x ∈ t.asyncQ) (hi : t.intQ = s.intQ) (ht : t.taken = s.taken) :
    Covered t task := by
  rw [Covered,hf,hi,ht]
  exact h.imp_right (Or.imp_left fun h => ⟨ha _ h.1,h.2⟩)

theorem Covered.enter {b : Bool} {flags : Flags} {o : Owner} (h : Covered s task)
    (hs : MessageLoop.step s (.enter b flags o) = some t) : Covered t task := by
  obtain ⟨hcalling,rfl⟩ := step_enter hs
  obtain ⟨-,heq⟩ | ⟨-,f,he⟩ := runIntEnter_spec s b flags o
  · rw [heq]
    exact h
  have hl := runIntEnter_ledger s b flags o
  obtain h | ⟨-,g,hg,-,hp⟩ | ⟨hmem,g,hg,hx,hp⟩ := h
  · exact .inl (by rw [hl]; exact h)
  · obtain ⟨c,hc⟩ := hcalling g hg
    rw [hc] at hp
    cases hp
  · refine .inr (.inr ⟨by rw [hl]; exact hmem,g,?_,hx,hp⟩)
    rw [he.frames]
    exact List.mem_cons_of_mem f hg

theorem mem_take {L : Ledger} (hx : x ∈ L.intQ.keys) (ht : task ∈ L.intQ.keys) :
    task ∈ (L.take x).taken ∨ task ∈ (L.take x).intQ.keys := by
  obtain rfl | h := Ledger.mem_intQ_take hx ht
  · exact .inl (List.mem_append_right _ (List.mem_singleton_self _))
  · exact .inr h

theorem Covered.pump (h : Covered s task) (hm : s.toLedger.Movable)
    (hs : MessageLoop.step s .pump = some t) : Covered t task := by
  obtain ⟨f,fs,hf,hp,rfl⟩ := step_pump hs
  obtain ⟨hint,hasync,htaken⟩ := Ledger.mem_move hm
  have hl := runIntPump_ledger s f fs
  have hframes : ∃ f', (runIntPump s f fs).frames = f'::fs ∧ f'.flags = f.flags ∧
      f'.pc ≠ .leaving ∧ (s.asyncQ ≠ [] → f'.pc = .pumping) := by
    unfold runIntPump
    split_ifs with hq
    · exact ⟨_,rfl,rfl,nofun,fun hne => absurd hq hne⟩
    · exact ⟨f,hf,rfl,by rw [hp]; exact nofun,fun _ => hp⟩
  obtain ⟨f',hf',hflags,hleave,hpump⟩ := hframes
  unfold Covered
  rw [hl,hf']
  obtain h | ⟨hmem,g,hg,hx,-⟩ | ⟨hmem,g,hg,hx,hpg⟩ := h
  · exact .inl (htaken ▸ h)
  · rw [hf] at hg
    obtain rfl : f = g := Option.some.inj hg
    obtain h | h := hasync task hmem
    · exact .inr (.inl ⟨h,f',rfl,hflags ▸ hx,hpump (List.ne_nil_of_mem hmem)⟩)
    · exact .inr (.inr ⟨h,f',List.mem_cons_self,hflags ▸ hx,hleave⟩)
  · refine .inr (.inr ⟨hint task hmem,?_⟩)
    rw [hf] at hg
    obtain rfl | hg := List.mem_cons.mp hg
    · exact ⟨f',List.mem_cons_self,hflags ▸ hx,hleave⟩
    · exact ⟨g,List.mem_cons_of_mem f' hg,hx,hpg⟩

/-- An activation goes on, with the queues it had. -/
theorem Covered.resume {f f' : Frame} {fs : List Frame} (h : Covered s task)
    (hf : s.frames = f::fs) (ht : t.frames = f'::fs) (hflags : f'.flags = f.flags)
    (hp : f.pc ≠ .pumping) (hp' : f'.pc ≠ .leaving)
    (hi : ∀ x ∈ s.intQ.keys, x ∈ t.taken ∨ x ∈ t.intQ.keys) (htaken : ∀ x ∈ s.taken, x ∈ t.taken) :
    Covered t task := by
  obtain h | ⟨-,g,hg,-,hpg⟩ | ⟨hmem,g,hg,hx,hpg⟩ := h
  · exact .inl (htaken _ h)
  · rw [hf] at hg
    obtain rfl : f = g := Option.some.inj hg
    exact absurd hpg hp
  · obtain h | h := hi _ hmem
    · exact .inl h
    · refine .inr (.inr ⟨h,?_⟩)
      rw [hf] at hg
      rw [ht]
      obtain rfl | hg := List.mem_cons.mp hg
      · exact ⟨f',List.mem_cons_self,hflags ▸ hx,hp'⟩
      · exact ⟨g,List.mem_cons_of_mem f' hg,hx,hpg⟩

/-- An activation ends for the lack of tasks, or by a quit of a nested loop. -/
theorem iterate_leaves {f : Frame} {fs : List Frame} (hf : s.frames = f::fs)
    (hp : f.pc = .looping) (now : Timespec) :
    ∃ f', (runIntIterate s f fs now).frames = f'::fs ∧ f'.flags = f.flags ∧
      (f'.pc = .leaving → findFirstTaskWithAppropriateDepth s.intQ f.depth = none ∨
        ∃ x ∈ findFirstTaskWithAppropriateDepth s.intQ f.depth, timeoutOf x now ≤ 0 ∧
          x.terminate = true ∧ (1 < f.depth ∨ f.flags.increaseDepth = false)) := by
  have hpc : f.pc ≠ .leaving := by rw [hp]; exact nofun
  unfold runIntIterate
  split
  · rename_i x hx
    split_ifs with hdue
    · unfold runIntDue
      split_ifs with ht hn ha hc
      · refine ⟨_,rfl,rfl,fun _ => .inr ⟨x,hx,hdue,ht,?_⟩⟩
        simpa [Bool.or_eq_true] using hn
      · exact ⟨_,rfl,rfl,fun h => absurd h hpc⟩
      · exact ⟨_,rfl,rfl,fun h => absurd h hpc⟩
      · exact ⟨f,hf,rfl,fun h => absurd h hpc⟩
      · exact ⟨_,rfl,rfl,nofun⟩
    · exact ⟨_,rfl,rfl,nofun⟩
  · rename_i hnone
    split_ifs
    · exact ⟨_,rfl,rfl,fun _ => .inl hnone⟩
    · exact ⟨_,rfl,rfl,nofun⟩

theorem Covered.iterate {now : Timespec} (h : Covered s task) (hdepth : task.depth = 0)
    (hq : HeedsNoQuit s (.iterate now)) (hs : MessageLoop.step s (.iterate now) = some t) :
    Covered t task := by
  obtain ⟨f,fs,hf,hp,rfl⟩ := step_iterate hs
  obtain ⟨f',hf',hflags,hleave⟩ := iterate_leaves hf hp now
  have hl : (∀ x ∈ s.intQ.keys, x ∈ (runIntIterate s f fs now).taken ∨
      x ∈ (runIntIterate s f fs now).intQ.keys) ∧
      ∀ x ∈ s.taken, x ∈ (runIntIterate s f fs now).taken := by
    obtain heq | ⟨y,hy,heq⟩ := runIntIterate_ledger s f fs now
    · rw [heq]
      exact ⟨fun _ hx => .inr hx,fun _ hx => hx⟩
    · rw [heq]
      exact ⟨fun _ hx => mem_take hy hx,fun _ hx => List.mem_append_left _ hx⟩
  by_cases hmine : task ∈ s.intQ.keys ∧ f.flags.exitOnEmpty = true
  · obtain ⟨hmem,hx⟩ := hmine
    refine h.resume hf hf' hflags (by rw [hp]; exact nofun) (fun hpc => ?_) hl.1 hl.2
    obtain hnone | ⟨x,hfound,hdue,hterm,hn⟩ := hleave hpc
    · -- its depth suits every activation
      have hnot := List.find?_eq_none.mp hnone task hmem
      exact hnot (by simp [taskTreeTraverseFunc,hdepth])
    · have hwork := hq f (by rw [hf]; rfl) hx hn x hfound hdue
      rw [hterm] at hwork
      cases hwork
  · obtain h | ⟨-,g,hg,-,hpg⟩ | ⟨hmem,g,hg,hx,hpg⟩ := h
    · exact .inl (hl.2 _ h)
    · rw [hf] at hg
      obtain rfl : f = g := Option.some.inj hg
      rw [hp] at hpg
      cases hpg
    · obtain h | h := hl.1 _ hmem
      · exact .inl h
      · rw [hf] at hg
        obtain rfl | hg := List.mem_cons.mp hg
        · exact absurd ⟨hmem,hx⟩ hmine
        · refine .inr (.inr ⟨h,g,?_,hx,hpg⟩)
          rw [hf']
          exact List.mem_cons_of_mem f' hg

theorem Covered.leave (h : Covered s task) (hg : LosesNothing s .leave)
    (hs : MessageLoop.step s .leave = some t) : Covered t task := by
  obtain ⟨f,fs,hf,hp,rfl⟩ := step_leave hs
  have hframes : (runIntLeave s f fs).frames = fs := rfl
  have hl := runIntLeave_ledger s f fs
  have hempty := hg f (by rw [hf]; rfl)
  obtain h | ⟨-,g,hgh,-,hpg⟩ | ⟨hmem,g,hgm,hx,hpg⟩ := h
  · refine .inl ?_
    rw [hl]
    split_ifs
    · exact h
    · exact h
  · rw [hf] at hgh
    obtain rfl : f = g := Option.some.inj hgh
    rw [hp] at hpg
    cases hpg
  · rw [hf] at hgm
    obtain rfl | hgm := List.mem_cons.mp hgm
    · exact absurd hp hpg
    · refine .inr (.inr ⟨?_,g,hframes ▸ hgm,hx,hpg⟩)
      rw [hl,if_neg fun hd => by rw [(hempty hd).2] at hmem; cases hmem]
      exact hmem

theorem Covered.step {a : MessageLoop.Action} (h : Covered s task) (hdepth : task.depth = 0)
    (hl : LosesNothing s a) (hq : HeedsNoQuit s a) (hs : MessageLoop.step s a = some t) :
    Covered t task := by
  cases a with
  | postWork b cb ms r d now =>
    cases hs
    unfold ppbMessageLoopPostWorkWithResult
    split_ifs
    · exact h
    · exact h
    · exact h
    · exact h.mono rfl (fun _ hx => List.mem_append_left _ hx) rfl rfl
  | postQuitDepth b d now o =>
    cases hs
    unfold ppbMessageLoopPostQuitDepth
    split_ifs
    · exact h
    · exact h.mono rfl (fun _ hx => List.mem_append_left _ hx) rfl rfl
  | enter b flags o => exact h.enter hs
  | pump => exact h.pump hl hs
  | iterate now => exact h.iterate hdepth hq hs
  | pop =>
    obtain ⟨f,fs,timeout,hf,hp,rfl⟩ := step_pop hs
    obtain ⟨hint,-,htaken⟩ := Ledger.mem_move hl
    exact h.resume hf rfl rfl (by rw [hp]; exact nofun) nofun (fun x hx => .inr (hint x hx))
      fun x hx => htaken.symm ▸ hx
  | callbackReturns =>
    obtain ⟨f,fs,c,hf,hp,rfl⟩ := step_callbackReturns hs
    exact h.resume hf rfl rfl (by rw [hp]; exact nofun) nofun (fun _ hx => .inr hx) fun _ hx => hx
  | leave => exact h.leave hl hs

/-- A task that is there is covered by the activation that begins, unless the loop is gone
with its queues. -/
theorem covered_of_activate (hs : MessageLoop.step s (.enter true activateFlags .loop) = some t)
    (hheld : task ∈ s.held) (hlive : s.alive = true ∨ s.asyncQ = [] ∧ s.intQ.keys = []) :
    Covered t task := by
  have hmem : task ∈ s.asyncQ ∨ task ∈ s.intQ.keys ∨ task ∈ s.taken := by
    simpa [Ledger.held,or_assoc] using hheld
  obtain ⟨-,rfl⟩ := step_enter hs
  have hl := runIntEnter_ledger s true activateFlags .loop
  unfold Covered
  rw [hl]
  by_cases halive : s.alive = true
  · have hframes : ∃ f, (runIntEnter s true activateFlags .loop).2.frames = f::s.frames ∧
        f.flags = activateFlags ∧ f.pc = .pumping := by
      simp [runIntEnter,halive,activateFlags]
    obtain ⟨f,hf,hflags,hp⟩ := hframes
    rw [hf]
    obtain h | h | h := hmem
    · exact .inr (.inl ⟨h,f,rfl,by rw [hflags]; rfl,hp⟩)
    · exact .inr (.inr ⟨h,f,List.mem_cons_self,by rw [hflags]; rfl,by simp [hp]⟩)
    · exact .inl h
  · obtain ⟨ha,hi⟩ := hlive.resolve_left halive
    rw [ha,hi] at hmem
    exact .inl (by simpa using hmem)

/-- The queues of a loop that is gone are empty. -/
def Live (s : MessageLoop.State) : Prop := s.alive = true ∨ s.asyncQ = [] ∧ s.intQ.keys = []

theorem Live.of_queues (h : Live s) (hr : t.refCnt = s.refCnt)
    (hq : s.asyncQ = [] → s.intQ.keys = [] → t.asyncQ = [] ∧ t.intQ.keys = []) : Live t := by
  obtain h | ⟨ha,hi⟩ := h
  · refine .inl ?_
    rw [State.alive,hr]
    exact h
  · exact .inr (hq ha hi)

theorem Live.leave {f : Frame} {fs : List Frame} (h : Live s)
    (hl : DropsLastReference s f → s.asyncQ = [] ∧ s.intQ.keys = []) :
    Live (runIntLeave s f fs) := by
  have hledger := runIntLeave_ledger s f fs
  by_cases hempty : s.asyncQ = [] ∧ s.intQ.keys = []
  · refine .inr ?_
    rw [hledger]
    split_ifs
    · exact ⟨rfl,rfl⟩
    · exact hempty
  · have hkept : ¬DropsLastReference s f := fun hd => hempty (hl hd)
    have halive := h.resolve_right hempty
    refine .inl ?_
    simp only [DropsLastReference,halive,true_and] at hkept
    simp only [State.alive,decide_eq_true_eq] at halive ⊢
    cases hd : f.destroyMl with
    | false =>
      simp only [hd,Bool.false_eq_true,if_false,runIntLeave,ppResourceUnref_refCnt,
        runIntRestore_refCnt,State.alive,decide_eq_true_eq] at hkept ⊢
      split_ifs
      omega
    | true =>
      simp only [hd,if_true,runIntLeave,ppResourceUnref_refCnt,runIntRestore_refCnt,State.alive,
        decide_eq_true_eq] at hkept ⊢
      split_ifs <;> omega

theorem Live.step {a : MessageLoop.Action} (h : Live s) (hl : LosesNothing s a)
    (hs : MessageLoop.step s a = some t) : Live t := by
  cases a with
  | postWork b cb ms r d now =>
    cases hs
    unfold ppbMessageLoopPostWorkWithResult
    split_ifs with hf ha
    · exact h
    · exact h
    · exact h
    · exact .inl (show s.alive = true by simpa using ha)
  | postQuitDepth b d now o =>
    cases hs
    unfold ppbMessageLoopPostQuitDepth
    split_ifs with ha
    · exact h
    · exact .inl (show s.alive = true by simpa using ha)
  | enter b flags o =>
    obtain ⟨-,rfl⟩ := step_enter hs
    obtain ⟨-,heq⟩ | ⟨-,f,he⟩ := runIntEnter_spec s b flags o
    · rw [heq]
      exact h
    · have halive := he.alive
      simp only [State.alive,decide_eq_true_eq] at halive
      refine .inl ?_
      simp only [State.alive,he.refCnt,decide_eq_true_eq]
      omega
  | pump =>
    obtain ⟨f,fs,-,-,rfl⟩ := step_pump hs
    refine h.of_queues ?_ fun ha hi => ?_
    · unfold runIntPump
      split_ifs <;> rfl
    · rw [runIntPump_ledger,Ledger.move_empty ha]
      exact ⟨ha,hi⟩
  | iterate now =>
    obtain ⟨f,fs,hf,hp,rfl⟩ := step_iterate hs
    obtain ⟨f',hadv,-⟩ := runIntIterate_advance hf hp now
    refine h.of_queues hadv.refCnt fun ha hi => ?_
    obtain heq | ⟨y,hy,-⟩ := runIntIterate_ledger s f fs now
    · rw [heq]
      exact ⟨ha,hi⟩
    · rw [hi] at hy
      cases hy
  | pop =>
    obtain ⟨f,fs,_,-,-,rfl⟩ := step_pop hs
    refine h.of_queues rfl fun ha hi => ?_
    simp only [runIntPop,Ledger.move_empty ha]
    exact ⟨ha,hi⟩
  | callbackReturns =>
    obtain ⟨f,fs,c,-,-,rfl⟩ := step_callbackReturns hs
    exact h.of_queues rfl fun ha hi => ⟨ha,hi⟩
  | leave =>
    obtain ⟨f,fs,hf,-,rfl⟩ := step_leave hs
    exact h.leave (hl f (by rw [hf]; rfl))

structure Inv (s : State) : Prop where
  books : s.loop.Books
  conserved : s.loop.Conserved
  live : Live s.loop
  accepted : ∀ task ∈ s.calls, task ∈ s.loop.accepted ∧ task.depth = 0 ∧ task.terminate = false
  covered : ∀ task ∈ s.calls,
    task ∈ s.scheduling ∨ task ∈ s.activations ∨ Covered s.loop task

theorem mem_eraseIdx_or {l : List Task} {k : ℕ} (h : task ∈ l) :
    task ∈ l.eraseIdx k ∨ l[k]? = some task := by
  obtain ⟨i,hi⟩ := List.mem_iff_getElem?.mp h
  by_cases hk : i = k
  · exact .inr (hk ▸ hi)
  · exact .inl (List.mem_eraseIdx_iff_getElem?.mpr ⟨i,hk,hi⟩)

/-- A step of the loop forgets no task it has accepted. -/
theorem accepted_step {a : MessageLoop.Action} (hs : MessageLoop.step s a = some t)
    (h : task ∈ s.accepted) : task ∈ t.accepted := by
  have he := step_entry hs
  generalize t.toLedger = L at he ⊢
  cases he with
  | same _ => exact h
  | accept _ _ _ => exact List.mem_append_left _ h
  | move _ => rw [Ledger.move_accepted]; exact h
  | take _ _ => exact h
  | discard _ => exact h

theorem held_of_accepted (hb : s.Books) (hc : s.Conserved) (h : task ∈ s.accepted) :
    task ∈ s.held := ((hb.conserved_iff.mp hc).mem_iff).mpr h

theorem Inv.loop {s u : State} {a : MessageLoop.Action} {t : MessageLoop.State} (h : Inv s)
    (hl : LosesNothing s.loop a) (hq : HeedsNoQuit s.loop a)
    (hs : MessageLoop.step s.loop a = some t)
    (hu : u.loop = t ∧ u.calls = s.calls) (hc : ∀ task ∈ s.calls, Covered t task ∨
      (task ∈ s.scheduling → task ∈ u.scheduling) ∧ (task ∈ s.activations → task ∈ u.activations)) :
    Inv u := by
  have he := step_entry hs
  obtain ⟨hloop,hcalls⟩ := hu
  rw [← hloop] at hs he hc
  refine ⟨he.books h.books,(he.conserved_iff h.books h.conserved).mpr hl,h.live.step hl hs,
    fun task ht => ?_,fun task ht => ?_⟩
  · rw [hcalls] at ht
    obtain ⟨hacc,hd,hterm⟩ := h.accepted task ht
    exact ⟨accepted_step hs hacc,hd,hterm⟩
  · rw [hcalls] at ht
    obtain hcov | ⟨hsched,hact⟩ := hc task ht
    · exact .inr (.inr hcov)
    · obtain hw | hw | hw := h.covered task ht
      · exact .inl (hsched hw)
      · exact .inr (.inl (hact hw))
      · exact .inr (.inr (hw.step (h.accepted task ht).2.1 hl hq hs))

theorem post_ok {cb : Callback} {now : Timespec}
    (h : ppbMessageLoopPostWorkWithResult s true cb 0 0 0 now = (.ok,t)) :
    t = pushTask s (dueTime now 0) false 0 cb 0 false .loop := by
  unfold ppbMessageLoopPostWorkWithResult at h
  split_ifs at h <;> simp only [Prod.mk.injEq,reduceCtorEq,false_and,true_and] at h
  exact h.symm

theorem Inv.call {s : State} (h : Inv s) (func userData : ℕ) (now : Timespec) :
    Inv (ppbCoreCallOnBrowserThread s func userData now) := by
  have hstep : MessageLoop.step s.loop (.postWork true ⟨some func,userData⟩ 0 0 0 now) =
      some (ppbMessageLoopPostWorkWithResult s.loop true ⟨some func,userData⟩ 0 0 0 now).2 := rfl
  have hsame : Inv { s with
      loop := (ppbMessageLoopPostWorkWithResult s.loop true ⟨some func,userData⟩ 0 0 0 now).2 } :=
    h.loop (show LosesNothing s.loop (.postWork _ _ _ _ _ _) from trivial) trivial hstep ⟨rfl,rfl⟩
      fun _ _ => .inr ⟨id,id⟩
  unfold ppbCoreCallOnBrowserThread
  cases hp : ppbMessageLoopPostWorkWithResult s.loop true ⟨some func,userData⟩ 0 0 0 now with
  | mk status loop =>
    rw [hp] at hsame
    cases status with
    | ok =>
      -- the task is the last one accepted
      have hlast : ∀ task ∈ loop.accepted.getLast?.toList, task ∈ loop.accepted ∧
          task.depth = 0 ∧ task.terminate = false := by
        intro task ht
        have hmem := Option.mem_toList.mp ht
        rw [post_ok hp] at hmem ⊢
        simp only [pushTask,Ledger.accept,List.getLast?_concat] at hmem ⊢
        obtain rfl := Option.some.inj hmem
        exact ⟨List.mem_append_right _ (List.mem_singleton_self _),rfl,rfl⟩
      refine ⟨hsame.books,hsame.conserved,hsame.live,fun task ht => ?_,fun task ht => ?_⟩
      · obtain ht | ht := List.mem_append.mp ht
        · exact hsame.accepted task ht
        · exact hlast task ht
      · obtain ht | ht := List.mem_append.mp ht
        · obtain hw | hw | hw := hsame.covered task ht
          · exact .inl (List.mem_append_left _ hw)
          · exact .inr (.inl hw)
          · exact .inr (.inr hw)
        · exact .inl (List.mem_append_right _ ht)
    | _ => exact hsame

theorem Inv.step {s t : State} {a : Action} (h : Inv s) (hk : Keeps s a) (hs : step s a = some t) :
    Inv t := by
  cases a with
  | call func userData now =>
    cases hs
    exact h.call func userData now
  | schedule k alive =>
    obtain ⟨task,htask,rfl⟩ := Option.map_eq_some_iff.mp hs
    refine ⟨h.books,h.conserved,h.live,h.accepted,fun x hx => ?_⟩
    rw [show alive = true from hk]
    obtain hw | hw | hw := h.covered x hx
    · obtain hw | hw := mem_eraseIdx_or (k := k) hw
      · exact .inl hw
      · rw [htask] at hw
        cases hw
        exact .inr (.inl (List.mem_append_right _ (List.mem_singleton_self _)))
    · exact .inr (.inl (List.mem_append_left _ hw))
    · exact .inr (.inr hw)
  | activate k =>
    obtain ⟨task,htask,hs⟩ := Option.bind_eq_some_iff.mp hs
    obtain ⟨loop,hloop,rfl⟩ := Option.map_eq_some_iff.mp hs
    refine h.loop (show LosesNothing s.loop (.enter _ _ _) from trivial) trivial hloop ⟨rfl,rfl⟩
      fun x hx => ?_
    by_cases hact : x ∈ s.activations
    · refine .inl (covered_of_activate hloop ?_ h.live)
      exact held_of_accepted h.books h.conserved (h.accepted x hx).1
    · exact .inr ⟨id,fun hmem => absurd hmem hact⟩
  | drop k => cases hk
  | loop a =>
    obtain ⟨loop,hloop,rfl⟩ := Option.map_eq_some_iff.mp hs
    exact h.loop hk.1 hk.2 hloop ⟨rfl,rfl⟩ fun _ _ => .inr ⟨id,id⟩

theorem created_inv (refCnt : ℤ) : Inv (machine refCnt).start :=
  ⟨create_books refCnt,fun _ hx => (by cases hx),.inr ⟨rfl,rfl⟩,nofun,nofun⟩

/-- A step of the browser thread is one of its loop, or leaves the loop alone. -/
theorem step_loop {s t : State} {a : Action} (hs : step s a = some t) :
    t.loop = s.loop ∨ ∃ b, MessageLoop.step s.loop b = some t.loop := by
  cases a with
  | call func userData now =>
    cases hs
    refine .inr ⟨.postWork true ⟨some func,userData⟩ 0 0 0 now,?_⟩
    change some (ppbMessageLoopPostWorkWithResult s.loop true ⟨some func,userData⟩ 0 0 0 now).2 = _
    unfold ppbCoreCallOnBrowserThread
    split <;> simp [*]
  | schedule k alive =>
    obtain ⟨_,-,rfl⟩ := Option.map_eq_some_iff.mp hs
    exact .inl rfl
  | activate k =>
    obtain ⟨_,-,hs⟩ := Option.bind_eq_some_iff.mp hs
    obtain ⟨loop,hloop,rfl⟩ := Option.map_eq_some_iff.mp hs
    exact .inr ⟨_,hloop⟩
  | drop k =>
    obtain ⟨_,-,rfl⟩ := Option.map_eq_some_iff.mp hs
    exact .inl rfl
  | loop b =>
    obtain ⟨loop,hloop,rfl⟩ := Option.map_eq_some_iff.mp hs
    exact .inr ⟨b,hloop⟩

theorem books {refCnt : ℤ} {s : State} (h : (machine refCnt).Reachable s) : s.loop.Books := by
  refine h.invariant (fun s => s.loop.Books) (create_books refCnt) fun s a t hi _ hs => ?_
  obtain heq | ⟨b,hb⟩ := step_loop hs
  · rw [heq]
    exact hi
  · exact (step_entry hb).books hi

/-- A call on the browser thread is never made twice. Where no task is lost and no activation
dropped it was made when the browser thread is in no loop and no activation is left. -/
theorem call_made {refCnt : ℤ} {s : State} (h : (machine refCnt).Reachable s) :
    (∀ task ∈ s.calls, s.loop.called.count task ≤ 1) ∧
    ((machine refCnt).ReachableVia Keeps s → s.loop.frames = [] → s.scheduling = [] →
      s.activations = [] → ∀ task ∈ s.calls, s.loop.called.count task = 1) := by
  have hbooks := books h
  have hnodup : s.loop.called.Nodup := by
    rw [hbooks.calls]
    exact hbooks.taken_nodup.filter _
  refine ⟨fun task _ => List.nodup_iff_count_le_one.mp hnodup task,
    fun hk hf hsched hact task ht => ?_⟩
  have hi : Inv s := hk.invariant Inv (created_inv refCnt) fun _ _ _ hi hk ht => hi.step hk ht
  obtain ⟨hacc,-,hterm⟩ := hi.accepted task ht
  obtain ⟨hone,hcalled⟩ := hi.conserved task hacc
  rw [hcalled hterm]
  have hcov := hi.covered task ht
  rw [hsched,hact] at hcov
  obtain hcov | hcov | hcov := hcov
  · cases hcov
  · cases hcov
  · simp only [Covered,hf,List.head?_nil,List.not_mem_nil,false_and,exists_false,and_false,or_false,
      Option.mem_def,reduceCtorEq] at hcov
    have hpos := List.count_pos_iff.mpr hcov
    omega

/-- A call is made by a nested loop, another one by the activation asked for the first. The
activation of the second finds nothing to do. -/
def twoCalls : List Action :=
  [.call 1 0 ⟨0,0⟩,.loop (.enter true ⟨true,true,false⟩ (.call 0)),.loop (.iterate ⟨0,0⟩),
    .loop .pop,.loop (.iterate ⟨1,0⟩),.schedule 0 true,.call 2 0 ⟨1,0⟩,.schedule 0 true,.activate 0,
    .loop .pump,.loop .pump,.loop (.iterate ⟨1,0⟩),.loop .callbackReturns,.loop (.iterate ⟨1,0⟩),
    .loop .leave,.loop .callbackReturns,.loop (.postQuitDepth false 1 ⟨2,0⟩ (.call 0)),
    .loop (.iterate ⟨2,0⟩),.loop .pop,.loop (.iterate ⟨2,0⟩),.loop (.iterate ⟨2,0⟩),.loop .leave,
    .activate 0,.loop .pump,.loop (.iterate ⟨2,0⟩),.loop .leave]

theorem twoCalls_made : ∃ s : State, (machine 1).exec (machine 1).start twoCalls = some s ∧
    s.calls.length = 2 ∧ (∀ task ∈ s.calls, s.loop.called.count task ≤ 1) ∧
    ∀ task ∈ s.calls, s.loop.called.count task = 1 := by
  obtain ⟨s,hs,hf,hsched,hact,hlen⟩ : ∃ s : State,
      (machine 1).exec (machine 1).start twoCalls = some s ∧ s.loop.frames = [] ∧
      s.scheduling = [] ∧ s.activations = [] ∧ s.calls.length = 2 := ⟨_,rfl,rfl,rfl,rfl,rfl⟩
  have hreach : (machine 1).ReachableVia Keeps s :=
    Machine.reachableVia_of_exec twoCalls .start hs (by decide)
  obtain ⟨hle,hone⟩ := call_made hreach.reachable
  exact ⟨s,hs,hlen,hle,hone hreach hf hsched hact⟩

end BrowserCalls
end FreshPlayer
