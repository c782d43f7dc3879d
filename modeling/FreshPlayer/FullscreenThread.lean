import FreshPlayer.Fullscreen

/-! At most one instance is fullscreen, and it has the one window that was not destroyed. -/
namespace FreshPlayer
namespace Fullscreen

namespace Thread

def activation : Thread → Option Activation
  | .nextEvent a | .enterView a | .handleEvent a _ => some a
  | _ => none

/-- The instance that may be fullscreen. -/
def shown (th : Thread) : Option ℕ := th.activation.map (·.ppI)

/-- The instance whose window exists. -/
def owner : Thread → Option ℕ
  | .getBrowserWindow i _ _ => some i
  | th => th.shown

def busy : Thread → Bool
  | .idle | .popped _ => false
  | _ => true

end Thread

/-- An instance stays loaded, and one that was destroyed does not come back. -/
def Lasting (s t : State) : Prop := ∀ i,
  ((s.instances i).instanceLoaded = true → (t.instances i).instanceLoaded = true) ∧
  ((s.instances i).destroyed = true → (t.instances i).destroyed = true)

/-- What the threads other than the fullscreen thread leave alone. -/
structure Aside (s t : State) : Prop where
  thread : t.thread = s.thread
  currently : t.currentlyFullscreen = s.currentlyFullscreen
  windows : t.windows = s.windows
  made : t.made = s.made
  received : t.received = s.received
  handed : t.handed = s.handed
  skipped : t.skipped = s.skipped
  views : t.views = s.views
  instances : ∀ i, (t.instances i).fsWnd = (s.instances i).fsWnd ∧
    (t.instances i).isFullscreenApparent = (s.instances i).isFullscreenApparent ∧
    ((t.instances i).isFullscreen = true → (s.instances i).isFullscreen = true)
  lasting : Lasting s t

structure Shape (s : State) : Prop where
  currently : s.currentlyFullscreen = s.thread.busy
  windows : s.windows = (s.thread.owner.map fun i => (s.instances i).fsWnd).toList
  fullscreen : ∀ i, (s.instances i).isFullscreen = true → s.thread.shown = some i

variable {c : Config} {s t : State}

theorem Lasting.refl (s : State) : Lasting s s := fun _ => ⟨id,id⟩

theorem Lasting.set (s : State) {i : ℕ} {p : Instance}
    (hl : (s.instances i).instanceLoaded = true → p.instanceLoaded = true)
    (hd : (s.instances i).destroyed = true → p.destroyed = true) : Lasting s (s.set i p) := by
  intro j
  by_cases hj : j = i
  · subst hj
    simpa [State.set] using ⟨hl,hd⟩
  · simp [State.set,hj]

theorem Aside.refl (s : State) : Aside s s :=
  ⟨rfl,rfl,rfl,rfl,rfl,rfl,rfl,rfl,fun _ => ⟨rfl,rfl,id⟩,.refl s⟩

theorem Aside.send {u : State} (h : Aside s t) (who : Sender) (ev : XEvent) (hu : u = t.send who ev) :
    Aside s u := by
  subst hu
  unfold State.send
  split_ifs
  · exact { h with }
  · exact { h with }

/-- One instance is changed, none of the fields that matter here set. -/
theorem Aside.set (s : State) {i : ℕ} {p : Instance} (hw : p.fsWnd = (s.instances i).fsWnd)
    (ha : p.isFullscreenApparent = (s.instances i).isFullscreenApparent)
    (hf : p.isFullscreen = true → (s.instances i).isFullscreen = true)
    (hl : (s.instances i).instanceLoaded = true → p.instanceLoaded = true)
    (hd : (s.instances i).destroyed = true → p.destroyed = true) : Aside s (s.set i p) := by
  refine ⟨rfl,rfl,rfl,rfl,rfl,rfl,rfl,rfl,fun j => ?_,.set s hl hd⟩
  by_cases hj : j = i
  · subst hj
    simpa [State.set] using ⟨hw,ha,hf⟩
  · simp [State.set,hj]

theorem aside_proceed (s : State) (k : ℕ) (call : Call) : Aside s (setFullscreenProceed s k call) := by
  cases call with
  | enter i =>
    simp only [setFullscreenProceed]
    split_ifs <;> exact ⟨rfl,rfl,rfl,rfl,rfl,rfl,rfl,rfl,fun _ => ⟨rfl,rfl,id⟩,.refl s⟩
  | leave i =>
    simp only [setFullscreenProceed]
    split_ifs <;> exact ⟨rfl,rfl,rfl,rfl,rfl,rfl,rfl,rfl,fun _ => ⟨rfl,rfl,id⟩,.refl s⟩
  | escape i =>
    have h := Aside.set { s with calls := s.calls.eraseIdx k } (i := i)
      (p := { s.instances i with isFullscreen := false }) rfl rfl (fun h => (by cases h)) id id
    exact Aside.send (s := s) { h with } _ _ rfl

theorem aside_command (c : Config) (s : State) (i : ℕ) (cmd : ℤ) : Aside s (command c s i cmd) := by
  simp only [command]
  split_ifs
  · exact (Aside.refl s).send _ _ rfl
  · exact Aside.refl s

theorem aside_delayThread (hs : delayThread c s = some t) : Aside s t := by
  obtain ⟨d,-,rfl⟩ := Option.map_eq_some_iff.mp hs
  cases d with
  | sleeping i =>
    have h := aside_command c s i fscmdFullscreenWaitIsOver
    exact { h with }
  | waiting i =>
    dsimp only
    split_ifs
    · exact aside_command c s i fscmdVsync
    · exact Aside.refl s
    · exact ⟨rfl,rfl,rfl,rfl,rfl,rfl,rfl,rfl,fun _ => ⟨rfl,rfl,id⟩,.refl s⟩

/-- Any step is one of the fullscreen thread, or the return of a call it waits for, or
leaves aside what these work on. -/
theorem step_cases {a : Action} (hs : step c s a = some t) :
    Aside s t ∨ (∃ w h, a = .thread w h ∧ fullscreenWindowThread c s w h = some t) ∨
    (a = .callReturns ∧ callReturns s = some t) := by
  cases a with
  | setFullscreen i fullscreen =>
    cases hs
    refine .inl ?_
    unfold ppbFlashFullscreenSetFullscreen
    split_ifs
    · exact Aside.refl s
    · exact ⟨rfl,rfl,rfl,rfl,rfl,rfl,rfl,rfl,fun _ => ⟨rfl,rfl,id⟩,.refl s⟩
    · exact ⟨rfl,rfl,rfl,rfl,rfl,rfl,rfl,rfl,fun _ => ⟨rfl,rfl,id⟩,.refl s⟩
  | proceed k =>
    obtain ⟨call,-,rfl⟩ := Option.map_eq_some_iff.mp hs
    exact .inl (aside_proceed s k call)
  | forceredraw2d i =>
    cases hs
    exact .inl ⟨rfl,rfl,rfl,rfl,rfl,rfl,rfl,rfl,fun _ => ⟨rfl,rfl,id⟩,.refl s⟩
  | sendRedraw k =>
    obtain ⟨ev,-,rfl⟩ := Option.map_eq_some_iff.mp hs
    exact .inl (Aside.send (t := { s with redraws := s.redraws.eraseIdx k })
      ⟨rfl,rfl,rfl,rfl,rfl,rfl,rfl,rfl,fun _ => ⟨rfl,rfl,id⟩,.refl s⟩ _ _ rfl)
  | forceredraw3d i =>
    cases hs
    refine .inl ?_
    cases redrawEvent s i with
    | none => exact Aside.refl s
    | some ev => exact (Aside.refl s).send _ _ rfl
  | setWindow i wnd width height =>
    cases hs
    exact .inl (Aside.set s rfl rfl id id id)
  | load i =>
    cases hs
    exact .inl (Aside.set s rfl rfl id (fun _ => rfl) id)
  | destroy i =>
    cases hs
    exact .inl (Aside.set s rfl rfl id id fun _ => rfl)
  | xEvent ev =>
    simp only [step] at hs
    split_ifs at hs
    cases hs
    exact .inl ⟨rfl,rfl,rfl,rfl,rfl,rfl,rfl,rfl,fun _ => ⟨rfl,rfl,id⟩,.refl s⟩
  | thread w h => exact .inr (.inl ⟨w,h,rfl,hs⟩)
  | callReturns => exact .inr (.inr ⟨rfl,hs⟩)
  | delayThread => exact .inl (aside_delayThread hs)

/-- The fields of an activation that few events change. -/
structure Activation.Like (a b : Activation) : Prop where
  ppI : b.ppI = a.ppI
  called : b.calledDidChangeView = a.calledDidChangeView
  queued : b.graphicsExposeEventsInQueue = a.graphicsExposeEventsInQueue
  once : b.graphicsExposeWasAtLeastOnce = a.graphicsExposeWasAtLeastOnce

/-- The event makes the thread notice a frame. -/
def Config.releases (c : Config) : XEvent → Bool
  | .clientMessage _ messageType data =>
    messageType == c.freshwrappercommandAtom && data == fscmdVsync
  | .graphicsExpose _ _ _ => !c.enableVsync
  | _ => false

/-- All that an event taken from the connection can lead to. -/
inductive Reaction (c : Config) (s : State) (a : Activation) : XEvent → State → Prop
  | skip {ev : XEvent} {b : Activation} (h : a.Like b) (hev : ev.isExpose = false) :
      Reaction c s a ev { s with thread := .nextEvent b }
  | hand {ev : XEvent} {b : Activation} (h : a.Like b) (hev : ev.isExpose = false) :
      Reaction c s a ev { s with thread := .handleEvent b ev }
  | enter {ev : XEvent} {b : Activation} (h : a.Like b) (hev : ev.isExpose = false)
      (hc : a.calledDidChangeView = false) : Reaction c s a ev { s with thread := .enterView b }
  | vsync {ev : XEvent} {b : Activation} (hi : b.ppI = a.ppI)
      (hc : b.calledDidChangeView = a.calledDidChangeView)
      (hq : a.graphicsExposeEventsInQueue = b.graphicsExposeEventsInQueue+1)
      (hev : ev.isExpose = false) (hr : c.releases ev = true) :
      Reaction c s a ev
        { s with thread := .handleEvent b (craftGraphicsexposeEvent (s.instances a.ppI)) }
  | resize {ev : XEvent} (w h : ℤ) (hev : ev.isExpose = false) : Reaction c s a ev
      { s.set a.ppI { s.instances a.ppI with fsWidthCurrent := w, fsHeightCurrent := h } with
        thread := .nextEvent a }
  | count {ev : XEvent} (hev : ev.isExpose = true) (hv : c.enableVsync = true) : Reaction c s a ev
      { s with
        received := s.received+1
        thread := .nextEvent
          { a with graphicsExposeEventsInQueue := a.graphicsExposeEventsInQueue+1 } }
  | draw {ev : XEvent} (hev : ev.isExpose = true) (hv : c.enableVsync = false) :
      Reaction c s a ev
      { s with
        received := s.received+1
        thread := .handleEvent { a with graphicsExposeWasAtLeastOnce := true } ev }

theorem Activation.Like.refl (a : Activation) : a.Like a := ⟨rfl,rfl,rfl,rfl⟩

theorem like_quit (a : Activation) (p : Prop) [Decidable p] :
    a.Like (if p then { a with quitMessageReceived := true } else a) := by
  split_ifs <;> exact ⟨rfl,rfl,rfl,rfl⟩

theorem handleXEvent_reaction (c : Config) (s : State) (a : Activation) (ev : XEvent) :
    Reaction c s a ev (handleXEvent c s a ev) := by
  cases ev with
  | keyPress w escape => exact .hand (like_quit a _) rfl
  | clientMessage w ty data =>
    have hlike := like_quit a (data = c.wmDeleteWindowAtom)
    simp only [handleXEvent]
    generalize (if data = c.wmDeleteWindowAtom then { a with quitMessageReceived := true } else a) = b
      at hlike
    split_ifs with hty henter hsync
    · exact .enter hlike rfl (by simpa [hlike.called] using henter.2)
    · have hq := hlike.queued
      have hi : s.instances b.ppI = s.instances a.ppI := congrArg s.instances hlike.ppI
      rw [hi]
      refine .vsync hlike.ppI hlike.called ?_ rfl (by simp [Config.releases,hty,hsync.1])
      have := hsync.2
      dsimp only
      omega
    · exact .skip hlike rfl
    · exact .skip hlike rfl
  | configureNotify w width height => exact .resize width height rfl
  | windowNotify w => exact .skip (.refl a) rfl
  | graphicsExpose w width height =>
    simp only [handleXEvent]
    split_ifs with hv
    · exact .count rfl hv
    · exact .draw rfl (by simpa using hv)
  | input w => exact .hand (.refl a) rfl

/-- All that the fullscreen thread does by itself. -/
inductive Move (c : Config) (s : State) (width height : ℤ) : State → Prop
  | pop {i : ℕ} {rest : List ℕ} (ht : s.thread = .idle) :
      Move c s width height { s with fullscreenTransitionQueue := rest, thread := .popped i }
  | openWindow {i : ℕ} (ht : s.thread = .popped i) : Move c s width height
      { s.set i { s.instances i with fsWnd := s.made } with
        currentlyFullscreen := true, runDelayThread := true, delay := some (.sleeping i)
        made := s.made+1, windows := s.made::s.windows
        thread := .getBrowserWindow i width height }
  | quit {a : Activation} (ht : s.thread = .nextEvent a)
      (hf : a.graphicsExposeWasAtLeastOnce = true) :
      Move c s width height (quitAndDestroyFsWnd s a)
  | react {a : Activation} {ev : XEvent} {rest : List XEvent} {t : State}
      (ht : s.thread = .nextEvent a) (hev : s.events = ev::rest)
      (hr : Reaction c { s with events := rest } a ev t) : Move c s width height t
  | drainOne {a : Activation} (ht : s.thread = .drain a)
      (hq : 0 < a.graphicsExposeEventsInQueue) : Move c s width height
      { s with thread := .drainEvent a (.graphicsExpose (s.instances a.ppI).wnd
          (s.instances a.ppI).width (s.instances a.ppI).height) }
  | drained {a : Activation} (ht : s.thread = .drain a)
      (hq : a.graphicsExposeEventsInQueue = 0) :
      Move c s width height { s with runDelayThread := false, thread := .join }
  | joined (ht : s.thread = .join) :
      Move c s width height { s with currentlyFullscreen := false, thread := .idle }

theorem thread_move {w h : ℤ} (ht : fullscreenWindowThread c s w h = some t) :
    Move c s w h t := by
  unfold fullscreenWindowThread at ht
  split at ht
  · rename_i hth
    split at ht <;> cases ht
    exact .pop hth
  · rename_i i hth
    cases ht
    exact .openWindow hth
  · rename_i a hth
    split at ht
    · rename_i hquit
      cases ht
      exact .quit hth hquit.2
    · split at ht <;> cases ht
      rename_i ev rest hev
      exact .react hth hev (handleXEvent_reaction c _ a ev)
  · rename_i a hth
    split at ht <;> cases ht <;> rename_i hq
    · exact .drainOne hth hq
    · exact .drained hth (Nat.eq_zero_of_not_pos hq)
  · rename_i hth
    split at ht <;> cases ht
    exact .joined hth
  all_goals cases ht

/-- All that comes of the calls the fullscreen thread waits for. -/
inductive Returned (s : State) : State → Prop
  | browserWindow {i : ℕ} {width height : ℤ} (ht : s.thread = .getBrowserWindow i width height) :
      Returned s { s.set i { s.instances i with
          isFullscreen := true, fsWidthCurrent := width, fsHeightCurrent := height } with
        thread := .nextEvent ⟨i,false,0,false,false⟩ }
  | entered {a : Activation} (ht : s.thread = .enterView a) :
      Returned s { callDidChangeViewComt s a.ppI true with
        thread := .handleEvent { a with calledDidChangeView := true }
          (craftGraphicsexposeEvent ((callDidChangeViewComt s a.ppI true).instances a.ppI)) }
  | handled {a : Activation} {ev : XEvent} (ht : s.thread = .handleEvent a ev) :
      Returned s { handleEventPtac s a.ppI ev with thread := .nextEvent a }
  | left {a : Activation} (ht : s.thread = .leaveView a) :
      Returned s { callDidChangeViewComt s a.ppI false with thread := .drain a }
  | drained {a : Activation} {ev : XEvent} (ht : s.thread = .drainEvent a ev) :
      Returned s { handleEventPtac s a.ppI ev with
        thread := .drain
          { a with graphicsExposeEventsInQueue := a.graphicsExposeEventsInQueue-1 } }

theorem callReturns_returned (ht : callReturns s = some t) : Returned s t := by
  unfold callReturns at ht
  split at ht
  · rename_i hth
    cases ht
    exact .browserWindow hth
  · rename_i hth
    cases ht
    exact .entered hth
  · rename_i hth
    cases ht
    exact .handled hth
  · rename_i hth
    cases ht
    exact .left hth
  · rename_i hth
    cases ht
    exact .drained hth
  all_goals cases ht

theorem Reaction.lost {a : Activation} {ev : XEvent} (h : Reaction c s a ev t) : t.lost = s.lost := by
  cases h <;> rfl

theorem Reaction.lasting {a : Activation} {ev : XEvent} (h : Reaction c s a ev t) :
    Lasting s t := by
  cases h with
  | resize w k _ => exact .set s id id
  | _ => exact .refl s

theorem Reaction.shape {a : Activation} {ev : XEvent} (h : Reaction c s a ev t) (hs : Shape s)
    (ht : s.thread = .nextEvent a) : Shape t := by
  obtain ⟨hc,hw,hf⟩ := hs
  rw [ht] at hc hw hf
  cases h with
  | skip h _ => exact ⟨hc,by rw [hw]; simp [Thread.owner,Thread.shown,Thread.activation,h.ppI],
      fun i hi => by rw [← hf i hi]; simp [Thread.shown,Thread.activation,h.ppI]⟩
  | hand h _ => exact ⟨hc,by rw [hw]; simp [Thread.owner,Thread.shown,Thread.activation,h.ppI],
      fun i hi => by rw [← hf i hi]; simp [Thread.shown,Thread.activation,h.ppI]⟩
  | enter h _ _ => exact ⟨hc,by rw [hw]; simp [Thread.owner,Thread.shown,Thread.activation,h.ppI],
      fun i hi => by rw [← hf i hi]; simp [Thread.shown,Thread.activation,h.ppI]⟩
  | vsync h _ _ _ _ => exact ⟨hc,by rw [hw]; simp [Thread.owner,Thread.shown,Thread.activation,h],
      fun i hi => by rw [← hf i hi]; simp [Thread.shown,Thread.activation,h]⟩
  | resize w h _ =>
    refine ⟨hc,?_,fun i hi => hf i ?_⟩
    · rw [State.set]
      simp [hw,Thread.owner,Thread.shown,Thread.activation]
    · by_cases hia : i = a.ppI
      · subst hia
        simpa [State.set] using hi
      · simpa [State.set,hia] using hi
  | count _ _ => exact ⟨hc,hw,hf⟩
  | draw _ _ => exact ⟨hc,hw,hf⟩

theorem Shape.aside (h : Shape s) (ha : Aside s t) : Shape t where
  currently := by rw [ha.currently,ha.thread]; exact h.currently
  windows := by
    rw [ha.windows,ha.thread,h.windows]
    cases s.thread.owner with
    | none => rfl
    | some i => simp [(ha.instances i).1]
  fullscreen i hi := by rw [ha.thread]; exact h.fullscreen i ((ha.instances i).2.2 hi)

/-- Without an activation no instance is fullscreen. -/
theorem Shape.windowed (h : Shape s) (ht : s.thread.shown = none) (i : ℕ) :
    (s.instances i).isFullscreen = false := by
  by_contra hi
  have := h.fullscreen i (by simpa using hi)
  rw [ht] at this
  cases this

theorem Shape.thread {w h : ℤ} (hs : Shape s) (ht : fullscreenWindowThread c s w h = some t) :
    Shape t ∧ t.lost = s.lost := by
  obtain ⟨hc,hw,hf⟩ := id hs
  cases thread_move ht with
  | pop hth =>
    have hwin := hs.windowed (by rw [hth]; rfl)
    rw [hth] at hc hw
    exact ⟨⟨hc,hw,fun i hi => by simp [hwin] at hi⟩,rfl⟩
  | @openWindow i hth =>
    have hwin := hs.windowed (by rw [hth]; rfl)
    rw [hth] at hw
    refine ⟨⟨rfl,?_,fun j hj => ?_⟩,rfl⟩
    · simp [State.set,hw,Thread.owner,Thread.shown,Thread.activation]
    · by_cases hji : j = i
      · subst hji
        simp [State.set,hwin] at hj
      · simp [State.set,hji,hwin] at hj
  | @quit a hth _ =>
    rw [hth] at hc hw hf
    refine ⟨⟨hc,?_,fun j hj => ?_⟩,rfl⟩
    · simp [quitAndDestroyFsWnd,State.set,hw,Thread.owner,Thread.shown,Thread.activation]
    · by_cases hj' : j = a.ppI
      · subst hj'
        simp [quitAndDestroyFsWnd,State.set] at hj
      · have hfj := hf j (by simpa [quitAndDestroyFsWnd,State.set,hj'] using hj)
        exact absurd (Option.some.inj hfj).symm hj'
  | react hth _ hr => exact ⟨hr.shape ⟨hs.currently,hs.windows,hs.fullscreen⟩ hth,hr.lost⟩
  | drainOne hth _ =>
    have hwin := hs.windowed (by rw [hth]; rfl)
    rw [hth] at hc hw
    exact ⟨⟨hc,hw,fun i hi => by simp [hwin] at hi⟩,rfl⟩
  | drained hth _ =>
    have hwin := hs.windowed (by rw [hth]; rfl)
    rw [hth] at hc hw
    exact ⟨⟨hc,hw,fun i hi => by simp [hwin] at hi⟩,rfl⟩
  | joined hth =>
    have hwin := hs.windowed (by rw [hth]; rfl)
    rw [hth] at hw
    exact ⟨⟨rfl,hw,fun i hi => by simp [hwin] at hi⟩,rfl⟩

/-- The callback of a view changes sizes, what is apparent, and the views. -/
theorem callDidChangeViewComt_instances (s : State) (i : ℕ) (b : Bool) (j : ℕ) :
    ((callDidChangeViewComt s i b).instances j).fsWnd = (s.instances j).fsWnd ∧
    ((callDidChangeViewComt s i b).instances j).isFullscreen = (s.instances j).isFullscreen := by
  by_cases hj : j = i
  · subst hj
    simp only [callDidChangeViewComt,State.set,Function.update_self]
    split_ifs <;> exact ⟨rfl,rfl⟩
  · simp [callDidChangeViewComt,State.set,hj]

/-- An event handed over changes nothing that the threads work on. -/
theorem handleEventPtac_eq (s : State) (i : ℕ) (ev : XEvent) : ∃ handed skipped,
    handleEventPtac s i ev = { s with handed := handed, skipped := skipped } := by
  simp only [handleEventPtac]
  split_ifs
  · exact ⟨s.handed,_,rfl⟩
  · exact ⟨_,s.skipped,rfl⟩

theorem callDidChangeViewComt_lasting (s : State) (i : ℕ) (b : Bool) :
    Lasting s (callDidChangeViewComt s i b) := by
  simp only [callDidChangeViewComt]
  split_ifs <;> exact .set s id id

theorem Shape.callReturns (hs : Shape s) (ht : callReturns s = some t) :
    Shape t ∧ t.lost = s.lost := by
  obtain ⟨hc,hw,hf⟩ := id hs
  cases callReturns_returned ht with
  | @browserWindow i width height hth =>
    rw [hth] at hc hw
    have hwin := hs.windowed (by rw [hth]; rfl)
    refine ⟨⟨hc,?_,fun j hj => ?_⟩,rfl⟩
    · simp [State.set,hw,Thread.owner,Thread.shown,Thread.activation]
    · by_cases hji : j = i
      · subst hji
        rfl
      · simp [State.set,hji,hwin] at hj
  | @entered a hth =>
    rw [hth] at hc hw hf
    have hi := callDidChangeViewComt_instances s a.ppI true
    refine ⟨⟨hc,?_,fun j hj => hf j ((hi j).2 ▸ hj)⟩,rfl⟩
    refine hw.trans ?_
    simp [Thread.owner,Thread.shown,Thread.activation,(hi a.ppI).1]
  | @handled a ev hth =>
    obtain ⟨handed,skipped,heq⟩ := handleEventPtac_eq s a.ppI ev
    rw [hth] at hc hw hf
    rw [heq]
    exact ⟨⟨hc,hw,hf⟩,rfl⟩
  | @left a hth =>
    have hnone := hs.windowed (by rw [hth]; rfl)
    rw [hth] at hc hw
    have hi := callDidChangeViewComt_instances s a.ppI false
    refine ⟨⟨hc,hw,fun j hj => ?_⟩,rfl⟩
    rw [(hi j).2,hnone j] at hj
    cases hj
  | @drained a ev hth =>
    obtain ⟨handed,skipped,heq⟩ := handleEventPtac_eq s a.ppI ev
    have hnone := hs.windowed (by rw [hth]; rfl)
    rw [hth] at hc hw
    rw [heq]
    exact ⟨⟨hc,hw,fun j hj => by simp [hnone] at hj⟩,rfl⟩

theorem thread_lasting {w h : ℤ} (ht : fullscreenWindowThread c s w h = some t) :
    Lasting s t := by
  cases thread_move ht with
  | openWindow _ => exact .set s id id
  | quit _ _ => exact .set s id id
  | react _ _ hr => exact hr.lasting
  | _ => exact .refl s

theorem callReturns_lasting (ht : callReturns s = some t) : Lasting s t := by
  cases callReturns_returned ht with
  | browserWindow _ => exact .set s id id
  | @entered a _ => exact callDidChangeViewComt_lasting s a.ppI true
  | @left a _ => exact callDidChangeViewComt_lasting s a.ppI false
  | @handled a ev _ | @drained a ev _ =>
    obtain ⟨handed,skipped,heq⟩ := handleEventPtac_eq s a.ppI ev
    rw [heq]
    exact .refl s

theorem Shape.step {a : Action} (h : Shape s) (hs : step c s a = some t) : Shape t := by
  obtain ha | ⟨_,_,-,ht⟩ | ⟨-,ht⟩ := step_cases hs
  · exact h.aside ha
  · exact (h.thread ht).1
  · exact (h.callReturns ht).1

theorem created_shape : Shape State.create := ⟨rfl,rfl,fun _ h => (by cases h)⟩

theorem shape_of_reachable (h : (machine c).Reachable s) : Shape s :=
  h.invariant Shape created_shape fun _ _ _ hi _ ht => hi.step ht

theorem Shape.window_mem (h : Shape s) {i : ℕ} (hi : (s.instances i).isFullscreen = true) :
    (s.instances i).fsWnd ∈ s.windows := by
  have hshown := h.fullscreen i hi
  have howner : s.thread.owner = some i := by
    unfold Thread.owner
    split
    · rename_i hth
      rw [hth] at hshown
      cases hshown
    · exact hshown
  rw [h.windows,howner]
  exact List.mem_singleton_self _

/-- Who may send to a window that is gone. -/
def Sender.late (who : Sender) : Prop := who = .setFullscreen ∨ who = .graphics2d

theorem lost_send {who : Sender} {ev : XEvent} (h : ∀ x ∈ s.lost, x.late)
    (hev : ev.window ∈ s.windows ∨ who.late) : ∀ x ∈ (s.send who ev).lost, x.late := by
  unfold State.send
  split_ifs with hw
  · exact h
  · intro x hx
    obtain hx | hx := List.mem_append.mp hx
    · exact h x hx
    · exact List.mem_singleton.mp hx ▸ hev.resolve_left hw

theorem lost_command (hs : Shape s) (h : ∀ x ∈ s.lost, x.late) (i : ℕ) (cmd : ℤ) :
    ∀ x ∈ (command c s i cmd).lost, x.late := by
  simp only [command]
  split_ifs with hi
  · exact lost_send h (.inl (hs.window_mem hi))
  · exact h

theorem lost_step {a : Action} (hs : Shape s) (h : ∀ x ∈ s.lost, x.late)
    (ht : step c s a = some t) : ∀ x ∈ t.lost, x.late := by
  cases a with
  | setFullscreen i fullscreen =>
    cases ht
    unfold ppbFlashFullscreenSetFullscreen
    split_ifs <;> exact h
  | proceed k =>
    obtain ⟨call,-,rfl⟩ := Option.map_eq_some_iff.mp ht
    cases call with
    | enter i => simp only [setFullscreenProceed]; split_ifs <;> exact h
    | leave i => simp only [setFullscreenProceed]; split_ifs <;> exact h
    | escape i =>
      let p := { s.instances i with isFullscreen := false }
      exact lost_send (s := State.set { s with calls := s.calls.eraseIdx k } i p) h (.inr (.inl rfl))
  | forceredraw2d i =>
    cases ht
    exact h
  | sendRedraw k =>
    obtain ⟨ev,-,rfl⟩ := Option.map_eq_some_iff.mp ht
    exact lost_send (s := { s with redraws := s.redraws.eraseIdx k }) h (.inr (.inr rfl))
  | forceredraw3d i =>
    cases ht
    unfold redrawEvent
    dsimp only
    split_ifs with hi
    · exact lost_send h (.inl (hs.window_mem (Bool.and_eq_true_iff.mp hi).2))
    · exact h
  | setWindow i wnd width height =>
    cases ht
    exact h
  | load i =>
    cases ht
    exact h
  | destroy i =>
    cases ht
    exact h
  | xEvent ev =>
    simp only [step] at ht
    split_ifs at ht
    cases ht
    exact h
  | thread w h' =>
    rw [(hs.thread ht).2]
    exact h
  | callReturns =>
    rw [(hs.callReturns ht).2]
    exact h
  | delayThread =>
    obtain ⟨d,-,rfl⟩ := Option.map_eq_some_iff.mp ht
    cases d with
    | sleeping i => exact lost_command hs h i _
    | waiting i =>
      dsimp only
      split_ifs
      · exact lost_command hs h i _
      · exact h
      · exact h

/-- An instance is shown until it drew a frame, and leaves fullscreen mode. Its second frame
is drawn behind the loop. -/
def oneRound : List Action :=
  [.load 0,.setFullscreen 0 true,.proceed 0,.thread 10 10,.thread 10 10,.callReturns,.delayThread,
    .thread 10 10,.callReturns,.callReturns,.forceredraw3d 0,.thread 10 10,.delayThread,
    .forceredraw3d 0,.thread 10 10,.callReturns,.thread 10 10,.setFullscreen 0 false,.proceed 0,
    .proceed 0,.thread 10 10,.callReturns,.thread 10 10,.callReturns,.thread 10 10,.callReturns,
    .thread 10 10,.delayThread,.thread 10 10]

end Fullscreen
end FreshPlayer
