import FreshPlayer.FullscreenThread

/-! The expose events of fullscreen mode, on which frames wait: none is lost by the thread that
takes them from its connection as long as the instance is there, and without them it does not
give its window up. -/
namespace FreshPlayer
namespace Fullscreen

/-- Expose events taken, or made up, that the instance was not given yet. -/
def Thread.held : Thread → ℕ
  | .nextEvent a | .enterView a | .leaveView a | .drain a | .drainEvent a _ =>
    a.graphicsExposeEventsInQueue
  | .handleEvent a ev => a.graphicsExposeEventsInQueue + if ev.isExpose then 1 else 0
  | .idle | .popped _ | .getBrowserWindow _ _ _ | .join => 0

def exposesHanded (s : State) : ℕ := s.handed.countP (·.ev.isExpose)

def exposesSkipped (s : State) : ℕ := s.skipped.countP (·.2.isExpose)

/-- Calls for a view of fullscreen mode, each of which had an expose event made up. -/
def entered (s : State) : ℕ := s.views.countP (·.fullscreen)

structure Exposes (c : Config) (s : State) : Prop where
  balance : exposesHanded s + exposesSkipped s + s.thread.held = s.received + entered s
  alone : ∀ x ∈ s.skipped, (s.instances x.1).destroyed = true
  draining : ∀ a ev, s.thread = .drainEvent a ev →
    ev.isExpose = true ∧ 0 < a.graphicsExposeEventsInQueue
  aimed : c.enableVsync = true → ∀ a ev, s.thread = .handleEvent a ev → ev.isExpose = true →
    ev.window = (s.instances a.ppI).fsWnd
  heeded : c.enableVsync = true → ∀ x ∈ s.handed, x.ev.isExpose = true → x.heeded = true

variable {c : Config} {s t u : State}

theorem Exposes.aside (h : Exposes c s) (ha : Aside s t) : Exposes c t where
  balance := by
    rw [exposesHanded,exposesSkipped,entered,ha.handed,ha.skipped,ha.thread,ha.received,ha.views]
    exact h.balance
  alone x hx := (ha.lasting x.1).2 (h.alone x (ha.skipped ▸ hx))
  draining a ev ht := h.draining a ev (ha.thread ▸ ht)
  aimed hv a ev ht hev := by
    rw [(ha.instances a.ppI).1]
    exact h.aimed hv a ev (ha.thread ▸ ht) hev
  heeded hv := by rw [ha.handed]; exact h.heeded hv

/-- Nothing is handed over while the thread is on its own. -/
theorem Exposes.move (h : Exposes c s) (hn : t.handed = s.handed) (hk : t.skipped = s.skipped)
    (hv : t.views = s.views) (hl : Lasting s t)
    (hheld : t.thread.held + s.received = t.received + s.thread.held)
    (hd : ∀ a ev, t.thread = .drainEvent a ev → ev.isExpose = true ∧ 0 < a.graphicsExposeEventsInQueue)
    (haim : c.enableVsync = true → ∀ a ev, t.thread = .handleEvent a ev → ev.isExpose = true →
      ev.window = (t.instances a.ppI).fsWnd) : Exposes c t where
  balance := by
    have := h.balance
    rw [exposesHanded,exposesSkipped,entered,hn,hk,hv]
    rw [exposesHanded,exposesSkipped,entered] at this
    omega
  alone x hx := (hl x.1).2 (h.alone x (hk ▸ hx))
  draining := hd
  aimed := haim
  heeded hc := by rw [hn]; exact h.heeded hc

theorem Exposes.reaction {a : Activation} {ev : XEvent} (h : Exposes c s)
    (ht : s.thread = .nextEvent a) (hr : Reaction c s a ev t) : Exposes c t := by
  have hheld : s.thread.held = a.graphicsExposeEventsInQueue := by rw [ht]; rfl
  have hl := hr.lasting
  cases hr with
  | skip hlike hev =>
    refine h.move rfl rfl rfl hl ?_ (fun _ _ h => (by cases h)) fun _ _ _ h => (by cases h)
    rw [hheld]
    simp only [Thread.held,hlike.queued]
    omega
  | hand hlike hev =>
    refine h.move rfl rfl rfl hl ?_ (fun _ _ h => (by cases h)) fun _ _ _ h he => ?_
    · rw [hheld]
      simp only [Thread.held,hlike.queued,hev,Bool.false_eq_true,if_false]
      omega
    · cases h
      rw [hev] at he
      cases he
  | enter hlike hev hc =>
    refine h.move rfl rfl rfl hl ?_ (fun _ _ h => (by cases h)) fun _ _ _ h => (by cases h)
    rw [hheld]
    simp only [Thread.held,hlike.queued]
    omega
  | vsync hi hc hq hev hrel =>
    refine h.move rfl rfl rfl hl ?_ (fun _ _ h => (by cases h)) fun _ _ _ h _ => ?_
    · rw [hheld]
      simp only [Thread.held,hq,craftGraphicsexposeEvent,XEvent.isExpose,if_true]
      omega
    · cases h
      rw [hi]
      rfl
  | resize w k hev =>
    refine h.move rfl rfl rfl hl ?_ (fun _ _ h => (by cases h)) fun _ _ _ h => (by cases h)
    rw [hheld]
    exact Nat.add_comm _ _
  | count hev hv =>
    refine h.move rfl rfl rfl hl ?_ (fun _ _ h => (by cases h)) fun _ _ _ h => (by cases h)
    rw [hheld]
    simp only [Thread.held]
    omega
  | draw hev hv =>
    refine h.move rfl rfl rfl hl ?_ (fun _ _ h => (by cases h)) fun hvs => ?_
    · rw [hheld]
      simp only [Thread.held,hev,if_true]
      omega
    · rw [hv] at hvs
      cases hvs

theorem Exposes.thread {w k : ℤ} (h : Exposes c s) (ht : fullscreenWindowThread c s w k = some t) :
    Exposes c t := by
  have hl := thread_lasting ht
  cases thread_move ht with
  | @react _ _ rest _ hth _ hr =>
    have hrest : Exposes c { s with events := rest } := { h with }
    exact hrest.reaction hth hr
  | drainOne hth hq =>
    exact h.move rfl rfl rfl hl (by rw [hth]; exact Nat.add_comm _ _)
      (fun _ _ h => by cases h; exact ⟨rfl,hq⟩) fun _ _ _ h => (by cases h)
  | drained hth hq =>
    refine h.move rfl rfl rfl hl ?_ (fun _ _ h => (by cases h)) fun _ _ _ h => (by cases h)
    rw [hth]
    simp only [Thread.held]
    omega
  | pop hth | openWindow hth | quit hth _ | joined hth =>
    exact h.move rfl rfl rfl hl (by rw [hth]; exact Nat.add_comm _ _) (fun _ _ h => (by cases h))
      fun _ _ _ h => (by cases h)

/-- An event is handed over, or not if there is no instance, and the thread goes on with what it
still has. -/
theorem Exposes.hand {i : ℕ} {ev : XEvent} {th : Thread} (h : Exposes c s)
    (hheld : th.held + (if ev.isExpose then 1 else 0) = s.thread.held)
    (hth : (∃ a, th = .nextEvent a) ∨ ∃ a, th = .drain a)
    (haim : c.enableVsync = true → ev.isExpose = true →
      (s.instances i).isFullscreen = false ∨ (s.instances i).fsWnd = ev.window) :
    Exposes c { handleEventPtac s i ev with thread := th } := by
  have hb := h.balance
  have hdraining : ∀ a ev', th ≠ .drainEvent a ev' := by
    obtain ⟨b,rfl⟩ | ⟨b,rfl⟩ := hth <;> exact fun _ _ h' => (by cases h')
  have haimed : ∀ a ev', th ≠ .handleEvent a ev' := by
    obtain ⟨b,rfl⟩ | ⟨b,rfl⟩ := hth <;> exact fun _ _ h' => (by cases h')
  simp only [exposesHanded,exposesSkipped,entered] at hb
  simp only [handleEventPtac]
  split_ifs with hd
  · refine ⟨?_,fun x hx => ?_,fun a ev' h' => absurd h' (hdraining a ev'),
      fun _ a ev' h' => absurd h' (haimed a ev'),h.heeded⟩
    · simp only [exposesHanded,exposesSkipped,entered,List.countP_append,List.countP_singleton]
      omega
    · obtain hx | hx := List.mem_append.mp hx
      · exact h.alone x hx
      · cases List.mem_singleton.mp hx
        exact hd
  · refine ⟨?_,h.alone,fun a ev' h' => absurd h' (hdraining a ev'),
      fun _ a ev' h' => absurd h' (haimed a ev'),fun hv x hx hex => ?_⟩
    · simp only [exposesHanded,exposesSkipped,entered,List.countP_append,List.countP_singleton]
      omega
    · obtain hx | hx := List.mem_append.mp hx
      · exact h.heeded hv x hx hex
      · cases List.mem_singleton.mp hx
        obtain hf | hf := haim hv hex <;> simp [hf]

theorem Exposes.callReturns (h : Exposes c s) (hs : Shape s) (ht : callReturns s = some t) :
    Exposes c t := by
  have hl := callReturns_lasting ht
  cases callReturns_returned ht with
  | browserWindow hth =>
    exact h.move rfl rfl rfl hl (by rw [hth]; exact Nat.add_comm _ _) (fun _ _ h => (by cases h))
      fun _ _ _ h => (by cases h)
  | entered hth =>
    have hb := h.balance
    rw [hth] at hb
    refine ⟨?_,fun x hx => (hl x.1).2 (h.alone x hx),fun _ _ h => (by cases h),
      fun _ _ _ h _ => (by cases h; rfl),h.heeded⟩
    simp only [exposesHanded,exposesSkipped,entered,callDidChangeViewComt,State.set,
      List.countP_append,List.countP_singleton,Thread.held,craftGraphicsexposeEvent,
      XEvent.isExpose,if_true] at hb ⊢
    omega
  | @handled a ev hth =>
    refine h.hand (by rw [hth]; rfl) (.inl ⟨a,rfl⟩) fun hv hev => ?_
    exact .inr (h.aimed hv a ev hth hev).symm
  | left hth =>
    have hb := h.balance
    rw [hth] at hb
    refine ⟨?_,fun x hx => (hl x.1).2 (h.alone x hx),fun _ _ h => (by cases h),
      fun _ _ _ h => (by cases h),h.heeded⟩
    simp only [exposesHanded,exposesSkipped,entered,callDidChangeViewComt,State.set,
      List.countP_append,List.countP_singleton,Thread.held,Bool.false_eq_true,if_false] at hb ⊢
    omega
  | @drained a ev hth =>
    obtain ⟨hev,hq⟩ := h.draining a ev hth
    have hnone := hs.windowed (by rw [hth]; rfl)
    refine h.hand ?_ (.inr ⟨_,rfl⟩) fun _ _ => .inl (hnone a.ppI)
    rw [hth,if_pos hev]
    simp only [Thread.held]
    omega

theorem created_exposes (c : Config) : Exposes c State.create :=
  ⟨rfl,fun _ h => absurd h List.not_mem_nil,fun _ _ h => (by cases h),
    fun _ _ _ h => (by cases h),fun _ _ h => absurd h List.not_mem_nil⟩

/-- An activation with the window `w` that showed no frame, and no instance that would be
sent one. -/
structure Stuck (c : Config) (w : ℕ) (requested : List ℕ) (s : State) : Prop where
  frameless : ∃ a, s.thread.activation = some a ∧ a.graphicsExposeWasAtLeastOnce = false
  windowed : ∀ i, (s.instances i).isFullscreen = false
  events : ∀ ev ∈ s.events, c.releases ev = false
  redraws : ∀ ev ∈ s.redraws, c.releases ev = true → ev.window ∉ s.windows
  currently : s.currentlyFullscreen = true
  windows : s.windows = [w]
  requested : s.requested = requested

/-- The server makes up neither expose events nor commands. -/
def Quiet (c : Config) (_ : State) : Action → Prop
  | .xEvent ev => c.releases ev = false
  | _ => True

instance (c : Config) (s : State) (a : Action) : Decidable (Quiet c s a) := by
  unfold Quiet
  split <;> infer_instance

variable {w : ℕ} {rs : List ℕ}

theorem Stuck.redrawEvent (h : Stuck c w rs s) (i : ℕ) : redrawEvent s i = none := by
  simp [Fullscreen.redrawEvent,h.windowed i]

theorem Stuck.command (h : Stuck c w rs s) (i : ℕ) (cmd : ℤ) : command c s i cmd = s := by
  simp [Fullscreen.command,h.windowed i]

theorem Stuck.send {who : Sender} {ev : XEvent} (h : Stuck c w rs s)
    (hev : ev.window ∈ s.windows → c.releases ev = false) : Stuck c w rs (s.send who ev) := by
  unfold State.send
  split_ifs with hw
  · refine { h with events := fun x hx => ?_ }
    obtain hx | hx := List.mem_append.mp hx
    · exact h.events x hx
    · exact List.mem_singleton.mp hx ▸ hev hw
  · exact { h with }

theorem Stuck.set {i : ℕ} {p : Instance} (h : Stuck c w rs s) (hp : p.isFullscreen = false) :
    Stuck c w rs (s.set i p) := by
  refine { h with windowed := fun j => ?_ }
  by_cases hj : j = i
  · subst hj
    simpa [State.set] using hp
  · simpa [State.set,hj] using h.windowed j

theorem Stuck.proceed (h : Stuck c w rs s) (k : ℕ) (call : Call) :
    Stuck c w rs (setFullscreenProceed s k call) := by
  cases call with
  | enter i =>
    simp only [setFullscreenProceed,h.currently,if_true]
    exact { h with currently := rfl }
  | leave i =>
    simp only [setFullscreenProceed,h.currently,if_true]
    exact { h with currently := rfl }
  | escape i =>
    have hcalls : Stuck c w rs { s with calls := s.calls.eraseIdx k } := { h with }
    exact (hcalls.set (p := { s.instances i with isFullscreen := false }) rfl).send fun _ => rfl

theorem Stuck.reaction {a : Activation} {ev : XEvent} (h : Stuck c w rs s)
    (ht : s.thread = .nextEvent a) (hev : c.releases ev = false) (hr : Reaction c s a ev t) :
    Stuck c w rs t := by
  obtain ⟨b,hb,hf⟩ := h.frameless
  rw [ht] at hb
  cases hb
  cases hr with
  | skip hlike _ => exact { h with frameless := ⟨_,rfl,hlike.once.trans hf⟩ }
  | hand hlike _ => exact { h with frameless := ⟨_,rfl,hlike.once.trans hf⟩ }
  | enter hlike _ _ => exact { h with frameless := ⟨_,rfl,hlike.once.trans hf⟩ }
  | vsync _ _ _ _ hrel =>
    rw [hev] at hrel
    cases hrel
  | resize x y _ =>
    have hset := h.set (i := a.ppI)
      (p := { s.instances a.ppI with fsWidthCurrent := x, fsHeightCurrent := y }) (h.windowed a.ppI)
    exact { hset with frameless := ⟨a,rfl,hf⟩ }
  | count _ _ => exact { h with frameless := ⟨_,rfl,hf⟩ }
  | draw hexp hv =>
    cases ev with
    | graphicsExpose _ _ _ => simp [Config.releases,hv] at hev
    | _ => cases hexp

/-- The fullscreen thread can but take an event from its connection. -/
theorem Stuck.thread {x y : ℤ} (h : Stuck c w rs s) (ht : fullscreenWindowThread c s x y = some t) :
    Stuck c w rs t := by
  obtain ⟨a,ha,hf⟩ := h.frameless
  cases thread_move ht with
  | @react _ ev rest _ hth hev hr =>
    have hrest : Stuck c w rs { s with events := rest } :=
      { h with events := fun x hx => h.events x (by rw [hev]; exact List.mem_cons_of_mem ev hx) }
    exact hrest.reaction hth (h.events ev (by rw [hev]; exact List.mem_cons_self)) hr
  | quit hth honce =>
    rw [hth] at ha
    cases ha
    rw [hf] at honce
    cases honce
  | pop hth | openWindow hth | drainOne hth _ | drained hth _ | joined hth =>
    rw [hth] at ha
    cases ha

theorem Stuck.callReturns (h : Stuck c w rs s) (ht : callReturns s = some t) : Stuck c w rs t := by
  obtain ⟨a,ha,hf⟩ := h.frameless
  cases callReturns_returned ht with
  | entered hth =>
    rw [hth] at ha
    cases ha
    have hi := callDidChangeViewComt_instances s a.ppI true
    exact { h with frameless := ⟨_,rfl,hf⟩, windowed := fun j => (hi j).2.trans (h.windowed j) }
  | @handled _ ev hth =>
    rw [hth] at ha
    cases ha
    obtain ⟨handed,skipped,heq⟩ := handleEventPtac_eq s a.ppI ev
    rw [heq]
    exact { h with frameless := ⟨_,rfl,hf⟩ }
  | browserWindow hth | left hth | drained hth =>
    rw [hth] at ha
    cases ha

theorem Stuck.step {a : Action} (h : Stuck c w rs s) (hq : Quiet c s a)
    (ht : step c s a = some t) : Stuck c w rs t := by
  cases a with
  | setFullscreen i fullscreen =>
    cases ht
    unfold ppbFlashFullscreenSetFullscreen
    split_ifs
    · exact h
    · exact { h with }
    · exact { h with }
  | proceed k =>
    obtain ⟨call,-,rfl⟩ := Option.map_eq_some_iff.mp ht
    exact h.proceed k call
  | forceredraw2d i =>
    simp only [Fullscreen.step,h.redrawEvent i,Option.toList_none,List.append_nil] at ht
    cases ht
    exact h
  | sendRedraw k =>
    obtain ⟨ev,hev,rfl⟩ := Option.map_eq_some_iff.mp ht
    have hrest : Stuck c w rs { s with redraws := s.redraws.eraseIdx k } :=
      { h with redraws := fun x hx => h.redraws x (List.mem_of_mem_eraseIdx hx) }
    refine hrest.send fun hw => ?_
    by_contra hrel
    exact h.redraws ev (List.mem_of_getElem? hev) (by simpa using hrel) hw
  | forceredraw3d i =>
    simp only [Fullscreen.step,h.redrawEvent i] at ht
    cases ht
    exact h
  | setWindow i wnd width height =>
    cases ht
    exact h.set (h.windowed i)
  | load i =>
    cases ht
    exact h.set (h.windowed i)
  | destroy i =>
    cases ht
    exact h.set (h.windowed i)
  | xEvent ev =>
    simp only [Fullscreen.step] at ht
    split_ifs at ht
    cases ht
    refine { h with events := fun x hx => ?_ }
    obtain hx | hx := List.mem_append.mp hx
    · exact h.events x hx
    · exact List.mem_singleton.mp hx ▸ hq
  | thread x y => exact h.thread ht
  | callReturns => exact h.callReturns ht
  | delayThread =>
    obtain ⟨d,-,rfl⟩ := Option.map_eq_some_iff.mp ht
    cases d with
    | sleeping i =>
      simp only [h.command]
      exact { h with }
    | waiting i =>
      simp only [h.command]
      split_ifs
      · exact h
      · exact h
      · exact { h with }

/-- An instance is taken out of fullscreen mode before it could draw. -/
def leavesEarly : List Action :=
  [.load 0,.setFullscreen 0 true,.proceed 0,.thread 10 10,.thread 10 10,.callReturns,
    .setFullscreen 0 false,.proceed 0]

/-- The key event is handed over, the thread looks for more, and a new request is in vain. -/
def asksAgain : List Action :=
  [.proceed 0,.thread 10 10,.callReturns,.delayThread,.setFullscreen 0 true,.proceed 0]

end Fullscreen
end FreshPlayer
