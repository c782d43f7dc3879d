import FreshPlayer.FullscreenThread
import Mathlib.Data.List.Chain

/-! What the plugin is told of fullscreen mode. -/
namespace FreshPlayer
namespace Fullscreen

/-- The instance whose last view is one of fullscreen mode. -/
def Thread.viewed : Thread → Option ℕ
  | .nextEvent a | .enterView a | .handleEvent a _ | .leaveView a =>
    if a.calledDidChangeView then some a.ppI else none
  | .idle | .popped _ | .getBrowserWindow _ _ _ | .drain _ | .drainEvent _ _ | .join => none

/-- A view of fullscreen mode is taken back by the next one, of which the plugin is told if it was
told of the first and the instance is still there. -/
def Follows (s : State) (v w : View) : Prop := v.fullscreen = true →
  w.fullscreen = false ∧ w.ppI = v.ppI ∧
  (v.told = true → w.told = true ∨ (s.instances v.ppI).destroyed = true)

/-- The plugin was last told that it is fullscreen. -/
def ToldLast (s : State) : Prop := ∃ v ∈ s.views.getLast?, v.fullscreen = true ∧ v.told = true

structure Views (s : State) : Prop where
  fresh : ∀ a, s.thread = .enterView a → a.calledDidChangeView = false
  last : (s.views.getLast?.filter (·.fullscreen)).map (·.ppI) = s.thread.viewed
  apparent : ∀ i, (s.instances i).isFullscreenApparent = true ↔
    s.thread.shown = some i ∧ ToldLast s
  loaded : ∀ v ∈ s.views, v.told = true → (s.instances v.ppI).instanceLoaded = true
  rounds : s.views.IsChain (Follows s)

variable {c : Config} {s t : State}

theorem Views.last_none (h : Views s) (hv : s.thread.viewed = none) :
    ∀ v ∈ s.views.getLast?, v.fullscreen = false := by
  intro v hm
  have hl := h.last
  rw [hv,Option.mem_def.mp hm,Option.map_eq_none_iff,Option.filter_eq_none_iff] at hl
  simpa using hl v rfl

theorem Views.not_told (h : Views s) (hv : s.thread.viewed = none) : ¬ToldLast s := by
  rintro ⟨v,hm,hf,-⟩
  rw [h.last_none hv v hm] at hf
  cases hf

/-- Nothing is apparent where no instance is shown. -/
theorem Views.hidden (h : Views s) (hs : s.thread.shown = none) (i : ℕ) :
    (s.instances i).isFullscreenApparent = false := by
  by_contra hi
  have hshown := ((h.apparent i).mp (by simpa using hi)).1
  rw [hs] at hshown
  cases hshown

theorem Follows.lasting {v w : View} (h : Follows s v w) (hl : Lasting s t) : Follows t v w :=
  fun hv => ⟨(h hv).1,(h hv).2.1,fun ht => ((h hv).2.2 ht).imp_right (hl v.ppI).2⟩

/-- The views and what is apparent stay, and the thread works on as before. -/
theorem Views.keep (h : Views s) (hl : Lasting s t) (hv : t.views = s.views)
    (hi : ∀ i, (t.instances i).isFullscreenApparent = (s.instances i).isFullscreenApparent)
    (hw : t.thread.viewed = s.thread.viewed) (hs : t.thread.shown = s.thread.shown)
    (hf : ∀ a, t.thread = .enterView a → a.calledDidChangeView = false) : Views t where
  fresh := hf
  last := by rw [hv,hw]; exact h.last
  apparent i := by rw [hi,hs,ToldLast,hv]; exact h.apparent i
  loaded v hm ht := (hl v.ppI).1 (h.loaded v (hv ▸ hm) ht)
  rounds := by rw [hv]; exact h.rounds.imp fun _ _ hf => hf.lasting hl

theorem Views.aside (h : Views s) (ha : Aside s t) : Views t :=
  h.keep ha.lasting ha.views (fun i => (ha.instances i).2.1) (congrArg _ ha.thread)
    (congrArg _ ha.thread) fun a ht => h.fresh a (ha.thread ▸ ht)

theorem Activation.Like.viewed {a b : Activation} (h : a.Like b) :
    (if b.calledDidChangeView then some b.ppI else none) =
      if a.calledDidChangeView then some a.ppI else none := by
  rw [h.called,h.ppI]

theorem Views.reaction {a : Activation} {ev : XEvent} (h : Views s) (ht : s.thread = .nextEvent a)
    (hr : Reaction c s a ev t) : Views t := by
  have hw : s.thread.viewed = if a.calledDidChangeView then some a.ppI else none := by rw [ht]; rfl
  have hs : s.thread.shown = some a.ppI := by rw [ht]; rfl
  have hlast := hr.lasting
  cases hr with
  | skip hl _ =>
    exact h.keep hlast rfl (fun _ => rfl) (hl.viewed.trans hw.symm) ((congrArg some hl.ppI).trans hs.symm)
      fun _ h => (by cases h)
  | hand hl _ =>
    exact h.keep hlast rfl (fun _ => rfl) (hl.viewed.trans hw.symm) ((congrArg some hl.ppI).trans hs.symm)
      fun _ h => (by cases h)
  | enter hl _ hc =>
    exact h.keep hlast rfl (fun _ => rfl) (hl.viewed.trans hw.symm) ((congrArg some hl.ppI).trans hs.symm)
      fun _ h => (by cases h; exact hl.called.trans hc)
  | vsync hi hc _ _ _ =>
    refine h.keep hlast rfl (fun _ => rfl) ?_ ((congrArg some hi).trans hs.symm) fun _ h => (by cases h)
    rw [hw,← hc,← hi]
    rfl
  | resize w k _ =>
    refine h.keep hlast rfl (fun i => ?_) hw.symm hs.symm fun _ h => (by cases h)
    by_cases hi : i = a.ppI
    · subst hi
      simp [State.set]
    · simp [State.set,hi]
  | count _ _ => exact h.keep hlast rfl (fun _ => rfl) hw.symm hs.symm fun _ h => (by cases h)
  | draw _ _ => exact h.keep hlast rfl (fun _ => rfl) hw.symm hs.symm fun _ h => (by cases h)

theorem Views.quit {a : Activation} (h : Views s) (hlast : Lasting s (quitAndDestroyFsWnd s a))
    (ht : s.thread = .nextEvent a) :
    Views (quitAndDestroyFsWnd s a) where
  fresh _ hth := by cases hth
  last := h.last.trans (by rw [ht]; rfl)
  apparent i := by
    have hhidden : ((quitAndDestroyFsWnd s a).instances i).isFullscreenApparent = false := by
      by_cases hi : i = a.ppI
      · subst hi
        simp [quitAndDestroyFsWnd,State.set]
      · -- only the instance shown can be apparent
        by_contra happ
        have hshown := ((h.apparent i).mp (by simpa [quitAndDestroyFsWnd,State.set,hi] using happ)).1
        rw [ht] at hshown
        exact hi (Option.some.inj hshown).symm
    rw [hhidden]
    exact ⟨fun h => (by cases h),fun h => (by cases h.1)⟩
  loaded v hv ht := (hlast v.ppI).1 (h.loaded v hv ht)
  rounds := h.rounds.imp fun _ _ hf => hf.lasting hlast

theorem Views.thread {x y : ℤ} (h : Views s) (ht : fullscreenWindowThread c s x y = some t) :
    Views t := by
  have hlast := thread_lasting ht
  cases thread_move ht with
  | @openWindow i hth =>
    refine h.keep hlast rfl (fun j => ?_) (by rw [hth]; rfl) (by rw [hth]; rfl)
      fun _ h => (by cases h)
    by_cases hj : j = i
    · subst hj
      simp [State.set]
    · simp [State.set,hj]
  | quit hth _ => exact h.quit hlast hth
  | @react _ _ rest _ hth _ hr =>
    have hrest : Views { s with events := rest } := { h with }
    exact hrest.reaction hth hr
  | pop hth | drainOne hth _ | drained hth _ | joined hth =>
    exact h.keep hlast rfl (fun _ => rfl) (by rw [hth]; rfl) (by rw [hth]; rfl)
      fun _ h => (by cases h)

theorem callDidChangeViewComt_apparent (s : State) (i : ℕ) (b : Bool) (j : ℕ) :
    ((callDidChangeViewComt s i b).instances j).isFullscreenApparent =
      if j = i ∧ (!(s.instances i).destroyed && (s.instances i).instanceLoaded) = true then b
      else (s.instances j).isFullscreenApparent := by
  by_cases hj : j = i
  · subst hj
    simp only [callDidChangeViewComt,State.set,Function.update_self,true_and]
    split_ifs <;> rfl
  · simp [callDidChangeViewComt,State.set,hj]

/-- A view of which the plugin is told is one of a loaded instance. -/
theorem Views.loaded_comt (h : Views s) (i : ℕ) (b : Bool) :
    ∀ v ∈ (callDidChangeViewComt s i b).views, v.told = true →
      ((callDidChangeViewComt s i b).instances v.ppI).instanceLoaded = true := by
  have hlast := callDidChangeViewComt_lasting s i b
  intro v hv ht
  obtain hv | hv := List.mem_append.mp hv
  · exact (hlast v.ppI).1 (h.loaded v hv ht)
  · cases List.mem_singleton.mp hv
    exact (hlast i).1 (Bool.and_eq_true_iff.mp ht).2

/-- The plugin is told that it is fullscreen. -/
theorem Views.enter {a : Activation} (h : Views s) (ht : s.thread = .enterView a) (ev : XEvent) :
    Views { callDidChangeViewComt s a.ppI true with
      thread := .handleEvent { a with calledDidChangeView := true } ev } := by
  have hnone : s.thread.viewed = none := by
    rw [ht]
    simp [Thread.viewed,h.fresh a ht]
  have hrounds := h.rounds.imp fun _ _ hf =>
    hf.lasting (callDidChangeViewComt_lasting s a.ppI true)
  refine ⟨fun _ hth => (by cases hth),?_,fun i => ?_,h.loaded_comt a.ppI true,
    hrounds.append (.singleton _) ?_⟩
  · simp [callDidChangeViewComt,Thread.viewed]
  · have htold : ToldLast { callDidChangeViewComt s a.ppI true with
        thread := .handleEvent { a with calledDidChangeView := true } ev } ↔
        (!(s.instances a.ppI).destroyed && (s.instances a.ppI).instanceLoaded) = true := by
      simp [ToldLast,callDidChangeViewComt]
    have hbefore : (s.instances i).isFullscreenApparent ≠ true := fun hi =>
      h.not_told hnone ((h.apparent i).mp hi).2
    rw [htold]
    dsimp only
    rw [callDidChangeViewComt_apparent]
    split_ifs with hc
    · exact ⟨fun _ => ⟨congrArg some hc.1.symm,hc.2⟩,fun _ => rfl⟩
    · refine ⟨fun hi => absurd hi hbefore,fun hi => absurd ⟨?_,hi.2⟩ hc⟩
      exact (Option.some.inj hi.1).symm
  · intro v hv w hw hfull
    rw [h.last_none hnone v hv] at hfull
    cases hfull

/-- The plugin is told that it is not fullscreen any more. -/
theorem Views.leave {a : Activation} (h : Views s) (ht : s.thread = .leaveView a) :
    Views { callDidChangeViewComt s a.ppI false with thread := .drain a } := by
  have hhidden := h.hidden (by rw [ht]; rfl)
  have hlast := callDidChangeViewComt_lasting s a.ppI false
  refine ⟨fun _ hth => (by cases hth),?_,fun i => ?_,h.loaded_comt a.ppI false,
    (h.rounds.imp fun _ _ hf => hf.lasting hlast).append (.singleton _) ?_⟩
  · simp [callDidChangeViewComt,Thread.viewed]
  · dsimp only
    rw [callDidChangeViewComt_apparent,hhidden i,ite_self]
    exact ⟨fun h => (by cases h),fun h => (by cases h.1)⟩
  · intro v hv w hw hfull
    have hl := h.last
    rw [ht,Option.mem_def.mp hv] at hl
    simp only [Option.filter,hfull,if_true,Option.map_some,Thread.viewed] at hl
    cases hw
    have hi : v.ppI = a.ppI := by
      split_ifs at hl
      exact Option.some.inj hl
    refine ⟨rfl,hi.symm,fun ht => ?_⟩
    have hloaded := h.loaded v (List.mem_of_getLast? hv) ht
    rw [hi] at hloaded ⊢
    by_cases hd : (s.instances a.ppI).destroyed = true
    · exact .inr ((hlast a.ppI).2 hd)
    · exact .inl (by simpa [hloaded] using hd)

theorem Views.callReturns (h : Views s) (ht : callReturns s = some t) : Views t := by
  have hlast := callReturns_lasting ht
  cases callReturns_returned ht with
  | @browserWindow i width height hth =>
    have hnone : s.thread.viewed = none := by rw [hth]; rfl
    have hhidden := h.hidden (by rw [hth]; rfl)
    refine ⟨fun _ hth => (by cases hth),h.last.trans hnone,fun j => ?_,
      fun v hv ht => (hlast v.ppI).1 (h.loaded v hv ht),
      h.rounds.imp fun _ _ hf => hf.lasting hlast⟩
    have happ : ((s.set i { s.instances i with
        isFullscreen := true, fsWidthCurrent := width, fsHeightCurrent := height }).instances
        j).isFullscreenApparent = false := by
      by_cases hj : j = i
      · subst hj
        simpa [State.set] using hhidden j
      · simpa [State.set,hj] using hhidden j
    dsimp only
    rw [happ]
    exact ⟨fun h => (by cases h),fun hj => absurd hj.2 (h.not_told hnone)⟩
  | entered hth => exact h.enter hth _
  | left hth => exact h.leave hth
  | @handled a ev hth | @drained a ev hth =>
    obtain ⟨handed,skipped,heq⟩ := handleEventPtac_eq s a.ppI ev
    simp only [heq] at hlast ⊢
    exact h.keep hlast rfl (fun _ => rfl) (by rw [hth]; rfl) (by rw [hth]; rfl)
      fun _ h => (by cases h)

theorem Views.step {a : Action} (h : Views s) (hs : step c s a = some t) : Views t := by
  obtain ha | ⟨_,_,-,ht⟩ | ⟨-,ht⟩ := step_cases hs
  · exact h.aside ha
  · exact h.thread ht
  · exact h.callReturns ht

theorem created_views : Views State.create :=
  ⟨fun _ h => (by cases h),rfl,fun _ => ⟨fun h => (by cases h),fun h => (by cases h.1)⟩,
    fun _ h => absurd h List.not_mem_nil,.nil⟩

/-- While an instance is shown, a last view of fullscreen mode is its own. -/
theorem Views.of_shown (h : Views s) {i : ℕ} {v : View} (hs : s.thread.shown = some i)
    (hv : v ∈ s.views.getLast?) (hf : v.fullscreen = true) : v.ppI = i := by
  have hl := h.last
  rw [Option.mem_def.mp hv] at hl
  simp only [Option.filter,hf,if_true,Option.map_some] at hl
  have hthread : ∀ j, s.thread.viewed = some j → s.thread.shown = some i → j = i := by
    intro j hj hi
    cases hth : s.thread <;> rw [hth] at hj hi <;> cases hi <;> simp only [Thread.viewed] at hj <;>
      split_ifs at hj <;> exact (Option.some.inj hj).symm
  exact hthread v.ppI hl.symm hs

end Fullscreen
end FreshPlayer
