import FreshPlayer.InputGrammar

/-! Which events the plugin asked for. The handlers look at its requests when they make an event
of the window, so what is on its way already arrives all the same; focus events are withheld
from it while a menu comes and goes. -/
namespace FreshPlayer
namespace InputEvents

open MessageLoop

/-- The plugin asks for no events of these classes. -/
def Unrequested (eventClasses : UInt32) : Action → Prop
  | .requestInputEvents k | .requestFilteringInputEvents k => k &&& eventClasses = 0
  | _ => True

instance (eventClasses : UInt32) (a : Action) : Decidable (Unrequested eventClasses a) := by
  apply a.casesOn (motive := fun a => Decidable (Unrequested eventClasses a)) <;> intros <;>
    dsimp only [Unrequested] <;> infer_instance

def ofClass (eventClass : UInt32) (l : List Posted) : List InputEvent :=
  (l.filterMap Posted.event?).filter (·.eventClass = eventClass)

variable {c : Config} {s t u : State}

theorem ofClass_append (k : UInt32) (l m : List Posted) :
    ofClass k (l ++ m) = ofClass k l ++ ofClass k m := by
  rw [ofClass,List.filterMap_append,List.filter_append]
  rfl

theorem ofClass_eq_nil {k : UInt32} {l : List Posted} (h : ∀ ev, .input ev ∈ l → ev.eventClass ≠ k) :
    ofClass k l = [] := by
  refine List.filter_eq_nil_iff.mpr fun ev hev => ?_
  obtain ⟨p,hp,he⟩ := List.mem_filterMap.mp hev
  cases p with
  | input x =>
    cases he
    simpa using h ev hp
  | focus b => cases he

/-- A handler makes events of the classes asked for only. -/
theorem nppHandleEvent_wants {p : Instance} {stop : Bool} {x : XEvent} {ev : InputEvent}
    (h : .input ev ∈ (nppHandleEvent c p stop x).2) : p.wants ev.eventClass = true := by
  cases x with
  | crossing enter normal time state position =>
    simp only [nppHandleEvent,handleEnterLeaveEvent] at h
    split_ifs at h with h1 h2 hw <;>
      simp only [List.not_mem_nil,List.mem_singleton,Posted.input.injEq] at h
    all_goals
      subst h
      simpa using hw
  | motion time state position =>
    simp only [nppHandleEvent,handleMotionEvent] at h
    split_ifs at h with h1 hw <;>
      simp only [List.not_mem_nil,List.mem_singleton,Posted.input.injEq] at h
    subst h
    simpa using hw
  | button press button time state position =>
    -- a button that is none has no class, and that is never asked for
    have hwheel : p.wants (buttonClass button).1 = true → (buttonClass button).1 ≠ classMouse →
        (buttonClass button).1 = classWheel := by
      unfold buttonClass Instance.wants
      split <;> simp
    simp only [nppHandleEvent,handleButtonPressReleaseEvent] at h
    generalize (if time < c.doubleClickDelayMs + p.lastButtonReleaseTimestamp then 2 else 1) = n at h
    split_ifs at h with h1 hw hm <;>
      simp only [List.not_mem_nil,List.mem_cons,or_false,Posted.input.injEq] at h
    · subst h
      simpa [hm] using hw
    · obtain rfl | rfl := h <;> simpa [hm] using hw
    · subst h
      simpa [hm] using hw
    · subst h
      have hw : p.wants (buttonClass button).1 = true := by simpa using hw
      simpa [hwheel hw hm] using hw
  | key press time state keysym buffer =>
    simp only [nppHandleEvent,handleKeyPressReleaseEvent] at h
    split_ifs at h with h1 hw <;>
      simp only [List.not_mem_nil,List.mem_cons,or_false,Posted.input.injEq] at h
    all_goals
      obtain rfl | rfl := h <;> simpa using hw
  | focus hasFocus => simp [nppHandleEvent] at h

theorem ofClass_handled {k : UInt32} {p : Instance} {stop : Bool} {x : XEvent}
    (hk : p.wants k = false) : ofClass k (nppHandleEvent c p stop x).2 = [] :=
  ofClass_eq_nil fun ev hev he => by
    have hw := nppHandleEvent_wants hev
    rw [he,hk] at hw
    cases hw

theorem ofClass_signalled {k : UInt32} (hk : k ≠ classIme) (signal : ImSignal) :
    ofClass k (handleImSignal signal) = [] := by
  refine ofClass_eq_nil fun ev hev he => hk ?_
  have hime : ev.eventClass = classIme := by
    cases signal <;> simp only [handleImSignal,List.mem_cons,List.not_mem_nil,or_false,
      Posted.input.injEq] at hev
    · rw [hev,ppbImeInputEventCreate_eventClass]
    · rw [hev,ppbImeInputEventCreate_eventClass]
    · obtain hev | hev := hev <;> rw [hev,ppbImeInputEventCreate_eventClass]
  exact he.symm.trans hime

/-- No more events of a class that is not asked for. -/
structure Silent (k : UInt32) (made : List InputEvent) (s : State) : Prop where
  eventMask : s.ppI.eventMask &&& k = 0
  filtered : s.ppI.filteredEventMask &&& k = 0
  made : ofClass k s.made = made

theorem Silent.wants {k : UInt32} {made : List InputEvent} (h : Silent k made s) :
    s.ppI.wants k = false := by
  have hmasks := or_and_eq_zero h.eventMask h.filtered
  rw [UInt32.and_comm] at hmasks
  simp [Instance.wants,hmasks]

theorem Silent.step {k : UInt32} {made : List InputEvent} {a : Action} (h : Silent k made s)
    (hk : k ≠ classIme) (hu : Unrequested k a) (ht : step c s a = some t) : Silent k made t := by
  cases a with
  | requestInputEvents m =>
    cases ht
    split_ifs
    · exact ⟨or_and_eq_zero h.eventMask hu,h.filtered,h.made⟩
    · exact h
  | requestFilteringInputEvents m =>
    cases ht
    split_ifs
    · exact ⟨h.eventMask,or_and_eq_zero h.filtered hu,h.made⟩
    · exact h
  | clearInputEventRequest m =>
    cases ht
    have hclear : ∀ mask : UInt32, mask &&& k = 0 → mask &&& ~~~m &&& k = 0 := fun mask hm => by
      rw [UInt32.and_assoc,UInt32.and_comm (~~~m),← UInt32.and_assoc,hm,UInt32.zero_and]
    split_ifs
    · exact ⟨hclear _ h.eventMask,hclear _ h.filtered,h.made⟩
    · exact h
  | showMenu =>
    simp only [InputEvents.step] at ht
    split_ifs at ht
    cases ht
    exact ⟨h.eventMask,h.filtered,h.made⟩
  | handleEvent ev stop =>
    simp only [InputEvents.step] at ht
    split_ifs at ht
    cases ht
    have hmasks : (nppHandleEvent c s.ppI stop ev).1.eventMask = s.ppI.eventMask ∧
        (nppHandleEvent c s.ppI stop ev).1.filteredEventMask = s.ppI.filteredEventMask := by
      cases ev <;> simp only [nppHandleEvent,and_self]
      unfold handleButtonPressReleaseEvent
      dsimp only
      split_ifs <;> exact ⟨rfl,rfl⟩
    refine ⟨hmasks.1 ▸ h.eventMask,hmasks.2 ▸ h.filtered,?_⟩
    rw [ofClass_append,ofClass_handled h.wants,List.append_nil]
    exact h.made
  | imSignal signal =>
    simp only [InputEvents.step] at ht
    split_ifs at ht
    cases ht
    refine ⟨h.eventMask,h.filtered,?_⟩
    rw [ofClass_append,ofClass_signalled hk signal,List.append_nil]
    exact h.made
  | post now =>
    obtain ⟨p,cb,r,hp⟩ := post_posting ht
    exact ⟨hp.ppI ▸ h.eventMask,hp.ppI ▸ h.filtered,hp.made ▸ h.made⟩
  | destroy =>
    simp only [InputEvents.step] at ht
    split_ifs at ht
    cases ht
    exact ⟨h.eventMask,h.filtered,h.made⟩
  | loop a =>
    simp only [InputEvents.step] at ht
    split_ifs at ht
    obtain ⟨loop,-,rfl⟩ := Option.map_eq_some_iff.mp ht
    have hcalls := foldl_calls { s with loop := loop } (loop.called.drop s.loop.called.length)
    refine ⟨hcalls.eventMask ▸ h.eventMask,hcalls.filteredEventMask ▸ h.filtered,?_⟩
    rw [hcalls.made]
    exact h.made

/-- Once the plugin takes its request for a class of events back, other than that of the input
method, it is told of no event of the class but those that were made already, each once at
most. -/
theorem cleared_silent {refCnt : ℤ} {k : UInt32} {as : List Action} (hk : k ≠ classIme)
    (h : (machine c refCnt).Reachable s) (hm : s.ppI.eventMask &&& k = 0)
    (hf : s.ppI.filteredEventMask &&& k = 0) (hs : (machine c refCnt).exec s as = some u)
    (hg : ∀ a ∈ as, Unrequested k a) : (ofClass k u.told).Subperm (ofClass k s.made) := by
  have hu : Silent k (ofClass k s.made) u := Machine.invariant_of_exec
    (Silent k (ofClass k s.made)) (fun _ _ _ hi hg ht => hi.step hk hg ht) ⟨hm,hf,rfl⟩ hs
    (Machine.eachFrom_of_forall (fun a ha _ => hg a ha) s)
  rw [← hu.made]
  obtain ⟨l,hperm,hsub⟩ := (channel_of_reachable (h.exec hs)).told_subperm
  exact ⟨_,(hperm.filterMap Posted.event?).filter _,(hsub.filterMap Posted.event?).filter _⟩

/-- A key is pressed, and the request for keys taken back. -/
def takesBack : List Action :=
  [.requestInputEvents (classMouse ||| classKeyboard),.loop (.enter true ⟨false,true,false⟩ .loop),
    .loop (.iterate ⟨0,0⟩),.handleEvent (.key true 1000 0 0x61 []) false,
    .clearInputEventRequest classKeyboard]

/-- The press arrives, and the next one is not even made an event of. -/
def pressesAgain : List Action :=
  [.post ⟨1,0⟩,.handleEvent (.key true 2000 0 0x62 []) false] ++ turn ⟨2,0⟩

theorem takesBack_silent : ∃ s u : State,
    (machine ofUser 1).exec (machine ofUser 1).start takesBack = some s ∧
    (machine ofUser 1).exec s pressesAgain = some u ∧ (ofClass classKeyboard u.told).length = 1 ∧
    (ofClass classKeyboard u.told).Subperm (ofClass classKeyboard s.made) := by
  obtain ⟨s,hs,hm,hf,u,hu,hone⟩ : ∃ s : State,
      (machine ofUser 1).exec (machine ofUser 1).start takesBack = some s ∧
      s.ppI.eventMask &&& classKeyboard = 0 ∧ s.ppI.filteredEventMask &&& classKeyboard = 0 ∧
      ∃ u, (machine ofUser 1).exec s pressesAgain = some u ∧
      (ofClass classKeyboard u.told).length = 1 := ⟨_,rfl,by decide,by decide,_,rfl,rfl⟩
  exact ⟨s,u,hs,hu,hone,cleared_silent (by decide) (Machine.reachable_of_exec hs) hm hf hu
    (by decide)⟩

/-- The focus events withheld so far, with those still to be, are two for each menu at most. -/
def Withheld (n : ℕ) (s : State) : Prop :=
  ∃ l, Heard s l ∧ l.length + s.ppI.ignoreFocusEventsCnt ≤ s.told.length + 2*n

theorem Withheld.step {a : Action} {n : ℕ} (h : Withheld n s) (hc : Channel s)
    (ht : step c s a = some t) : Withheld (if a = .showMenu then n+1 else n) t := by
  obtain ⟨l,hl,hle⟩ := h
  -- nothing is carried out, and the count stays
  have keep : a ≠ .showMenu → carried t = carried s → t.told = s.told →
      (t.ppI.alive = true → s.ppI.alive = true) →
      t.ppI.ignoreFocusEventsCnt = s.ppI.ignoreFocusEventsCnt →
      Withheld (if a = .showMenu then n+1 else n) t := fun hne hca hto hal hcnt => by
    rw [if_neg hne]
    exact ⟨l,hl.frame hca hto hal,by rw [hcnt,hto]; exact hle⟩
  cases a with
  | requestInputEvents m =>
    cases ht
    refine keep (by simp) ?_ ?_ ?_ ?_ <;> split_ifs <;> first | rfl | exact id
  | requestFilteringInputEvents m =>
    cases ht
    refine keep (by simp) ?_ ?_ ?_ ?_ <;> split_ifs <;> first | rfl | exact id
  | clearInputEventRequest m =>
    cases ht
    refine keep (by simp) ?_ ?_ ?_ ?_ <;> split_ifs <;> first | rfl | exact id
  | showMenu =>
    simp only [InputEvents.step] at ht
    split_ifs at ht
    cases ht
    rw [if_pos rfl]
    refine ⟨l,hl.frame rfl rfl id,?_⟩
    dsimp only
    omega
  | handleEvent ev stop =>
    simp only [InputEvents.step] at ht
    split_ifs at ht with ha
    cases ht
    refine keep (by simp) rfl rfl (fun _ => ha.1) ?_
    cases ev <;> try rfl
    simp only [nppHandleEvent,handleButtonPressReleaseEvent]
    split_ifs <;> rfl
  | imSignal signal =>
    simp only [InputEvents.step] at ht
    split_ifs at ht
    cases ht
    exact keep (by simp) rfl rfl id rfl
  | post now =>
    obtain ⟨p,cb,r,hp⟩ := post_posting ht
    exact keep (by simp) (hp.carried hc) hp.told (fun ha => hp.ppI ▸ ha) (by rw [hp.ppI])
  | destroy =>
    simp only [InputEvents.step] at ht
    split_ifs at ht with ha
    cases ht
    exact keep (by simp) rfl rfl (fun _ => ha) rfl
  | loop a =>
    simp only [InputEvents.step] at ht
    split_ifs at ht
    obtain ⟨loop,hloop,rfl⟩ := Option.map_eq_some_iff.mp ht
    obtain ⟨l',hl',hcnt⟩ := hl.loop hc.plugin hloop
    rw [if_neg (by simp)]
    exact ⟨l',hl',by omega⟩

/-- Of what is carried out while the instance is there, the plugin does not hear of two changes of
focus at most for each menu that is shown. -/
theorem focus_withheld {refCnt : ℤ} {as : List Action}
    (hs : (machine c refCnt).exec (machine c refCnt).start as = some u) :
    ∃ l, l <+: carried u ∧ (u.ppI.alive = true → l = carried u) ∧ Told l u.told ∧
      l.length ≤ u.told.length + 2 * as.countP (· = .showMenu) := by
  have hany : (machine c refCnt).EachFrom (fun _ _ => True) (machine c refCnt).start as :=
    Machine.eachFrom_of_forall (fun _ _ _ => trivial) _
  obtain ⟨-,l,hl,hle⟩ := Machine.counted_of_exec (fun n s => Channel s ∧ Withheld n s)
    (· = .showMenu)
    (fun n s a t hi _ ht => ⟨hi.1.effect (step_effect ht),by simpa using hi.2.step hi.1 ht⟩)
    (n := 0) ⟨created_channel c refCnt,[],⟨List.nil_prefix,⟨.slnil,rfl⟩,fun _ => rfl⟩,le_rfl⟩
    hs hany
  refine ⟨l,hl.carried,hl.all,hl.told,?_⟩
  rw [Nat.zero_add] at hle
  omega

/-- A menu takes the focus and gives it back; then the window loses it. -/
def menuAndFocus : List Action :=
  [.loop (.enter true ⟨false,true,false⟩ .loop),.loop (.iterate ⟨0,0⟩),.showMenu,
    .handleEvent (.focus false) false,.post ⟨1,0⟩,.handleEvent (.focus true) false,.post ⟨1,1⟩,
    .handleEvent (.focus false) false,.post ⟨1,2⟩] ++ turn ⟨2,0⟩ ++ turn ⟨2,0⟩ ++ turn ⟨2,0⟩

theorem menuAndFocus_withheld : ∃ u : State,
    (machine ofUser 1).exec (machine ofUser 1).start menuAndFocus = some u ∧
    u.told = [.focus false] ∧ ∃ l, l <+: carried u ∧ (u.ppI.alive = true → l = carried u) ∧
      Told l u.told ∧ l.length ≤ u.told.length + 2 * menuAndFocus.countP (· = .showMenu) := by
  obtain ⟨u,hu,ht⟩ : ∃ u : State,
      (machine ofUser 1).exec (machine ofUser 1).start menuAndFocus = some u ∧
      u.told = [.focus false] := ⟨_,rfl,rfl⟩
  exact ⟨u,hu,ht,focus_withheld hu⟩

end InputEvents
end FreshPlayer
