import FreshPlayer.InputDelivery
import Mathlib.Data.List.Chain

/-! What the plugin is told of makes sense to it: which events come in pairs, how clicks are
counted, and on which side a modifier key is. -/
namespace FreshPlayer
namespace InputEvents

open MessageLoop

/-- Two events that one event of the window or of the input method is made into. -/
inductive Pair : InputEvent → InputEvent → Prop
  | key (time : ℕ) (mods : UInt32) (keyCode : ℕ) (text : List UInt8) :
      Pair (ppbKeyboardInputEventCreate .keyDown time mods keyCode [])
        (ppbKeyboardInputEventCreate .char time mods keyCode text)
  | menu (time : ℕ) (mods : UInt32) (position : ℤ × ℤ) (clickCount : ℕ) :
      Pair (ppbMouseInputEventCreate .mouseUp time mods .right position clickCount)
        (ppbMouseInputEventCreate .contextMenu time mods .right position 1)
  | commit (text : List UInt8) : Pair (ppbImeInputEventCreate .imeCompositionEnd text text.length)
      (ppbImeInputEventCreate .imeText text text.length)

/-- An event that is never the second one of a pair. -/
def Opens (ev : InputEvent) : Prop :=
  ev.type ≠ .char ∧ ev.type ≠ .contextMenu ∧ ev.type ≠ .imeText

/-- An event that is not always the first one of a pair. -/
def Closes (ev : InputEvent) : Prop :=
  ¬(ev.type = .mouseUp ∧ ev.mouseButton = .right) ∧ ev.type ≠ .imeCompositionEnd

def Next (a b : InputEvent) : Prop := Closes a ∧ Opens b ∨ Pair a b

def Sided (mods : UInt32) : Prop := mods &&& modifierIsLeft = 0 ∨ mods &&& modifierIsRight = 0

/-- When a button was last released, 0 if none was. -/
def lastUp (l : List InputEvent) : ℕ :=
  ((l.filter (·.type = .mouseUp)).getLast?).elim 0 (·.time)

def Config.clicks (c : Config) (time last : ℕ) : ℕ :=
  if time < c.doubleClickDelayMs + last then 2 else 1

/-- A click counts double shortly after a button was released, and so does the release. -/
def Clicked (c : Config) (l : List InputEvent) : Prop :=
  ∀ k ev, l[k]? = some ev → ev.type = .mouseDown ∨ ev.type = .mouseUp →
    ev.clickCount = c.clicks ev.time (lastUp (l.take k))

structure Grammar (c : Config) (l : List InputEvent) : Prop where
  chain : l.IsChain Next
  opens : ∀ ev ∈ l.head?, Opens ev
  clicked : Clicked c l
  sided : ∀ ev ∈ l, Sided ev.modifiers

variable {c : Config} {s t : State} {l : List InputEvent} {ev : InputEvent}

theorem Grammar.prefix {k : List InputEvent} (h : Grammar c l) (hk : k <+: l) : Grammar c k := by
  obtain ⟨m,rfl⟩ := hk
  refine ⟨h.chain.left_of_append,fun ev hev => h.opens ev ?_,fun n ev hn ht => ?_,
    fun ev hev => h.sided ev (List.mem_append_left m hev)⟩
  · rw [List.head?_append]
    cases k with
    | nil => cases hev
    | cons x k => exact hev
  · have hlt : n < k.length := (List.getElem?_eq_some_iff.mp hn).1
    have hle := h.clicked n ev (by rw [List.getElem?_append_left hlt]; exact hn) ht
    rwa [List.take_append_of_le_length hlt.le] at hle

theorem lastUp_snoc (l : List InputEvent) (ev : InputEvent) :
    lastUp (l ++ [ev]) = if ev.type = .mouseUp then ev.time else lastUp l := by
  unfold lastUp
  rw [List.filter_append,List.filter_singleton]
  split_ifs with h <;> simp [h]

theorem Clicked.snoc (h : Clicked c l)
    (hev : ev.type = .mouseDown ∨ ev.type = .mouseUp →
      ev.clickCount = c.clicks ev.time (lastUp l)) : Clicked c (l ++ [ev]) := fun k e hk ht => by
  have hlt := (List.getElem?_eq_some_iff.mp hk).1
  rw [List.length_append,List.length_singleton] at hlt
  obtain hlt | rfl := Nat.lt_succ_iff_lt_or_eq.mp hlt
  · rw [List.take_append_of_le_length hlt.le]
    exact h k e (by rwa [List.getElem?_append_left hlt] at hk) ht
  · rw [List.getElem?_concat_length] at hk
    cases hk
    rw [List.take_left]
    exact hev ht

theorem flagsIf_and (state mask : UInt32) {flags m : UInt32} (h : flags &&& m = 0) :
    flagsIf state mask flags &&& m = 0 := by
  unfold flagsIf
  split_ifs
  · exact h
  · exact UInt32.zero_and

theorem or_and_eq_zero {a b m : UInt32} (ha : a &&& m = 0) (hb : b &&& m = 0) :
    (a ||| b) &&& m = 0 := by
  have hdistrib : (a ||| b) &&& m = a &&& m ||| b &&& m :=
    UInt32.toBitVec_inj.mp BitVec.and_or_distrib_right
  rw [hdistrib,ha,hb,UInt32.or_self]

/-- The state mask does not tell the right keys from the left ones. -/
theorem xStateMaskToPpInputeventModifier_right (state : UInt32) :
    xStateMaskToPpInputeventModifier state &&& modifierIsRight = 0 := by
  unfold xStateMaskToPpInputeventModifier
  iterate 8 refine or_and_eq_zero ?_ (flagsIf_and _ _ (by decide))
  exact flagsIf_and _ _ (by decide)

/-- What is made of one X event or of one signal, and what it does to the instance. -/
inductive Made (c : Config) (p : Instance) : Instance → List InputEvent → Prop
  | nothing : Made c p p []
  | plain {ev : InputEvent} (ho : Opens ev) (hc : Closes ev)
      (ht : ev.type ≠ .mouseDown ∧ ev.type ≠ .mouseUp) (hs : Sided ev.modifiers) : Made c p p [ev]
  | down {time : ℕ} {mods : UInt32} {button : MouseButton} {position : ℤ × ℤ} (hs : Sided mods) :
      Made c p p [ppbMouseInputEventCreate .mouseDown time mods button position
        (c.clicks time p.lastButtonReleaseTimestamp)]
  | up {time : ℕ} {mods : UInt32} {button : MouseButton} {position : ℤ × ℤ} (hs : Sided mods)
      (hb : button ≠ .right) : Made c p { p with lastButtonReleaseTimestamp := time }
        [ppbMouseInputEventCreate .mouseUp time mods button position
          (c.clicks time p.lastButtonReleaseTimestamp)]
  | menu {time : ℕ} {mods : UInt32} {position : ℤ × ℤ} (hs : Sided mods) :
      Made c p { p with lastButtonReleaseTimestamp := time }
        [ppbMouseInputEventCreate .mouseUp time mods .right position
          (c.clicks time p.lastButtonReleaseTimestamp),
          ppbMouseInputEventCreate .contextMenu time mods .right position 1]
  | key {time : ℕ} {mods : UInt32} {keyCode : ℕ} {text : List UInt8} (hs : Sided mods) :
      Made c p p [ppbKeyboardInputEventCreate .keyDown time mods keyCode [],
        ppbKeyboardInputEventCreate .char time mods keyCode text]
  | commit {text : List UInt8} :
      Made c p p [ppbImeInputEventCreate .imeCompositionEnd text text.length,
        ppbImeInputEventCreate .imeText text text.length]

theorem sided_of_state (state : UInt32) : Sided (xStateMaskToPpInputeventModifier state) :=
  .inr (xStateMaskToPpInputeventModifier_right state)

theorem handleButtonPressReleaseEvent_made (c : Config) (p : Instance) (press : Bool)
    (button time : ℕ) (state : UInt32) (position : ℤ × ℤ) :
    Made c p (handleButtonPressReleaseEvent c p press button time state position).1
      ((handleButtonPressReleaseEvent c p press button time state position).2.filterMap
        Posted.event?) := by
  have hs := sided_of_state state
  -- only the third button is the right one
  have hright : button ≠ 3 → (buttonClass button).2.1 ≠ .right := fun hb => by
    unfold buttonClass
    split <;> first | exact absurd rfl hb | decide
  have hclicks : (if time < c.doubleClickDelayMs + p.lastButtonReleaseTimestamp then 2 else 1) =
      c.clicks time p.lastButtonReleaseTimestamp := rfl
  unfold handleButtonPressReleaseEvent
  dsimp only
  rw [hclicks]
  split_ifs with hi hw hm hp hb hp
  · exact .nothing
  · exact .nothing
  · exact .down hs
  · subst hb
    exact .menu hs
  · exact .up hs (hright hb)
  · refine .plain ?_ ?_ ?_ (by exact hs) <;> simp [Opens,Closes,ppbWheelInputEventCreate]
  · exact .nothing

theorem handleKeyPressReleaseEvent_made (c : Config) (p : Instance) (press : Bool) (time : ℕ)
    (state : UInt32) (keysym : ℕ) (buffer : List UInt8) (stop : Bool) :
    Made c p p ((handleKeyPressReleaseEvent c p press time state keysym buffer stop).filterMap
      Posted.event?) := by
  unfold handleKeyPressReleaseEvent
  dsimp only
  generalize hmod : (if (xStateMaskToPpInputeventModifier state ||| getLeftRightPpFlag keysym) &&&
    modifierIsRight ≠ 0 then (xStateMaskToPpInputeventModifier state ||| getLeftRightPpFlag keysym) &&&
    ~~~modifierIsLeft else xStateMaskToPpInputeventModifier state ||| getLeftRightPpFlag keysym) = mod
  have hs : Sided mod := by
    subst hmod
    split_ifs with hr
    · left
      rw [UInt32.and_assoc,UInt32.and_comm (~~~_),UInt32.and_not_self,UInt32.and_zero]
    · exact .inr (not_not.mp hr)
  split_ifs with hi hw hstop hchar hp
  · exact .nothing
  · exact .nothing
  · exact .nothing
  · exact .key hs
  · simp [hp] at hchar
  all_goals
    refine .plain ?_ ?_ ?_ (by exact hs) <;> simp [Opens,Closes,ppbKeyboardInputEventCreate]

theorem nppHandleEvent_made (c : Config) (p : Instance) (stop : Bool) (ev : XEvent) :
    Made c p (nppHandleEvent c p stop ev).1
      ((nppHandleEvent c p stop ev).2.filterMap Posted.event?) := by
  cases ev with
  | crossing enter normal time state position =>
    have hs := sided_of_state state
    simp only [nppHandleEvent,handleEnterLeaveEvent]
    split_ifs
    · exact .nothing
    · exact .nothing
    · exact .nothing
    all_goals
      refine .plain ?_ ?_ ?_ (by exact hs) <;> simp [Opens,Closes,ppbMouseInputEventCreate]
  | motion time state position =>
    have hs := sided_of_state state
    simp only [nppHandleEvent,handleMotionEvent]
    split_ifs
    · exact .nothing
    · exact .nothing
    · refine .plain ?_ ?_ ?_ (by exact hs) <;> simp [Opens,Closes,ppbMouseInputEventCreate]
  | button press button time state position =>
    exact handleButtonPressReleaseEvent_made c p press button time state position
  | key press time state keysym buffer =>
    exact handleKeyPressReleaseEvent_made c p press time state keysym buffer stop
  | focus hasFocus => exact .nothing

theorem handleImSignal_made (c : Config) (p : Instance) (signal : ImSignal) :
    Made c p p ((handleImSignal signal).filterMap Posted.event?) := by
  have hs : Sided 0 := .inl UInt32.zero_and
  cases signal with
  | preeditStart =>
    refine .plain ?_ ?_ ?_ (by exact hs) <;> simp [Opens,Closes,ppbImeInputEventCreate]
  | preeditChanged text cursor =>
    refine .plain ?_ ?_ ?_ (by exact hs) <;> simp [Opens,Closes,ppbImeInputEventCreate]
  | commit text => exact .commit

/-- The events made so far, at the end of a handler. -/
structure Composed (c : Config) (l : List InputEvent) (p : Instance) : Prop where
  grammar : Grammar c l
  closes : ∀ ev ∈ l.getLast?, Closes ev
  released : p.lastButtonReleaseTimestamp = lastUp l

theorem Composed.snoc {p q : Instance} (h : Composed c l p) (ho : Opens ev) (hc : Closes ev)
    (hs : Sided ev.modifiers) (hk : ev.type = .mouseDown ∨ ev.type = .mouseUp →
      ev.clickCount = c.clicks ev.time p.lastButtonReleaseTimestamp)
    (hq : q.lastButtonReleaseTimestamp =
      if ev.type = .mouseUp then ev.time else p.lastButtonReleaseTimestamp) :
    Composed c (l ++ [ev]) q where
  grammar := by
    refine ⟨h.grammar.chain.append (List.isChain_singleton ev) fun x hx y hy => ?_,fun x hx => ?_,
      h.grammar.clicked.snoc (h.released ▸ hk),fun x hx => ?_⟩
    · cases hy
      exact .inl ⟨h.closes x hx,ho⟩
    · cases l with
      | nil =>
        cases hx
        exact ho
      | cons y l => exact h.grammar.opens x hx
    · obtain hx | hx := List.mem_append.mp hx
      · exact h.grammar.sided x hx
      · exact List.mem_singleton.mp hx ▸ hs
  closes x hx := by
    rw [List.getLast?_concat] at hx
    cases hx
    exact hc
  released := by rw [lastUp_snoc,hq,h.released]

/-- Two events are made at once, and the first one keeps the second one company. -/
theorem Composed.pair {p q : Instance} {a b : InputEvent} (h : Composed c l p) (hab : Pair a b)
    (ha : Opens a) (hb : Closes b) (hbm : b.type ≠ .mouseDown ∧ b.type ≠ .mouseUp)
    (hsa : Sided a.modifiers) (hsb : Sided b.modifiers)
    (hk : a.type = .mouseDown ∨ a.type = .mouseUp →
      a.clickCount = c.clicks a.time p.lastButtonReleaseTimestamp)
    (hq : q.lastButtonReleaseTimestamp =
      if a.type = .mouseUp then a.time else p.lastButtonReleaseTimestamp) :
    Composed c (l ++ [a,b]) q where
  grammar := by
    refine ⟨h.grammar.chain.append (List.isChain_pair.mpr (.inr hab)) fun x hx y hy => ?_,
      fun x hx => ?_,?_,fun x hx => ?_⟩
    · cases hy
      exact .inl ⟨h.closes x hx,ha⟩
    · cases l with
      | nil =>
        cases hx
        exact ha
      | cons y l => exact h.grammar.opens x hx
    · rw [List.append_cons]
      refine (h.grammar.clicked.snoc (h.released ▸ hk)).snoc fun ht => ?_
      exact absurd ht (not_or.mpr hbm)
    · obtain hx | hx := List.mem_append.mp hx
      · exact h.grammar.sided x hx
      · obtain rfl | hx := List.mem_cons.mp hx
        · exact hsa
        · exact List.mem_singleton.mp hx ▸ hsb
  closes x hx := by
    rw [List.append_cons,List.getLast?_concat] at hx
    cases hx
    exact hb
  released := by rw [List.append_cons,lastUp_snoc,if_neg hbm.2,lastUp_snoc,hq,h.released]

theorem Composed.made {p q : Instance} {new : List InputEvent} (h : Composed c l p)
    (hm : Made c p q new) : Composed c (l ++ new) q := by
  cases hm with
  | nothing => rwa [List.append_nil]
  | plain ho hc ht hs =>
    exact h.snoc ho hc hs (fun hk => absurd hk (not_or.mpr ht)) (if_neg ht.2).symm
  | down hs =>
    refine h.snoc ?_ ?_ hs (fun _ => rfl) rfl <;> simp [Opens,Closes,ppbMouseInputEventCreate]
  | up hs hb =>
    refine h.snoc ?_ ?_ hs (fun _ => rfl) rfl <;> simp [Opens,Closes,ppbMouseInputEventCreate,hb]
  | menu hs =>
    refine h.pair (.menu _ _ _ _) ?_ ?_ ?_ hs hs (fun _ => rfl) rfl <;>
      simp [Opens,Closes,ppbMouseInputEventCreate]
  | key hs =>
    refine h.pair (.key _ _ _ _) ?_ ?_ ?_ hs hs (fun hk => ?_) rfl <;>
      simp_all [Opens,Closes,ppbKeyboardInputEventCreate]
  | commit =>
    have hs : Sided 0 := .inl UInt32.zero_and
    refine h.pair (.commit _) ?_ ?_ ?_ hs hs (fun hk => ?_) rfl <;>
      simp_all [Opens,Closes,ppbImeInputEventCreate]

theorem Composed.step {a : Action} (h : Composed c (s.made.filterMap Posted.event?) s.ppI)
    (ht : step c s a = some t) : Composed c (t.made.filterMap Posted.event?) t.ppI := by
  have keep : ∀ u : State, u.made = s.made →
      u.ppI.lastButtonReleaseTimestamp = s.ppI.lastButtonReleaseTimestamp →
      Composed c (u.made.filterMap Posted.event?) u.ppI := fun u hm hr => by
    rw [hm]
    exact ⟨h.grammar,h.closes,hr.trans h.released⟩
  cases a with
  | requestInputEvents k =>
    cases ht
    split_ifs <;> exact keep _ rfl rfl
  | requestFilteringInputEvents k =>
    cases ht
    split_ifs <;> exact keep _ rfl rfl
  | clearInputEventRequest k =>
    cases ht
    split_ifs <;> exact keep _ rfl rfl
  | showMenu =>
    simp only [InputEvents.step] at ht
    split_ifs at ht
    cases ht
    exact keep _ rfl rfl
  | handleEvent ev stop =>
    simp only [InputEvents.step] at ht
    split_ifs at ht
    cases ht
    rw [List.filterMap_append]
    exact h.made (nppHandleEvent_made c s.ppI stop ev)
  | imSignal signal =>
    simp only [InputEvents.step] at ht
    split_ifs at ht
    cases ht
    rw [List.filterMap_append]
    exact h.made (handleImSignal_made c s.ppI signal)
  | post now =>
    obtain ⟨p,cb,r,hp⟩ := post_posting ht
    exact keep t hp.made (by rw [hp.ppI])
  | destroy =>
    simp only [InputEvents.step] at ht
    split_ifs at ht
    cases ht
    exact keep _ rfl rfl
  | loop a =>
    simp only [InputEvents.step] at ht
    split_ifs at ht
    obtain ⟨loop,-,rfl⟩ := Option.map_eq_some_iff.mp ht
    have hcalls := foldl_calls { s with loop := loop } (loop.called.drop s.loop.called.length)
    exact keep _ hcalls.made hcalls.released

/-- What the plugin is told of in a run in which no task is lost: a character comes directly
after the press of its key, a context menu directly after the release of the right button, and
the text of an input method directly after the end of its composition, and nothing else comes
after these two; clicks are counted by the releases the plugin was told of; no event is of a key
on both sides. -/
theorem told_grammar {refCnt : ℤ} (h : (machine c refCnt).ReachableVia Steady s) :
    Grammar c (s.told.filterMap Posted.event?) := by
  obtain ⟨l,hl,htold,-⟩ := told_all h
  have hcomposed : Composed c (s.made.filterMap Posted.event?) s.ppI := by
    refine h.invariant (fun s => Composed c (s.made.filterMap Posted.event?) s.ppI) ?_
      fun _ _ _ hi _ ht => hi.step ht
    exact ⟨⟨.nil,fun _ hx => (by cases hx),fun _ _ hk => absurd hk (by simp [machine]),
      fun _ hx => absurd hx List.not_mem_nil⟩,fun _ hx => (by cases hx),rfl⟩
  rw [htold.inputs]
  exact hcomposed.grammar.prefix (hl.filterMap Posted.event?)

theorem keyAndMenu_grammar : ∃ s : State,
    (machine ofUser 1).exec (machine ofUser 1).start keyAndMenu = some s ∧
    (s.told.filterMap Posted.event?).length = 4 ∧
    Grammar ofUser (s.told.filterMap Posted.event?) := by
  obtain ⟨s,hs,ht⟩ : ∃ s : State,
      (machine ofUser 1).exec (machine ofUser 1).start keyAndMenu = some s ∧
      (s.told.filterMap Posted.event?).length = 4 := ⟨_,rfl,rfl⟩
  exact ⟨s,hs,ht,told_grammar (Machine.reachableVia_of_exec keyAndMenu .start hs (by decide))⟩

end InputEvents
end FreshPlayer
