import FreshPlayer.MessageLoop
import Mathlib.Data.UInt

/-! Input events. The handlers, on the browser thread, make them of the events of the window and
of the input method; a task on the loop of the plugin's main thread tells the plugin of each. -/
namespace FreshPlayer
namespace InputEvents

open MessageLoop

inductive EventType
  | mouseDown | mouseUp | mouseMove | mouseEnter | mouseLeave | wheel | keyDown | keyUp | char
  | contextMenu | imeCompositionStart | imeCompositionUpdate | imeCompositionEnd | imeText
  deriving DecidableEq, Repr

inductive MouseButton
  | none | left | middle | right
  deriving DecidableEq, Repr

def bit (k : UInt32) : UInt32 := 1 <<< k

def classMouse : UInt32 := bit 0

def classKeyboard : UInt32 := bit 1

def classWheel : UInt32 := bit 2

def classIme : UInt32 := bit 4

def modifierShiftKey : UInt32 := bit 0

def modifierControlKey : UInt32 := bit 1

def modifierAltKey : UInt32 := bit 2

def modifierMetaKey : UInt32 := bit 3

def modifierLeftButtonDown : UInt32 := bit 6

def modifierMiddleButtonDown : UInt32 := bit 7

def modifierRightButtonDown : UInt32 := bit 8

def modifierCapsLockKey : UInt32 := bit 9

def modifierNumLockKey : UInt32 := bit 10

def modifierIsLeft : UInt32 := bit 11

def modifierIsRight : UInt32 := bit 12

/-- The position is that of the window, before it is scaled; the text is what an event of the
keyboard or of an input method carries, with where the cursor is in it. -/
structure InputEvent where
  eventClass : UInt32
  type : EventType
  time : ℕ
  modifiers : UInt32
  mouseButton : MouseButton
  position : ℤ × ℤ
  clickCount : ℕ
  wheelTicks : ℤ × ℤ
  keyCode : ℕ
  text : List UInt8
  cursor : ℕ
  deriving DecidableEq, Repr

/-- The events the handlers get, with their time and state mask. A key event comes with what
the X library makes of it. -/
inductive XEvent
  | crossing (enter normal : Bool) (time : ℕ) (state : UInt32) (position : ℤ × ℤ)
  | motion (time : ℕ) (state : UInt32) (position : ℤ × ℤ)
  | button (press : Bool) (button time : ℕ) (state : UInt32) (position : ℤ × ℤ)
  | key (press : Bool) (time : ℕ) (state : UInt32) (keysym : ℕ) (buffer : List UInt8)
  | focus (hasFocus : Bool)
  deriving DecidableEq, Repr

/-- The setting, and the codes of keys. -/
structure Config where
  doubleClickDelayMs : ℕ
  xkeycodeToPpKeycode : ℕ → ℕ

/-- `alive` is whether the tables still have the instance. -/
structure Instance where
  alive : Bool
  pppInputEvent : Bool
  eventMask : UInt32
  filteredEventMask : UInt32
  lastButtonReleaseTimestamp : ℕ
  ignoreFocusEventsCnt : ℕ
  deriving DecidableEq, Repr

/-- What a handler has posted to the main thread. -/
inductive Posted
  | input (ev : InputEvent) | focus (hasFocus : Bool)
  deriving DecidableEq, Repr

def Posted.event? : Posted → Option InputEvent
  | .input ev => some ev
  | .focus _ => none

def ppbMouseInputEventCreate (type : EventType) (time : ℕ) (modifiers : UInt32)
    (mouseButton : MouseButton) (position : ℤ × ℤ) (clickCount : ℕ) : InputEvent :=
  ⟨classMouse,type,time,modifiers,mouseButton,position,clickCount,(0,0),0,[],0⟩

def ppbWheelInputEventCreate (time : ℕ) (modifiers : UInt32) (wheelTicks : ℤ × ℤ) : InputEvent :=
  ⟨classWheel,.wheel,time,modifiers,.none,(0,0),0,wheelTicks,0,[],0⟩

def ppbKeyboardInputEventCreate (type : EventType) (time : ℕ) (modifiers : UInt32) (keyCode : ℕ)
    (text : List UInt8) : InputEvent :=
  ⟨classKeyboard,type,time,modifiers,.none,(0,0),0,(0,0),keyCode,text,0⟩

def ppbImeInputEventCreate (type : EventType) (text : List UInt8) (cursor : ℕ) : InputEvent :=
  ⟨classIme,type,0,0,.none,(0,0),0,(0,0),0,text,cursor⟩

@[simp] theorem ppbMouseInputEventCreate_eventClass (type : EventType) (time : ℕ) (mods : UInt32)
    (button : MouseButton) (position : ℤ × ℤ) (clickCount : ℕ) :
    (ppbMouseInputEventCreate type time mods button position clickCount).eventClass = classMouse := rfl

@[simp] theorem ppbWheelInputEventCreate_eventClass (time : ℕ) (mods : UInt32) (ticks : ℤ × ℤ) :
    (ppbWheelInputEventCreate time mods ticks).eventClass = classWheel := rfl

@[simp] theorem ppbKeyboardInputEventCreate_eventClass (type : EventType) (time : ℕ) (mods : UInt32)
    (keyCode : ℕ) (text : List UInt8) :
    (ppbKeyboardInputEventCreate type time mods keyCode text).eventClass = classKeyboard := rfl

@[simp] theorem ppbImeInputEventCreate_eventClass (type : EventType) (text : List UInt8) (cursor : ℕ) :
    (ppbImeInputEventCreate type text cursor).eventClass = classIme := rfl

/-- The flags of one bit of the state mask. -/
def flagsIf (state mask flags : UInt32) : UInt32 := if state &&& mask ≠ 0 then flags else 0

def xStateMaskToPpInputeventModifier (state : UInt32) : UInt32 :=
  flagsIf state (bit 0) (modifierShiftKey ||| modifierIsLeft) |||
  flagsIf state (bit 1) modifierCapsLockKey |||
  flagsIf state (bit 2) (modifierControlKey ||| modifierIsLeft) |||
  flagsIf state (bit 3) (modifierAltKey ||| modifierIsLeft) |||
  flagsIf state (bit 4) modifierNumLockKey |||
  flagsIf state (bit 6) (modifierMetaKey ||| modifierIsLeft) |||
  flagsIf state (bit 8) modifierLeftButtonDown |||
  flagsIf state (bit 9) modifierMiddleButtonDown |||
  flagsIf state (bit 10) modifierRightButtonDown

/-- Shift, Control, Meta, Alt and Super, of either side. -/
def getLeftRightPpFlag (keysym : ℕ) : UInt32 :=
  if keysym ∈ [0xffe1,0xffe3,0xffe7,0xffe9,0xffeb] then modifierIsLeft
  else if keysym ∈ [0xffe2,0xffe4,0xffe8,0xffea,0xffec] then modifierIsRight
  else 0

def isPrintableSequence : List UInt8 → Bool
  | [] => false
  | [u] => 0x20 ≤ u && u ≤ 0x7e
  | _ => true

def Instance.wants (p : Instance) (eventClass : UInt32) : Bool :=
  eventClass &&& (p.eventMask ||| p.filteredEventMask) ≠ 0

def handleEnterLeaveEvent (p : Instance) (enter normal : Bool) (time : ℕ) (state : UInt32)
    (position : ℤ × ℤ) : List Posted :=
  if !normal then []
  else if !p.pppInputEvent then []
  else if !p.wants classMouse then []
  else [.input (ppbMouseInputEventCreate (if enter then .mouseEnter else .mouseLeave) time
    (xStateMaskToPpInputeventModifier state) .none position 0)]

def handleMotionEvent (p : Instance) (time : ℕ) (state : UInt32) (position : ℤ × ℤ) :
    List Posted :=
  if !p.pppInputEvent then []
  else if !p.wants classMouse then []
  else [.input (ppbMouseInputEventCreate .mouseMove time (xStateMaskToPpInputeventModifier state)
    .none position 0)]

/-- The class of a button, with the mouse button it is or the ticks of the wheel. -/
def buttonClass : ℕ → UInt32 × MouseButton × (ℤ × ℤ)
  | 1 => (classMouse,.left,(0,0))
  | 2 => (classMouse,.middle,(0,0))
  | 3 => (classMouse,.right,(0,0))
  | 4 => (classWheel,.none,(0,1))
  | 5 => (classWheel,.none,(0,-1))
  | 6 => (classWheel,.none,(-1,0))
  | 7 => (classWheel,.none,(1,0))
  | _ => (0,.none,(0,0))

def handleButtonPressReleaseEvent (c : Config) (p : Instance) (press : Bool) (button time : ℕ)
    (state : UInt32) (position : ℤ × ℤ) : Instance × List Posted :=
  let (eventClass,mouseButton,wheelTicks) := buttonClass button
  let mod := xStateMaskToPpInputeventModifier state
  if !p.pppInputEvent then (p,[])
  else if !p.wants eventClass then (p,[])
  else if eventClass = classMouse then
    let clickCount := if time < c.doubleClickDelayMs + p.lastButtonReleaseTimestamp then 2 else 1
    let ev := ppbMouseInputEventCreate (if press then .mouseDown else .mouseUp) time mod mouseButton
      position clickCount
    let menu := ppbMouseInputEventCreate .contextMenu time mod mouseButton position 1
    if press then (p,[.input ev])
    else
      let p := { p with lastButtonReleaseTimestamp := time }
      (p,if button = 3 then [.input ev,.input menu] else [.input ev])
  else if press then (p,[.input (ppbWheelInputEventCreate time mod wheelTicks)])
  else (p,[])

/-- The input method may `stop` the press of a key. -/
def handleKeyPressReleaseEvent (c : Config) (p : Instance) (press : Bool) (time : ℕ)
    (state : UInt32) (keysym : ℕ) (buffer : List UInt8) (stop : Bool) : List Posted :=
  if !p.pppInputEvent then []
  else if !p.wants classKeyboard then []
  else if press && stop then []
  else
    let code := c.xkeycodeToPpKeycode keysym
    let mod := xStateMaskToPpInputeventModifier state ||| getLeftRightPpFlag keysym
    -- the left flag is always set
    let mod := if mod &&& modifierIsRight ≠ 0 then mod &&& ~~~modifierIsLeft else mod
    let ev := ppbKeyboardInputEventCreate (if press then .keyDown else .keyUp) time mod code []
    if press && isPrintableSequence buffer then
      [.input ev,.input (ppbKeyboardInputEventCreate .char time mod code buffer)]
    else [.input ev]

def nppHandleEvent (c : Config) (p : Instance) (stop : Bool) : XEvent → Instance × List Posted
  | .crossing enter normal time state position =>
    (p,handleEnterLeaveEvent p enter normal time state position)
  | .motion time state position => (p,handleMotionEvent p time state position)
  | .button press button time state position =>
    handleButtonPressReleaseEvent c p press button time state position
  | .key press time state keysym buffer =>
    (p,handleKeyPressReleaseEvent c p press time state keysym buffer stop)
  | .focus hasFocus => (p,[.focus hasFocus])

/-- The signals of the input method. -/
inductive ImSignal
  | preeditStart
  | preeditChanged (text : List UInt8) (cursor : ℕ)
  | commit (text : List UInt8)
  deriving DecidableEq, Repr

def handleImSignal : ImSignal → List Posted
  | .preeditStart => [.input (ppbImeInputEventCreate .imeCompositionStart [] 0)]
  | .preeditChanged text cursor =>
    [.input (ppbImeInputEventCreate .imeCompositionUpdate text cursor)]
  | .commit text => [.input (ppbImeInputEventCreate .imeCompositionEnd text text.length),
      .input (ppbImeInputEventCreate .imeText text text.length)]

/-- `params` are the blocks allocated for the callbacks, `toPost` what the handler under way
has still to post. `made` and `told` are ghosts: all that handlers made, and what the plugin
was told. -/
structure State where
  loop : MessageLoop.State
  ppI : Instance
  params : List InputEvent
  toPost : List Posted
  made : List Posted
  told : List Posted

/-- Addresses of the two callbacks. -/
def callPppHandleInputEventComt : ℕ := 1

def callPppDidChangeFocusComt : ℕ := 2

/-- What a task is to tell the plugin, if it is one of these. -/
def content (params : List InputEvent) (task : Task) : Option Posted :=
  if task.terminate then none
  else if task.ccb.func = some callPppHandleInputEventComt then
    (params[task.ccb.userData]?).map .input
  else if task.ccb.func = some callPppDidChangeFocusComt then
    some (.focus (task.resultToPass ≠ 0))
  else none

/-- `ppb_core_call_on_main_thread2`. -/
def ppbCoreCallOnMainThread (s : State) (callback : Callback) (result : ℤ) (now : Timespec) :
    State :=
  { s with loop := (ppbMessageLoopPostWorkWithResult s.loop false callback 0 result 1 now).2 }

/-- The handler under way posts the next event it made. -/
def post (s : State) (now : Timespec) : Option State :=
  match s.toPost with
  | [] => none
  | .input ev::rest =>
    let t := { s with params := s.params ++ [ev], toPost := rest }
    some (ppbCoreCallOnMainThread t ⟨some callPppHandleInputEventComt,s.params.length⟩ 0 now)
  | .focus hasFocus::rest =>
    some (ppbCoreCallOnMainThread { s with toPost := rest } ⟨some callPppDidChangeFocusComt,0⟩
      (if hasFocus then 1 else 0) now)

/-- A callback is made on the main thread. It looks the instance up. -/
def call (s : State) (task : Task) : State :=
  match content s.params task with
  | some (.input ev) =>
    if s.ppI.alive && s.ppI.pppInputEvent then { s with told := s.told ++ [.input ev] } else s
  | some (.focus hasFocus) =>
    if !s.ppI.alive then s
    else if 0 < s.ppI.ignoreFocusEventsCnt then
      let p := { s.ppI with ignoreFocusEventsCnt := s.ppI.ignoreFocusEventsCnt-1 }
      { s with ppI := p }
    else { s with told := s.told ++ [.focus hasFocus] }
  | none => s

/-- `destroy` is the callback of NPP_Destroy taking the instance from the tables, `loop` anything
else that happens to the loop of the main thread. -/
inductive Action
  | requestInputEvents (eventClasses : UInt32)
  | requestFilteringInputEvents (eventClasses : UInt32)
  | clearInputEventRequest (eventClasses : UInt32)
  | showMenu
  | handleEvent (ev : XEvent) (stop : Bool)
  | imSignal (signal : ImSignal)
  | post (now : Timespec)
  | destroy
  | loop (a : MessageLoop.Action)
  deriving DecidableEq, Repr

/-- Nobody else posts the two callbacks. -/
def foreign : MessageLoop.Action → Bool
  | .postWork _ callback _ _ _ _ => callback.func ≠ some callPppHandleInputEventComt ∧
      callback.func ≠ some callPppDidChangeFocusComt
  | _ => true

/-- Requests of an instance that is gone are turned down, and its handlers are not called. -/
def step (c : Config) (s : State) : Action → Option State
  | .requestInputEvents eventClasses =>
    some (if s.ppI.alive then { s with ppI.eventMask := s.ppI.eventMask ||| eventClasses } else s)
  | .requestFilteringInputEvents eventClasses =>
    some (if s.ppI.alive then
      { s with ppI.filteredEventMask := s.ppI.filteredEventMask ||| eventClasses } else s)
  | .clearInputEventRequest eventClasses =>
    some (if s.ppI.alive then { s with
      ppI.eventMask := s.ppI.eventMask &&& ~~~eventClasses
      ppI.filteredEventMask := s.ppI.filteredEventMask &&& ~~~eventClasses } else s)
  | .showMenu => if s.ppI.alive then some { s with ppI.ignoreFocusEventsCnt := 2 } else none
  | .handleEvent ev stop =>
    if s.ppI.alive ∧ s.toPost = [] then
      let (p,made) := nppHandleEvent c s.ppI stop ev
      some { s with ppI := p, toPost := made, made := s.made ++ made }
    else none
  | .imSignal signal =>
    if s.ppI.alive ∧ s.toPost = [] then
      let made := handleImSignal signal
      some { s with toPost := made, made := s.made ++ made }
    else none
  | .post now => post s now
  | .destroy => if s.ppI.alive then some { s with ppI.alive := false } else none
  | .loop a =>
    if foreign a then (MessageLoop.step s.loop a).map fun loop =>
      (loop.called.drop s.loop.called.length).foldl call { s with loop := loop }
    else none

def machine (c : Config) (refCnt : ℤ) : Machine State Action :=
  ⟨⟨.create refCnt,⟨true,true,0,0,0,0⟩,[],[],[],[]⟩,step c⟩

end InputEvents
end FreshPlayer
