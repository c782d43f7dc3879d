import FreshPlayer.Transition
import Mathlib.Algebra.Order.Ring.Int
import Mathlib.Logic.Function.Basic

/-! Fullscreen mode. One thread makes the window, hands the events that its connection to the
X server brings over to the instance, and takes the window away; another one times it. One
label is one section that no other thread can observe half done. -/
namespace FreshPlayer
namespace Fullscreen

/-- Every event names the window it was sent to. `windowNotify` is one of those that tell about
the window itself, `input` one the window selects that is none of the others. -/
inductive XEvent
  | keyPress (window : ℕ) (escape : Bool)
  | clientMessage (window messageType : ℕ) (data : ℤ)
  | configureNotify (window : ℕ) (width height : ℤ)
  | windowNotify (window : ℕ)
  | graphicsExpose (drawable : ℕ) (width height : ℤ)
  | input (window : ℕ)
  deriving DecidableEq, Repr

def XEvent.window : XEvent → ℕ
  | .keyPress w _ | .clientMessage w _ _ | .configureNotify w _ _ | .windowNotify w
  | .graphicsExpose w _ _ | .input w => w

def XEvent.isExpose : XEvent → Bool
  | .graphicsExpose _ _ _ => true
  | _ => false

/-- The setting, and the atoms the server has for two names. -/
structure Config where
  enableVsync : Bool
  wmDeleteWindowAtom : ℕ
  freshwrappercommandAtom : ℕ
  deriving DecidableEq, Repr

def fscmdFullscreenWaitIsOver : ℤ := 1

def fscmdVsync : ℤ := 2

/-- `destroyed` when the tables have the instance no more. Its memory is still read then. -/
structure Instance where
  wnd : ℕ
  width : ℤ
  height : ℤ
  fsWnd : ℕ
  fsWidth : ℤ
  fsHeight : ℤ
  fsWidthCurrent : ℤ
  fsHeightCurrent : ℤ
  isFullscreen : Bool
  isFullscreenApparent : Bool
  instanceLoaded : Bool
  destroyed : Bool
  deriving DecidableEq, Repr

/-- The local variables of `fullscreen_window_thread_int`. -/
structure Activation where
  ppI : ℕ
  calledDidChangeView : Bool
  graphicsExposeEventsInQueue : ℕ
  quitMessageReceived : Bool
  graphicsExposeWasAtLeastOnce : Bool
  deriving DecidableEq, Repr

/-- Where the fullscreen thread is. At `getBrowserWindow`, `enterView`, `handleEvent`,
`leaveView` and `drainEvent` it waits for another thread to call back. -/
inductive Thread
  | idle
  | popped (ppI : ℕ)
  | getBrowserWindow (ppI : ℕ) (width height : ℤ)
  | nextEvent (a : Activation)
  | enterView (a : Activation)
  | handleEvent (a : Activation) (ev : XEvent)
  | leaveView (a : Activation)
  | drain (a : Activation)
  | drainEvent (a : Activation) (ev : XEvent)
  | join
  deriving DecidableEq, Repr

/-- The delay thread of an instance sleeps first. -/
inductive Delay
  | sleeping (ppI : ℕ) | waiting (ppI : ℕ)
  deriving DecidableEq, Repr

/-- A call to SetFullscreen behind its first section. -/
inductive Call
  | enter (ppI : ℕ) | leave (ppI : ℕ) | escape (ppI : ℕ)
  deriving DecidableEq, Repr

inductive Sender
  | setFullscreen | delayThread | graphics2d | graphics3d
  deriving DecidableEq, Repr

/-- An event given to NPP_HandleEvent, which may ignore it. -/
structure Handed where
  ppI : ℕ
  ev : XEvent
  heeded : Bool
  deriving DecidableEq, Repr

/-- A call of `call_did_change_view`. The plugin is told unless the instance is not loaded yet or
was destroyed. -/
structure View where
  ppI : ℕ
  fullscreen : Bool
  told : Bool
  width : ℤ
  height : ℤ
  deriving DecidableEq, Repr

/-- `windows` has the windows of the thread that were not destroyed, `events` what its
connection brought, `redraws` the events that graphics 2d contexts are about to send. Ghosts
are the requests made, the expose events taken from the connection, what was handed over and
what no instance was there for, the views, and who sent an event to a window that is gone. -/
structure State where
  instances : ℕ → Instance
  made : ℕ
  windows : List ℕ
  events : List XEvent
  fullscreenTransitionQueue : List ℕ
  currentlyFullscreen : Bool
  runDelayThread : Bool
  thread : Thread
  delay : Option Delay
  calls : List Call
  redraws : List XEvent
  requested : List ℕ
  received : ℕ
  handed : List Handed
  skipped : List (ℕ × XEvent)
  views : List View
  lost : List Sender

def Instance.create : Instance := ⟨0,0,0,0,0,0,0,0,false,false,false,false⟩

def State.create : State :=
  ⟨fun _ => .create,0,[],[],[],false,true,.idle,none,[],[],[],0,[],[],[],[]⟩

def State.set (s : State) (i : ℕ) (p : Instance) : State :=
  { s with instances := Function.update s.instances i p }

/-- XSendEvent. Events for a window reach the client that made it. -/
def State.send (s : State) (who : Sender) (ev : XEvent) : State :=
  if ev.window ∈ s.windows then { s with events := s.events ++ [ev] }
  else { s with lost := s.lost ++ [who] }

def ppbFlashFullscreenIsFullscreen (s : State) (i : ℕ) : Bool :=
  let p := s.instances i
  !p.destroyed && p.isFullscreenApparent

def ppbFlashFullscreenSetFullscreen (s : State) (i : ℕ) (fullscreen : Bool) : State :=
  if (s.instances i).destroyed ∨ fullscreen = (s.instances i).isFullscreen then s
  else { s with calls := s.calls ++ [if fullscreen then .enter i else .leave i] }

/-- The next section of a call to SetFullscreen. -/
def setFullscreenProceed (s : State) (k : ℕ) : Call → State
  | .enter i =>
    let t := { s with calls := s.calls.eraseIdx k }
    if s.currentlyFullscreen then t
    else { t with
      fullscreenTransitionQueue := s.fullscreenTransitionQueue ++ [i]
      requested := s.requested ++ [i] }
  | .leave i =>
    if s.currentlyFullscreen then { s with calls := s.calls.set k (.escape i) }
    else { s with calls := s.calls.eraseIdx k }
  | .escape i =>
    let p := { s.instances i with isFullscreen := false }
    (State.set { s with calls := s.calls.eraseIdx k } i p).send .setFullscreen
      (.keyPress p.fsWnd true)

/-- The expose event of `call_forceredraw_ptac`, if the instance is fullscreen. -/
def redrawEvent (s : State) (i : ℕ) : Option XEvent :=
  let p := s.instances i
  if !p.destroyed && p.isFullscreen then some (.graphicsExpose p.fsWnd p.fsWidth p.fsHeight)
  else none

def craftGraphicsexposeEvent (p : Instance) : XEvent := .graphicsExpose p.fsWnd p.fsWidth p.fsHeight

def callDidChangeViewComt (s : State) (i : ℕ) (fullscreen : Bool) : State :=
  let p := s.instances i
  let told := !p.destroyed && p.instanceLoaded
  let p := if told then { p with
      fsWidth := p.fsWidthCurrent, fsHeight := p.fsHeightCurrent, isFullscreenApparent := fullscreen }
    else p
  let width := if fullscreen then p.fsWidth else p.width
  let height := if fullscreen then p.fsHeight else p.height
  { s.set i p with views := s.views ++ [⟨i,fullscreen,told,width,height⟩] }

/-- A fullscreen instance ignores events of other windows. -/
def handleEventPtac (s : State) (i : ℕ) (ev : XEvent) : State :=
  let p := s.instances i
  if p.destroyed then { s with skipped := s.skipped ++ [(i,ev)] }
  else { s with handed := s.handed ++ [⟨i,ev,!p.isFullscreen || p.fsWnd == ev.window⟩] }

/-- The switch on an event just taken from the connection. -/
def handleXEvent (c : Config) (s : State) (a : Activation) : XEvent → State
  | .keyPress w escape =>
    let a := if escape then { a with quitMessageReceived := true } else a
    { s with thread := .handleEvent a (.keyPress w escape) }
  | .clientMessage _ messageType data =>
    let a := if data = c.wmDeleteWindowAtom then { a with quitMessageReceived := true } else a
    if messageType = c.freshwrappercommandAtom then
      if data = fscmdFullscreenWaitIsOver ∧ !a.calledDidChangeView then { s with thread := .enterView a }
      else if data = fscmdVsync ∧ 0 < a.graphicsExposeEventsInQueue then
        let a := { a with
          graphicsExposeEventsInQueue := a.graphicsExposeEventsInQueue-1
          graphicsExposeWasAtLeastOnce := true }
        { s with thread := .handleEvent a (craftGraphicsexposeEvent (s.instances a.ppI)) }
      else { s with thread := .nextEvent a }
    else { s with thread := .nextEvent a }
  | .configureNotify _ width height =>
    let p := { s.instances a.ppI with fsWidthCurrent := width, fsHeightCurrent := height }
    { s.set a.ppI p with thread := .nextEvent a }
  | .windowNotify _ => { s with thread := .nextEvent a }
  | .graphicsExpose w width height =>
    let s := { s with received := s.received+1 }
    if c.enableVsync then
      let a := { a with graphicsExposeEventsInQueue := a.graphicsExposeEventsInQueue+1 }
      { s with thread := .nextEvent a }
    else
      let a := { a with graphicsExposeWasAtLeastOnce := true }
      { s with thread := .handleEvent a (.graphicsExpose w width height) }
  | .input w => { s with thread := .handleEvent a (.input w) }

/-- Behind the loop the window is destroyed. -/
def quitAndDestroyFsWnd (s : State) (a : Activation) : State :=
  let p := { s.instances a.ppI with isFullscreen := false, isFullscreenApparent := false }
  { s.set a.ppI p with windows := s.windows.erase p.fsWnd, thread := .leaveView a }

/-- What the thread does by itself, up to where it waits for another thread. -/
def fullscreenWindowThread (c : Config) (s : State) (width height : ℤ) : Option State :=
  match s.thread with
  | .idle => match s.fullscreenTransitionQueue with
    | [] => none
    | i::rest => some { s with fullscreenTransitionQueue := rest, thread := .popped i }
  | .popped i =>
    let p := { s.instances i with fsWnd := s.made }
    some { s.set i p with
      currentlyFullscreen := true, runDelayThread := true, delay := some (.sleeping i)
      made := s.made+1, windows := s.made::s.windows, thread := .getBrowserWindow i width height }
  | .nextEvent a =>
    if a.quitMessageReceived ∧ a.graphicsExposeWasAtLeastOnce then some (quitAndDestroyFsWnd s a)
    else match s.events with
      | [] => none
      | ev::rest => some (handleXEvent c { s with events := rest } a ev)
  | .drain a =>
    if 0 < a.graphicsExposeEventsInQueue then
      let p := s.instances a.ppI
      some { s with thread := .drainEvent a (.graphicsExpose p.wnd p.width p.height) }
    else some { s with runDelayThread := false, thread := .join }
  | .join =>
    if s.delay = none then some { s with currentlyFullscreen := false, thread := .idle } else none
  | .getBrowserWindow _ _ _ | .enterView _ | .handleEvent _ _ | .leaveView _ | .drainEvent _ _ =>
    none

/-- The call that the thread waits for is made, and the thread goes on. -/
def callReturns (s : State) : Option State :=
  match s.thread with
  | .getBrowserWindow i width height =>
    let p := { s.instances i with
      isFullscreen := true, fsWidthCurrent := width, fsHeightCurrent := height }
    some { s.set i p with thread := .nextEvent ⟨i,false,0,false,false⟩ }
  | .enterView a =>
    let t := callDidChangeViewComt s a.ppI true
    -- an expose event that was not asked for, in case some was lost
    let ev := craftGraphicsexposeEvent (t.instances a.ppI)
    some { t with thread := .handleEvent { a with calledDidChangeView := true } ev }
  | .handleEvent a ev => some { handleEventPtac s a.ppI ev with thread := .nextEvent a }
  | .leaveView a => some { callDidChangeViewComt s a.ppI false with thread := .drain a }
  | .drainEvent a ev =>
    let a := { a with graphicsExposeEventsInQueue := a.graphicsExposeEventsInQueue-1 }
    some { handleEventPtac s a.ppI ev with thread := .drain a }
  | .idle | .popped _ | .nextEvent _ | .drain _ | .join => none

/-- A command to the fullscreen thread. -/
def command (c : Config) (s : State) (i : ℕ) (cmd : ℤ) : State :=
  let p := s.instances i
  if p.isFullscreen then
    s.send .delayThread (.clientMessage p.fsWnd c.freshwrappercommandAtom cmd)
  else s

def delayThread (c : Config) (s : State) : Option State :=
  s.delay.map fun
    | .sleeping i => { command c s i fscmdFullscreenWaitIsOver with delay := some (.waiting i) }
    | .waiting i =>
      if s.runDelayThread then if c.enableVsync then command c s i fscmdVsync else s
      else { s with delay := none }

/-- `xEvent` is an event that no part of this sends, `destroy` is `tables_remove_pp_instance`. -/
inductive Action
  | setFullscreen (i : ℕ) (fullscreen : Bool)
  | proceed (k : ℕ)
  | forceredraw2d (i : ℕ)
  | sendRedraw (k : ℕ)
  | forceredraw3d (i : ℕ)
  | setWindow (i wnd : ℕ) (width height : ℤ)
  | load (i : ℕ)
  | destroy (i : ℕ)
  | xEvent (ev : XEvent)
  | thread (width height : ℤ)
  | callReturns
  | delayThread
  deriving DecidableEq, Repr

def step (c : Config) (s : State) : Action → Option State
  | .setFullscreen i fullscreen => some (ppbFlashFullscreenSetFullscreen s i fullscreen)
  | .proceed k => (s.calls[k]?).map (setFullscreenProceed s k)
  | .forceredraw2d i => some { s with redraws := s.redraws ++ (redrawEvent s i).toList }
  | .sendRedraw k => (s.redraws[k]?).map
      (State.send { s with redraws := s.redraws.eraseIdx k } .graphics2d)
  | .forceredraw3d i => some ((redrawEvent s i).elim s (s.send .graphics3d))
  | .setWindow i wnd width height =>
    some (s.set i { s.instances i with wnd := wnd, width := width, height := height })
  | .load i => some (s.set i { s.instances i with instanceLoaded := true })
  | .destroy i => some (s.set i { s.instances i with destroyed := true })
  | .xEvent ev => if ev.window ∈ s.windows then some { s with events := s.events ++ [ev] } else none
  | .thread width height => fullscreenWindowThread c s width height
  | .callReturns => callReturns s
  | .delayThread => delayThread c s

def machine (c : Config) : Machine State Action := ⟨.create,step c⟩

end Fullscreen
end FreshPlayer
