import FreshPlayer.Holdings
import FreshPlayer.Rendezvous

/-! The windows of plugin instances and the thread that waits for their X events. The browser
thread registers and unregisters windows by calls to that thread; events come back to it as
asynchronous calls. -/
namespace FreshPlayer
namespace X11EventThread

open Rendezvous

/-- Windows the browser names, and windows this connection made in their order. -/
inductive Window
  | browser (n : ℕ) | own (n : ℕ)
  deriving DecidableEq, Repr

/-- `None`, which the browser may pass as well. -/
def Window.none : Window := .browser 0

inductive XEmbed
  | embeddedNotify | windowActivate | windowDeactivate | modalityOn | modalityOff
  | focusIn | focusOut | unknown (n : ℕ)
  deriving DecidableEq, Repr

inductive EventType
  | clientMessage (message : XEmbed) | buttonPress | focusIn | focusOut | other (n : ℕ)
  deriving DecidableEq, Repr

structure XEvent where
  window : Window
  type : EventType
  deriving DecidableEq, Repr

structure Entry where
  instanceId : ℕ
  proc : Bool
  isXembed : Bool
  plugWnd : Window
  deriving DecidableEq, Repr

inductive Cmd
  | registerWindow | unregisterWindow
  deriving DecidableEq, Repr

structure Task where
  socketWnd : Window
  cmd : Cmd
  deriving DecidableEq, Repr

/-- What `NPP_SetWindow` and `NPP_Destroy` need of an instance in windowed mode. -/
structure Instance where
  wnd : Window
  destroying : Bool
  deriving DecidableEq, Repr

/-- A call of `call_handle_event_ptac` on its way, for the instance it was asked for. -/
structure Ptac where
  event : XEvent
  target : ℕ
  deriving DecidableEq, Repr

/-- An event handed to an instance; `socket` is where it was found registered. -/
structure Delivery where
  call : Ptac
  socket : Window
  instanceId : ℕ
  deriving DecidableEq, Repr

/-- `made` counts the windows made here. `requested` and `delivered` are ghosts: the sockets
asked for the focus and the events that reached an instance. -/
structure Data where
  ht : AList fun _ : Window => Entry
  socketHt : AList fun _ : Window => Window
  taskPipe : List Task
  instances : AList fun _ : ℕ => Instance
  nextInstance : ℕ
  made : ℕ
  ptacs : List Ptac
  requested : List Window
  delivered : List Delivery
  deriving DecidableEq

def Data.create : Data := ⟨∅,∅,[],∅,10,0,[],[],[]⟩

/-- A task read from the pipe. A plug window is made in the socket where XEmbed is used. -/
def x11etHandleTask (d : Data) : Data :=
  match d.taskPipe with
  | [] => d
  | task::rest =>
    let d := { d with taskPipe := rest }
    match d.ht.lookup task.socketWnd with
    | none => d
    | some entry => match task.cmd with
      | .registerWindow =>
        let plug := if entry.isXembed then .own d.made else entry.plugWnd
        { d with
          ht := d.ht.insert task.socketWnd { entry with plugWnd := plug }
          socketHt := d.socketHt.insert plug task.socketWnd
          made := if entry.isXembed then d.made+1 else d.made }
      | .unregisterWindow => { d with socketHt := d.socketHt.erase entry.plugWnd }

/-- What XEmbed makes of an event: most of its messages and all native focus events are
skipped, its focus messages become focus events. -/
def xembedEvent (ev : XEvent) : Option XEvent :=
  match ev.type with
  | .clientMessage .focusIn => some { ev with type := .focusIn }
  | .clientMessage .focusOut => some { ev with type := .focusOut }
  | .clientMessage _ | .focusIn | .focusOut => none
  | .buttonPress | .other _ => some ev

def x11etHandleXevent (d : Data) (ev : XEvent) : Data :=
  let socketWnd := (d.socketHt.lookup ev.window).getD .none
  match d.ht.lookup socketWnd with
  | none => d
  | some entry =>
    let d := if entry.isXembed = true ∧ ev.type = .buttonPress then
      { d with requested := d.requested ++ [socketWnd] } else d
    match (if entry.isXembed then xembedEvent ev else some ev) with
    | none => d
    | some ev =>
      if (d.instances.lookup entry.instanceId).isSome then
        { d with ptacs := d.ptacs ++ [⟨ev,entry.instanceId⟩] }
      else d

def callHandleEventPtac (d : Data) (call : Ptac) : Data :=
  let socketWnd := (d.socketHt.lookup call.event.window).getD .none
  match d.ht.lookup socketWnd with
  | none => d
  | some entry =>
    if entry.proc = true ∧ (d.instances.lookup entry.instanceId).isSome = true then
      { d with delivered := d.delivered ++ [⟨call,socketWnd,entry.instanceId⟩] }
    else d

/-- Calls of the browser that go through the thread: `NPP_SetWindow` with a window that is
not registered, `NPP_Destroy` with one that is. -/
inductive Call
  | setWindow (instanceId n : ℕ)
  | destroy (instanceId : ℕ)
  deriving DecidableEq, Repr

/-- What the browser thread does besides. The two calls return at once when the table has
the window already, or has it not. -/
inductive Act
  | new
  | setWindowAgain (instanceId n : ℕ)
  | destroyUnregistered (instanceId : ℕ)
  | didDestroy (instanceId : ℕ)
  | ptac (k : ℕ)
  deriving DecidableEq, Repr

/-- An instance that `NPP_Destroy` was not called for. -/
def Data.alive (d : Data) (i : ℕ) : Option Instance :=
  (d.instances.lookup i).filter fun inst => !inst.destroying

/-- The table is changed and the task written before the caller waits. `NPP_SetWindow` has
stored the window of the browser in the instance by then. -/
def post (useXembed : Bool) (d : Data) : Call → Option Data
  | .setWindow i n => (d.alive i).bind fun inst =>
    match d.ht.lookup (.browser n) with
    | some _ => none
    | none => some { d with
        ht := d.ht.insert (.browser n) ⟨i,true,useXembed,.browser n⟩
        instances := d.instances.insert i { inst with wnd := .browser n }
        taskPipe := d.taskPipe ++ [⟨.browser n,.registerWindow⟩] }
  | .destroy i => (d.alive i).bind fun inst =>
    match d.ht.lookup inst.wnd with
    | none => none
    | some _ => some { d with
        instances := d.instances.insert i { inst with destroying := true }
        taskPipe := d.taskPipe ++ [⟨inst.wnd,.unregisterWindow⟩] }

/-- Behind the barrier: `NPP_SetWindow` stores the plug window in the instance, where
`NPP_Destroy` looks for the window to unregister. -/
def finish (d : Data) : Call → Data
  | .setWindow i n => match d.instances.lookup i, d.ht.lookup (.browser n) with
    | some inst, some entry =>
      { d with instances := d.instances.insert i { inst with wnd := entry.plugWnd } }
    | _, _ => d
  | .destroy i => match d.instances.lookup i with
    | some inst => { d with ht := d.ht.erase inst.wnd }
    | none => d

def act (d : Data) : Act → Option Data
  | .new => some { d with
      instances := d.instances.insert d.nextInstance ⟨.none,false⟩
      nextInstance := d.nextInstance+1 }
  | .setWindowAgain i n => (d.alive i).bind fun inst =>
    (d.ht.lookup (.browser n)).map fun entry =>
      { d with instances := d.instances.insert i { inst with wnd := entry.plugWnd } }
  | .destroyUnregistered i => (d.alive i).bind fun inst =>
    match d.ht.lookup inst.wnd with
    | some _ => none
    | none => some { d with instances := d.instances.insert i { inst with destroying := true } }
  | .didDestroy i =>
    match d.instances.lookup i with
    | some ⟨_,true⟩ => some { d with instances := d.instances.erase i }
    | _ => none
  | .ptac k => (d.ptacs[k]?).map fun call =>
    callHandleEventPtac { d with ptacs := d.ptacs.eraseIdx k } call

def service (useXembed : Bool) : Service Data Call Unit XEvent Act where
  look _ := none
  post := post useXembed
  pending d := !d.taskPipe.isEmpty
  serve d _ := x11etHandleTask d
  work := x11etHandleXevent
  act := act
  finish := finish

abbrev machine (useXembed : Bool) :
    Machine (State Data Call Unit) (Label Call Unit XEvent Act Unit) :=
  Rendezvous.machine (service useXembed) Data.create

end X11EventThread
end FreshPlayer
