import FreshPlayer.Transition
import Mathlib.Logic.Function.Basic

/-! Completion of Flush and SwapBuffers on the contexts of one instance. The slot for
the callback and the flag that tells it is taken are shared by both kinds of context,
the binding of a context, expose events and the task that empties the slot. One step
is one section under the display lock, or what a thread does between two of them. -/
namespace FreshPlayer
namespace GraphicsCompletion

structure Callback where
  func : Option ℕ
  userData : ℕ
  deriving DecidableEq, Repr

inductive ResourceType
  | graphics2d | graphics3d
  deriving DecidableEq, Repr

/-- A call that passed its checks; `stored` says that its callback went into the slot. -/
structure Call where
  context : ℕ
  callback : Callback
  stored : Bool
  deriving DecidableEq, Repr

/-- A Flush behind its first section. It has its context `acquired` while it paints.
`call` and `stored` are ghosts. -/
structure Flush where
  call : ℕ
  graphics2d : ℕ
  callback : Callback
  ml : ℕ
  stored : Bool
  acquired : Bool
  deriving DecidableEq, Repr

/-- What is posted to message loops. -/
inductive Task
  | graphicsCcbWrapper
  | callback (call : ℕ) (callback : Callback)
  deriving DecidableEq, Repr

/-- A callback that was run, and whether an expose event had been handled since it
was stored. -/
structure Run where
  call : ℕ
  callback : Callback
  exposed : Bool
  deriving DecidableEq, Repr

/-- The instance with its contexts. `exposing` is what the browser thread, inside the
handler of an expose event, has acquired; `unbinding` counts threads that gave back the
reference of the bound context and have not cleared it yet. Ghosts are the calls, the
call whose callback is in the slot, whether an expose event was handled since then, and
the callbacks run. -/
structure State where
  contexts : ℕ → Option ResourceType
  locked : ℕ → Bool
  graphics : ℕ
  graphicsCcb : Callback
  graphicsCcbMl : ℕ
  graphicsInProgress : Bool
  flushes : List Flush
  exposing : Option (Option ℕ)
  unbinding : ℕ
  tasks : List (ℕ × Task)
  calls : List Call
  storedCall : ℕ
  exposed : Bool
  runs : List Run

def State.create : State :=
  ⟨fun _ => none,fun _ => false,0,⟨none,0⟩,0,false,[],none,0,[],[],0,false,[]⟩

def State.setLocked (s : State) (c : ℕ) (b : Bool) : State :=
  { s with locked := Function.update s.locked c b }

/-- Take the slot for the call under way. -/
def State.store (s : State) (callback : Callback) (ml : ℕ) : State :=
  { s with graphicsCcb := callback, graphicsCcbMl := ml, graphicsInProgress := true,
           storedCall := s.calls.length, exposed := false }

def State.addCall (s : State) (context : ℕ) (callback : Callback) (stored : Bool) : State :=
  { s with calls := s.calls ++ [⟨context,callback,stored⟩] }

/-- Flush up to where it gives the display lock back. -/
def ppbGraphics2dFlush (s : State) (graphics2d : ℕ) (callback : Callback) (ml : ℕ) :
    Option State :=
  if s.contexts graphics2d ≠ some .graphics2d then some s
  else if s.locked graphics2d then none
  else if s.graphicsInProgress then some s
  else
    let stored := decide (s.graphics = graphics2d)
    let flush : Flush := ⟨s.calls.length,graphics2d,callback,ml,stored,true⟩
    let t := ((if stored then s.store callback ml else s).addCall graphics2d callback stored)
    some { t.setLocked graphics2d true with flushes := s.flushes ++ [flush] }

/-- The painting is done. -/
def flushRelease (s : State) (i : ℕ) (f : Flush) : Option State :=
  if f.acquired then
    some { s.setLocked f.graphics2d false with flushes := s.flushes.set i { f with acquired := false } }
  else none

/-- The end of Flush, without the display lock. `accepted` is what the message loop of
the thread says to a post. -/
def flushReturn (s : State) (i : ℕ) (f : Flush) (accepted : Bool) : Option State :=
  if f.acquired then none
  else
    let t := { s with flushes := s.flushes.eraseIdx i }
    if f.callback.func ≠ none ∧ s.graphics ≠ f.graphics2d ∧ accepted then
      some { t with tasks := s.tasks ++ [(f.ml,.callback f.call f.callback)] }
    else some t

def ppbGraphics3dSwapBuffers (s : State) (context : ℕ) (callback : Callback) (ml : ℕ) :
    Option State :=
  if s.contexts context ≠ some .graphics3d then some s
  else if s.locked context then none
  else if s.graphics ≠ context then some s
  else if s.graphicsInProgress then some s
  else some ((s.store callback ml).addCall context callback true)

/-- Binding of a device that is not 0. -/
def ppbInstanceBindGraphics (s : State) (device : ℕ) : Option State :=
  if s.contexts device = none then some s
  else if s.locked device then none
  else some { s with graphics := device }

/-- The handler of an expose event acquires what is bound. -/
def exposeAcquire (s : State) : Option State :=
  if s.exposing ≠ none then none
  else if s.contexts s.graphics = none then some { s with exposing := some none }
  else if s.locked s.graphics then none
  else some { s.setLocked s.graphics true with exposing := some (some s.graphics) }

/-- The locked section of the handler, which releases what is bound by now. -/
def handleGraphicsExposeEvent (s : State) (accepted : Bool) : Option State :=
  match s.exposing with
  | none => none
  | some none => some { s with exposing := none }
  | some (some _) =>
    let t := { s.setLocked s.graphics false with exposing := none, exposed := true }
    if s.graphicsInProgress ∧ s.graphicsCcb.func ≠ none ∧ accepted then
      some { t with tasks := s.tasks ++ [(s.graphicsCcbMl,.graphicsCcbWrapper)] }
    else some t

def State.run (s : State) (call : ℕ) (callback : Callback) (exposed : Bool) : State :=
  if callback.func = none then s else { s with runs := s.runs ++ [⟨call,callback,exposed⟩] }

/-- A wrapper empties the slot and runs what was in it. -/
def graphicsCcbWrapperComt (s : State) : State :=
  State.run { s with graphicsCcb := ⟨none,0⟩, graphicsInProgress := false }
    s.storedCall s.graphicsCcb s.exposed

def runTask (s : State) (i : ℕ) (task : Task) : State :=
  let t := { s with tasks := s.tasks.eraseIdx i }
  match task with
  | .graphicsCcbWrapper => graphicsCcbWrapperComt t
  | .callback call callback => t.run call callback false

inductive Action
  | create (type : ResourceType) (c : ℕ)
  | destroy (c : ℕ)
  | flush (graphics2d : ℕ) (callback : Callback) (ml : ℕ)
  | flushRelease (i : ℕ)
  | flushReturn (i : ℕ) (accepted : Bool)
  | swapBuffers (context : ℕ) (callback : Callback) (ml : ℕ)
  | bindGraphics (device : ℕ)
  | unbindRelease
  | unbindClear
  | exposeAcquire
  | exposeDraw (accepted : Bool)
  | run (i : ℕ)
  deriving DecidableEq, Repr

/-- Tasks run in any order, as they are posted to different loops. Binding holds a
reference, so a bound context is only destroyed once an unbinding gave that back. -/
def step (s : State) : Action → Option State
  | .create type c =>
    if c ≠ 0 ∧ s.contexts c = none then
      some { s with contexts := Function.update s.contexts c (some type) }
    else none
  | .destroy c =>
    if s.locked c = false ∧ (c ≠ s.graphics ∨ 0 < s.unbinding) then
      some { s with contexts := Function.update s.contexts c none }
    else none
  | .flush graphics2d callback ml => ppbGraphics2dFlush s graphics2d callback ml
  | .flushRelease i => s.flushes[i]?.bind fun f => flushRelease s i f
  | .flushReturn i accepted => s.flushes[i]?.bind fun f => flushReturn s i f accepted
  | .swapBuffers context callback ml => ppbGraphics3dSwapBuffers s context callback ml
  | .bindGraphics device => ppbInstanceBindGraphics s device
  | .unbindRelease => some { s with unbinding := s.unbinding+1 }
  | .unbindClear =>
    if 0 < s.unbinding then some { s with graphics := 0, unbinding := s.unbinding-1 } else none
  | .exposeAcquire => GraphicsCompletion.exposeAcquire s
  | .exposeDraw accepted => handleGraphicsExposeEvent s accepted
  | .run i => s.tasks[i]?.map fun t => runTask s i t.2

def machine : Machine State Action := ⟨.create,step⟩

end GraphicsCompletion
end FreshPlayer
