import FreshPlayer.KeyTree
import FreshPlayer.Transition
import Mathlib.Algebra.Order.Ring.Int

/-! The message loop: posting, quitting and the nested `run_int` activations of
its thread. One label is one section that no other thread can observe half
done; labels carry the clock readings and the arguments of the calls. -/
namespace FreshPlayer
namespace MessageLoop

structure Timespec where
  tvSec : ℤ
  tvNsec : ℤ
  deriving DecidableEq, Repr

structure Callback where
  func : Option ℕ
  userData : ℕ
  deriving DecidableEq, Repr

/-- Whom a run or a quit belongs to. The code stores no such thing, only depths. -/
inductive Owner
  | loop | call (n : ℕ) | flash (r : ℕ)
  deriving DecidableEq, Repr

/-- `id` stands for the address of the allocated block, `addressee` is a ghost. -/
structure Task where
  id : ℕ
  when : Timespec
  terminate : Bool
  depth : ℤ
  ccb : Callback
  resultToPass : ℤ
  shouldDestroyMl : Bool
  addressee : Owner
  deriving DecidableEq, Repr

inductive Status
  | ok | badArgument | badResource | failed | inProgress | wrongThread
  deriving DecidableEq, Repr

structure Flags where
  nested : Bool
  increaseDepth : Bool
  exitOnEmpty : Bool
  deriving DecidableEq, Repr

def taskTreeCompareFunc (a b : Task) : Ordering :=
  if a.when.tvSec < b.when.tvSec then .lt
  else if a.when.tvSec > b.when.tvSec then .gt
  else if a.when.tvNsec < b.when.tvNsec then .lt
  else if a.when.tvNsec > b.when.tvNsec then .gt
  else .eq

theorem taskTreeCompareFunc_eq (a b : Task) : taskTreeCompareFunc a b =
    compareLex (compareOn fun t : Task => t.when.tvSec) (compareOn fun t => t.when.tvNsec) a b := by
  simp only [taskTreeCompareFunc,compareLex,compareOn,compare,compareOfLessAndEq]
  split_ifs <;> first | rfl | omega

instance : Std.TransCmp taskTreeCompareFunc := by
  rw [show taskTreeCompareFunc = _ from funext fun a => funext (taskTreeCompareFunc_eq a)]
  infer_instance

/-- Keys are equal exactly when the due times are. -/
theorem taskTreeCompareFunc_eq_iff (a b : Task) :
    taskTreeCompareFunc a b = .eq ↔ a.when = b.when := by
  obtain ⟨_,⟨s,n⟩,_⟩ := a
  obtain ⟨_,⟨s',n'⟩,_⟩ := b
  simp only [taskTreeCompareFunc,Timespec.mk.injEq]
  split_ifs <;> simp <;> omega

/-- The carry loop of the posting function, one nanosecond overflow a round. -/
def carry : ℕ → Timespec → Timespec
  | 0, t => t
  | n+1, t =>
    if 1000*1000*1000 ≤ t.tvNsec then carry n ⟨t.tvSec+1,t.tvNsec-1000*1000*1000⟩ else t

/-- Absolute time a callback should be run at. -/
def dueTime (now : Timespec) (delayMs : ℤ) : Timespec :=
  let t : Timespec := ⟨now.tvSec + delayMs.tdiv 1000,now.tvNsec + delayMs.tmod 1000*1000*1000⟩
  carry (t.tvNsec/(1000*1000*1000)).toNat t

/-- Microseconds until a task is due, in 64-bit arithmetic. -/
def timeoutOf (task : Task) (now : Timespec) : ℤ :=
  ((task.when.tvSec - now.tvSec)*1000*1000 + (task.when.tvNsec - now.tvNsec).tdiv 1000).bmod (2^64)

/-- Position of one `run_int` activation. -/
inductive Pc
  | pumping | looping | calling (task : Task) | waiting (timeout : ℤ) | leaving
  deriving DecidableEq, Repr

/-- The local variables of one activation; `owner` and `cause` are ghosts, the
latter is the addressee of the last quit the activation consumed. -/
structure Frame where
  flags : Flags
  savedRunning : Bool
  savedTeardown : Bool
  teardown : Bool
  destroyMl : Bool
  depth : ℤ
  pc : Pc
  owner : Owner
  cause : Option Owner
  deriving DecidableEq, Repr

/-- The two queues of a loop with, as ghosts, the tasks accepted, taken out of
`int_q` and called, in that order. -/
structure Ledger where
  asyncQ : List Task
  intQ : KeyTree Task taskTreeCompareFunc
  accepted : List Task
  taken : List Task
  called : List Task

namespace Ledger

/-- `g_async_queue_push` of a task just allocated. -/
def accept (L : Ledger) (x : Task) : Ledger :=
  { L with asyncQ := L.asyncQ ++ [x], accepted := L.accepted ++ [x] }

/-- A pop of `async_q` followed by `g_tree_insert` of what it returned. -/
def move (L : Ledger) : Ledger :=
  match L.asyncQ with
  | [] => L
  | x::rest => { L with asyncQ := rest, intQ := L.intQ.insert x }

/-- `g_tree_remove` of a task that is now run or consumed. -/
def take (L : Ledger) (x : Task) : Ledger :=
  { L with
    intQ := L.intQ.remove x
    taken := L.taken ++ [x]
    called := if x.terminate || x.ccb.func = none then L.called else L.called ++ [x] }

/-- Both queues are destroyed with what they hold. -/
def discard (L : Ledger) : Ledger := { L with asyncQ := [], intQ := .empty }

end Ledger

/-- The loop resource and the activations on its thread, innermost first. -/
structure State extends Ledger where
  running : Bool
  teardown : Bool
  depth : ℤ
  refCnt : ℤ
  frames : List Frame

def State.create (refCnt : ℤ) : State := ⟨⟨[],.empty,[],[],[]⟩,false,false,0,refCnt,[]⟩

/-- The resource table still holds the loop, so it can be acquired. -/
def State.alive (s : State) : Bool := 0 < s.refCnt

/-- Allocate the next task block and push it onto `async_q`. -/
def pushTask (s : State) (when : Timespec) (terminate : Bool) (depth : ℤ) (ccb : Callback)
    (resultToPass : ℤ) (shouldDestroyMl : Bool) (addressee : Owner) : State :=
  let task : Task :=
    ⟨s.accepted.length,when,terminate,depth,ccb,resultToPass,shouldDestroyMl,addressee⟩
  { s with toLedger := s.toLedger.accept task }

def ppbMessageLoopPostWorkWithResult (s : State) (browserThreadLoop : Bool) (callback : Callback)
    (delayMs resultToPass depth : ℤ) (now : Timespec) : Status × State :=
  if callback.func = none then (.badArgument,s)
  else if !s.alive then (.badResource,s)
  else if !browserThreadLoop && (s.running && s.teardown) then (.failed,s)
  else (.ok,pushTask s (dueTime now delayMs) false depth callback resultToPass false .loop)

def ppbMessageLoopPostQuitDepth (s : State) (shouldDestroy : Bool) (depth : ℤ) (now : Timespec)
    (addressee : Owner) : Status × State :=
  if !s.alive then (.badResource,s)
  else (.ok,pushTask s now true depth ⟨none,0⟩ 0 shouldDestroy addressee)

def ppbMessageLoopGetDepth (s : State) : ℤ := if s.alive then s.depth else 0

/-- Appropriate are tasks of depth 0, of the current depth, and those left from
a previous nesting. -/
def taskTreeTraverseFunc (currentDepth : ℤ) (task : Task) : Bool :=
  task.depth = 0 || currentDepth ≤ task.depth

def findFirstTaskWithAppropriateDepth (q : KeyTree Task taskTreeCompareFunc) (currentDepth : ℤ) :
    Option Task := q.first (taskTreeTraverseFunc currentDepth)

/-- The last reference takes both queues with it. -/
def ppbMessageLoopDestroy (s : State) : State := { s with toLedger := s.toLedger.discard }

def ppResourceUnref (s : State) : State :=
  if !s.alive then s
  else
    let t := { s with refCnt := s.refCnt-1 }
    if t.alive then t else ppbMessageLoopDestroy t

/-- `run_int` up to its loop: the checks, the saved state and the reference. -/
def runIntEnter (s : State) (attached : Bool) (flags : Flags) (owner : Owner) : Status × State :=
  if !attached then (.wrongThread,s)
  else if !s.alive then (.badResource,s)
  else if !flags.nested && s.running then (.inProgress,s)
  else
    let depth := if flags.increaseDepth then s.depth+1 else s.depth
    let frame : Frame :=
      { flags := flags, savedRunning := s.running, savedTeardown := s.teardown,
        teardown := false, destroyMl := false, depth := depth,
        pc := if flags.exitOnEmpty then .pumping else .looping, owner := owner, cause := none }
    (.ok,{ s with running := true, teardown := false, depth := depth, refCnt := s.refCnt+1,
                  frames := frame::s.frames })

/-- One `try_pop` of the pump that runs before a loop with `ML_EXIT_ON_EMPTY`. -/
def runIntPump (s : State) (f : Frame) (fs : List Frame) : State :=
  if s.asyncQ = [] then { s with frames := { f with pc := .looping }::fs }
  else { s with toLedger := s.toLedger.move }

/-- A task whose time has come, after it was removed from `int_q`. -/
def runIntDue (s : State) (f : Frame) (fs : List Frame) (task : Task) : State :=
  if task.terminate then
    if 1 < f.depth || !f.flags.increaseDepth then
      -- a nested loop: exit at once, the outer loop processes what remains
      { s with frames := { f with pc := .leaving, cause := some task.addressee }::fs }
    else if s.alive then
      { s with teardown := true,
               frames := { f with teardown := true, destroyMl := task.shouldDestroyMl,
                                  cause := some task.addressee }::fs }
    else { s with frames := { f with cause := some task.addressee }::fs }
  else if task.ccb.func = none then s
  else { s with frames := { f with pc := .calling task }::fs }

/-- The top of `while (1)`. -/
def runIntIterate (s : State) (f : Frame) (fs : List Frame) (now : Timespec) : State :=
  match findFirstTaskWithAppropriateDepth s.intQ f.depth with
  | some task =>
    if timeoutOf task now ≤ 0 then
      runIntDue { s with toLedger := s.toLedger.take task } f fs task
    else { s with frames := { f with pc := .waiting (timeoutOf task now) }::fs }
  | none =>
    if f.teardown || f.flags.exitOnEmpty then { s with frames := { f with pc := .leaving }::fs }
    else { s with frames := { f with pc := .waiting (1000*1000) }::fs }

/-- The timed pop at the bottom of the loop; it gives up on an empty queue only. -/
def runIntPop (s : State) (f : Frame) (fs : List Frame) : State :=
  { s with toLedger := s.toLedger.move, frames := { f with pc := .looping }::fs }

/-- Behind the loop, the thread is marked as non-running. -/
def runIntRestore (s : State) (f : Frame) : State :=
  if s.alive then
    { s with
      depth := if f.flags.increaseDepth then s.depth-1 else s.depth
      running := if f.flags.nested then f.savedRunning else false
      teardown := if f.flags.nested then f.savedTeardown else s.teardown }
  else s

/-- The end of `run_int`, which also gives its references back. -/
def runIntLeave (s : State) (f : Frame) (fs : List Frame) : State :=
  let t := ppResourceUnref (runIntRestore s f)
  { (if f.destroyMl then ppResourceUnref t else t) with frames := fs }

inductive Action
  | postWork (browserThreadLoop : Bool) (callback : Callback) (delayMs result depth : ℤ)
      (now : Timespec)
  | postQuitDepth (shouldDestroy : Bool) (depth : ℤ) (now : Timespec) (addressee : Owner)
  | enter (attached : Bool) (flags : Flags) (owner : Owner)
  | pump
  | iterate (now : Timespec)
  | pop
  | callbackReturns
  | leave
  deriving DecidableEq, Repr

/-- Posts come from any thread at any time. The loop's own thread enters `run_int`
from outside every loop or from a callback, and otherwise advances the innermost
activation. -/
def step (s : State) : Action → Option State
  | .postWork b callback delayMs result depth now =>
    some (ppbMessageLoopPostWorkWithResult s b callback delayMs result depth now).2
  | .postQuitDepth d depth now addressee =>
    some (ppbMessageLoopPostQuitDepth s d depth now addressee).2
  | .enter attached flags owner =>
    match s.frames with
    | [] => some (runIntEnter s attached flags owner).2
    | f::_ => match f.pc with
      | .calling _ => some (runIntEnter s attached flags owner).2
      | _ => none
  | .pump => match s.frames with
    | f::fs => if f.pc = .pumping then some (runIntPump s f fs) else none
    | [] => none
  | .iterate now => match s.frames with
    | f::fs => if f.pc = .looping then some (runIntIterate s f fs now) else none
    | [] => none
  | .pop => match s.frames with
    | f::fs => match f.pc with
      | .waiting _ => some (runIntPop s f fs)
      | _ => none
    | [] => none
  | .callbackReturns => match s.frames with
    | f::fs => match f.pc with
      | .calling _ => some { s with frames := { f with pc := .looping }::fs }
      | _ => none
    | [] => none
  | .leave => match s.frames with
    | f::fs => if f.pc = .leaving then some (runIntLeave s f fs) else none
    | [] => none

def machine (refCnt : ℤ) : Machine State Action := ⟨.create refCnt,step⟩

/-! What a step that is taken finds, and where it leads. -/

variable {s t : State}

theorem step_enter {b : Bool} {flags : Flags} {o : Owner} (h : step s (.enter b flags o) = some t) :
    (∀ f ∈ s.frames.head?, ∃ task, f.pc = .calling task) ∧ t = (runIntEnter s b flags o).2 := by
  simp only [step] at h
  split at h
  · rename_i hf
    cases h
    exact ⟨fun f hm => by simp [hf] at hm,rfl⟩
  · rename_i f fs hf
    split at h <;> cases h
    rename_i task hp
    refine ⟨fun g hm => ⟨task,?_⟩,rfl⟩
    rw [hf] at hm
    cases hm
    exact hp

theorem step_pump (h : step s .pump = some t) :
    ∃ f fs, s.frames = f::fs ∧ f.pc = .pumping ∧ t = runIntPump s f fs := by
  simp only [step] at h
  (repeat' split at h) <;> cases h
  rename_i f fs hf hp
  exact ⟨f,fs,hf,hp,rfl⟩

theorem step_iterate {now : Timespec} (h : step s (.iterate now) = some t) :
    ∃ f fs, s.frames = f::fs ∧ f.pc = .looping ∧ t = runIntIterate s f fs now := by
  simp only [step] at h
  (repeat' split at h) <;> cases h
  rename_i f fs hf hp
  exact ⟨f,fs,hf,hp,rfl⟩

theorem step_pop (h : step s .pop = some t) :
    ∃ f fs timeout, s.frames = f::fs ∧ f.pc = .waiting timeout ∧ t = runIntPop s f fs := by
  simp only [step] at h
  (repeat' split at h) <;> cases h
  rename_i f fs hf _ timeout hp
  exact ⟨f,fs,timeout,hf,hp,rfl⟩

theorem step_callbackReturns (h : step s .callbackReturns = some t) :
    ∃ f fs task, s.frames = f::fs ∧ f.pc = .calling task ∧
      t = { s with frames := { f with pc := .looping }::fs } := by
  simp only [step] at h
  (repeat' split at h) <;> cases h
  rename_i f fs hf _ task hp
  exact ⟨f,fs,task,hf,hp,rfl⟩

theorem step_leave (h : step s .leave = some t) :
    ∃ f fs, s.frames = f::fs ∧ f.pc = .leaving ∧ t = runIntLeave s f fs := by
  simp only [step] at h
  (repeat' split at h) <;> cases h
  rename_i f fs hf hp
  exact ⟨f,fs,hf,hp,rfl⟩

end MessageLoop
end FreshPlayer
