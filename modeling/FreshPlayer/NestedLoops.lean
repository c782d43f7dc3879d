import FreshPlayer.MessageLoopConservation
import Mathlib.Logic.Function.Basic

/-! Synchronous calls and Flash message loops over the loops of several threads.
Each thread advances its own loop; quits, work and responses come from any thread.
A run of this system shows which quit ended which nested run. -/
namespace FreshPlayer
namespace NestedLoops
open MessageLoop

/-- The parameter struct shared with the responder. `work` is the posted task, and
`responded` is a ghost set when the responder, done with the struct, posts its quit. -/
structure Call where
  mLoop : ℕ
  depth : ℤ
  work : Option ℕ
  responded : Bool
  deriving DecidableEq, Repr

/-- `run` is a ghost numbering the calls of Run. -/
structure FlashMessageLoop where
  running : Bool
  messageLoop : ℕ
  depth : ℤ
  run : ℕ
  deriving DecidableEq, Repr

/-- Where a thread stands between the sections of a synchronous call or of Run. -/
inductive Control
  | idle | callPosted (n : ℕ) | flashPrepared (run : ℕ) | flashReturned (run : ℕ)
  deriving DecidableEq, Repr

structure Thread where
  ml : MessageLoop.State
  control : Control

/-- How a nested run returned: the quit that ended it, and whether the responder of
its call had posted by then. -/
structure Return where
  owner : Owner
  cause : Option Owner
  responded : Bool
  deriving DecidableEq, Repr

/-- `runs` lists the resources whose Run was called, `quits` the depths read by
callers of PostQuit that have not posted yet. -/
structure State where
  threads : ℕ → Thread
  calls : List Call
  fml : ℕ → FlashMessageLoop
  runs : List ℕ
  quits : List (ℕ × ℤ)
  returned : List Return

def State.create (refCnt : ℕ → ℤ) : State :=
  ⟨fun m => ⟨.create (refCnt m),.idle⟩,[],fun _ => ⟨false,0,0,0⟩,[],[],[]⟩

/-- The struct of a call is complete; nothing is shared with other owners. -/
def answered (calls : List Call) : Owner → Bool
  | .call n => calls[n]?.any Call.responded
  | _ => true

def State.setThread (s : State) (m : ℕ) (t : Thread) : State :=
  { s with threads := Function.update s.threads m t }

def State.setLoop (s : State) (m : ℕ) (ml : MessageLoop.State) : State :=
  s.setThread m ⟨ml,(s.threads m).control⟩

def State.record (s : State) (owner : Owner) (cause : Option Owner) : State :=
  { s with returned := s.returned ++ [⟨owner,cause,answered s.calls owner⟩] }

/-- The thread executes code outside of its loops, a callback included. -/
def Thread.inCode (t : Thread) : Bool :=
  decide (t.control = .idle) && match t.ml.frames with
    | [] => true
    | f::_ => match f.pc with
      | .calling _ => true
      | _ => false

/-- Depth, struct and work task of a synchronous call. Only this thread changes the
depth of its loop, so reading it and posting make one section. -/
def callPost (s : State) (m : ℕ) (depthZero browserThreadLoop : Bool) (comt : Callback)
    (now : Timespec) : State :=
  let ml := (s.threads m).ml
  let depth := ppbMessageLoopGetDepth ml + 1
  let posted := ppbMessageLoopPostWorkWithResult ml browserThreadLoop comt 0 0
    (if depthZero then 0 else depth) now
  let work := if posted.1 = .ok then some ml.accepted.length else none
  State.setThread { s with calls := s.calls ++ [⟨m,depth,work,false⟩] } m
    ⟨posted.2,.callPosted s.calls.length⟩

/-- Entering the run of an owner; a refused run returns at once. -/
def enterNested (s : State) (m : ℕ) (flags : Flags) (owner : Owner) (after : Control) : State :=
  let entered := runIntEnter (s.threads m).ml true flags owner
  if entered.1 = .ok then s.setThread m ⟨entered.2,.idle⟩
  else (s.record owner none).setThread m ⟨entered.2,after⟩

def ppbMessageLoopRunNested (s : State) (m n : ℕ) : State :=
  enterNested s m ⟨true,true,false⟩ (.call n) .idle

/-- The responder has filled the struct and posts the quit of the call. -/
def respond (s : State) (n : ℕ) (c : Call) (now : Timespec) : State :=
  let posted := ppbMessageLoopPostQuitDepth (s.threads c.mLoop).ml false c.depth now (.call n)
  State.setLoop { s with calls := s.calls.set n { c with responded := true } } c.mLoop posted.2

/-- The first section of Run. -/
def ppbFlashMessageLoopPrepare (s : State) (m r : ℕ) : State :=
  let t := s.threads m
  let fml : FlashMessageLoop := ⟨true,m,ppbMessageLoopGetDepth t.ml + 1,s.runs.length⟩
  State.setThread { s with fml := Function.update s.fml r fml, runs := s.runs ++ [r] } m
    ⟨t.ml,.flashPrepared s.runs.length⟩

/-- The nested loop of Run is launched without depth increase. -/
def ppbFlashMessageLoopRun (s : State) (m run : ℕ) : State :=
  enterNested s m ⟨true,false,false⟩ (.flash run) (.flashReturned run)

/-- The last section of Run. -/
def ppbFlashMessageLoopFinish (s : State) (m run : ℕ) : State :=
  let r := s.runs.getD run 0
  State.setThread { s with fml := Function.update s.fml r { s.fml r with running := false } } m
    ⟨(s.threads m).ml,.idle⟩

def ppbFlashMessageLoopQuit (s : State) (r : ℕ) (now : Timespec) : State :=
  let fml := s.fml r
  if fml.running then
    s.setLoop fml.messageLoop (ppbMessageLoopPostQuitDepth (s.threads fml.messageLoop).ml false
      fml.depth now (.flash fml.run)).2
  else s

/-- `run_int` returns to the code that called it. -/
def leaveRun (s : State) (m : ℕ) (f : Frame) (ml : MessageLoop.State) : State :=
  match f.owner with
  | .loop => s.setThread m ⟨ml,.idle⟩
  | .call n => (s.record (.call n) f.cause).setThread m ⟨ml,.idle⟩
  | .flash run => (s.record (.flash run) f.cause).setThread m ⟨ml,.flashReturned run⟩

inductive Label
  | postWork (m : ℕ) (browserThreadLoop : Bool) (callback : Callback) (delayMs result depth : ℤ)
      (now : Timespec)
  | readDepth (m : ℕ)
  | postQuit (i : ℕ) (shouldDestroy : Bool) (now : Timespec)
  | run (m : ℕ)
  | activateBrowserThread (m : ℕ)
  | callPost (m : ℕ) (depthZero browserThreadLoop : Bool) (comt : Callback) (now : Timespec)
  | callRun (m : ℕ)
  | respond (n : ℕ) (now : Timespec)
  | flashPrepare (m r : ℕ)
  | flashRun (m : ℕ)
  | flashQuit (r : ℕ) (now : Timespec)
  | flashFinish (m : ℕ)
  | pump (m : ℕ)
  | iterate (m : ℕ) (now : Timespec)
  | pop (m : ℕ)
  | callbackReturns (m : ℕ)
  | leave (m : ℕ)
  deriving DecidableEq, Repr

/-- A thread between the sections of a call cannot advance its loop. -/
def stepLoop (s : State) (m : ℕ) (a : Action) : Option State :=
  if (s.threads m).control = .idle then
    (MessageLoop.step (s.threads m).ml a).map (s.setLoop m)
  else none

/-- A response needs the work task to have been called. -/
def canRespond (s : State) (c : Call) : Bool :=
  !c.responded && match c.work with
    | some id => (s.threads c.mLoop).ml.called.any (·.id = id)
    | none => false

def step (s : State) : Label → Option State
  | .postWork m b callback delayMs result depth now => some (s.setLoop m
      (ppbMessageLoopPostWorkWithResult (s.threads m).ml b callback delayMs result depth now).2)
  | .readDepth m =>
    some { s with quits := s.quits ++ [(m,ppbMessageLoopGetDepth (s.threads m).ml)] }
  | .postQuit i shouldDestroy now => s.quits[i]?.map fun q =>
      State.setLoop { s with quits := s.quits.eraseIdx i } q.1
        (ppbMessageLoopPostQuitDepth (s.threads q.1).ml shouldDestroy q.2 now .loop).2
  | .run m => stepLoop s m (.enter true ⟨false,true,false⟩ .loop)
  | .activateBrowserThread m => stepLoop s m (.enter true ⟨true,true,true⟩ .loop)
  | .callPost m z b comt now =>
    if (s.threads m).inCode then some (callPost s m z b comt now) else none
  | .callRun m => match (s.threads m).control with
    | .callPosted n => some (ppbMessageLoopRunNested s m n)
    | _ => none
  | .respond n now => match s.calls[n]? with
    | some c => if canRespond s c then some (respond s n c now) else none
    | none => none
  | .flashPrepare m r =>
    if (s.threads m).inCode then some (ppbFlashMessageLoopPrepare s m r) else none
  | .flashRun m => match (s.threads m).control with
    | .flashPrepared run => some (ppbFlashMessageLoopRun s m run)
    | _ => none
  | .flashQuit r now => some (ppbFlashMessageLoopQuit s r now)
  | .flashFinish m => match (s.threads m).control with
    | .flashReturned run => some (ppbFlashMessageLoopFinish s m run)
    | _ => none
  | .pump m => stepLoop s m .pump
  | .iterate m now => stepLoop s m (.iterate now)
  | .pop m => stepLoop s m .pop
  | .callbackReturns m => stepLoop s m .callbackReturns
  | .leave m => match (s.threads m).control, (s.threads m).ml.frames with
    | .idle, f::_ => (MessageLoop.step (s.threads m).ml .leave).map (leaveRun s m f)
    | _, _ => none

def machine (refCnt : ℕ → ℤ) : Machine State Label := ⟨.create refCnt,step⟩

end NestedLoops
end FreshPlayer
