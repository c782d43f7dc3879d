import FreshPlayer.Custody
import FreshPlayer.Transition
import Mathlib.Data.List.Basic

/-! A video capture resource: its buffers with their flags, the thread that fills them, and the
notifications that go to the plugin through a message loop. -/
namespace FreshPlayer
namespace VideoCapture

open Deed

/-- A notification of a buffer, with the session it is of: a ghost that tells what the code
only knows by its index. -/
abbrev Ready := ℕ × ℕ

/-- At the head of its loop, or filling a buffer with the resource unlocked. -/
inductive Thread
  | looping
  | writing (ready : Ready)
  deriving DecidableEq, Repr

/-- Calls of Stop and Close. The thread is joined with the resource unlocked, and Close frees
the buffers after that. -/
inductive Phase
  | idle | stopping | closing | joined
  deriving DecidableEq, Repr

/-- What is `none` is NULL in the code. The thread is there until it returns. `posted` and
`given` are the notifications on their way and those the plugin has not answered. -/
structure State where
  alive : Bool
  fd : Bool
  bufferCount : ℕ
  buffers : Option (List ℕ)
  bufferIsFree : Option (List Bool)
  thread : Option Thread
  threadStarted : Bool
  terminateThread : Bool
  phase : Phase
  log : List Deed
  session : ℕ
  posted : List Ready
  given : List Ready
  deriving DecidableEq, Repr

def created : State := ⟨true,false,0,none,none,none,false,false,.idle,[],0,[],[]⟩

/-- How far Open gets: the device file, the queries and the format of the device, the two
arrays, and how many of the buffers. -/
inductive Outcome
  | noAccess | failed | noBuffers | noFlags
  | made (buffers : ℕ)
  deriving DecidableEq, Repr

/-- The ids of as many new buffers. -/
def createBuffers : ℕ → List Deed → List Deed × List ℕ
  | 0, log => (log,[])
  | n+1, log =>
    let r := createBuffers n (.create log.length::log)
    (r.1,log.length::r.2)

def releaseBuffers (buffers : List ℕ) (log : List Deed) : List Deed :=
  buffers.foldl (fun log o => .release o::log) log

/-- The buffers there were before are not looked at. -/
def ppbVideoCaptureOpen (requested : ℕ) (outcome : Outcome) (s : State) : State :=
  let bufferCount := max requested 5
  match outcome with
  | .noAccess | .failed => { s with fd := false }
  | .noBuffers => { s with
      fd := false, bufferCount := bufferCount, buffers := none, session := s.session+1 }
  | .noFlags => { s with
      fd := false, bufferCount := bufferCount, buffers := none, bufferIsFree := none,
      session := s.session+1 }
  | .made n =>
    if n < bufferCount then
      let r := createBuffers n s.log
      { s with
        fd := false, bufferCount := bufferCount, buffers := none, bufferIsFree := none,
        session := s.session+1, log := releaseBuffers r.2 r.1 }
    else
      let r := createBuffers bufferCount s.log
      { s with
        fd := true, bufferCount := bufferCount, buffers := some r.2,
        bufferIsFree := some (List.replicate bufferCount true),
        session := s.session+1, log := r.1 }

/-- The count stays as it is. -/
def ppbVideoCaptureDestroy (s : State) : State :=
  { s with
    fd := false, buffers := none, bufferIsFree := none
    log := releaseBuffers ((s.buffers.getD []).take s.bufferCount) s.log }

def ppbVideoCaptureStartCapture (s : State) : State :=
  if s.threadStarted || !s.fd then s
  else { s with thread := some .looping, threadStarted := true }

/-- Writing where there is no flag is an error in memory. -/
def ppbVideoCaptureReuseBuffer (buffer : ℕ) (s : State) : Option State :=
  if buffer < s.bufferCount then
    match s.bufferIsFree with
    | some flags =>
      if buffer < flags.length then some { s with bufferIsFree := some (flags.set buffer true) }
      else none
    | none => none
  else some s

/-- Up to the join. -/
def ppbVideoCaptureStopCapture (s : State) : State :=
  if s.threadStarted then { s with terminateThread := true, phase := .stopping } else s

def ppbVideoCaptureClose (s : State) : State :=
  if s.threadStarted then { s with terminateThread := true, phase := .closing }
  else { s with phase := .joined }

/-- The search for a free buffer; `none` if it leaves the flags. -/
def findFree (flags : List Bool) : ℕ → ℕ → Option (Option ℕ)
  | 0, _ => some none
  | n+1, k => match flags[k]? with
    | none => none
    | some true => some (some k)
    | some false => findFree flags n (k+1)

/-- If all buffers are busy the thread sleeps and looks again. -/
def threadPick (s : State) : Option State :=
  (findFree (s.bufferIsFree.getD []) s.bufferCount 0).bind fun found => match found with
  | none => some s
  | some k => match (s.buffers.getD [])[k]? with
    | some _ => some { s with
        thread := some (.writing (s.session,k))
        bufferIsFree := s.bufferIsFree.map (·.set k false) }
    | none => none

inductive Action
  | openCapture (requested : ℕ) (outcome : Outcome)
  | startCapture
  /-- With the session of the notification it answers, if the plugin has one. -/
  | reuseBuffer (session : Option ℕ) (buffer : ℕ)
  | stopCapture
  | close
  /-- `pthread_join` returns. -/
  | join
  /-- What Close does after that. -/
  | destroy
  /-- The last reference is gone; the thread keeps one. -/
  | lastRelease
  | threadPick
  | threadPost
  | threadExit
  | onBufferReady (ready : Ready)
  deriving DecidableEq, Repr

def step (s : State) : Action → Option State
  | .openCapture requested outcome =>
    if s.alive then some (ppbVideoCaptureOpen requested outcome s) else none
  | .startCapture => if s.alive then some (ppbVideoCaptureStartCapture s) else none
  | .reuseBuffer session buffer =>
    if s.alive then match session with
      | some n =>
        if (n,buffer) ∈ s.given then
          (ppbVideoCaptureReuseBuffer buffer s).map fun s =>
            { s with given := s.given.erase (n,buffer) }
        else none
      | none => ppbVideoCaptureReuseBuffer buffer s
    else none
  | .stopCapture =>
    if s.alive = true ∧ s.phase = .idle then some (ppbVideoCaptureStopCapture s) else none
  | .close => if s.alive = true ∧ s.phase = .idle then some (ppbVideoCaptureClose s) else none
  | .join =>
    if s.thread = none then match s.phase with
      | .stopping => some { s with threadStarted := false, terminateThread := false, phase := .idle }
      | .closing =>
        some { s with threadStarted := false, terminateThread := false, phase := .joined }
      | _ => none
    else none
  | .destroy =>
    if s.alive = true ∧ s.phase = .joined then
      some { ppbVideoCaptureDestroy s with phase := .idle }
    else none
  | .lastRelease =>
    if s.alive = true ∧ s.phase = .idle ∧ s.threadStarted = false then
      some { ppbVideoCaptureDestroy s with alive := false }
    else none
  | .threadPick =>
    if s.thread = some .looping ∧ s.terminateThread = false then threadPick s else none
  | .threadPost => match s.thread with
    | some (.writing ready) =>
      some { s with thread := some .looping, posted := s.posted ++ [ready] }
    | _ => none
  | .threadExit =>
    if s.thread = some .looping ∧ s.terminateThread = true then some { s with thread := none }
    else none
  | .onBufferReady ready =>
    if ready ∈ s.posted then
      some { s with posted := s.posted.erase ready, given := ready::s.given }
    else none

def machine : Machine State Action := ⟨created,step⟩

theorem threadPost_some {s t : State} (h : step s .threadPost = some t) :
    ∃ ready, s.thread = some (.writing ready) ∧
      t = { s with thread := some .looping, posted := s.posted ++ [ready] } := by
  simp only [step] at h
  split at h
  · rename_i ready hw
    cases h
    exact ⟨ready,hw,rfl⟩
  · cases h

end VideoCapture
end FreshPlayer
