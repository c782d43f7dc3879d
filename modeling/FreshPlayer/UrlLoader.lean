import FreshPlayer.Delivery
import Mathlib.Algebra.Order.Ring.Int

/-! The stream of a URL loader: the browser writes and finally destroys it while plugin
threads read. Each step is one section under the lock of the loader, or one post that
follows it with the lock released. -/
namespace FreshPlayer
namespace UrlLoader

/-- `request` is a ghost, the number of the read in the order of the calls. -/
structure UrlLoaderReadTask where
  request : ℕ
  bytesToRead : ℕ
  ccb : ℕ
  ccbMl : ℕ
  deriving DecidableEq, Repr

/-- A call that posts the completion of a read. -/
structure Completion where
  request : ℕ
  ccb : ℕ
  ccbMl : ℕ
  result : ℤ
  deriving DecidableEq, Repr

/-- Where the browser thread is. `destroyNext` is the head of the loop in
`NPP_DestroyStream` with the lock to be taken again. -/
inductive Browser
  | idle
  | writePost (c : Completion)
  | destroyPost (c : Completion)
  | destroyNext
  | filePost
  | returned
  deriving DecidableEq, Repr

/-- The loader, with the content of its file while that is open. Ghosts are what the
browser wrote, the reads made, which of them were queued, what was handed to each, and
the completions posted or returned. -/
structure State where
  file : Option (List UInt8)
  readPos : ℕ
  readTasks : List UrlLoaderReadTask
  finishedLoading : Bool
  streamToFile : Bool
  browser : Browser
  unposted : List Completion
  written : List UInt8
  requests : ℕ
  queued : List ℕ
  served : List (ℕ × List UInt8)
  posted : List Completion
  returned : List Completion

def ppErrorFailed : ℤ := -2

/-- `lseek` and `write`. -/
def writeAt (content : List UInt8) (offset : ℕ) (buffer : List UInt8) : List UInt8 :=
  content.take offset ++ List.replicate (offset-content.length) 0 ++ buffer ++
    content.drop (offset+buffer.length)

/-- `lseek` to the read position and `read`; `none` on a closed file. -/
def readFile (s : State) (bytesToRead : ℕ) : Option (List UInt8) :=
  s.file.map fun content => (content.drop s.readPos).take bytesToRead

/-- The bytes of a read go to its buffer, and the position moves. -/
def handOut (s : State) (request : ℕ) (bytes : List UInt8) : State :=
  { s with readPos := s.readPos+bytes.length, served := s.served ++ [(request,bytes)] }

/-- The section of `NPP_Write`. -/
def nppWrite (s : State) (offset : ℕ) (buffer : List UInt8) : State :=
  match s.file with
  | none => s
  | some content =>
    if buffer = [] then s
    else
      let s := { s with file := some (writeAt content offset buffer)
                        written := s.written ++ buffer }
      match s.readTasks with
      | [] => s
      | rt::rest => match readFile s rt.bytesToRead with
        | some (b::bytes) =>
          { handOut { s with readTasks := rest } rt.request (b::bytes) with
            browser := .writePost ⟨rt.request,rt.ccb,rt.ccbMl,(b::bytes).length⟩ }
        | _ => s

/-- `NPP_DestroyStream` from the head of its loop up to where it gives the lock back. -/
def destroyLoop (s : State) : State :=
  match s.readTasks with
  | [] => { s with browser := if s.streamToFile then .filePost else .returned }
  | rt::rest =>
    let s := { s with readTasks := rest }
    match readFile s rt.bytesToRead with
    | some bytes => { handOut s rt.request bytes with
        browser := .destroyPost ⟨rt.request,rt.ccb,rt.ccbMl,bytes.length⟩ }
    | none => { s with browser := .destroyPost ⟨rt.request,rt.ccb,rt.ccbMl,ppErrorFailed⟩ }

def nppDestroyStream (s : State) : State := destroyLoop { s with finishedLoading := true }

def scheduleReadTask (s : State) (bytesToRead ccb ccbMl : ℕ) : State :=
  { s with readTasks := s.readTasks ++ [⟨s.requests,bytesToRead,ccb,ccbMl⟩]
           requests := s.requests+1
           queued := s.queued ++ [s.requests] }

/-- The result is returned at once where the callback is optional. -/
def complete (s : State) (optional : Bool) (c : Completion) : State :=
  if optional then { s with returned := s.returned ++ [c] }
  else { s with unposted := s.unposted ++ [c] }

def ppbUrlLoaderReadResponseBody (s : State) (bytesToRead : ℕ) (optional : Bool) (ccb ccbMl : ℕ) :
    State :=
  match readFile s bytesToRead with
  | none => s
  | some bytes =>
    if s.readTasks ≠ [] then scheduleReadTask s bytesToRead ccb ccbMl
    else if bytes = [] ∧ s.finishedLoading = false then scheduleReadTask s bytesToRead ccb ccbMl
    else complete (handOut { s with requests := s.requests+1 } s.requests bytes) optional
      ⟨s.requests,ccb,ccbMl,bytes.length⟩

inductive Action
  | write (offset : ℕ) (buffer : List UInt8)
  | destroyStream
  | browserPost
  | destroyNext
  | read (bytesToRead : ℕ) (optional : Bool) (ccb ccbMl : ℕ)
  | readPost (i : ℕ)
  deriving DecidableEq, Repr

/-- Writes come from one thread, each at the offset where the previous one ended, and the
stream is destroyed after them. -/
def step (s : State) : Action → Option State
  | .write offset buffer =>
    if s.browser = .idle ∧ offset = s.written.length then some (nppWrite s offset buffer) else none
  | .destroyStream => if s.browser = .idle then some (nppDestroyStream s) else none
  | .browserPost => match s.browser with
    | .writePost c => some { s with browser := .idle, posted := s.posted ++ [c] }
    | .destroyPost c => some { s with browser := .destroyNext, posted := s.posted ++ [c] }
    | .filePost => some { s with browser := .returned }
    | _ => none
  | .destroyNext => if s.browser = .destroyNext then some (destroyLoop s) else none
  | .read bytesToRead optional ccb ccbMl =>
    some (ppbUrlLoaderReadResponseBody s bytesToRead optional ccb ccbMl)
  | .readPost i => s.unposted[i]?.map fun c =>
      { s with unposted := s.unposted.eraseIdx i, posted := s.posted ++ [c] }

/-- A loader whose file is open and empty. -/
def machine (streamToFile : Bool) : Machine State Action :=
  ⟨⟨some [],0,[],false,streamToFile,.idle,[],[],0,[],[],[],[]⟩,step⟩

end UrlLoader
end FreshPlayer
