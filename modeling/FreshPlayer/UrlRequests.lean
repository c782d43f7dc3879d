import FreshPlayer.Transition
import Mathlib.Algebra.Order.Ring.Int
import Mathlib.Data.List.Perm.Basic

/-! A URL loader over all its requests. Open, FollowRedirect and an automatic redirect each
start a request, which the browser answers by one stream. Every function is cut where it
gives the lock of the loader back; what it still has to do then is a pending call. -/
namespace FreshPlayer
namespace UrlRequests

def ppOk : ℤ := 0
def ppErrorFailed : ℤ := -2

/-- `url` is the callback of the request with this number, the others are known by what
the plugin passed. -/
inductive Callback
  | url (request : ℕ)
  | doNothing
  | read (func : ℕ)
  | file (func : ℕ)
  deriving DecidableEq, Repr

structure Completion where
  ccb : Callback
  ccbMl : ℕ
  result : ℤ
  deriving DecidableEq, Repr

structure ParsedHeaders where
  fields : List (List UInt8 × List UInt8)
  statusLine : Option (List UInt8)
  httpCode : ℕ
  deriving DecidableEq, Repr

/-- What a loader keeps of a response. -/
structure Response where
  statusLine : Option (List UInt8)
  headers : Option (List UInt8)
  httpCode : ℕ
  deriving DecidableEq, Repr

/-- The headers are put together again, `name: value` on lines of their own. -/
def ParsedHeaders.response (ph : ParsedHeaders) : Response :=
  ⟨ph.statusLine,some (List.intercalate [10] (ph.fields.map fun f => f.1 ++ [58,32] ++ f.2)),
    ph.httpCode⟩

/-- `pdata` tells whether the stream is linked to the loader. The browser has delivered
its first bytes, and may have destroyed it. -/
structure NPStream where
  headers : ParsedHeaders
  pdata : Bool
  delivered : ℕ
  destroyed : Bool
  deriving DecidableEq, Repr

/-- A byte of the temporary file with the stream that wrote it, `none` in a hole. -/
structure FileByte where
  value : UInt8
  writer : Option ℕ
  deriving DecidableEq, Repr

structure UrlLoaderReadTask where
  bytesToRead : ℤ
  ccb : ℕ
  ccbMl : ℕ
  deriving DecidableEq, Repr

/-- A call that has given the lock back: it makes a post, or is `NPP_NewStream` before it
follows a redirect, or `NPP_DestroyStream` after a read was served. -/
inductive Call
  | post (c : Completion)
  | followRedirect (ccb : Option Callback) (ccbMl : ℕ)
  | destroyPost (c : Completion)
  | destroyNext
  deriving DecidableEq, Repr

/-- Ghost: the bytes that a read was given, the number of requests made by then and
whether the stream of the latest one was destroyed. -/
structure Read where
  bytes : List FileByte
  requests : ℕ
  destroyed : Bool
  deriving DecidableEq, Repr

/-- The loader and the streams of its requests, `none` before a stream comes. Posts are
kept with the response the loader had at that time. -/
structure State where
  response : Response
  file : Option (List FileByte)
  readPos : ℕ
  redirectUrl : Option (List UInt8)
  finishedLoading : Bool
  streamToFile : Bool
  streamToFileCcb : Option ℕ
  streamToFileCcbMl : ℕ
  followRedirects : Bool
  readTasks : List UrlLoaderReadTask
  npStream : Option ℕ
  ccb : Option Callback
  ccbMl : ℕ
  streams : List (Option NPStream)
  pending : List Call
  posted : List (Completion × Response)
  reads : List Read

/-- All other fields are zeroed by default. -/
def State.create : State where
  response := ⟨none,none,0⟩
  file := none
  readPos := 0
  redirectUrl := none
  finishedLoading := false
  streamToFile := false
  streamToFileCcb := none
  streamToFileCcbMl := 0
  followRedirects := false
  readTasks := []
  npStream := none
  ccb := none
  ccbMl := 0
  streams := []
  pending := []
  posted := []
  reads := []

/-- The stream of the latest request was destroyed. -/
def State.latestDestroyed (s : State) : Bool :=
  match s.streams.getLast? with
  | some (some stream) => stream.destroyed
  | _ => false

def State.call (s : State) (c : Call) : State := { s with pending := s.pending ++ [c] }

/-- A post does nothing where there is no function to call. -/
def State.callPost (s : State) (ccb : Option Callback) (ccbMl : ℕ) (result : ℤ) : State :=
  match ccb with
  | none => s
  | some ccb => s.call (.post ⟨ccb,ccbMl,result⟩)

/-! Requests. -/

def openTemporaryFile (succeeds : Bool) : Option (List FileByte) :=
  if succeeds then some [] else none

/-- A request number is given to the new callback. -/
def ppbUrlLoaderOpenTarget (s : State) (followRedirects streamToFile callback : Bool) (ml : ℕ)
    (fileOpened : Bool) : State :=
  { s with
    readPos := 0, followRedirects := followRedirects, streamToFile := streamToFile
    file := openTemporaryFile fileOpened
    ccb := if callback then some (.url s.streams.length) else none
    ccbMl := ml
    streams := s.streams ++ [none] }

/-- Handling of the stream the loader has is aborted. -/
def abortStream (s : State) : List (Option NPStream) :=
  match s.npStream with
  | none => s.streams
  | some stream => s.streams.modify stream (Option.map fun st => { st with pdata := false })

def ppbUrlLoaderFollowRedirect (s : State) (callback : Option Callback) (ml : ℕ)
    (fileOpened : Bool) : State :=
  { s with
    redirectUrl := none
    response := { s.response with statusLine := none, headers := none }
    npStream := none, readPos := 0
    file := openTemporaryFile fileOpened
    ccb := callback
    ccbMl := ml
    streams := abortStream s ++ [none] }

def ppbUrlLoaderClose (s : State) : State :=
  { s with file := none, response := { s.response with headers := none } }

/-! Reading. -/

/-- `lseek` to the read position and `read`; `none` is an error. -/
def readFile (s : State) (bytesToRead : ℤ) : Option (List FileByte) :=
  if 0 ≤ bytesToRead then
    s.file.map fun content => (content.drop s.readPos).take bytesToRead.toNat
  else none

/-- The bytes go to the buffer of the read, and the position moves. -/
def handOut (s : State) (bytes : List FileByte) : State :=
  { s with
    readPos := s.readPos+bytes.length
    reads := s.reads ++ [⟨bytes,s.streams.length,s.latestDestroyed⟩] }

def scheduleReadTask (s : State) (bytesToRead : ℤ) (ccb ccbMl : ℕ) : State :=
  { s with readTasks := s.readTasks ++ [⟨bytesToRead,ccb,ccbMl⟩] }

/-- The result is returned at once where the callback is optional. -/
def complete (s : State) (optional : Bool) (c : Completion) : State :=
  if optional then s else s.call (.post c)

def ppbUrlLoaderReadResponseBody (s : State) (bytesToRead : ℤ) (optional : Bool) (ccb ml : ℕ) :
    State :=
  if s.file.isNone then s
  else if s.readTasks ≠ [] then scheduleReadTask s bytesToRead ccb ml
  else match readFile s bytesToRead with
    | none => complete s optional ⟨.read ccb,ml,ppErrorFailed⟩
    | some bytes =>
      if bytes = [] ∧ s.finishedLoading = false then scheduleReadTask s bytesToRead ccb ml
      else complete (handOut s bytes) optional ⟨.read ccb,ml,bytes.length⟩

def ppbUrlLoaderFinishStreamingToFile (s : State) (ccb ml : ℕ) : State :=
  if s.streamToFile then
    { s with streamToFileCcb := some ccb, streamToFileCcbMl := ml }
  else s

/-! The browser. -/

/-- The redirect is followed without the plugin. -/
def Redirects (s : State) (ph : ParsedHeaders) : Prop :=
  300 ≤ ph.httpCode ∧ ph.httpCode ≤ 307 ∧ s.redirectUrl.isSome = true ∧ s.followRedirects = true

instance (s : State) (ph : ParsedHeaders) : Decidable (Redirects s ph) :=
  inferInstanceAs (Decidable (_ ∧ _))

def nppNewStream (s : State) (stream : ℕ) (ph : ParsedHeaders) : State :=
  let t := { s with
    ccb := none, npStream := some stream
    streams := s.streams.set stream (some ⟨ph,true,0,false⟩) }
  if Redirects s ph then t.call (.followRedirect s.ccb s.ccbMl)
  else State.callPost { t with response := ph.response } s.ccb s.ccbMl ppOk

/-- `lseek` and `write`. -/
def writeAt (content : List FileByte) (offset : ℕ) (buffer : List FileByte) : List FileByte :=
  content.take offset ++ List.replicate (offset-content.length) ⟨0,none⟩ ++ buffer ++
    content.drop (offset+buffer.length)

/-- The first queued read is served if there are bytes for it. -/
def serveFirst (s : State) : State :=
  match s.readTasks with
  | [] => s
  | rt::rest => match readFile s rt.bytesToRead with
    | some (b::bytes) =>
      (handOut { s with readTasks := rest } (b::bytes)).call
        (.post ⟨.read rt.ccb,rt.ccbMl,(b::bytes).length⟩)
    | _ => s

/-- The bytes come at the offset where those delivered before end. -/
def nppWrite (s : State) (stream : ℕ) (st : NPStream) (buffer : List UInt8) : State :=
  let t := { s with
    streams := s.streams.set stream (some { st with delivered := st.delivered+buffer.length }) }
  if st.pdata then
    match s.file with
    | none => t
    | some content =>
      if buffer = [] then t
      else serveFirst { t with
        file := some (writeAt content st.delivered (buffer.map fun b => ⟨b,some stream⟩)) }
  else t

/-- The end of `NPP_DestroyStream`. -/
def checkStreamToFile (s : State) : State :=
  if s.streamToFile then s.callPost (s.streamToFileCcb.map .file) s.streamToFileCcbMl ppOk else s

/-- `NPP_DestroyStream` from the head of its loop up to where it gives the lock back. -/
def destroyLoop (s : State) : State :=
  match s.readTasks with
  | [] => checkStreamToFile s
  | rt::rest => match readFile s rt.bytesToRead with
    | some bytes =>
      (handOut { s with readTasks := rest } bytes).call
        (.destroyPost ⟨.read rt.ccb,rt.ccbMl,bytes.length⟩)
    | none =>
      { s with readTasks := rest }.call (.destroyPost ⟨.read rt.ccb,rt.ccbMl,ppErrorFailed⟩)

def nppDestroyStream (s : State) (stream : ℕ) (st : NPStream) : State :=
  let t := { s with streams := s.streams.set stream (some { st with destroyed := true }) }
  if st.pdata then
    if s.redirectUrl.isSome then { t with npStream := none }
    else destroyLoop { t with npStream := none, finishedLoading := true }
  else t

inductive NPReason
  | done | networkErr | userBreak
  deriving DecidableEq, Repr

def nppUrlNotify (s : State) (reason : NPReason) : State :=
  if reason = .networkErr then
    State.callPost { s with ccb := none } s.ccb s.ccbMl ppErrorFailed
  else s

def nppUrlRedirectNotify (s : State) (url : List UInt8) : State :=
  { s with redirectUrl := some url }

/-- A stream that changes in nothing that `f` sees. -/
theorem map_set_of_eq {α β : Type*} {f : α → β} {l : List α} {i : ℕ} {x y : α}
    (hx : l[i]? = some x) (hy : f y = f x) : (l.set i y).map f = l.map f := by
  apply List.ext_getElem?
  intro k
  rw [List.getElem?_map,List.getElem?_map,List.getElem?_set]
  split_ifs with hk hl
  · subst hk
    rw [hx]
    exact congrArg some hy
  · subst hk
    rw [List.getElem?_eq_none (Nat.le_of_not_lt hl)]
  · rfl

/-! Steps. -/

inductive Action
  | open (followRedirects streamToFile callback : Bool) (ml : ℕ) (fileOpened : Bool)
  | followRedirect (callback : Bool) (ml : ℕ) (fileOpened : Bool)
  | close
  | readResponseBody (bytesToRead : ℤ) (optional : Bool) (ccb ml : ℕ)
  | finishStreamingToFile (ccb ml : ℕ)
  | newStream (stream : ℕ) (ph : ParsedHeaders)
  | write (stream : ℕ) (buffer : List UInt8)
  | destroyStream (stream : ℕ)
  | urlNotify (reason : NPReason)
  | urlRedirectNotify (url : List UInt8)
  | resume (i : ℕ)
  | resumeRedirect (i ml : ℕ) (fileOpened : Bool)
  deriving DecidableEq, Repr

/-- A stream the browser may still write to or destroy. -/
def State.running (s : State) (stream : ℕ) : Option NPStream :=
  match s.streams[stream]? with
  | some (some st) => if st.destroyed then none else some st
  | _ => none

theorem running_iff {s : State} {stream : ℕ} {st : NPStream} :
    s.running stream = some st ↔ s.streams[stream]? = some (some st) ∧ st.destroyed = false := by
  unfold State.running
  rcases hs : s.streams[stream]? with _ | _ | st'
  · simp
  · simp
  · simp only [Option.some.injEq]
    constructor
    · intro h
      split_ifs at h with hd
      cases h
      exact ⟨rfl,by simpa using hd⟩
    · rintro ⟨rfl,hd⟩
      simp [hd]

def State.post (s : State) (c : Completion) : State :=
  { s with posted := s.posted ++ [(c,s.response)] }

/-- A pending call goes on to where it gives the lock back again. -/
def resume (s : State) : Call → Option State
  | .post c => some (s.post c)
  | .destroyPost c => some ((s.post c).call .destroyNext)
  | .destroyNext => some (destroyLoop s)
  | .followRedirect _ _ => none

/-- The rest of `NPP_NewStream` where it follows a redirect. -/
def resumeRedirect (s : State) (ml : ℕ) (fileOpened : Bool) : Call → Option State
  | .followRedirect ccb ccbMl =>
    some ((ppbUrlLoaderFollowRedirect s (some .doNothing) ml fileOpened).callPost ccb ccbMl ppOk)
  | _ => none

def State.withoutCall (s : State) (i : ℕ) : State := { s with pending := s.pending.eraseIdx i }

theorem perm_withoutCall {s : State} {i : ℕ} {c : Call} (h : s.pending[i]? = some c) :
    s.pending.Perm (c::(s.withoutCall i).pending) := by
  obtain ⟨hi,rfl⟩ := List.getElem?_eq_some_iff.mp h
  exact (List.getElem_cons_eraseIdx_perm hi).symm

def step (s : State) : Action → Option State
  | .open followRedirects streamToFile callback ml fileOpened =>
    some (ppbUrlLoaderOpenTarget s followRedirects streamToFile callback ml fileOpened)
  | .followRedirect callback ml fileOpened =>
    some (ppbUrlLoaderFollowRedirect s (if callback then some (.url s.streams.length) else none) ml
      fileOpened)
  | .close => some (ppbUrlLoaderClose s)
  | .readResponseBody bytesToRead optional ccb ml =>
    some (ppbUrlLoaderReadResponseBody s bytesToRead optional ccb ml)
  | .finishStreamingToFile ccb ml => some (ppbUrlLoaderFinishStreamingToFile s ccb ml)
  | .newStream stream ph =>
    if s.streams[stream]? = some none then some (nppNewStream s stream ph) else none
  | .write stream buffer => (s.running stream).map fun st => nppWrite s stream st buffer
  | .destroyStream stream => (s.running stream).map fun st => nppDestroyStream s stream st
  | .urlNotify reason => some (nppUrlNotify s reason)
  | .urlRedirectNotify url => some (nppUrlRedirectNotify s url)
  | .resume i => s.pending[i]?.bind fun c => resume (s.withoutCall i) c
  | .resumeRedirect i ml fileOpened =>
    s.pending[i]?.bind fun c => resumeRedirect (s.withoutCall i) ml fileOpened c

def machine : Machine State Action := ⟨.create,step⟩

end UrlRequests
end FreshPlayer
