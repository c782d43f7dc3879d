import FreshPlayer.Holdings
import FreshPlayer.Rendezvous

/-! The streams of the ALSA thread. Streams are made and destroyed by its clients, which wake
the thread up and wait for it; the thread polls the files of all of them and calls back. -/
namespace FreshPlayer
namespace AlsaStreams

open Rendezvous

structure Stream where
  fds : List ℕ
  paused : Bool
  hasCallback : Bool
  deriving DecidableEq, Repr

inductive Thread
  | notStarted | starting | running
  deriving DecidableEq, Repr

/-- Streams are numbered as they are allocated; `streams` has those not freed. `leaked` has the
files of devices opened for streams that could not be made, `owned` the streams that clients
have. `threads`, `closed`, `heard` and `stale` are ghosts: threads created, devices closed,
callbacks called and uses of freed streams. -/
structure Data where
  thread : Thread
  threads : ℕ
  streams : AList fun _ : ℕ => Stream
  activeStreamsHt : List ℕ
  streamByFdHt : AList fun _ : ℕ => ℕ
  streamsToDelete : List ℕ
  rebuildFds : Bool
  fds : List ℕ
  made : ℕ
  leaked : List ℕ
  owned : List ℕ
  closed : List ℕ
  heard : List ℕ
  stale : ℕ
  deriving DecidableEq

def Data.create : Data := ⟨.notStarted,0,∅,[],∅,[],false,[],0,[],[],[],[],0⟩

def Data.fdsOf (d : Data) (as : ℕ) : List ℕ := ((d.streams.lookup as).map Stream.fds).getD []

def deleteStream (d : Data) (as : ℕ) : Data :=
  match d.streams.lookup as with
  | none => { d with stale := d.stale+1 }
  | some stream => { d with
      activeStreamsHt := d.activeStreamsHt.erase as
      streamByFdHt := stream.fds.foldl (fun t fd => t.erase fd) d.streamByFdHt
      closed := d.closed ++ [as]
      streams := d.streams.erase as }

def processStreamDeletionsUnlocked (d : Data) : Data :=
  { d.streamsToDelete.foldl deleteStream d with streamsToDelete := [] }

/-- The files polled besides the wakeup pipe. -/
def doRebuildFds (d : Data) : Data :=
  let d := processStreamDeletionsUnlocked d
  { d with
    fds := d.activeStreamsHt.flatMap d.fdsOf
    stale := d.stale + d.activeStreamsHt.countP fun as => (d.streams.lookup as).isNone
    rebuildFds := false
    thread := .running }

/-- A file that is ready, and for how many segments of sound. -/
structure Ready where
  k : ℕ
  segments : ℕ
  deriving DecidableEq, Repr

def processFd (d : Data) (r : Ready) : Data :=
  match d.fds[r.k]?.bind d.streamByFdHt.lookup with
  | none => d
  | some as => match d.streams.lookup as with
    | none => { d with stale := d.stale+1 }
    | some stream =>
      if stream.paused || !stream.hasCallback then d
      else { d with heard := d.heard ++ List.replicate r.segments as }

/-- The first stream starts the thread. The device opened for a stream brings its files. -/
inductive Call
  | start
  | create (as : ℕ) (fds : List ℕ)
  | destroy (as : ℕ)
  deriving DecidableEq, Repr

/-- `createFails` is a stream given up after its device was opened. -/
inductive Act
  | pause (as : ℕ) (enabled : Bool)
  | createFails (fds : List ℕ)
  deriving DecidableEq, Repr

/-- Files that are not open. -/
def Data.Unused (d : Data) (fds : List ℕ) : Prop :=
  fds.Nodup ∧ ∀ fd ∈ fds, fd ∉ d.leaked ∧ fd ∉ holdings Stream.fds d.streams

instance (d : Data) (fds : List ℕ) : Decidable (d.Unused fds) :=
  inferInstanceAs (Decidable (_ ∧ _))

/-- The client that is to start the thread has looked whether it was started. -/
def look : Call → Option (Data → Bool)
  | .start => some fun d => d.thread = .notStarted
  | .create _ _ | .destroy _ => none

/-- A second thread would free and poll the same streams. It is only counted. -/
def post (d : Data) : Call → Option Data
  | .start => some { d with
      thread := if d.thread = .notStarted then .starting else d.thread
      threads := d.threads+1 }
  | .create as fds =>
    if d.thread ≠ .notStarted ∧ as = d.made ∧ d.Unused fds then some { d with
      streams := d.streams.insert as ⟨fds,true,false⟩
      activeStreamsHt := as::d.activeStreamsHt
      streamByFdHt := fds.foldl (fun t fd => t.insert fd as) d.streamByFdHt
      made := d.made+1
      rebuildFds := true }
    else none
  | .destroy as =>
    if as ∈ d.owned then some { d with
      owned := d.owned.erase as
      streamsToDelete := as::d.streamsToDelete
      rebuildFds := true }
    else none

/-- The callback is set when the stream has been made. -/
def finish (d : Data) : Call → Data
  | .create as _ => match d.streams.lookup as with
    | some stream => { d with
        streams := d.streams.insert as { stream with hasCallback := true }
        owned := as::d.owned }
    | none => { d with stale := d.stale+1 }
  | .start | .destroy _ => d

def act (d : Data) : Act → Option Data
  | .pause as enabled =>
    if as ∈ d.owned then (d.streams.lookup as).map fun stream =>
      { d with streams := d.streams.insert as { stream with paused := enabled } }
    else none
  | .createFails fds =>
    if d.thread ≠ .notStarted ∧ d.Unused fds then some { d with leaked := fds ++ d.leaked }
    else none

def service : Service Data Call Unit Ready Act where
  look := look
  post := post
  pending d := d.thread = .starting || (d.thread = .running && d.rebuildFds)
  serve d _ := doRebuildFds d
  work := processFd
  act := act
  finish := finish

abbrev machine (κ : Type) [DecidableEq κ] :
    Machine (State Data Call κ) (Label Call Unit Ready Act κ) :=
  Rendezvous.machine service Data.create

end AlsaStreams
end FreshPlayer
