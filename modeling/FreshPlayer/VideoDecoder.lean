import FreshPlayer.Transition
import Mathlib.Data.Int.Notation
import Mathlib.Data.List.Basic
import Mathlib.Algebra.Group.Int.Defs
import Mathlib.Algebra.Group.Nat.Defs

/-! A hardware video decoder, its picture buffers, and the sections its calls go through. The
lock of the resource is given up around two callbacks of the plugin only, so a call of Decode
runs one round of its loop at a time, or waits in one of the two callbacks while other calls
run. What reads memory that nobody has written, or through NULL, has no next state. -/
namespace FreshPlayer
namespace VideoDecoder

inductive Api
  | hwdecNone | vaapi | vdpau
  deriving DecidableEq, Repr

/-- An entry of `buffers`; `none` is what the allocator left there. -/
structure Entry where
  id : Option ℤ
  width : Option ℕ
  height : Option ℕ
  textureId : Option ℕ
  used : Option Bool
  pixmap : Option ℕ
  glxPixmap : Option ℕ
  vdpPresentationQueueTarget : Option ℕ
  vdpPresentationQueue : Option ℕ
  deriving DecidableEq, Repr

def blank : Entry := ⟨none,none,none,none,none,none,none,none,none⟩

/-- A call of Decode: what is left of its input, and the id of its bitstream buffer. -/
structure Call where
  inbufSz : ℕ
  bitstream : ℤ
  deriving DecidableEq, Repr

/-- The callback a call of Decode waits in. -/
inductive Callback
  | providePictureBuffers | pictureReady
  deriving DecidableEq, Repr

/-- What the plugin is told, and what it answers. The position of a picture in `buffers` is a
ghost: the plugin knows a buffer by its id. -/
inductive Event
  | pictureReady (position : ℕ) (pictureBufferId bitstreamBufferId : ℤ)
  | reusePictureBuffer (pictureBufferId : ℤ)
  | assignPictureBuffers
  | dismissPictureBuffer (pictureBufferId : ℤ)
  deriving DecidableEq, Repr

/-- `graphics3d`, `avctx` and `avparser` tell whether there is one, `avframe` is the time stamp
of the frame. The call in `running` has the lock. The latest event comes first. -/
structure State where
  graphics3d : Bool
  avctx : Bool
  avparser : Bool
  avframe : Option ℤ
  lastConsumedBitstreamBufferId : ℤ
  bufferCount : ℕ
  buffers : Option (List Entry)
  initialized : Bool
  buffersWereRequested : Bool
  failedState : Bool
  hwdecApi : Api
  running : Option Call
  waiting : List (Callback × Call)
  log : List Event
  deriving DecidableEq, Repr

def created : State :=
  ⟨false,false,false,none,0,0,none,false,false,false,.hwdecNone,none,[],[]⟩

/-- What a loop over `buffer_count` runs through, unless it leaves the array. -/
def State.entries (s : State) : Option (List Entry) :=
  match s.buffers with
  | some l => if s.bufferCount ≤ l.length then some (l.take s.bufferCount) else none
  | none => if s.bufferCount = 0 then some [] else none

def State.setEntries (s : State) (l : List Entry) : State :=
  { s with buffers := s.buffers.map fun old => l ++ old.drop s.bufferCount }

/-- An entry on its way out: its handles are destroyed, its id is told to the plugin. -/
def dismiss (api : Api) (e : Entry) : Option ℤ := do
  if api = .vdpau then
    let _ ← e.vdpPresentationQueue
    let _ ← e.vdpPresentationQueueTarget
  let id ← e.id
  let _ ← e.glxPixmap
  let _ ← e.pixmap
  return id

def deinitializeDecoder (s : State) : Option State := do
  let l ← s.entries
  let ids ← l.mapM (dismiss s.hwdecApi)
  return { s with
    graphics3d := false, avparser := false, avctx := false, avframe := none
    bufferCount := 0, buffersWereRequested := false, initialized := false, buffers := none
    log := (ids.map Event.dismissPictureBuffer).reverse ++ s.log }

/-- How far the initialization gets. -/
inductive Initialization
  | noGraphics | failed | done
  deriving DecidableEq, Repr

/-- A fresh frame has no time stamp. -/
def noPts : ℤ := -2^63

def initializeDecoder : Initialization → State → Option State
  | .noGraphics, s => deinitializeDecoder s
  | .failed, s => deinitializeDecoder { s with hwdecApi := .hwdecNone }
  | .done, s => some { s with
      graphics3d := true, hwdecApi := .hwdecNone, avparser := true, avctx := true
      avframe := some noPts, initialized := true }

/-- What `get_format` finds and makes, when the library calls it. -/
inductive Format
  | vaapi (made : Bool)
  | vdpau (made : Bool)
  | nothing
  deriving DecidableEq, Repr

/-- The kind of the decoder is set before its context fails for VDPAU only. -/
def getFormat : Option Format → State → State
  | none, s => s
  | some (.vaapi true), s => { s with hwdecApi := .vaapi }
  | some (.vaapi false), s => { s with failedState := true }
  | some (.vdpau true), s => { s with hwdecApi := .vdpau }
  | some (.vdpau false), s => { s with hwdecApi := .vdpau, failedState := true }
  | some .nothing, s => s

/-- Up to the entry that is free. -/
def findFreeBuffer : List Entry → Option (Option ℕ)
  | [] => some none
  | e::l => e.used.bind fun used =>
    if used then (findFreeBuffer l).map fun found => found.map (·+1) else some (some 0)

def claim (e : Entry) : Entry := { e with used := some true }

/-- The picture drawn into an entry, as the plugin hears of it. -/
def pictureOf (api : Api) (e : Entry) : Option ℤ := do
  let _ ← e.textureId
  let _ ← e.glxPixmap
  match api with
  | .vaapi => let _ ← e.pixmap
  | .vdpau =>
    let _ ← e.vdpPresentationQueue
    let _ ← e.width
    let _ ← e.height
  | .hwdecNone => pure ()
  e.id

/-- The call `c` goes on without a picture, or waits in PictureReady. -/
def issueFrame (found : Bool) (c : Call) (s : State) : Option State := do
  let pktPts ← s.avframe
  let l ← s.entries
  match ← findFreeBuffer l with
  | none => return { s with running := some c }
  | some k =>
    let s := s.setEntries (l.modify k claim)
    if s.graphics3d && found then
      let id ← l[k]?.bind (pictureOf s.hwdecApi)
      return { s with
        running := none, waiting := s.waiting ++ [(.pictureReady,c)]
        log := .pictureReady k id (pktPts.bmod (2^32))::s.log }
    else
      return { s with running := some c }

/-- What the decoding of a packet gives. -/
inductive Decoded
  | error | noFrame
  | frame (pktPts : ℤ)
  deriving DecidableEq, Repr

/-- One round of the loop: what the parser consumes and gives, whether `get_format` is called,
what the decoder makes of it, and whether the graphics context is found. -/
structure Round where
  len : ℤ
  outbufSz : ℤ
  format : Option Format
  decoded : Decoded
  found : Bool
  deriving DecidableEq, Repr

def decodeFrame (r : Round) (c : Call) (s : State) : Option State :=
  let s := getFormat r.format s
  match r.decoded with
  | .error | .noFrame => some { s with running := some c }
  | .frame pktPts =>
    let s := { s with avframe := some pktPts }
    if s.buffersWereRequested then issueFrame r.found c s
    else some { s with running := none, waiting := s.waiting ++ [(.providePictureBuffers,c)] }

def parse (r : Round) (c : Call) (s : State) : Option State :=
  let c := { c with inbufSz := (((c.inbufSz : ℤ)-r.len) % 2^64).toNat }
  if s.avparser && s.avctx && s.avframe.isSome then
    if 0 < r.outbufSz then decodeFrame r c s else some { s with running := some c }
  else none

/-- Up to its loop. -/
def ppbVideoDecoderDecode (size : ℕ) (bitstream : ℤ) (initialization : Initialization)
    (mapped : Bool) (s : State) : Option State :=
  if s.failedState then some s
  else
    (if s.initialized then some s else initializeDecoder initialization s).map fun s =>
      if !s.initialized then { s with failedState := true }
      else if mapped then { s with running := some ⟨size,bitstream⟩ }
      else s

structure PictureBuffer where
  id : ℤ
  width : ℕ
  height : ℕ
  textureId : ℕ
  deriving DecidableEq, Repr

/-- What the libraries make for a buffer; `None` is 0. -/
structure Made where
  pixmap : ℕ
  glxPixmap : ℕ
  vdpPresentationQueueTarget : ℕ
  vdpPresentationQueue : ℕ
  deriving DecidableEq, Repr

def entryOf (b : PictureBuffer) (m : Made) : Entry :=
  { blank with
    id := some b.id, width := some b.width, height := some b.height
    textureId := some b.textureId, used := some false, pixmap := some m.pixmap
    glxPixmap := some m.glxPixmap }

/-- The entries, once the loop is over or given up. -/
def fill (api : Api) : List (PictureBuffer × Made) → List Entry
  | [] => []
  | (b,m)::rest =>
    if m.glxPixmap = 0 then entryOf b m::rest.map fun _ => blank
    else if api = .vdpau then
      { entryOf b m with
        vdpPresentationQueueTarget := some m.vdpPresentationQueueTarget
        vdpPresentationQueue := some m.vdpPresentationQueue }::fill api rest
    else entryOf b m::fill api rest

/-- The array there was before is not freed. -/
def ppbVideoDecoderAssignPictureBuffers (found allocated : Bool)
    (buffers : List (PictureBuffer × Made)) (s : State) : State :=
  if s.graphics3d && found then
    if allocated then { s with
      buffers := some (fill s.hwdecApi buffers), bufferCount := buffers.length
      log := .assignPictureBuffers::s.log }
    else { s with buffers := none }
  else s

def reuse (pictureBufferId : ℤ) (e : Entry) : Option Entry := do
  if (← e.id) = pictureBufferId then
    if ← e.used then return { e with used := some false } else return e
  else return e

def ppbVideoDecoderReusePictureBuffer (pictureBufferId : ℤ) (s : State) : Option State := do
  let l ← s.entries
  let l ← l.mapM (reuse pictureBufferId)
  let s := s.setEntries l
  return { s with log := .reusePictureBuffer pictureBufferId::s.log }

def ppbVideoDecoderFlush (s : State) : Option State := if s.avctx then some s else none

def ppbVideoDecoderReset (s : State) : Option State := deinitializeDecoder s

inductive Action
  | decode (size : ℕ) (bitstream : ℤ) (initialization : Initialization) (mapped : Bool)
  | round (r : Round)
  /-- The loop is over. -/
  | decodeReturn
  /-- A callback returns, and its call gets the lock back. -/
  | callbackReturn (position : ℕ) (found : Bool)
  | assignPictureBuffers (found allocated : Bool) (buffers : List (PictureBuffer × Made))
  | reusePictureBuffer (pictureBufferId : ℤ)
  | flush
  | reset
  deriving DecidableEq, Repr

/-- After ProvidePictureBuffers the frame is issued, after PictureReady the loop goes on. -/
def resume (found : Bool) : Callback × Call → State → Option State
  | (.providePictureBuffers,c), s => issueFrame found c { s with buffersWereRequested := true }
  | (.pictureReady,c), s => some { s with running := some c }

def step (s : State) : Action → Option State
  | .round r => match s.running with
    | some c => if 0 < c.inbufSz then parse r c s else none
    | none => none
  | .decodeReturn => match s.running with
    | some c =>
      if c.inbufSz = 0 then
        some { s with running := none, lastConsumedBitstreamBufferId := c.bitstream }
      else none
    | none => none
  | .callbackReturn position found =>
    if s.running = none then
      s.waiting[position]?.bind fun w =>
        resume found w { s with waiting := s.waiting.eraseIdx position }
    else none
  | .decode size bitstream initialization mapped =>
    if s.running = none then ppbVideoDecoderDecode size bitstream initialization mapped s else none
  | .assignPictureBuffers found allocated buffers =>
    if s.running = none then
      some (ppbVideoDecoderAssignPictureBuffers found allocated buffers s)
    else none
  | .reusePictureBuffer pictureBufferId =>
    if s.running = none then ppbVideoDecoderReusePictureBuffer pictureBufferId s else none
  | .flush => if s.running = none then ppbVideoDecoderFlush s else none
  | .reset => if s.running = none then ppbVideoDecoderReset s else none

def machine : Machine State Action := ⟨created,step⟩

end VideoDecoder
end FreshPlayer
