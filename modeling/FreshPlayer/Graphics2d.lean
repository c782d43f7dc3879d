import FreshPlayer.Transition
import FreshPlayer.Holdings
import Mathlib.Algebra.Order.Ring.Int

/-! A Graphics2D context and the resources its paint tasks name. Flush goes through its
tasks one by one with the context acquired; in between other threads use the resources.
Buffers are known by their sizes, `none` is a NULL pointer. -/
namespace FreshPlayer
namespace Graphics2d

/-- Multiplication of two `int32_t`, wrapped. -/
def mul32 (a b : ℤ) : ℤ := (a*b).bmod (2^32)

abbrev Buffer := Option ℤ

/-- A product of type `int` is passed on as a `size_t`. -/
def sizeT (n : ℤ) : ℤ := n % 2^64

/-- `calloc` of a converted `int`. No allocation has the size of a negative one. -/
def calloc (size : ℤ) (succeeds : Bool) : Buffer :=
  if succeeds ∧ 0 ≤ size then some size else none

/-- A cairo image surface over a buffer. -/
structure Surface where
  width : ℤ
  height : ℤ
  stride : ℤ
  data : Buffer
  deriving DecidableEq, Repr

/-- Cairo makes an error surface, on which drawing does nothing, of other sizes. -/
def Surface.Drawable (f : Surface) : Prop :=
  0 ≤ f.width ∧ f.width ≤ 32767 ∧ 0 ≤ f.height ∧ f.height ≤ 32767

instance (f : Surface) : Decidable f.Drawable := inferInstanceAs (Decidable (_ ∧ _))

structure ImageData where
  width : ℤ
  height : ℤ
  stride : ℤ
  data : Buffer
  cairoSurf : Surface
  deriving DecidableEq, Repr

inductive Content
  | imageData (id : ImageData)
  | other
  deriving DecidableEq, Repr

structure Resource where
  content : Content
  refCnt : ℤ
  deriving DecidableEq, Repr

inductive PaintTaskType
  | paintId | replaceContents
  deriving DecidableEq, Repr

/-- `number` is a ghost, the place of the task in the order of queueing. -/
structure PaintTask where
  type : PaintTaskType
  imageData : ℤ
  number : ℕ
  deriving DecidableEq, Repr

structure Context (σ : Type*) where
  width : ℤ
  height : ℤ
  stride : ℤ
  scale : σ
  scaledWidth : ℤ
  scaledHeight : ℤ
  scaledStride : ℤ
  data : Buffer
  secondBuffer : Buffer
  cairoSurf : Surface
  taskList : List PaintTask

/-- The floating-point arithmetic of scales: the device's own scale, the product of two,
and a length times a scale, rounded to an `int32_t`. -/
structure Scaling (σ : Type*) where
  deviceScale : σ
  mul : σ → σ → σ
  scaled : ℤ → σ → ℤ

/-- Bytes that a copy reads or writes in a buffer. -/
structure Access where
  bytes : ℤ
  buffer : Buffer
  deriving DecidableEq, Repr

/-- Ghosts are the accesses of the copies made, whether queueing a task took a reference,
and the tasks whose reference was dropped. The last two are read off the counts of the
resources, which are not bounded here. -/
structure State (σ : Type*) where
  resources : AList fun _ : ℤ => Resource
  g2d : Option (Context σ)
  flushing : Bool
  accesses : List Access
  taken : List Bool
  dropped : List ℕ

def State.create {σ : Type*} : State σ := ⟨∅,none,false,[],[],[]⟩

variable {σ : Type*}

/-- What drawing on or from a whole surface touches. -/
def Surface.accesses (f : Surface) : List Access :=
  if f.Drawable then [⟨f.stride*f.height,f.data⟩] else []

/-! Resources. -/

/-- The references that a resource counts. -/
def State.refCnt (s : State σ) (resource : ℤ) : ℤ :=
  ((s.resources.lookup resource).map Resource.refCnt).getD 0

def ppResourceRef (s : State σ) (resource : ℤ) : State σ :=
  match s.resources.lookup resource with
  | none => s
  | some r => { s with resources := s.resources.insert resource { r with refCnt := r.refCnt+1 } }

/-- The last reference takes the resource with it. -/
def ppResourceUnref (s : State σ) (resource : ℤ) : State σ :=
  match s.resources.lookup resource with
  | none => s
  | some r =>
    if r.refCnt-1 ≤ 0 then { s with resources := s.resources.erase resource }
    else { s with resources := s.resources.insert resource { r with refCnt := r.refCnt-1 } }

/-- `pp_resource_acquire` of an image. -/
def acquireImageData (s : State σ) (resource : ℤ) : Option (ImageData × ℤ) :=
  match s.resources.lookup resource with
  | some ⟨.imageData id,refCnt⟩ => some (id,refCnt)
  | _ => none

theorem lookup_of_acquire {s : State σ} {x c : ℤ} {id : ImageData}
    (h : acquireImageData s x = some (id,c)) : s.resources.lookup x = some ⟨.imageData id,c⟩ := by
  unfold acquireImageData at h
  split at h
  · rename_i id' c' hl
    cases h
    exact hl
  · cases h

def ppbImageDataCreate (s : State σ) (resource width height : ℤ) (succeeds : Bool) : State σ :=
  let stride := mul32 width 4
  match calloc (mul32 stride height) succeeds with
  | none => s
  | some n =>
    let id : ImageData := ⟨width,height,stride,some n,⟨width,height,stride,some n⟩⟩
    { s with resources := s.resources.insert resource ⟨.imageData id,1⟩ }

/-! The context. -/

variable (P : Scaling σ)

def ppbGraphics2dCreate (s : State σ) (width height : ℤ) (first second : Bool) : State σ :=
  let stride := mul32 4 width
  let scaledWidth := P.scaled width P.deviceScale
  let scaledHeight := P.scaled height P.deviceScale
  let scaledStride := mul32 4 scaledWidth
  match calloc (mul32 stride height) first, calloc (mul32 scaledStride scaledHeight) second with
  | some n, some m =>
    { s with g2d := some ⟨width,height,stride,P.deviceScale,scaledWidth,scaledHeight,scaledStride,
        some n,some m,⟨width,height,stride,some n⟩,[]⟩ }
  | _, _ => s

/-- The destructor frees both buffers. -/
def ppbGraphics2dDestroy (s : State σ) : State σ := { s with g2d := none }

/-- Queue a task with a reference on what it names, if there is such a resource. -/
def queueTask (s : State σ) (g : Context σ) (type : PaintTaskType) (imageData : ℤ) : State σ :=
  let task : PaintTask := ⟨type,imageData,s.taken.length⟩
  { ppResourceRef s imageData with g2d := some { g with taskList := g.taskList ++ [task] } }

def ppbGraphics2dPaintImageData (s : State σ) (g : Context σ) (imageData : ℤ) : State σ :=
  queueTask s g .paintId imageData

def ppbGraphics2dReplaceContents (s : State σ) (g : Context σ) (imageData : ℤ) : State σ :=
  queueTask s g .replaceContents imageData

def ppbGraphics2dSetScale (s : State σ) (g : Context σ) (scale : σ) (succeeds : Bool) : State σ :=
  let scale := P.mul scale P.deviceScale
  let scaledWidth := P.scaled g.width scale
  let scaledHeight := P.scaled g.height scale
  let scaledStride := mul32 4 scaledWidth
  { s with g2d := some { g with
      scale := scale, scaledWidth := scaledWidth, scaledHeight := scaledHeight
      scaledStride := scaledStride
      secondBuffer := calloc (mul32 scaledStride scaledHeight) succeeds } }

/-- The end of a task whose image was found. -/
def finishTask (s : State σ) (task : PaintTask) : State σ := ppResourceUnref s task.imageData

/-- The image is drawn on the surface of the context. -/
def paintId (s : State σ) (g : Context σ) (id : ImageData) : State σ :=
  { s with accesses := s.accesses ++ id.cairoSurf.accesses ++ g.cairoSurf.accesses }

/-- Context and image exchange their buffers if their sizes are found to agree. -/
def replaceContents (s : State σ) (g : Context σ) (task : PaintTask) (id : ImageData)
    (refCnt : ℤ) : State σ :=
  if id.width = g.width ∨ id.height = g.height then
    { s with
      g2d := some { g with data := id.data, cairoSurf := id.cairoSurf }
      resources := s.resources.insert task.imageData
        ⟨.imageData { id with data := g.data, cairoSurf := g.cairoSurf },refCnt⟩ }
  else s

/-- One round of the loop over the tasks; `g` is the context without this task. -/
def flushTask (s : State σ) (g : Context σ) (task : PaintTask) : State σ :=
  let s := { s with g2d := some g }
  match acquireImageData s task.imageData with
  | none => s
  | some (id,refCnt) => match task.type with
    | .paintId => finishTask (paintId s g id) task
    | .replaceContents => finishTask (replaceContents s g task id refCnt) task

/-- The second buffer is filled, by a plain copy where no scaling is needed. -/
def flushCopy (s : State σ) (g : Context σ) : State σ :=
  let copied :=
    if g.scaledWidth = g.width ∧ g.scaledHeight = g.height then
      [⟨sizeT (mul32 g.stride g.height),g.secondBuffer⟩,⟨sizeT (mul32 g.stride g.height),g.data⟩]
    else
      Surface.accesses ⟨g.scaledWidth,g.scaledHeight,g.scaledStride,g.secondBuffer⟩ ++
        g.cairoSurf.accesses
  { s with flushing := false, accesses := s.accesses ++ copied }

inductive Action (σ : Type*)
  | createImageData (resource width height : ℤ) (succeeds : Bool)
  | createOther (resource : ℤ)
  | ref (resource : ℤ)
  | unref (resource : ℤ)
  | create (width height : ℤ) (first second : Bool)
  | paintImageData (imageData : ℤ)
  | replaceContents (imageData : ℤ)
  | setScale (scale : σ) (succeeds : Bool)
  | flush
  | flushTask
  | flushCopy
  | destroy

/-- The context, unless a Flush has it. -/
def State.idle (s : State σ) : Option (Context σ) := if s.flushing then none else s.g2d

/-- A call that queues a task took a reference if its resource counts one more afterwards. -/
def State.queueing (s t : State σ) (imageData : ℤ) : State σ :=
  { t with taken := s.taken ++ [decide (t.refCnt imageData = s.refCnt imageData+1)] }

/-- The reference of a consumed task was dropped if its resource counts one less. -/
def State.consuming (s t : State σ) (task : PaintTask) : State σ :=
  { t with dropped := if t.refCnt task.imageData = s.refCnt task.imageData-1 then
      s.dropped ++ [task.number] else s.dropped }

theorem g2d_of_idle {s : State σ} {g : Context σ} (h : s.idle = some g) : s.g2d = some g := by
  unfold State.idle at h
  split_ifs at h
  exact h

def step (s : State σ) : Action σ → Option (State σ)
  | .createImageData resource width height succeeds =>
    if s.resources.lookup resource = none then
      some (ppbImageDataCreate s resource width height succeeds)
    else none
  | .createOther resource =>
    if s.resources.lookup resource = none then
      some { s with resources := s.resources.insert resource ⟨.other,1⟩ }
    else none
  | .ref resource => some (ppResourceRef s resource)
  | .unref resource => some (ppResourceUnref s resource)
  | .create width height first second =>
    if s.g2d.isNone then some (ppbGraphics2dCreate P s width height first second) else none
  | .paintImageData imageData => s.idle.map fun g =>
    s.queueing (ppbGraphics2dPaintImageData s g imageData) imageData
  | .replaceContents imageData => s.idle.map fun g =>
    s.queueing (ppbGraphics2dReplaceContents s g imageData) imageData
  | .setScale scale succeeds => s.idle.map fun g => ppbGraphics2dSetScale P s g scale succeeds
  | .flush => s.idle.map fun _ => { s with flushing := true }
  | .flushTask => match s.flushing, s.g2d with
    | true, some g => match g.taskList with
      | task::rest =>
        some (s.consuming (Graphics2d.flushTask s { g with taskList := rest } task) task)
      | [] => none
    | _, _ => none
  | .flushCopy => match s.flushing, s.g2d with
    | true, some g => if g.taskList = [] then some (Graphics2d.flushCopy s g) else none
    | _, _ => none
  | .destroy => s.idle.map fun _ => ppbGraphics2dDestroy s

def machine : Machine (State σ) (Action σ) := ⟨.create,step P⟩

end Graphics2d
end FreshPlayer
