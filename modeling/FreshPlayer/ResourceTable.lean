import FreshPlayer.Transition
import FreshPlayer.Holdings
import Mathlib.Algebra.Order.Ring.Int

/-! The table of resources shared by all threads. Each step is one section under the
table lock, or the start or end of a destructor, which runs outside of it and may
itself use the table. -/
namespace FreshPlayer
namespace ResourceTable

/-- The count is not bounded here; `heldCnt` is what its `int` holds. -/
structure Resource where
  selfId : ℤ
  resourceType : ℕ
  refCnt : ℤ
  lock : Bool
  deriving DecidableEq, Repr

def Resource.heldCnt (r : Resource) : ℤ := r.refCnt.bmod (2^32)

/-- What a thread does between sections: it has unlocked a resource but not unreferenced
it, it is about to call a destructor, or it is inside one. -/
inductive Task
  | releasing (resource : ℤ)
  | destroying (ptr : Resource) (resourceDestructor : Option ℕ)
  | inDestructor (ptr : Resource)
  deriving DecidableEq, Repr

structure Frame where
  thread : ℕ
  task : Task
  deriving DecidableEq, Repr

/-- A resource some thread has acquired, with the type it asked for. -/
structure Acquisition where
  thread : ℕ
  resource : ℤ
  type : ℕ
  deriving DecidableEq, Repr

/-- The table, and the frames of all threads, innermost first. Ghosts are the references
and acquisitions threads have, the types allocated, the calls of `ref` and `unref` that
found their entry, and the destructors called. The steps keep them, from what the threads call
and are returned. -/
structure State where
  resTbl : AList fun _ : ℤ => Resource
  resTblNext : ℤ
  frames : List Frame
  tokens : List (ℕ × ℤ)
  acquired : List Acquisition
  allocated : List ℕ
  refs : List ℤ
  unrefs : List ℤ
  destroyed : List (ℤ × Option ℕ)

def State.create : State := ⟨∅,1,[],[],[],[],[],[],[]⟩

def State.put (s : State) (resource : ℤ) (r : Resource) : State :=
  { s with resTbl := s.resTbl.insert resource r }

/-- The innermost frame of a thread. -/
def State.top (s : State) (t : ℕ) : Option Frame := s.frames.find? (·.thread == t)

def State.pop (s : State) (t : ℕ) : State :=
  { s with frames := s.frames.eraseP (·.thread == t) }

/-- The thread is in code that may call the functions of the table. -/
def State.free (s : State) (t : ℕ) : Bool :=
  match s.top t with
  | none | some ⟨_,.inDestructor _⟩ => true
  | _ => false

/-- The counter is an `int`. -/
def ppResourceAllocate (s : State) (type : ℕ) : State × ℤ :=
  let id := s.resTblNext
  ({ s.put id ⟨id,type,1,false⟩ with resTblNext := (id+1).bmod (2^32) },id)

def ppResourceRef (s : State) (resource : ℤ) : State :=
  match s.resTbl.lookup resource with
  | none => s
  | some ptr => s.put resource { ptr with refCnt := ptr.refCnt+1 }

/-- A mutex already taken is tried again later. -/
def ppResourceAcquire (s : State) (resource : ℤ) (type : ℕ) : State × Option Resource :=
  match s.resTbl.lookup resource with
  | none => (s,none)
  | some gr =>
    if gr.resourceType ≠ type then (s,none)
    else if gr.lock then (s,none)
    else
      let gr := { gr with refCnt := gr.refCnt+1, lock := true }
      (s.put resource gr,some gr)

/-- The first section of a release. -/
def unlockSection (s : State) (t : ℕ) (resource : ℤ) : State :=
  { (match s.resTbl.lookup resource with
      | none => s
      | some gr => s.put resource { gr with lock := false }) with
    frames := ⟨t,.releasing resource⟩::s.frames }

/-- The section of `unref`; the caller goes on with the destructor it found. -/
def unrefSection (destructors : ℕ → Option ℕ) (s : State) (t : ℕ) (resource : ℤ) : State :=
  match s.resTbl.lookup resource with
  | none => s
  | some ptr =>
    let ptr := { ptr with refCnt := ptr.refCnt-1 }
    if ptr.refCnt ≤ 0 then
      { s with
        resTbl := s.resTbl.erase resource
        frames := ⟨t,.destroying ptr (destructors ptr.resourceType)⟩::s.frames }
    else s.put resource ptr

inductive Action
  | allocate (t type : ℕ)
  | ref (t : ℕ) (resource : ℤ)
  | unref (t : ℕ) (resource : ℤ)
  | acquire (t : ℕ) (resource : ℤ) (type : ℕ)
  | release (a : Acquisition)
  | releaseUnref (t : ℕ)
  | destroy (t : ℕ)
  | destructorReturns (t : ℕ)
  deriving DecidableEq, Repr

/-- A thread has the reference that comes with what it allocates. -/
def allocateBy (s : State) (t type : ℕ) : State :=
  let r := ppResourceAllocate s type
  { r.1 with tokens := (t,r.2)::s.tokens, allocated := s.allocated ++ [type] }

/-- A thread has a further reference if there is a resource. -/
def refBy (s : State) (t : ℕ) (resource : ℤ) : State :=
  if (s.resTbl.lookup resource).isSome then
    { ppResourceRef s resource with tokens := (t,resource)::s.tokens, refs := resource::s.refs }
  else ppResourceRef s resource

/-- A thread has acquired what is returned to it. -/
def acquireBy (s : State) (t : ℕ) (resource : ℤ) (type : ℕ) : State :=
  match ppResourceAcquire s resource type with
  | (u,some _) => { u with acquired := ⟨t,resource,type⟩::s.acquired }
  | (u,none) => u

/-- Threads undo only references and acquisitions of their own. -/
def step (destructors : ℕ → Option ℕ) (s : State) : Action → Option State
  | .allocate t type => if s.free t then some (allocateBy s t type) else none
  | .ref t resource => if s.free t then some (refBy s t resource) else none
  | .unref t resource =>
    if s.free t ∧ (t,resource) ∈ s.tokens then
      some (unrefSection destructors
        { s with tokens := s.tokens.erase (t,resource), unrefs := resource::s.unrefs } t resource)
    else none
  | .acquire t resource type =>
    if s.free t then some (acquireBy s t resource type) else none
  | .release a =>
    if s.free a.thread ∧ a ∈ s.acquired then
      some (unlockSection { s with acquired := s.acquired.erase a } a.thread a.resource)
    else none
  | .releaseUnref t => match s.top t with
    | some ⟨_,.releasing resource⟩ => some (unrefSection destructors (s.pop t) t resource)
    | _ => none
  | .destroy t => match s.top t with
    | some ⟨_,.destroying ptr d⟩ => some
        { s.pop t with
          frames := ⟨t,.inDestructor ptr⟩::(s.pop t).frames
          destroyed := s.destroyed ++ [(ptr.selfId,d)] }
    | _ => none
  | .destructorReturns t => match s.top t with
    | some ⟨_,.inDestructor _⟩ => some (s.pop t)
    | _ => none

def machine (destructors : ℕ → Option ℕ) : Machine State Action := ⟨.create,step destructors⟩

/-- An acquisition finds an unlocked resource of its type, or changes nothing. -/
theorem acquireBy_cases (s : State) (t : ℕ) (resource : ℤ) (type : ℕ) :
    acquireBy s t resource type = s ∨ ∃ gr, s.resTbl.lookup resource = some gr ∧
      gr.resourceType = type ∧ gr.lock = false ∧ acquireBy s t resource type =
        { s.put resource { gr with refCnt := gr.refCnt+1, lock := true } with
          acquired := ⟨t,resource,type⟩::s.acquired } := by
  unfold acquireBy ppResourceAcquire
  cases hv : s.resTbl.lookup resource with
  | none => exact Or.inl rfl
  | some gr =>
    dsimp only
    by_cases htype : gr.resourceType = type
    · rw [if_neg (not_not.mpr htype)]
      cases hlock : gr.lock with
      | true => exact Or.inl rfl
      | false => exact Or.inr ⟨gr,rfl,htype,hlock,rfl⟩
    · rw [if_pos htype]
      exact Or.inl rfl

/-! What the claims about the table count. -/

def Frame.releases (id : ℤ) (f : Frame) : Bool :=
  match f.task with
  | .releasing resource => resource == id
  | _ => false

def Frame.destroys (id : ℤ) (f : Frame) : Bool :=
  match f.task with
  | .destroying ptr _ => ptr.selfId == id
  | _ => false

/-- The destructor of the resource is about to be called or running. -/
def Frame.ends (id : ℤ) (f : Frame) : Bool :=
  match f.task with
  | .destroying ptr _ | .inDestructor ptr => ptr.selfId == id
  | _ => false

/-- Acquisitions not undone yet: resources held, and releases under way. -/
def State.outstanding (s : State) (id : ℤ) : ℕ :=
  s.acquired.countP (·.resource == id) + s.frames.countP (Frame.releases id)

/-- `1 + refs - unrefs + outstanding acquires`. -/
def State.count (s : State) (id : ℤ) : ℤ :=
  1 + s.refs.count id - s.unrefs.count id + s.outstanding id

def State.Allocated (s : State) (id : ℤ) : Prop := 1 ≤ id ∧ id ≤ s.allocated.length

instance (s : State) (id : ℤ) : Decidable (s.Allocated id) := inferInstanceAs (Decidable (_ ∧ _))

end ResourceTable
end FreshPlayer
