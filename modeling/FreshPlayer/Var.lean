import FreshPlayer.Holdings
import FreshPlayer.Transition
import Mathlib.Algebra.Group.Nat.Defs

/-! The table of reference counted vars with its containers. Every operation of the
plugin interface is one step; an operation that would follow a null pointer has none. -/
namespace FreshPlayer
namespace Var

inductive VarType
  | undefined | null | bool | int32 | double | string | object | array | dictionary
  | arrayBuffer | resource
  deriving DecidableEq, Repr

/-- A var of a counted type names an entry of the table by `asId`. -/
structure PPVar where
  type : VarType
  asId : ℕ
  deriving DecidableEq, Repr

def ppMakeUndefined : PPVar := ⟨.undefined,0⟩

def referenceCountable (var : PPVar) : Bool :=
  match var.type with
  | .string | .object | .array | .dictionary | .arrayBuffer => true
  | _ => false

/-- What the fields of an entry hold, by the type it was created with. -/
inductive Content
  | str (data : List UInt8)
  | obj
  | buffer
  | array (array : List PPVar)
  | dict (dict : AList fun _ : List UInt8 => PPVar)

/-- The count is not bounded here; what is said of counts says that they fit an `int`. -/
structure VarS where
  var : PPVar
  refCount : ℤ
  content : Content

def Content.type : Content → VarType
  | .str _ => .string
  | .obj => .object
  | .buffer => .arrayBuffer
  | .array _ => .array
  | .dict _ => .dictionary

/-- The array slots and dictionary values of an entry. -/
def Content.slots : Content → List PPVar
  | .array xs => xs
  | .dict d => holdings (fun x => [x]) d
  | _ => []

def VarS.slots (v : VarS) : List PPVar := v.content.slots

/-- An entry taken out of the table, with the number of references left on it then. -/
structure Removal where
  entry : VarS
  references : ℕ

/-- The table. Ghosts are the ids of the references callers own, the entries removed
and the elements released because their container was destroyed. -/
structure State where
  table : AList fun _ : ℕ => VarS
  varId : ℕ
  owned : List ℕ
  removed : List Removal
  cleared : List PPVar

def State.create : State := ⟨∅,1,[],[],[]⟩

/-- The entry of an id is inserted or changed. -/
def State.put (s : State) (id : ℕ) (v : VarS) : State := { s with table := s.table.insert id v }

/-- All slots of all containers in the table. -/
def State.slots (s : State) : List PPVar := holdings VarS.slots s.table

def holds (id : ℕ) (x : PPVar) : Bool := referenceCountable x && x.asId == id

/-- References on an entry: owned by callers, and in slots of containers. -/
def State.references (s : State) (id : ℕ) : ℕ := s.owned.count id + s.slots.countP (holds id)

/-- The do-while loop; as many tries as the table has entries, and one more, suffice. -/
def getNewVarId (table : AList fun _ : ℕ => VarS) : ℕ → ℕ → Option ℕ
  | 0, _ => none
  | n+1, varId =>
    let next := (varId+1) % 2^32
    if (table.lookup next).isSome then getNewVarId table n next else some next

/-- A new entry, its only reference owned by the caller. -/
def createVar (s : State) (content : Content) : Option (State × PPVar) :=
  (getNewVarId s.table (s.table.entries.length+1) s.varId).map fun id =>
    let var : PPVar := ⟨content.type,id⟩
    ({ s with table := s.table.insert id ⟨var,1,content⟩, varId := id, owned := id::s.owned },var)

def ppbVarVarFromUtf8 (s : State) (data : List UInt8) := createVar s (.str data)
def ppbVarCreateObject (s : State) := createVar s .obj
def ppbVarArrayBufferCreate (s : State) := createVar s .buffer
def ppbVarDictionaryCreate (s : State) := createVar s (.dict ∅)
def ppbVarArrayCreate (s : State) := createVar s (.array [])

def ppbVarAddRef (s : State) (var : PPVar) : State :=
  if !referenceCountable var then s
  else match s.table.lookup var.asId with
  | none => s
  | some v => s.put var.asId { v with refCount := v.refCount+1 }

/-- What freeing the entry releases; the type is the one the caller gave. -/
def elementsOf (var : PPVar) (v : VarS) : List PPVar :=
  match var.type, v.content with
  | .array, .array xs => xs
  | .dictionary, .dict d => holdings (fun x => [x]) d
  | _, _ => []

/-- The locked part of a release, with the elements left to be released. `pending`
are those of containers being destroyed further out. -/
def dropRef (s : State) (pending : List PPVar) (var : PPVar) : State × List PPVar :=
  if !referenceCountable var then (s,[])
  else match s.table.lookup var.asId with
  | none => (s,[])
  | some v =>
    if v.refCount-1 ≤ 0 then
      let references := s.references var.asId + pending.countP (holds var.asId)
      ({ s with table := s.table.erase var.asId, removed := s.removed ++ [⟨v,references⟩] },
        elementsOf var v)
    else (s.put var.asId { v with refCount := v.refCount-1 },[])

/-- The clear functions of destroyed containers, depth first. -/
def clearElements : ℕ → State → List PPVar → State
  | n+1, s, x::xs =>
    let r := dropRef { s with cleared := s.cleared ++ [x] } xs x
    clearElements n r.1 (r.2 ++ xs)
  | _, s, _ => s

/-- Each release of an element takes it out of a slot for good, which bounds the recursion. -/
def ppbVarRelease (s : State) (var : PPVar) : State :=
  let r := dropRef s [] var
  clearElements (r.2.length + r.1.slots.length) r.1 r.2

/-- A reference on a returned var goes to the caller. -/
def own (s : State) (var : PPVar) : State :=
  if referenceCountable var && (s.table.lookup var.asId).isSome then
    { s with owned := var.asId::s.owned }
  else s

def disown (s : State) (var : PPVar) : State :=
  if referenceCountable var then { s with owned := s.owned.erase var.asId } else s

def ppbVarAddRef2 (s : State) (var : PPVar) : State × PPVar := (ppbVarAddRef (own s var) var,var)

/-- A zero terminated copy of the text of a key. -/
def ppbVarVarToUtf8 (s : State) (var : PPVar) : List UInt8 :=
  match s.table.lookup var.asId with
  | some ⟨_,_,.str data⟩ => data.takeWhile (· ≠ 0)
  | _ => []

def ppbVarArrayGet (s : State) (array : PPVar) (index : ℕ) : Option (State × PPVar) :=
  if array.type ≠ .array then some (s,ppMakeUndefined)
  else match s.table.lookup array.asId with
  | some ⟨_,_,.array xs⟩ => match xs[index]? with
    | none => some (s,ppMakeUndefined)
    | some var => some (ppbVarAddRef2 s var)
  | _ => none

/-- `g_array_set_size` to hold the index, new slots undefined, then the copy. -/
def setSlot (xs : List PPVar) (index : ℕ) (value : PPVar) : List PPVar :=
  (xs ++ List.replicate (index+1-xs.length) ppMakeUndefined).set index value

/-- The size wraps at the last index, where the copy goes far out of the array. -/
def ppbVarArraySet (s : State) (array : PPVar) (index : ℕ) (value : PPVar) :
    Option (State × Bool) :=
  if array.type ≠ .array then some (s,false)
  else if 2^32 ≤ index+1 then none
  else match s.table.lookup array.asId with
  | some ⟨var,refCount,.array xs⟩ =>
    let t := s.put array.asId ⟨var,refCount,.array (setSlot xs index value)⟩
    some (ppbVarAddRef t value,true)
  | _ => none

def ppbVarDictionaryGet (s : State) (dict key : PPVar) : Option (State × PPVar) :=
  if dict.type ≠ .dictionary ∨ key.type ≠ .string then some (s,ppMakeUndefined)
  else match s.table.lookup dict.asId with
  | some ⟨_,_,.dict d⟩ => match d.lookup (ppbVarVarToUtf8 s key) with
    | none => some (s,ppMakeUndefined)
    | some val => some (ppbVarAddRef2 s val)
  | _ => none

/-- `g_hash_table_replace` stores the new value, then destroys the old one. -/
def ppbVarDictionarySet (s : State) (dict key value : PPVar) : Option (State × Bool) :=
  if dict.type ≠ .dictionary ∨ key.type ≠ .string then some (s,false)
  else match s.table.lookup dict.asId with
  | some ⟨var,refCount,.dict d⟩ =>
    let keyCopy := ppbVarVarToUtf8 s key
    let t := s.put dict.asId ⟨var,refCount,.dict (d.insert keyCopy value)⟩
    let u := match d.lookup keyCopy with
      | none => t
      | some old => ppbVarRelease t old
    some (ppbVarAddRef u value,true)
  | _ => none

/-- The loop over the keys of a dictionary. -/
def setKeys : State → PPVar → ℕ → List (List UInt8) → Option State
  | s, _, _, [] => some s
  | s, keys, idx, sKey::rest =>
    (ppbVarVarFromUtf8 s sKey).bind fun (s,key) =>
    (ppbVarArraySet s keys idx key).bind fun (s,_) =>
    setKeys (ppbVarRelease (disown s key) key) keys (idx+1) rest

def ppbVarDictionaryGetKeys (s : State) (dict : PPVar) : Option (State × PPVar) :=
  if dict.type ≠ .dictionary then some (s,ppMakeUndefined)
  else (ppbVarArrayCreate s).bind fun (s,keys) =>
    match s.table.lookup dict.asId with
    | some ⟨_,_,.dict d⟩ => (setKeys s keys 0 d.keys).map (·,keys)
    | _ => none

inductive Op
  | varFromUtf8 (data : List UInt8)
  | createObject
  | arrayBufferCreate
  | dictionaryCreate
  | arrayCreate
  | addRef (var : PPVar)
  | release (var : PPVar)
  | arraySet (array : PPVar) (index : ℕ) (value : PPVar)
  | arrayGet (array : PPVar) (index : ℕ)
  | dictionarySet (dict key value : PPVar)
  | dictionaryGet (dict key : PPVar)
  | dictionaryGetKeys (dict : PPVar)
  deriving DecidableEq, Repr

/-- Callers release only references they own. -/
def step (s : State) : Op → Option State
  | .varFromUtf8 data => (ppbVarVarFromUtf8 s data).map Prod.fst
  | .createObject => (ppbVarCreateObject s).map Prod.fst
  | .arrayBufferCreate => (ppbVarArrayBufferCreate s).map Prod.fst
  | .dictionaryCreate => (ppbVarDictionaryCreate s).map Prod.fst
  | .arrayCreate => (ppbVarArrayCreate s).map Prod.fst
  | .addRef var => some (ppbVarAddRef2 s var).1
  | .release var =>
    if referenceCountable var = true → var.asId ∈ s.owned then
      some (ppbVarRelease (disown s var) var)
    else none
  | .arraySet array index value => (ppbVarArraySet s array index value).map Prod.fst
  | .arrayGet array index => (ppbVarArrayGet s array index).map Prod.fst
  | .dictionarySet dict key value => (ppbVarDictionarySet s dict key value).map Prod.fst
  | .dictionaryGet dict key => (ppbVarDictionaryGet s dict key).map Prod.fst
  | .dictionaryGetKeys dict => (ppbVarDictionaryGetKeys s dict).map Prod.fst

def machine : Machine State Op := ⟨.create,step⟩

/-! What a call that returns found, and where it leads. -/

variable {s t : State}

/-- Whatever is read, a reference to it is taken. -/
theorem arrayGet_addRef2 {array var : PPVar} {index : ℕ}
    (h : ppbVarArrayGet s array index = some (t,var)) : t = (ppbVarAddRef2 s var).1 := by
  unfold ppbVarArrayGet at h
  split_ifs at h
  · cases h
    rfl
  · split at h
    · split at h <;> (cases h; rfl)
    · cases h

theorem dictionaryGet_addRef2 {dict key val : PPVar}
    (h : ppbVarDictionaryGet s dict key = some (t,val)) : t = (ppbVarAddRef2 s val).1 := by
  unfold ppbVarDictionaryGet at h
  split_ifs at h
  · cases h
    rfl
  · split at h
    · split at h <;> (cases h; rfl)
    · cases h

theorem ppbVarArraySet_some {array value : PPVar} {index : ℕ} {b : Bool}
    (h : ppbVarArraySet s array index value = some (t,b)) :
    (array.type ≠ .array ∧ t = s ∧ b = false) ∨
    ∃ var refCount xs, array.type = .array ∧ index+1 < 2^32 ∧
      s.table.lookup array.asId = some ⟨var,refCount,.array xs⟩ ∧ b = true ∧
      t = ppbVarAddRef (s.put array.asId ⟨var,refCount,.array (setSlot xs index value)⟩) value := by
  unfold ppbVarArraySet at h
  split_ifs at h with htype hlen
  · cases h
    exact Or.inl ⟨htype,rfl,rfl⟩
  · split at h
    · rename_i var refCount xs hl
      cases h
      exact Or.inr ⟨var,refCount,xs,not_not.mp htype,by omega,hl,rfl,rfl⟩
    · cases h

/-- The old value is released before the new one is counted. -/
theorem ppbVarDictionarySet_some {dict key value : PPVar} {b : Bool}
    (h : ppbVarDictionarySet s dict key value = some (t,b)) :
    ((dict.type ≠ .dictionary ∨ key.type ≠ .string) ∧ t = s ∧ b = false) ∨
    ∃ var refCount d u, dict.type = .dictionary ∧ key.type = .string ∧ b = true ∧
      s.table.lookup dict.asId = some ⟨var,refCount,.dict d⟩ ∧
      u = s.put dict.asId ⟨var,refCount,.dict (d.insert (ppbVarVarToUtf8 s key) value)⟩ ∧
      ((d.lookup (ppbVarVarToUtf8 s key) = none ∧ t = ppbVarAddRef u value) ∨
       ∃ old, d.lookup (ppbVarVarToUtf8 s key) = some old ∧
        t = ppbVarAddRef (ppbVarRelease u old) value) := by
  unfold ppbVarDictionarySet at h
  split_ifs at h with htype
  · cases h
    exact Or.inl ⟨htype,rfl,rfl⟩
  · obtain ⟨hd,hk⟩ := not_or.mp htype
    split at h
    · rename_i var refCount d hl
      cases h
      refine Or.inr ⟨var,refCount,d,_,not_not.mp hd,not_not.mp hk,rfl,hl,rfl,?_⟩
      cases hold : d.lookup (ppbVarVarToUtf8 s key) with
      | none => exact Or.inl ⟨rfl,rfl⟩
      | some old => exact Or.inr ⟨old,rfl,rfl⟩
    · cases h

theorem ppbVarDictionaryGetKeys_some {dict keys : PPVar}
    (h : ppbVarDictionaryGetKeys s dict = some (t,keys)) :
    (dict.type ≠ .dictionary ∧ t = s ∧ keys = ppMakeUndefined) ∨
    ∃ u var refCount d, dict.type = .dictionary ∧ ppbVarArrayCreate s = some (u,keys) ∧
      u.table.lookup dict.asId = some ⟨var,refCount,.dict d⟩ ∧
      setKeys u keys 0 d.keys = some t := by
  unfold ppbVarDictionaryGetKeys at h
  split_ifs at h with htype
  · cases h
    exact Or.inl ⟨htype,rfl,rfl⟩
  · obtain ⟨⟨u,keys₁⟩,hu,h⟩ := Option.bind_eq_some_iff.mp h
    dsimp only at h
    split at h
    · rename_i var refCount d hl
      obtain ⟨t₁,ht,he⟩ := Option.map_eq_some_iff.mp h
      cases he
      exact Or.inr ⟨u,var,refCount,d,not_not.mp htype,hu,hl,ht⟩
    · cases h

end Var
end FreshPlayer
