import FreshPlayer.VarContents

/-! Arrays whose sizes and indexes are of 32 bits, with the last index, at which the size
needed wraps. -/
namespace FreshPlayer
namespace Var

/-! An array as a function on all indexes. -/

def readSlot (xs : List PPVar) (k : ℕ) : PPVar := xs.getD k ppMakeUndefined

theorem setSlot_length (xs : List PPVar) (index : ℕ) (value : PPVar) :
    (setSlot xs index value).length = max xs.length (index+1) := by
  simp only [setSlot,List.length_set,List.length_append,List.length_replicate]
  omega

/-- Slots that are not there read as the ones they are filled up with. -/
theorem readSlot_fill (xs : List PPVar) (n : ℕ) :
    readSlot (xs ++ List.replicate n ppMakeUndefined) = readSlot xs := by
  funext k
  simp only [readSlot,List.getD_eq_getElem?_getD,List.getElem?_append,List.getElem?_replicate]
  split
  · rfl
  · rw [List.getElem?_eq_none (by omega)]
    split <;> rfl

theorem readSlot_setSlot (xs : List PPVar) (index : ℕ) (value : PPVar) :
    readSlot (setSlot xs index value) = Function.update (readSlot xs) index value := by
  rw [← readSlot_fill xs (index+1-xs.length)]
  funext k
  by_cases hk : k = index
  · subst hk
    rw [Function.update_self]
    simp only [readSlot,setSlot,List.getD_eq_getElem?_getD]
    rw [List.getElem?_set_self (by simp only [List.length_append,List.length_replicate]; omega)]
    rfl
  · rw [Function.update_of_ne hk]
    simp only [readSlot,setSlot,List.getD_eq_getElem?_getD]
    rw [List.getElem?_set_ne (Ne.symm hk)]

/-! The array of a var. -/

/-- The length is a `guint`. -/
def ppbVarArrayGetLength (s : State) (array : PPVar) : UInt32 :=
  if array.type ≠ .array then 0 else UInt32.ofNat (arrayOf s array).length

/-- `g_array_set_size`, with what is cut off. -/
def gArraySetSize (xs : List PPVar) (length : UInt32) : List PPVar × List PPVar :=
  (xs.take length.toNat ++ List.replicate (length.toNat-xs.length) ppMakeUndefined,
    xs.drop length.toNat)

/-- The elements cut off are released. The copy is made at the index in any case, in memory
of others when the array does not reach so far. -/
def ppbVarArraySet32 (s : State) (array : PPVar) (index : UInt32) (value : PPVar) :
    Option (State × Bool) :=
  if array.type ≠ .array then some (s,false)
  else match s.table.lookup array.asId with
  | some ⟨var,refCount,.array xs⟩ =>
    let sized := if xs.length ≤ index.toNat then gArraySetSize xs (index+1) else (xs,[])
    let t := s.put array.asId ⟨var,refCount,.array (sized.1.set index.toNat value)⟩
    some (ppbVarAddRef (sized.2.foldl ppbVarRelease t) value,true)
  | _ => none

variable {s t u : State} {array value : PPVar} {index : UInt32}

/-- Below the last index the size does not wrap, and nothing is cut off. -/
theorem ppbVarArraySet32_eq (s : State) (array value : PPVar) (h : index.toNat+1 < 2^32) :
    ppbVarArraySet32 s array index value = ppbVarArraySet s array index.toNat value := by
  have hsize : (index+1).toNat = index.toNat+1 := by
    rw [UInt32.toNat_add]
    exact Nat.mod_eq_of_lt h
  unfold ppbVarArraySet32 ppbVarArraySet
  rw [if_neg (Nat.not_le.mpr h)]
  split_ifs
  · rfl
  · cases hl : s.table.lookup array.asId with
    | none => rfl
    | some v =>
      obtain ⟨var,refCount,content⟩ := v
      cases content with
      | array xs =>
        by_cases hx : xs.length ≤ index.toNat
        · have htake : xs.take (index.toNat+1) = xs := List.take_of_length_le (by omega)
          have hdrop : xs.drop (index.toNat+1) = [] := List.drop_of_length_le (by omega)
          simp only [gArraySetSize,hsize,if_pos hx,htake,hdrop,List.foldl_nil]
          rfl
        · have hfill : index.toNat+1-xs.length = 0 := by omega
          simp [if_neg hx,setSlot,hfill]
      | _ => rfl

theorem arrayGet_value {var : PPVar} {refCount : ℤ} {xs : List PPVar} (ht : array.type = .array)
    (h : s.table.lookup array.asId = some ⟨var,refCount,.array xs⟩) (k : ℕ) :
    (ppbVarArrayGet s array k).map Prod.snd = some (readSlot xs k) := by
  simp only [ppbVarArrayGet,ht,h,readSlot,List.getD_eq_getElem?_getD]
  cases xs[k]? <;> rfl

/-- A reference more or less leaves the array. -/
theorem addRef_array {xs : List PPVar} {var : PPVar} {refCount : ℤ}
    (h : s.table.lookup array.asId = some ⟨var,refCount,.array xs⟩) (x : PPVar) :
    ∃ var refCount, (ppbVarAddRef s x).table.lookup array.asId =
      some ⟨var,refCount,.array xs⟩ := by
  unfold ppbVarAddRef
  split_ifs
  · exact ⟨var,refCount,h⟩
  · split
    · exact ⟨var,refCount,h⟩
    · rename_i v hv
      by_cases he : array.asId = x.asId
      · rw [he] at h ⊢
        cases Option.some.inj (h.symm.trans hv)
        exact ⟨var,refCount+1,lookup_put_self _ _ _⟩
      · exact ⟨var,refCount,(lookup_put_ne _ _ he).trans h⟩

/-- Lengths are of 32 bits. -/
def Fits (s : State) : Prop :=
  ∀ id v xs, s.table.lookup id = some v → v.content = .array xs → xs.length < 2^32

/-- An array longer than that. -/
def Content.tooLong : Content → Prop
  | .array xs => 2^32 ≤ xs.length
  | _ => False

theorem Fits.keeps (h : Fits s) (hk : KeepsWhere Content.tooLong s t) : Fits t := by
  intro id v xs hv hc
  by_contra hlong
  obtain ⟨w,hw,he⟩ := hk id v hv (by rw [hc]; exact Nat.not_lt.mp hlong)
  exact hlong (h id w xs hw (he.trans hc))

theorem Fits.arraySet {index : ℕ} {b : Bool} (h : Fits s)
    (ht : ppbVarArraySet s array index value = some (t,b)) : Fits t := by
  rcases ppbVarArraySet_some ht with ⟨_,rfl,_⟩ | ⟨var,refCount,xs,_,hi,hl,_,rfl⟩
  · exact h
  · refine h.keeps (KeepsWhere.trans (.put ?_) (.addRef _ value))
    have hx := h _ _ xs hl rfl
    simp only [Content.tooLong,setSlot_length]
    omega

theorem Fits.setKeys {keys : PPVar} {idx : ℕ} {rest : List (List UInt8)} (h : Fits s)
    (ht : setKeys s keys idx rest = some t) : Fits t := by
  induction rest generalizing s idx with
  | nil =>
    cases ht
    exact h
  | cons sKey rest ih =>
    obtain ⟨⟨s₁,key⟩,h₁,ht⟩ := Option.bind_eq_some_iff.mp ht
    obtain ⟨⟨s₂,b⟩,h₂,ht⟩ := Option.bind_eq_some_iff.mp ht
    exact ih (((h.keeps (.create h₁ id)).arraySet h₂).keeps (.releaseOwned s₂ key)) ht

theorem step_fits {o : Op} (h : Fits s) (ht : step s o = some t) : Fits t := by
  have hempty : ¬Content.tooLong (.array []) := by simp [Content.tooLong]
  cases o with
  | dictionaryCreate =>
    obtain ⟨⟨u,var⟩,hu,rfl⟩ := Option.map_eq_some_iff.mp ht
    exact h.keeps (.create hu id)
  | arraySet array index value =>
    obtain ⟨⟨u,b⟩,hu,rfl⟩ := Option.map_eq_some_iff.mp ht
    exact h.arraySet hu
  | dictionarySet dict key value =>
    obtain ⟨⟨u,b⟩,hu,rfl⟩ := Option.map_eq_some_iff.mp ht
    rcases dictionarySet_keeps hu with ⟨_,rfl,_⟩ | ⟨var,refCount,d,_,_,_,_,hkeep⟩
    · exact h
    · have hput : KeepsWhere Content.tooLong s
          (s.put dict.asId ⟨var,refCount,.dict (d.insert (ppbVarVarToUtf8 s key) value)⟩) :=
        .put id
      exact h.keeps (hput.trans (hkeep.mono fun _ _ => trivial))
  | dictionaryGetKeys dict =>
    obtain ⟨⟨u,keys⟩,hu,rfl⟩ := Option.map_eq_some_iff.mp ht
    rcases ppbVarDictionaryGetKeys_some hu with ⟨_,rfl,_⟩ | ⟨w,_,_,d,_,hw,_,hkeys⟩
    · exact h
    · exact (h.keeps (.create hw hempty)).setKeys hkeys
  | _ => exact h.keeps (.step ht id (fun _ => id) id id hempty)

theorem fits_of_reachable (h : machine.Reachable s) : Fits s :=
  h.invariant Fits (fun _ _ _ hv => by cases hv) fun _ _ _ hs _ ht => step_fits hs ht

/-- What a set at an index leaves of an array. -/
structure SetLaw (s t : State) (array : PPVar) (index : UInt32) (value : PPVar) : Prop where
  length : (ppbVarArrayGetLength t array).toNat =
    max (ppbVarArrayGetLength s array).toNat (index.toNat+1)
  get : (ppbVarArrayGet t array index.toNat).map Prod.snd = some value
  others : ∀ k < (ppbVarArrayGetLength s array).toNat, k ≠ index.toNat →
    (ppbVarArrayGet t array k).map Prod.snd = (ppbVarArrayGet s array k).map Prod.snd
  gap : ∀ k < index.toNat, (ppbVarArrayGetLength s array).toNat ≤ k →
    (ppbVarArrayGet t array k).map Prod.snd = some ppMakeUndefined

theorem arrayGetLength_eq (ht : array.type = .array) (h : (arrayOf s array).length < 2^32) :
    (ppbVarArrayGetLength s array).toNat = (arrayOf s array).length := by
  rw [ppbVarArrayGetLength,if_neg (not_not.mpr ht)]
  exact Nat.mod_eq_of_lt h

/-- The law holds of a set exactly if it is not at the last of all indexes. -/
theorem array_set_iff (hs : Fits s) (h : ppbVarArraySet32 s array index value = some (t,true)) :
    SetLaw s t array index value ↔ index.toNat+1 < 2^32 := by
  constructor
  · intro hl
    have hlen := (ppbVarArrayGetLength t array).toNat_lt
    rw [hl.length] at hlen
    omega
  · intro hi
    rw [ppbVarArraySet32_eq s array value hi] at h
    rcases ppbVarArraySet_some h with ⟨_,_,hb⟩ | ⟨var,refCount,xs,ht,_,hl,_,he⟩
    · cases hb
    have hxs := hs _ _ xs hl rfl
    obtain ⟨var',refCount',hl'⟩ : ∃ var' refCount', t.table.lookup array.asId =
        some ⟨var',refCount',.array (setSlot xs index.toNat value)⟩ := by
      rw [he]
      exact addRef_array (lookup_put_self _ _ _) value
    have hread := fun k => congrFun (readSlot_setSlot xs index.toNat value) k
    have hold : (ppbVarArrayGetLength s array).toNat = xs.length := by
      rw [arrayGetLength_eq ht (by rwa [arrayOf_eq hl]),arrayOf_eq hl]
    have hnew : (setSlot xs index.toNat value).length < 2^32 := by
      rw [setSlot_length]
      omega
    refine ⟨?_,?_,fun k _ hk => ?_,fun k hk hgap => ?_⟩
    · rw [hold,arrayGetLength_eq ht (by rwa [arrayOf_eq hl']),arrayOf_eq hl',setSlot_length]
    · rw [arrayGet_value ht hl',hread,Function.update_self]
    · rw [arrayGet_value ht hl',arrayGet_value ht hl,hread,Function.update_of_ne hk]
    · rw [arrayGet_value ht hl',hread,Function.update_of_ne (Nat.ne_of_lt hk)]
      rw [hold] at hgap
      simp [readSlot,List.getElem?_eq_none hgap]

/-- An array of one element. -/
def oneElement : List Op := [.arrayCreate,.arraySet ⟨.array,2⟩ 0 ⟨.int32,5⟩]

theorem oneElement_set : ∃ s t : State, machine.exec State.create oneElement = some s ∧
    ppbVarArraySet32 s ⟨.array,2⟩ 3 ⟨.int32,7⟩ = some (t,true) ∧
    SetLaw s t ⟨.array,2⟩ 3 ⟨.int32,7⟩ := by
  obtain ⟨s,t,hs,ht⟩ : ∃ s t : State, machine.exec State.create oneElement = some s ∧
    ppbVarArraySet32 s ⟨.array,2⟩ 3 ⟨.int32,7⟩ = some (t,true) := ⟨_,_,rfl,rfl⟩
  have hfits := fits_of_reachable (Machine.reachable_of_exec hs)
  exact ⟨s,t,hs,ht,(array_set_iff hfits ht).mpr (by decide)⟩

/-- At the last index the array is emptied. -/
theorem last_index_empties : ¬∀ (s t : State) (array : PPVar) (index : UInt32) (value : PPVar),
    machine.Reachable s → ppbVarArraySet32 s array index value = some (t,true) →
    SetLaw s t array index value := by
  intro h
  obtain ⟨s,t,hs,ht,hempty⟩ : ∃ s t : State, machine.exec State.create oneElement = some s ∧
    ppbVarArraySet32 s ⟨.array,2⟩ 4294967295 ⟨.int32,7⟩ = some (t,true) ∧
    (ppbVarArrayGetLength t ⟨.array,2⟩).toNat = 0 := ⟨_,_,rfl,rfl,rfl⟩
  have hl := (h s t _ _ _ (Machine.reachable_of_exec hs) ht).length
  rw [hempty] at hl
  omega

end Var
end FreshPlayer
