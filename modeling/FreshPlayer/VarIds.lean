import FreshPlayer.VarContents

/-! The ids of vars. In every state the entries of the table carry the ids they are found
by, and a new id is none of them, however often the counter has come around. -/
namespace FreshPlayer
namespace Var

/-- What no operation spoils, dangling slots or not. -/
structure Kept (s : State) : Prop where
  entry : ∀ id v, s.table.lookup id = some v → EntryOk id v
  positive : ∀ id v, s.table.lookup id = some v → 0 < v.refCount

variable {s t : State}

theorem Kept.of_table (h : Kept s) (ht : t.table = s.table) : Kept t :=
  ⟨fun id v hv => h.entry id v (ht ▸ hv),fun id v hv => h.positive id v (ht ▸ hv)⟩

theorem Kept.put (h : Kept s) {id : ℕ} {v : VarS} (hv : EntryOk id v) (hpos : 0 < v.refCount) :
    Kept (s.put id v) := by
  constructor
  · intro k w hw
    rcases lookup_put hw with ⟨rfl,rfl⟩ | ⟨_,hl⟩
    · exact hv
    · exact h.entry k w hl
  · intro k w hw
    rcases lookup_put hw with ⟨rfl,rfl⟩ | ⟨_,hl⟩
    · exact hpos
    · exact h.positive k w hl

/-- An entry gets another count or another content of its type. -/
theorem Kept.change (h : Kept s) {id : ℕ} {v : VarS} (hv : s.table.lookup id = some v)
    {refCount : ℤ} (hpos : 0 < refCount) {c : Content} (hc : c.type = v.content.type) :
    Kept (s.put id ⟨v.var,refCount,c⟩) :=
  h.put ⟨(h.entry id v hv).asId,(h.entry id v hv).type.trans hc.symm⟩ hpos

theorem Kept.addRef (h : Kept s) (x : PPVar) : Kept (ppbVarAddRef s x) := by
  unfold ppbVarAddRef
  split_ifs
  · exact h
  · split
    · exact h
    · rename_i v hv
      have hpos := h.positive _ v hv
      exact h.change hv (by omega) rfl

theorem Kept.addRef2 (h : Kept s) (x : PPVar) : Kept (ppbVarAddRef2 s x).1 := by
  have hown : Kept (own s x) := h.of_table (by rw [own_eq])
  exact hown.addRef x

theorem Kept.dropRef (h : Kept s) (xs : List PPVar) (x : PPVar) : Kept (dropRef s xs x).1 := by
  rcases dropRef_cases s xs x with ⟨_,he⟩ | ⟨v,_,hv,⟨_,he⟩ | ⟨hr,he⟩⟩
  · rw [he]
    exact h
  · rw [he]
    exact ⟨fun id w hw => h.entry id w (lookup_erase_cases hw).2,
      fun id w hw => h.positive id w (lookup_erase_cases hw).2⟩
  · rw [he]
    exact h.change hv (by omega) rfl

theorem Kept.clearElements (h : Kept s) (n : ℕ) (xs : List PPVar) :
    Kept (clearElements n s xs) := by
  induction n generalizing s xs with
  | zero => cases xs <;> exact h
  | succ n ih =>
    cases xs with
    | nil => exact h
    | cons x xs =>
      have hclear : Kept { s with cleared := s.cleared ++ [x] } := h.of_table rfl
      exact ih (hclear.dropRef xs x) _

theorem Kept.release (h : Kept s) (x : PPVar) : Kept (ppbVarRelease s x) :=
  (h.dropRef [] x).clearElements _ _

theorem Kept.releaseOwned (h : Kept s) (x : PPVar) : Kept (ppbVarRelease (disown s x) x) :=
  (h.of_table (disown_table s x)).release x

theorem Kept.create (h : Kept s) {c : Content} {var : PPVar}
    (ht : createVar s c = some (t,var)) : Kept t := by
  obtain ⟨id,_,_,rfl⟩ := createVar_eq ht
  have hput : Kept (s.put id ⟨⟨c.type,id⟩,1,c⟩) := h.put ⟨rfl,rfl⟩ one_pos
  exact hput.of_table rfl

theorem Kept.arraySet (h : Kept s) {array value : PPVar} {index : ℕ} {b : Bool}
    (ht : ppbVarArraySet s array index value = some (t,b)) : Kept t := by
  rcases ppbVarArraySet_some ht with ⟨_,rfl,_⟩ | ⟨var,refCount,xs,_,_,hl,_,rfl⟩
  · exact h
  · have hput := h.change hl (h.positive _ _ hl) (c := .array (setSlot xs index value)) rfl
    exact hput.addRef value

theorem Kept.arrayGet (h : Kept s) {array var : PPVar} {index : ℕ}
    (ht : ppbVarArrayGet s array index = some (t,var)) : Kept t := by
  rw [arrayGet_addRef2 ht]
  exact h.addRef2 var

theorem Kept.dictionaryGet (h : Kept s) {dict key var : PPVar}
    (ht : ppbVarDictionaryGet s dict key = some (t,var)) : Kept t := by
  rw [dictionaryGet_addRef2 ht]
  exact h.addRef2 var

theorem Kept.dictionarySet (h : Kept s) {dict key value : PPVar} {b : Bool}
    (ht : ppbVarDictionarySet s dict key value = some (t,b)) : Kept t := by
  rcases ppbVarDictionarySet_some ht with ⟨_,rfl,_⟩ | ⟨var,refCount,d,u,_,_,_,hl,rfl,hset⟩
  · exact h
  · have hput := h.change hl (h.positive _ _ hl)
      (c := .dict (d.insert (ppbVarVarToUtf8 s key) value)) rfl
    rcases hset with ⟨_,rfl⟩ | ⟨old,_,rfl⟩
    · exact hput.addRef value
    · exact (hput.release old).addRef value

theorem Kept.setKeys (h : Kept s) {keys : PPVar} {idx : ℕ} {rest : List (List UInt8)}
    (ht : setKeys s keys idx rest = some t) : Kept t := by
  induction rest generalizing s idx with
  | nil =>
    cases ht
    exact h
  | cons sKey rest ih =>
    obtain ⟨⟨s₁,key⟩,h₁,ht⟩ := Option.bind_eq_some_iff.mp ht
    obtain ⟨⟨s₂,b⟩,h₂,ht⟩ := Option.bind_eq_some_iff.mp ht
    exact ih (((h.create h₁).arraySet h₂).releaseOwned key) ht

theorem Kept.dictionaryGetKeys (h : Kept s) {dict keys : PPVar}
    (ht : ppbVarDictionaryGetKeys s dict = some (t,keys)) : Kept t := by
  rcases ppbVarDictionaryGetKeys_some ht with ⟨_,rfl,_⟩ | ⟨u,_,_,d,_,hu,_,hkeys⟩
  · exact h
  · exact (h.create hu).setKeys hkeys

theorem step_kept {o : Op} (h : Kept s) (ht : step s o = some t) : Kept t := by
  have hcreate : ∀ {c : Content}, (createVar s c).map Prod.fst = some t → Kept t := by
    intro c ht
    obtain ⟨⟨u,var⟩,hu,rfl⟩ := Option.map_eq_some_iff.mp ht
    exact h.create hu
  cases o with
  | varFromUtf8 data => exact hcreate ht
  | createObject => exact hcreate ht
  | arrayBufferCreate => exact hcreate ht
  | dictionaryCreate => exact hcreate ht
  | arrayCreate => exact hcreate ht
  | addRef var =>
    cases ht
    exact h.addRef2 var
  | release var =>
    obtain ⟨_,ht⟩ := Option.ite_none_right_eq_some.mp ht
    cases ht
    exact h.releaseOwned var
  | arraySet array index value =>
    obtain ⟨⟨u,b⟩,hu,rfl⟩ := Option.map_eq_some_iff.mp ht
    exact h.arraySet hu
  | arrayGet array index =>
    obtain ⟨⟨u,var⟩,hu,rfl⟩ := Option.map_eq_some_iff.mp ht
    exact h.arrayGet hu
  | dictionarySet dict key value =>
    obtain ⟨⟨u,b⟩,hu,rfl⟩ := Option.map_eq_some_iff.mp ht
    exact h.dictionarySet hu
  | dictionaryGet dict key =>
    obtain ⟨⟨u,var⟩,hu,rfl⟩ := Option.map_eq_some_iff.mp ht
    exact h.dictionaryGet hu
  | dictionaryGetKeys dict =>
    obtain ⟨⟨u,keys⟩,hu,rfl⟩ := Option.map_eq_some_iff.mp ht
    exact h.dictionaryGetKeys hu

theorem kept_of_reachable (h : machine.Reachable s) : Kept s :=
  h.invariant Kept ⟨fun _ _ hv => (by cases hv),fun _ _ hv => (by cases hv)⟩
    fun _ _ _ hs _ ht => step_kept hs ht

/-! The loop over the counter. -/

/-- The loop finds `id` after so many ids that are taken, given enough turns. -/
structure Finds (table : AList fun _ : ℕ => VarS) (varId tries id : ℕ) : Prop where
  next : id = (varId+1+tries) % 2^32
  taken : ∀ i < tries, (table.lookup ((varId+1+i) % 2^32)).isSome = true
  free : table.lookup id = none
  returns : ∀ n, tries < n → getNewVarId table n varId = some id

theorem getNewVarId_finds {table : AList fun _ : ℕ => VarS} {n varId id : ℕ}
    (h : getNewVarId table n varId = some id) : ∃ tries < n, Finds table varId tries id := by
  induction n generalizing varId with
  | zero => cases h
  | succ n ih =>
    by_cases hl : (table.lookup ((varId+1) % 2^32)).isSome = true
    · rw [getNewVarId,if_pos hl] at h
      obtain ⟨tries,hn,hf⟩ := ih h
      have hshift : ∀ i, ((varId+1) % 2^32+1+i) % 2^32 = (varId+1+(i+1)) % 2^32 := by omega
      refine ⟨tries+1,Nat.succ_lt_succ hn,hf.next.trans (hshift tries),fun i hi => ?_,hf.free,
        fun m hm => ?_⟩
      · cases i with
        | zero => exact hl
        | succ i =>
          rw [← hshift]
          exact hf.taken i (Nat.lt_of_succ_lt_succ hi)
      · cases m with
        | zero => cases hm
        | succ m =>
          rw [getNewVarId,if_pos hl]
          exact hf.returns m (Nat.lt_of_succ_lt_succ hm)
    · rw [getNewVarId,if_neg hl] at h
      cases h
      refine ⟨0,Nat.succ_pos n,rfl,fun i hi => ?_,Option.not_isSome_iff_eq_none.mp hl,fun m hm => ?_⟩
      · exact absurd hi (Nat.not_lt_zero i)
      cases m with
      | zero => cases hm
      | succ m => rw [getNewVarId,if_neg hl]

/-- Unless all ids are taken the loop ends, at the latest when it has passed each entry. -/
theorem getNewVarId_ends {table : AList fun _ : ℕ => VarS} (h : table.entries.length < 2^32)
    (varId : ℕ) : ∃ tries id, tries ≤ table.entries.length ∧ Finds table varId tries id := by
  obtain ⟨id,hid⟩ := Option.isSome_iff_exists.mp (getNewVarId_isSome varId h)
  obtain ⟨tries,hn,hf⟩ := getNewVarId_finds hid
  exact ⟨tries,id,Nat.le_of_lt_succ hn,hf⟩

/-! The constructors. -/

def ppbVarVarFromUtf8Z (s : State) (data : List UInt8) :=
  ppbVarVarFromUtf8 s (data.takeWhile (· ≠ 0))
def ppbVarVarFromUtf8_1_0 (s : State) (data : List UInt8) := ppbVarVarFromUtf8 s data
def ppbVarCreateObjectWithModuleDeprecated (s : State) := ppbVarCreateObject s

/-- A call of a constructor of vars. -/
inductive Constructor
  | varFromUtf8 (data : List UInt8)
  | varFromUtf8Z (data : List UInt8)
  | varFromUtf8_1_0 (data : List UInt8)
  | createObject
  | createObjectWithModuleDeprecated
  | arrayBufferCreate
  | dictionaryCreate
  | arrayCreate

def Constructor.call (s : State) : Constructor → Option (State × PPVar)
  | .varFromUtf8 data => ppbVarVarFromUtf8 s data
  | .varFromUtf8Z data => ppbVarVarFromUtf8Z s data
  | .varFromUtf8_1_0 data => ppbVarVarFromUtf8_1_0 s data
  | .createObject => ppbVarCreateObject s
  | .createObjectWithModuleDeprecated => ppbVarCreateObjectWithModuleDeprecated s
  | .arrayBufferCreate => ppbVarArrayBufferCreate s
  | .dictionaryCreate => ppbVarDictionaryCreate s
  | .arrayCreate => ppbVarArrayCreate s

theorem Constructor.call_eq (c : Constructor) (s : State) :
    ∃ content, c.call s = createVar s content := by
  cases c <;> exact ⟨_,rfl⟩

/-- A var is added to the table and no other entry is touched. -/
structure Adds (s t : State) (var : PPVar) : Prop where
  fresh : s.table.lookup var.asId = none
  inRange : var.asId < 2^32
  added : (t.table.lookup var.asId).map VarS.var = some var
  others : ∀ id, id ≠ var.asId → t.table.lookup id = s.table.lookup id

theorem createVar_adds (h : s.table.entries.length < 2^32) (c : Content) :
    ∃ t var, createVar s c = some (t,var) ∧ Adds s t var := by
  obtain ⟨tries,id,hle,hf⟩ := getNewVarId_ends h s.varId
  have hid : createVar s c = _ :=
    congrArg (Option.map _) (hf.returns (s.table.entries.length+1) (Nat.lt_succ_of_le hle))
  refine ⟨_,_,hid,hf.free,?_,?_,fun k hk => ?_⟩
  · rw [hf.next]
    exact Nat.mod_lt _ (by decide)
  · exact congrArg (Option.map VarS.var) (AList.lookup_insert s.table)
  · exact AList.lookup_insert_ne hk

/-- For every value of the counter a free id is found, under which each of the constructors
adds its var and leaves the others; the live vars have ids of their own. -/
theorem var_ids_fresh (hs : machine.Reachable s) (hlen : s.table.entries.length < 2^32)
    (varId : ℕ) :
    (∃ tries id, tries ≤ s.table.entries.length ∧ Finds s.table varId tries id) ∧
    (∀ c : Constructor, ∃ t var, c.call { s with varId := varId } = some (t,var) ∧
      Adds s t var) ∧
    ∀ id id' v v', s.table.lookup id = some v → s.table.lookup id' = some v' →
      v.var.asId = v'.var.asId → id = id' ∧ v = v' := by
  refine ⟨getNewVarId_ends hlen varId,fun c => ?_,fun id id' v v' hv hv' he => ?_⟩
  · obtain ⟨content,hc⟩ := c.call_eq { s with varId := varId }
    have hlen' : ({ s with varId := varId } : State).table.entries.length < 2^32 := hlen
    obtain ⟨t,var,ht,hadds⟩ := createVar_adds hlen' content
    exact ⟨t,var,hc.trans ht,hadds.fresh,hadds.inRange,hadds.added,hadds.others⟩
  · have hkept := kept_of_reachable hs
    have hid : id = id' := by
      rw [← (hkept.entry id v hv).asId,he,(hkept.entry id' v' hv').asId]
    subst hid
    exact ⟨rfl,Option.some.inj (hv.symm.trans hv')⟩

/-- A counter that comes around to vars which are still alive. -/
theorem counter_wrapped : ∃ s : State, (∃ v, s.table.lookup 2 = some v) ∧
    ∃ t var, ppbVarArrayCreate { s with varId := 1 } = some (t,var) ∧ Adds s t var := by
  obtain ⟨s,hs,hlen,hv⟩ : ∃ s : State,
      machine.exec State.create [.createObject,.arrayCreate] = some s ∧
      s.table.entries.length < 2^32 ∧ ∃ v, s.table.lookup 2 = some v :=
    ⟨_,rfl,by decide,_,rfl⟩
  exact ⟨s,hv,(var_ids_fresh (Machine.reachable_of_exec hs) hlen 1).2.1 .arrayCreate⟩

end Var
end FreshPlayer
