import FreshPlayer.VarRelease
import FreshPlayer.VarAccounting

/-! What entries hold. An operation changes the content of the one entry it is called for;
the others keep theirs for as long as they are in the table. -/
namespace FreshPlayer
namespace Var

/-- The elements of an array var. -/
def arrayOf (s : State) (array : PPVar) : List PPVar :=
  match s.table.lookup array.asId with
  | some ⟨_,_,.array xs⟩ => xs
  | _ => []

theorem arrayOf_eq {s : State} {array var : PPVar} {refCount : ℤ} {xs : List PPVar}
    (h : s.table.lookup array.asId = some ⟨var,refCount,.array xs⟩) : arrayOf s array = xs := by
  rw [arrayOf,h]

/-- Entries with a content of the kind `P` had it before. -/
def KeepsWhere (P : Content → Prop) (s t : State) : Prop :=
  ∀ id v, t.table.lookup id = some v → P v.content →
    ∃ w, s.table.lookup id = some w ∧ w.content = v.content

variable {P : Content → Prop} {s t u : State}

theorem KeepsWhere.of_table (h : t.table = s.table) : KeepsWhere P s t :=
  fun _ v hv _ => ⟨v,h ▸ hv,rfl⟩

theorem KeepsWhere.refl (s : State) : KeepsWhere P s s := .of_table rfl

theorem KeepsWhere.trans (h : KeepsWhere P s t) (h' : KeepsWhere P t u) : KeepsWhere P s u := by
  intro id v hv hp
  obtain ⟨w,hw,he⟩ := h' id v hv hp
  obtain ⟨x,hx,he'⟩ := h id w hw (he ▸ hp)
  exact ⟨x,hx,he'.trans he⟩

/-- Storing a content of another kind. -/
theorem KeepsWhere.put {id : ℕ} {v : VarS} (h : ¬P v.content) : KeepsWhere P s (s.put id v) := by
  intro k w hw hp
  rcases lookup_put hw with ⟨_,rfl⟩ | ⟨_,hl⟩
  · exact absurd hp h
  · exact ⟨w,hl,rfl⟩

/-- Changing a count. -/
theorem KeepsWhere.recount {id : ℕ} {v w : VarS} (hv : s.table.lookup id = some v)
    (hw : w.content = v.content) : KeepsWhere P s (s.put id w) := by
  intro k x hx _
  rcases lookup_put hx with ⟨rfl,rfl⟩ | ⟨_,hl⟩
  · exact ⟨v,hv,hw.symm⟩
  · exact ⟨x,hl,rfl⟩

theorem KeepsWhere.addRef (s : State) (x : PPVar) : KeepsWhere P s (ppbVarAddRef s x) := by
  unfold ppbVarAddRef
  split_ifs
  · exact .refl s
  · split
    · exact .refl s
    · rename_i v hv
      exact .recount hv rfl

theorem KeepsWhere.addRef2 (s : State) (x : PPVar) : KeepsWhere P s (ppbVarAddRef2 s x).1 := by
  have hown : KeepsWhere P s (own s x) := .of_table (by rw [own_eq])
  exact hown.trans (.addRef _ x)

theorem KeepsWhere.dropRef (s : State) (xs : List PPVar) (x : PPVar) :
    KeepsWhere P s (dropRef s xs x).1 := fun _ _ hv _ =>
  (dropRef_lookup hv).imp fun _ hw => ⟨hw.1,hw.2.content.symm⟩

theorem KeepsWhere.clearElements (n : ℕ) (s : State) (xs : List PPVar) :
    KeepsWhere P s (clearElements n s xs) := by
  induction n generalizing s xs with
  | zero => cases xs <;> exact .refl s
  | succ n ih =>
    cases xs with
    | nil => exact .refl s
    | cons x xs =>
      have hclear : KeepsWhere P s { s with cleared := s.cleared ++ [x] } := .of_table rfl
      exact (hclear.trans (.dropRef _ xs x)).trans (ih _ _)

theorem KeepsWhere.release (s : State) (x : PPVar) : KeepsWhere P s (ppbVarRelease s x) :=
  (KeepsWhere.dropRef s [] x).trans (.clearElements _ _ _)

theorem disown_table (s : State) (x : PPVar) : (disown s x).table = s.table := by
  unfold disown
  split_ifs <;> rfl

theorem KeepsWhere.releaseOwned (s : State) (x : PPVar) :
    KeepsWhere P s (ppbVarRelease (disown s x) x) :=
  (KeepsWhere.of_table (disown_table s x)).trans (.release _ x)

theorem KeepsWhere.create {c : Content} {var : PPVar} (h : createVar s c = some (t,var))
    (hc : ¬P c) : KeepsWhere P s t := by
  obtain ⟨id,_,rfl,rfl⟩ := createVar_eq h
  have hput : KeepsWhere P s (s.put id ⟨⟨c.type,id⟩,1,c⟩) := .put hc
  exact hput.trans (.of_table rfl)

theorem KeepsWhere.arraySet {array value : PPVar} {index : ℕ} {b : Bool}
    (h : ppbVarArraySet s array index value = some (t,b)) (hp : ∀ xs, ¬P (.array xs)) :
    KeepsWhere P s t := by
  rcases ppbVarArraySet_some h with ⟨_,rfl,_⟩ | ⟨var,refCount,xs,_,_,_,_,rfl⟩
  · exact .refl _
  · exact KeepsWhere.trans (.put (hp _)) (.addRef _ value)

theorem KeepsWhere.arrayGet {array var : PPVar} {index : ℕ}
    (h : ppbVarArrayGet s array index = some (t,var)) : KeepsWhere P s t := by
  rw [arrayGet_addRef2 h]
  exact .addRef2 s var

theorem KeepsWhere.dictionaryGet {dict key var : PPVar}
    (h : ppbVarDictionaryGet s dict key = some (t,var)) : KeepsWhere P s t := by
  rw [dictionaryGet_addRef2 h]
  exact .addRef2 s var

theorem dictionarySet_keeps {dict key value : PPVar} {b : Bool}
    (h : ppbVarDictionarySet s dict key value = some (t,b)) :
    ((dict.type ≠ .dictionary ∨ key.type ≠ .string) ∧ t = s ∧ b = false) ∨
    ∃ var refCount d, dict.type = .dictionary ∧ key.type = .string ∧ b = true ∧
      s.table.lookup dict.asId = some ⟨var,refCount,.dict d⟩ ∧
      KeepsWhere (fun _ => True)
        (s.put dict.asId ⟨var,refCount,.dict (d.insert (ppbVarVarToUtf8 s key) value)⟩) t := by
  rcases ppbVarDictionarySet_some h with hno | ⟨var,refCount,d,u,hd,hk,hb,hl,rfl,hset⟩
  · exact Or.inl hno
  · refine Or.inr ⟨var,refCount,d,hd,hk,hb,hl,?_⟩
    rcases hset with ⟨_,rfl⟩ | ⟨old,_,rfl⟩
    · exact .addRef _ value
    · exact KeepsWhere.trans (.release _ old) (.addRef _ value)

theorem KeepsWhere.mono {Q : Content → Prop} (h : KeepsWhere P s t) (hq : ∀ c, Q c → P c) :
    KeepsWhere Q s t := fun id v hv hc => h id v hv (hq _ hc)

theorem KeepsWhere.setKeys {keys : PPVar} {idx : ℕ} {rest : List (List UInt8)}
    (h : setKeys s keys idx rest = some t) (hs : ∀ data, ¬P (.str data))
    (ha : ∀ xs, ¬P (.array xs)) : KeepsWhere P s t := by
  induction rest generalizing s idx with
  | nil =>
    cases h
    exact .refl _
  | cons sKey rest ih =>
    obtain ⟨⟨s₁,key⟩,h₁,h⟩ := Option.bind_eq_some_iff.mp h
    obtain ⟨⟨s₂,b⟩,h₂,h⟩ := Option.bind_eq_some_iff.mp h
    have hkeep : KeepsWhere P s s₂ := (KeepsWhere.create h₁ (hs _)).trans (.arraySet h₂ ha)
    exact (hkeep.trans (.releaseOwned s₂ key)).trans (ih h)

theorem KeepsWhere.dictionaryGetKeys {dict keys : PPVar}
    (h : ppbVarDictionaryGetKeys s dict = some (t,keys)) (hs : ∀ data, ¬P (.str data))
    (ha : ∀ xs, ¬P (.array xs)) : KeepsWhere P s t := by
  rcases ppbVarDictionaryGetKeys_some h with ⟨_,rfl,_⟩ | ⟨u,_,_,d,_,hu,_,hkeys⟩
  · exact .refl _
  · exact (KeepsWhere.create hu (ha [])).trans (.setKeys hkeys hs ha)

/-- Operations that store a dictionary or elements of an array. -/
def Op.Stores : Op → Prop
  | .dictionaryCreate | .arraySet _ _ _ | .dictionarySet _ _ _ | .dictionaryGetKeys _ => True
  | _ => False

theorem KeepsWhere.step {o : Op} (ht : step s o = some t) (ho : ¬o.Stores)
    (hs : ∀ data, ¬P (.str data)) (hobj : ¬P .obj) (hbuffer : ¬P .buffer) (harray : ¬P (.array [])) :
    KeepsWhere P s t := by
  have hcreate : ∀ {c : Content}, ¬P c → (createVar s c).map Prod.fst = some t →
      KeepsWhere P s t := by
    intro c hc ht
    obtain ⟨⟨u,var⟩,hu,rfl⟩ := Option.map_eq_some_iff.mp ht
    exact .create hu hc
  cases o with
  | varFromUtf8 data => exact hcreate (hs data) ht
  | createObject => exact hcreate hobj ht
  | arrayBufferCreate => exact hcreate hbuffer ht
  | arrayCreate => exact hcreate harray ht
  | addRef var =>
    cases ht
    exact .addRef2 s var
  | release var =>
    obtain ⟨_,ht⟩ := Option.ite_none_right_eq_some.mp ht
    cases ht
    exact .releaseOwned s var
  | arrayGet array index =>
    obtain ⟨⟨u,var⟩,hu,rfl⟩ := Option.map_eq_some_iff.mp ht
    exact .arrayGet hu
  | dictionaryGet dict key =>
    obtain ⟨⟨u,var⟩,hu,rfl⟩ := Option.map_eq_some_iff.mp ht
    exact .dictionaryGet hu
  | _ => exact absurd trivial ho

end Var
end FreshPlayer
