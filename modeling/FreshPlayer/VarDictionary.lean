import FreshPlayer.CText
import FreshPlayer.VarContents
import Mathlib.Data.List.Dedup
import Mathlib.Data.List.TakeWhile

/-! Dictionaries as maps from texts. A dictionary is known by what was set in it, newest
first, with the whole text of each key, while its table has keys that end at the first zero. -/
namespace FreshPlayer
namespace Var

open CText (Text)

/-! Maps whose keys are looked up by a part of them. -/

def cut (a : Text) : Text := a.takeWhile (· ≠ 0)

/-- The value set last, undefined if there is none. -/
def lastSet (h : List (Text × PPVar)) (a : Text) : PPVar :=
  ((h.find? (·.1 = a)).map Prod.snd).getD ppMakeUndefined

/-- What a table of cut keys is after the sets. -/
def Agrees (h : List (Text × PPVar)) (d : AList fun _ : Text => PPVar) : Prop :=
  ∀ k, d.lookup k = (h.find? (cut ·.1 = k)).map Prod.snd

variable {h : List (Text × PPVar)} {d : AList fun _ : Text => PPVar}

theorem find?_congr {α : Type*} {p q : α → Bool} {l : List α} (h : ∀ a ∈ l, p a = q a) :
    l.find? p = l.find? q := by
  induction l with
  | nil => rfl
  | cons a l ih =>
    obtain ⟨ha,hl⟩ := List.forall_mem_cons.mp h
    rw [List.find?_cons,List.find?_cons,ha,ih hl]

theorem cut_free (a : Text) : 0 ∉ cut a := by
  intro h0
  have := List.mem_takeWhile_imp h0
  simp at this

theorem cut_eq_self {a : Text} (ha : 0 ∉ a) : cut a = a :=
  List.takeWhile_eq_self_iff.mpr fun _ hc => decide_eq_true fun he => ha (he ▸ hc)

theorem Agrees.nil : Agrees [] ∅ := fun _ => rfl

theorem Agrees.insert (hd : Agrees h d) (a : Text) (v : PPVar) :
    Agrees ((a,v)::h) (d.insert (cut a) v) := by
  intro k
  by_cases hk : k = cut a
  · subst hk
    simp [AList.lookup_insert]
  · rw [AList.lookup_insert_ne hk,hd k]
    simp [Ne.symm hk]

theorem Agrees.mem_keys (hd : Agrees h d) (k : Text) : k ∈ d.keys ↔ ∃ e ∈ h, cut e.1 = k := by
  rw [AList.mem_keys.symm,← AList.lookup_isSome,hd k,Option.isSome_map,List.find?_isSome]
  simp

/-- Keys without a zero are looked up as they are. -/
theorem Agrees.lookup_free (hd : Agrees h d) (hfree : ∀ e ∈ h, 0 ∉ e.1) (k : Text) :
    (d.lookup k).getD ppMakeUndefined = lastSet h k := by
  have hfind : h.find? (cut ·.1 = k) = h.find? (·.1 = k) := by
    refine find?_congr fun e he => ?_
    rw [cut_eq_self (hfree e he)]
  rw [hd k,hfind,lastSet]

theorem lastSet_of_not_free (hfree : ∀ e ∈ h, 0 ∉ e.1) {a : Text} (ha : 0 ∈ a) :
    lastSet h a = ppMakeUndefined := by
  have hnone : h.find? (·.1 = a) = none := by
    rw [List.find?_eq_none]
    intro e he heq
    exact hfree e he (of_decide_eq_true heq ▸ ha)
  rw [lastSet,hnone]
  rfl

/-- The keys of the table are those set exactly if none of these has a zero. -/
theorem Agrees.keys_perm_iff (hd : Agrees h d) :
    List.Perm d.keys (h.map Prod.fst).dedup ↔ ∀ e ∈ h, 0 ∉ e.1 := by
  constructor
  · intro hp e he
    have hmem : e.1 ∈ d.keys := hp.mem_iff.mpr (List.mem_dedup.mpr (List.mem_map_of_mem he))
    obtain ⟨e',_,hcut⟩ := (hd.mem_keys e.1).mp hmem
    exact hcut ▸ cut_free e'.1
  · intro hfree
    refine (List.perm_ext_iff_of_nodup d.keys_nodup (List.nodup_dedup _)).mpr fun k => ?_
    rw [hd.mem_keys,List.mem_dedup,List.mem_map]
    refine exists_congr fun e => and_congr_right fun he => ?_
    rw [cut_eq_self (hfree e he)]

/-! What was set in each dictionary. -/

/-- The text of a string var; one that is gone has none. -/
def textOf (s : State) (var : PPVar) : Text :=
  match s.table.lookup var.asId with
  | some ⟨_,_,.str data⟩ => data
  | _ => []

theorem ppbVarVarToUtf8_eq (s : State) (var : PPVar) :
    ppbVarVarToUtf8 s var = cut (textOf s var) := by
  cases hv : s.table.lookup var.asId with
  | none => simp [ppbVarVarToUtf8,textOf,hv,cut]
  | some v =>
    obtain ⟨_,_,c⟩ := v
    cases c <;> simp [ppbVarVarToUtf8,textOf,hv,cut]

abbrev Histories := ℕ → List (Text × PPVar)

/-- A dictionary created takes the id that was given out last. -/
def record (s t : State) (h : Histories) : Op → Histories
  | .dictionaryCreate => Function.update h t.varId []
  | .dictionarySet dict key value =>
    if dict.type = .dictionary ∧ key.type = .string then
      Function.update h dict.asId ((textOf s key,value)::h dict.asId)
    else h
  | _ => h

def historyMachine : Machine (State × Histories) Op where
  start := (.create,fun _ => [])
  step s o := (step s.1 o).map fun t => (t,record s.1 t s.2 o)

/-- Every run of the table has its histories. -/
theorem exists_history {s t : State} {ops : List Op} (hr : machine.exec s ops = some t)
    (h : Histories) : ∃ h', historyMachine.exec (s,h) ops = some (t,h') := by
  induction ops generalizing s h with
  | nil =>
    cases hr
    exact ⟨h,rfl⟩
  | cons o ops ih =>
    obtain ⟨u,hu,ht⟩ := Option.bind_eq_some_iff.mp hr
    obtain ⟨h',hh⟩ := ih ht (record s u h o)
    have hstep : historyMachine.step (s,h) o = some (u,record s u h o) :=
      Option.map_eq_some_iff.mpr ⟨u,hu,rfl⟩
    exact ⟨h',by rw [Machine.exec_cons,hstep]; exact hh⟩

/-- The dictionaries are what their histories make of them. -/
def Dicts (s : State) (h : Histories) : Prop :=
  ∀ id v d, s.table.lookup id = some v → v.content = .dict d → Agrees (h id) d

def Content.isDict : Content → Prop
  | .dict _ => True
  | _ => False

theorem Dicts.keeps {s t : State} {h : Histories} (hd : Dicts s h)
    (hk : KeepsWhere Content.isDict s t) : Dicts t h := by
  intro id v d hv hc
  obtain ⟨w,hw,he⟩ := hk id v hv (by rw [hc]; trivial)
  exact hd id w d hw (he.trans hc)

theorem Dicts.create {s t : State} {h : Histories} {var : PPVar} (hd : Dicts s h)
    (ht : ppbVarDictionaryCreate s = some (t,var)) : Dicts t (Function.update h t.varId []) := by
  obtain ⟨id,_,rfl,rfl⟩ := createVar_eq ht
  intro k v d hv hc
  rcases lookup_put hv with ⟨rfl,rfl⟩ | ⟨hne,hl⟩
  · cases hc
    rw [Function.update_self]
    exact Agrees.nil
  · rw [Function.update_of_ne hne]
    exact hd k v d hl hc

theorem Dicts.set {s t : State} {h : Histories} {dict key value : PPVar} {b : Bool}
    (hd : Dicts s h) (ht : ppbVarDictionarySet s dict key value = some (t,b)) :
    Dicts t (record s t h (.dictionarySet dict key value)) := by
  simp only [record]
  rcases dictionarySet_keeps ht with ⟨hx,rfl,_⟩ | ⟨var,refCount,d,hdict,hkey,_,hl,hkeep⟩
  · rw [if_neg (by tauto)]
    exact hd
  · rw [if_pos ⟨hdict,hkey⟩]
    refine Dicts.keeps (s := s.put dict.asId _) ?_ (hkeep.mono fun _ _ => trivial)
    intro id v e hv hc
    rcases lookup_put hv with ⟨rfl,rfl⟩ | ⟨hne,hl'⟩
    · cases hc
      rw [Function.update_self,ppbVarVarToUtf8_eq]
      exact (hd _ _ _ hl rfl).insert _ _
    · rw [Function.update_of_ne hne]
      exact hd id v e hl' hc

theorem step_dicts {s t : State} {h : Histories} {o : Op} (hd : Dicts s h)
    (ht : step s o = some t) : Dicts t (record s t h o) := by
  cases o with
  | dictionaryCreate =>
    obtain ⟨⟨u,var⟩,hu,rfl⟩ := Option.map_eq_some_iff.mp ht
    exact hd.create hu
  | arraySet array index value =>
    obtain ⟨⟨u,b⟩,hu,rfl⟩ := Option.map_eq_some_iff.mp ht
    exact hd.keeps (.arraySet hu fun _ => id)
  | dictionarySet dict key value =>
    obtain ⟨⟨u,b⟩,hu,rfl⟩ := Option.map_eq_some_iff.mp ht
    exact hd.set hu
  | dictionaryGetKeys dict =>
    obtain ⟨⟨u,keys⟩,hu,rfl⟩ := Option.map_eq_some_iff.mp ht
    exact hd.keeps (.dictionaryGetKeys hu (fun _ => id) fun _ => id)
  | _ => exact hd.keeps (.step ht id (fun _ => id) id id id)

theorem dicts_of_reachable {s : State} {h : Histories}
    (hr : historyMachine.Reachable (s,h)) : Dicts s h :=
  hr.invariant (fun x => Dicts x.1 x.2) (fun _ _ _ hv => by cases hv) fun _ _ _ hd _ ht => by
    obtain ⟨u,hu,rfl⟩ := Option.map_eq_some_iff.mp ht
    exact step_dicts hd hu

/-! The keys, as an array of texts. -/

/-- Giving up one of several references. -/
theorem release_kept {s : State} {x : PPVar} {v : VarS} (hc : referenceCountable x = true)
    (hv : s.table.lookup x.asId = some v) (hr : 1 < v.refCount) :
    (ppbVarRelease (disown s x) x).table =
      s.table.insert x.asId { v with refCount := v.refCount-1 } := by
  have htab := disown_table s x
  have hv' : (disown s x).table.lookup x.asId = some v := htab ▸ hv
  unfold ppbVarRelease
  rcases dropRef_cases (disown s x) [] x with ⟨hx,_⟩ | ⟨w,_,hw,⟨hle,_⟩ | ⟨_,he⟩⟩
  · rw [hv',hc] at hx
    simp at hx
  · cases Option.some.inj (hv'.symm.trans hw)
    omega
  · cases Option.some.inj (hv'.symm.trans hw)
    rw [he,clearElements_nil,← htab]
    rfl

/-- A string var with its text. -/
def Spells (s : State) (x : PPVar) (a : Text) : Prop :=
  ∃ refCount, s.table.lookup x.asId = some ⟨x,refCount,.str a⟩

theorem Spells.textOf {s : State} {x : PPVar} {a : Text} (h : Spells s x a) : textOf s x = a := by
  obtain ⟨refCount,hx⟩ := h
  rw [Var.textOf,hx]

/-- An array of string vars. -/
structure Listed (s : State) (keys : PPVar) (xs : List PPVar) (names : List Text) : Prop where
  type : keys.type = .array
  array : ∃ refCount, s.table.lookup keys.asId = some ⟨keys,refCount,.array xs⟩
  names : List.Forall₂ (Spells s) xs names

/-- One round of the loop over the keys touches the array and the new key only. -/
theorem Listed.addKey_lookup {s s₁ s₂ : State} {keys key : PPVar} {xs : List PPVar}
    {names : List Text} {sKey : Text} {b : Bool} (h : Listed s keys xs names)
    (h₁ : ppbVarVarFromUtf8 s sKey = some (s₁,key))
    (h₂ : ppbVarArraySet s₁ keys xs.length key = some (s₂,b)) {id : ℕ} {v : VarS}
    (hv : s.table.lookup id = some v) (hid : id ≠ keys.asId) :
    (ppbVarRelease (disown s₂ key) key).table.lookup id = some v := by
  obtain ⟨refCount,hkeys⟩ := h.array
  obtain ⟨hc,hkey₁,_,_,hold⟩ := createVar_spec h₁
  obtain ⟨hne,hkeys₁⟩ := hold _ _ hkeys
  obtain ⟨hk,hv₁⟩ := hold _ _ hv
  have he := arraySet_new hkeys₁ h.type hc hkey₁ hne h₂
  have hkey₂ : s₂.table.lookup key.asId = some ⟨key,2,.str sKey⟩ := by
    rw [he]
    exact lookup_put_self _ _ _
  rw [release_kept hc hkey₂ one_lt_two,AList.lookup_insert_ne hk,he,lookup_put_ne _ _ hk,
    lookup_put_ne _ _ hid,hv₁]

theorem Listed.addKey {s s₁ s₂ : State} {keys key : PPVar} {xs : List PPVar} {names : List Text}
    {sKey : Text} {b : Bool} (h : Listed s keys xs names)
    (h₁ : ppbVarVarFromUtf8 s sKey = some (s₁,key))
    (h₂ : ppbVarArraySet s₁ keys xs.length key = some (s₂,b)) :
    Listed (ppbVarRelease (disown s₂ key) key) keys (xs ++ [key]) (names ++ [sKey]) := by
  obtain ⟨refCount,hkeys⟩ := h.array
  obtain ⟨hc,hkey₁,_,_,hold⟩ := createVar_spec h₁
  obtain ⟨hne,hkeys₁⟩ := hold _ _ hkeys
  have hslot : setSlot xs xs.length key = xs ++ [key] := by simp [setSlot]
  have he := arraySet_new hkeys₁ h.type hc hkey₁ hne h₂
  rw [hslot] at he
  have hkey₂ : s₂.table.lookup key.asId = some ⟨key,2,.str sKey⟩ := by
    rw [he]
    exact lookup_put_self _ _ _
  have htab := release_kept hc hkey₂ one_lt_two
  refine ⟨h.type,⟨refCount,?_⟩,List.rel_append ?_ (.cons ⟨1,?_⟩ .nil)⟩
  · rw [htab,AList.lookup_insert_ne hne,he,lookup_put_ne _ _ hne]
    exact lookup_put_self _ _ _
  · refine h.names.imp fun x a hx => ?_
    obtain ⟨r,hx⟩ := hx
    have hxkeys : x.asId ≠ keys.asId := by
      intro heq
      rw [heq,hkeys] at hx
      simp at hx
    exact ⟨r,h.addKey_lookup h₁ h₂ hx hxkeys⟩
  · rw [htab]
    exact AList.lookup_insert _

theorem Listed.setKeys {s t : State} {keys : PPVar} {xs : List PPVar} {names rest : List Text}
    (h : Listed s keys xs names) (ht : setKeys s keys xs.length rest = some t) :
    ∃ ys, Listed t keys ys (names ++ rest) := by
  induction rest generalizing s xs names with
  | nil =>
    cases ht
    exact ⟨xs,by rwa [List.append_nil]⟩
  | cons sKey rest ih =>
    obtain ⟨⟨s₁,key⟩,h₁,ht⟩ := Option.bind_eq_some_iff.mp ht
    obtain ⟨⟨s₂,b⟩,h₂,ht⟩ := Option.bind_eq_some_iff.mp ht
    have hlen : xs.length+1 = (xs ++ [key]).length := by simp
    rw [hlen] at ht
    obtain ⟨ys,hys⟩ := ih (h.addKey h₁ h₂) ht
    exact ⟨ys,by simpa using hys⟩

theorem Listed.texts {s : State} {keys : PPVar} {xs : List PPVar} {names : List Text}
    (h : Listed s keys xs names) : (arrayOf s keys).map (textOf s) = names := by
  obtain ⟨_,hkeys⟩ := h.array
  rw [arrayOf_eq hkeys]
  have hnames := h.names
  clear h hkeys
  induction hnames with
  | nil => rfl
  | cons hx _ ih => rw [List.map_cons,hx.textOf,ih]

theorem dictionaryGetKeys_texts {s t : State} {dict var keys : PPVar} {refCount : ℤ}
    {d : AList fun _ : Text => PPVar} (htype : dict.type = .dictionary)
    (hl : s.table.lookup dict.asId = some ⟨var,refCount,.dict d⟩)
    (ht : ppbVarDictionaryGetKeys s dict = some (t,keys)) :
    (arrayOf t keys).map (textOf t) = d.keys := by
  rcases ppbVarDictionaryGetKeys_some ht with ⟨hno,_⟩ | ⟨s₁,var₁,refCount₁,d₁,_,h₁,hl₁,hu⟩
  · exact absurd htype hno
  obtain ⟨_,hkeys,_,_,hold⟩ := createVar_spec h₁
  have htype₁ : keys.type = .array := by
    obtain ⟨_,_,rfl,_⟩ := createVar_eq h₁
    rfl
  cases hl₁.symm.trans (hold _ _ hl).2
  have hlisted : Listed s₁ keys [] [] := ⟨htype₁,⟨1,hkeys⟩,.nil⟩
  obtain ⟨ys,hys⟩ := hlisted.setKeys hu
  exact hys.texts

/-! The laws of a map. -/

theorem dictionaryGet_value {s : State} {dict key var : PPVar} {refCount : ℤ}
    {d : AList fun _ : Text => PPVar} (htype : dict.type = .dictionary) (hkey : key.type = .string)
    (hl : s.table.lookup dict.asId = some ⟨var,refCount,.dict d⟩) :
    (ppbVarDictionaryGet s dict key).map Prod.snd =
      some ((d.lookup (cut (textOf s key))).getD ppMakeUndefined) := by
  rw [← ppbVarVarToUtf8_eq]
  simp only [ppbVarDictionaryGet,htype,hkey,hl]
  cases d.lookup (ppbVarVarToUtf8 s key) <;> rfl

/-- A dictionary in the state `s`, the key `k1` asked for, a set at `k2` that leads to `u`, and
the keys asked for, with the answer in `t`. -/
structure MapLaws (s u t : State) (h : List (Text × PPVar)) (dict k1 k2 keys : PPVar) : Prop where
  get : (ppbVarDictionaryGet s dict k1).map Prod.snd = some (lastSet h (textOf s k1))
  other : textOf s k1 ≠ textOf s k2 →
    (ppbVarDictionaryGet u dict k1).map Prod.snd = (ppbVarDictionaryGet s dict k1).map Prod.snd
  keys : List.Perm ((arrayOf t keys).map (textOf t)) (h.map Prod.fst).dedup

/-- No key set has a zero. What is before one in the key asked for has no value, and a set at
another key that has the same before its first zero sets the value that is there. -/
structure ZerosHarmless (h : List (Text × PPVar)) (a b : Text) (value : PPVar) : Prop where
  set : ∀ e ∈ h, 0 ∉ e.1
  get : 0 ∈ a → lastSet h (cut a) = ppMakeUndefined
  other : a ≠ b → cut a = cut b → value = lastSet h (cut a)

/-- A dictionary is a map from texts exactly as long as zeros in its keys do no harm. -/
theorem dictionary_map_iff {s u t : State} {h : Histories} {dict k1 k2 value keys : PPVar}
    (hr : historyMachine.Reachable (s,h)) (hk1 : k1.type = .string)
    (hu : ppbVarDictionarySet s dict k2 value = some (u,true))
    (hdict : (u.table.lookup dict.asId).isSome = true) (hkept : textOf u k1 = textOf s k1)
    (ht : ppbVarDictionaryGetKeys s dict = some (t,keys)) :
    MapLaws s u t (h dict.asId) dict k1 k2 keys ↔
      ZerosHarmless (h dict.asId) (textOf s k1) (textOf s k2) value := by
  rcases dictionarySet_keeps hu with ⟨_,_,hb⟩ | ⟨var,refCount,d,htype,_,_,hl,hkeep⟩
  · cases hb
  have hd : Agrees (h dict.asId) d := dicts_of_reachable hr _ _ d hl rfl
  obtain ⟨v,hv⟩ := Option.isSome_iff_exists.mp hdict
  obtain ⟨w,hw,hc⟩ := hkeep _ v hv trivial
  have hcontent : v.content = .dict (d.insert (cut (textOf s k2)) value) := by
    rw [lookup_put_self] at hw
    cases hw
    rw [← hc,ppbVarVarToUtf8_eq]
  obtain ⟨var',refCount',content'⟩ := v
  cases hcontent
  have hget := dictionaryGet_value htype hk1 hl
  have hget' := dictionaryGet_value htype hk1 hv
  rw [hkept] at hget'
  have hkeys := dictionaryGetKeys_texts htype hl ht
  constructor
  · intro hm
    have hset := hd.keys_perm_iff.mp (hkeys ▸ hm.keys)
    have hlast := hd.lookup_free hset
    refine ⟨hset,fun h0 => ?_,fun hne hcut => ?_⟩
    · have := hm.get
      rw [hget,hlast,lastSet_of_not_free hset h0] at this
      exact Option.some.inj this
    · have := hm.other hne
      rw [hget',hget,hcut,AList.lookup_insert,← hcut,hlast] at this
      exact Option.some.inj this
  · intro hz
    have hlast := hd.lookup_free hz.set
    refine ⟨?_,fun hne => ?_,hkeys ▸ hd.keys_perm_iff.mpr hz.set⟩
    · rw [hget,hlast]
      by_cases h0 : 0 ∈ textOf s k1
      · rw [hz.get h0,lastSet_of_not_free hz.set h0]
      · rw [cut_eq_self h0]
    · rw [hget',hget]
      by_cases hcut : cut (textOf s k1) = cut (textOf s k2)
      · rw [hcut,AList.lookup_insert,← hcut,hlast,← hz.other hne hcut]
        rfl
      · rw [AList.lookup_insert_ne hcut]

/-- Two keys, of which one is set. -/
def oneKey (a b : Text) : List Op :=
  [.dictionaryCreate,.varFromUtf8 a,.varFromUtf8 b,.dictionarySet ⟨.dictionary,2⟩ ⟨.string,3⟩ ⟨.int32,1⟩]

theorem oneKey_laws : ∃ s u t : State, ∃ h : Histories, ∃ keys : PPVar,
    historyMachine.exec historyMachine.start (oneKey [97] [98]) = some (s,h) ∧
    ppbVarDictionarySet s ⟨.dictionary,2⟩ ⟨.string,4⟩ ⟨.int32,5⟩ = some (u,true) ∧
    MapLaws s u t (h 2) ⟨.dictionary,2⟩ ⟨.string,3⟩ ⟨.string,4⟩ keys := by
  obtain ⟨s,u,t,h,keys,hs,hu,hdict,hkept,ht,hz⟩ :
      ∃ s u t : State, ∃ h : Histories, ∃ keys : PPVar,
      historyMachine.exec historyMachine.start (oneKey [97] [98]) = some (s,h) ∧
      ppbVarDictionarySet s ⟨.dictionary,2⟩ ⟨.string,4⟩ ⟨.int32,5⟩ = some (u,true) ∧
      (u.table.lookup 2).isSome = true ∧ textOf u ⟨.string,3⟩ = textOf s ⟨.string,3⟩ ∧
      ppbVarDictionaryGetKeys s ⟨.dictionary,2⟩ = some (t,keys) ∧
      ZerosHarmless (h 2) (textOf s ⟨.string,3⟩) (textOf s ⟨.string,4⟩) ⟨.int32,5⟩ :=
    ⟨_,_,_,_,_,rfl,rfl,rfl,rfl,rfl,⟨by decide,by decide,by decide⟩⟩
  exact ⟨s,u,t,h,keys,hs,hu,(dictionary_map_iff (Machine.reachable_of_exec hs) rfl hu hdict hkept
    ht).mpr hz⟩

/-- A key with a zero is taken for the text before it. -/
theorem keys_with_zero_cut : ¬∀ (s u t : State) (h : Histories) (dict k1 k2 value keys : PPVar),
    historyMachine.Reachable (s,h) → k1.type = .string →
    ppbVarDictionarySet s dict k2 value = some (u,true) →
    (u.table.lookup dict.asId).isSome = true → textOf u k1 = textOf s k1 →
    ppbVarDictionaryGetKeys s dict = some (t,keys) →
    MapLaws s u t (h dict.asId) dict k1 k2 keys := by
  intro hall
  obtain ⟨s,u,t,h,keys,hs,hu,hdict,hkept,ht,hget,hlast⟩ :
      ∃ s u t : State, ∃ h : Histories, ∃ keys : PPVar,
      historyMachine.exec historyMachine.start (oneKey [97,0,98] [97]) = some (s,h) ∧
      ppbVarDictionarySet s ⟨.dictionary,2⟩ ⟨.string,3⟩ ⟨.int32,1⟩ = some (u,true) ∧
      (u.table.lookup 2).isSome = true ∧ textOf u ⟨.string,4⟩ = textOf s ⟨.string,4⟩ ∧
      ppbVarDictionaryGetKeys s ⟨.dictionary,2⟩ = some (t,keys) ∧
      (ppbVarDictionaryGet s ⟨.dictionary,2⟩ ⟨.string,4⟩).map Prod.snd = some ⟨.int32,1⟩ ∧
      lastSet (h 2) (textOf s ⟨.string,4⟩) = ppMakeUndefined :=
    ⟨_,_,_,_,_,rfl,rfl,rfl,rfl,rfl,rfl,rfl⟩
  have hm := (hall s u t h ⟨.dictionary,2⟩ ⟨.string,4⟩ ⟨.string,3⟩ ⟨.int32,1⟩ keys
    (Machine.reachable_of_exec hs) rfl hu hdict hkept ht).get
  rw [hget] at hm
  exact absurd ((Option.some.inj hm).trans hlast) (by decide)

end Var
end FreshPlayer
