import FreshPlayer.VarArray
import FreshPlayer.VarDictionary
import FreshPlayer.VarIds

/-! What is printed of a var in traces, and what printing leaves in the table. -/
namespace FreshPlayer
namespace Var

open CText (Text)

/-- Addresses, and the values of vars that are not counted, are printed as they are. -/
inductive Piece
  | text (s : Text)
  | number (n : ℤ)
  | value (var : PPVar)
  | address
  deriving DecidableEq, Repr

abbrev Printed := List Piece

def str (s : String) : Piece := .text (CText.bytes s)

def ppbVarGetRefCount (s : State) (var : PPVar) : ℤ :=
  if referenceCountable var then ((s.table.lookup var.asId).map VarS.refCount).getD 0 else 0

/-- The address of the text is not set in the entry of an object. -/
def printedText (s : State) (var : PPVar) : Option Text :=
  match s.table.lookup var.asId with
  | some ⟨_,_,.obj⟩ => none
  | _ => some (ppbVarVarToUtf8 s var)

def ppbVarTraceObjectVar (s : State) (var : PPVar) : Option Printed :=
  (s.table.lookup var.asId).map fun _ => [str "\x7bOBJECT:",.number (ppbVarGetRefCount s var),
    str ":class=",.address,str ":data=",.address,str "\x7d"]

variable (trace : State → PPVar → Option (State × Printed))

/-- The loop over the keys, with the function that prints a var. -/
def traceEntries (dict keys : PPVar) : List ℕ → State → Option (State × Printed)
  | [], s => some (s,[])
  | k::ks, s =>
    (ppbVarArrayGet s keys k).bind fun (s,key) =>
    (ppbVarDictionaryGet s dict key).bind fun (s,val) =>
    (trace s key).bind fun (s,sKey) =>
    (trace s val).bind fun (s,sVal) =>
    let t := ppbVarRelease (disown s key) key
    let u := ppbVarRelease (disown t val) val
    (traceEntries dict keys ks u).map fun (s,rest) =>
      (s,(if k = 0 then [] else [str ","]) ++ sKey ++ str ":"::sVal ++ rest)

def dictionaryVarToString (s : State) (dict : PPVar) : Option (State × Printed) :=
  if dict.type ≠ .dictionary then some (s,[str "\x7b\x7d"])
  else (ppbVarDictionaryGetKeys s dict).bind fun (s,keys) =>
    (traceEntries trace dict keys (List.range (ppbVarArrayGetLength s keys).toNat) s).map
      fun (s,out) => (s,str "\x7b"::out ++ [str "\x7d"])

/-- The depth bounds the dictionaries that are entered. -/
def traceVarAsString : ℕ → State → PPVar → Option (State × Printed)
  | 0, _, _ => none
  | depth+1, s, var =>
    let refCount : Piece := .number (ppbVarGetRefCount s var)
    match var.type with
    | .undefined => some (s,[str "\x7bUNDEFINED\x7d"])
    | .null => some (s,[str "\x7bNULL\x7d"])
    | .bool => some (s,[str "\x7bBOOL:",.value var,str "\x7d"])
    | .int32 => some (s,[str "\x7bINT32:",.value var,str "\x7d"])
    | .double => some (s,[str "\x7bDOUBLE:",.value var,str "\x7d"])
    | .string => (printedText s var).map fun tmp =>
      (s,[str "\x7bSTRING:",refCount,str ":",.address,str ":",.text tmp,str "\x7d"])
    | .object => (ppbVarTraceObjectVar s var).map (s,·)
    | .array => some (s,[str "\x7bARRAY:",refCount,str ":",.number var.asId,str "\x7d"])
    | .dictionary => (dictionaryVarToString (traceVarAsString depth) s var).map fun (t,sDict) =>
      (t,[str "\x7bDICTIONARY:",.number (ppbVarGetRefCount t var),str ":",.number var.asId,
        str ":"] ++ sDict ++ [str "\x7d"])
    | .arrayBuffer => some (s,[str "\x7bARRAY_BUFFER:",refCount,str "\x7d"])
    | .resource => some (s,[str "\x7bRESOURCE:",refCount,str "\x7d"])

/-- The vars in the table and their counts are as they were, and the call returns. -/
structure Transparent (s : State) (var : PPVar) : Prop where
  returns : ∃ depth t out, traceVarAsString depth s var = some (t,out)
  counts : ∀ depth t out, traceVarAsString depth s var = some (t,out) →
    ∀ id, (t.table.lookup id).map VarS.refCount = (s.table.lookup id).map VarS.refCount

/-- A var that is no dictionary; an object has to be there, and a string must not be one. -/
def Flat (s : State) (var : PPVar) : Prop :=
  match var.type with
  | .dictionary => False
  | .object => (s.table.lookup var.asId).isSome = true
  | .string => ∀ v ∈ s.table.lookup var.asId, v.content ≠ .obj
  | _ => True

theorem trace_flat {depth : ℕ} {s t : State} {var : PPVar} {out : Printed}
    (h : traceVarAsString depth s var = some (t,out)) (hv : var.type ≠ .dictionary) : t = s := by
  cases depth with
  | zero => cases h
  | succ depth =>
    rw [traceVarAsString] at h
    split at h
    case h_6 | h_7 =>
      obtain ⟨_,_,he⟩ := Option.map_eq_some_iff.mp h
      cases he
      rfl
    case h_9 hd => exact absurd hd hv
    all_goals
      cases h
      rfl

theorem trace_returns {s : State} {var : PPVar} (h : Flat s var) :
    ∃ depth t out, traceVarAsString depth s var = some (t,out) := by
  refine ⟨1,s,?_⟩
  unfold Flat at h
  rw [traceVarAsString]
  split at h
  · exact h.elim
  · rename_i hobj
    obtain ⟨v,hv⟩ := Option.isSome_iff_exists.mp h
    simp [hobj,ppbVarTraceObjectVar,hv]
  · rename_i hstr
    cases hl : s.table.lookup var.asId with
    | none => simp [hstr,printedText,hl]
    | some v =>
      have hne : v.content ≠ .obj := h v hl
      obtain ⟨x,n,c⟩ := v
      cases c with
      | obj => exact absurd rfl hne
      | _ => simp [hstr,printedText,hl]
  · split <;> first | exact ⟨_,rfl⟩ | simp_all

theorem flat_of_returns {depth : ℕ} {s t : State} {var : PPVar} {out : Printed}
    (h : traceVarAsString depth s var = some (t,out)) (hv : var.type ≠ .dictionary) :
    Flat s var := by
  cases depth with
  | zero => cases h
  | succ depth =>
    unfold Flat
    rw [traceVarAsString] at h
    split
    · rename_i hd
      exact hv hd
    · rename_i hobj
      simp only [hobj,ppbVarTraceObjectVar,Option.map_map] at h
      obtain ⟨v,hl,_⟩ := Option.map_eq_some_iff.mp h
      rw [hl]
      rfl
    · rename_i hstr
      intro v hl hobj
      obtain ⟨x,n,c⟩ := v
      cases hobj
      have hnone : printedText s var = none := by rw [printedText,hl]
      simp only [hstr,hnone] at h
      cases h
    · trivial

/-! References taken for the time of printing. -/

/-- The entries that were in the table are there as they were. -/
def Extends (s t : State) : Prop :=
  ∀ id v, s.table.lookup id = some v → t.table.lookup id = some v

theorem Extends.trans {s t u : State} (h : Extends s t) (h' : Extends t u) : Extends s u :=
  fun id v hv => h' id v (h id v hv)

def VarS.recount (v : VarS) (n : ℤ) : VarS := { v with refCount := v.refCount+n }

/-- What a reference on `x` adds to the count of an entry. -/
def share (x : PPVar) (id : ℕ) : ℤ := if holds id x then 1 else 0

theorem addRef2_table (s : State) (x : PPVar) :
    (ppbVarAddRef2 s x).1.table = (ppbVarAddRef s x).table := by
  have hown : (own s x).table = s.table := by rw [own_eq]
  unfold ppbVarAddRef2 ppbVarAddRef
  split_ifs
  · exact hown
  · simp only [hown]
    split
    · exact hown
    · rw [State.put,State.put,hown]

theorem addRef2_lookup {s : State} {id : ℕ} {v : VarS} (h : s.table.lookup id = some v)
    (x : PPVar) : (ppbVarAddRef2 s x).1.table.lookup id = some (v.recount (share x id)) := by
  rw [addRef2_table]
  unfold share
  by_cases hx : holds id x = true
  · obtain ⟨hc,rfl⟩ := holds_iff.mp hx
    rw [addRef_put hc h,lookup_put_self,if_pos hx]
    rfl
  · rw [if_neg hx,VarS.recount,Int.add_zero]
    unfold ppbVarAddRef
    split_ifs with hc
    · exact h
    · split
      · exact h
      · have hne : id ≠ x.asId := fun he => hx (holds_iff.mpr ⟨by simpa using hc,he.symm⟩)
        exact (lookup_put_ne _ _ hne).trans h

theorem addRef2_lookup_none {s : State} {id : ℕ} (h : s.table.lookup id = none) (x : PPVar) :
    (ppbVarAddRef2 s x).1.table.lookup id = none := by
  rw [addRef2_table]
  unfold ppbVarAddRef
  split_ifs
  · exact h
  · split
    · exact h
    · rename_i w hw
      have hne : id ≠ x.asId := by
        rintro rfl
        rw [h] at hw
        cases hw
      exact (lookup_put_ne _ _ hne).trans h

/-- A release that is not the last one. -/
theorem release_lookup {s : State} {x : PPVar}
    (hx : referenceCountable x = true → ∀ w, s.table.lookup x.asId = some w → 1 < w.refCount)
    {id : ℕ} {v : VarS} (h : s.table.lookup id = some v) :
    (ppbVarRelease (disown s x) x).table.lookup id = some (v.recount (-share x id)) := by
  have hsame : (ppbVarRelease (disown s x) x).table = s.table → holds id x ≠ true →
      (ppbVarRelease (disown s x) x).table.lookup id = some (v.recount (-share x id)) := by
    intro htable hholds
    rw [htable,h,share,if_neg hholds,VarS.recount,Int.neg_zero,Int.add_zero]
  have hskip : referenceCountable x = false ∨ s.table.lookup x.asId = none →
      (ppbVarRelease (disown s x) x).table = s.table := by
    intro hskip
    rw [← disown_table s x] at hskip ⊢
    rcases dropRef_cases (disown s x) [] x with ⟨_,he⟩ | ⟨w,hc,hw,_⟩
    · rw [ppbVarRelease,he,clearElements_nil]
    · rw [hc,hw] at hskip
      simp at hskip
  by_cases hc : referenceCountable x = true
  · cases hw : s.table.lookup x.asId with
    | none =>
      refine hsame (hskip (.inr hw)) fun hh => ?_
      rw [(holds_iff.mp hh).2,h] at hw
      cases hw
    | some w =>
      rw [release_kept hc hw (hx hc w hw)]
      by_cases hid : id = x.asId
      · subst hid
        cases Option.some.inj (hw.symm.trans h)
        rw [AList.lookup_insert,share,if_pos (holds_iff.mpr ⟨hc,rfl⟩)]
        rfl
      · have hne : holds id x ≠ true := fun hh => hid (holds_iff.mp hh).2.symm
        rw [AList.lookup_insert_ne hid,h,share,if_neg hne,VarS.recount,Int.neg_zero,Int.add_zero]
  · exact hsame (hskip (.inl (by simpa using hc))) fun hh => hc (holds_iff.mp hh).1

/-- A key and its value are given back after they have been printed. -/
theorem extends_entry {s t : State} {key val : PPVar} (hs : Kept s)
    (hkey : referenceCountable key = true → (s.table.lookup key.asId).isSome = true)
    (ht : Extends (ppbVarAddRef2 (ppbVarAddRef2 s key).1 val).1 t)
    (hval : s.table.lookup val.asId = none →
      t = (ppbVarAddRef2 (ppbVarAddRef2 s key).1 val).1) :
    Extends s (ppbVarRelease (disown (ppbVarRelease (disown t key) key) val) val) := by
  have hheld : ∀ id v, s.table.lookup id = some v →
      t.table.lookup id = some ((v.recount (share key id)).recount (share val id)) :=
    fun id v hv => ht id _ (addRef2_lookup (addRef2_lookup hv key) val)
  have hshare : ∀ x id, 0 ≤ share x id := by
    intro x id
    unfold share
    split_ifs <;> decide
  have hone : ∀ x : PPVar, referenceCountable x = true → share x x.asId = 1 :=
    fun x hx => if_pos (holds_iff.mpr ⟨hx,rfl⟩)
  have hfirst : ∀ id v, s.table.lookup id = some v →
      (ppbVarRelease (disown t key) key).table.lookup id = some (v.recount (share val id)) := by
    intro id v hv
    have hlast : referenceCountable key = true → ∀ w, t.table.lookup key.asId = some w →
        1 < w.refCount := by
      intro hc w hw
      obtain ⟨x,hx⟩ := Option.isSome_iff_exists.mp (hkey hc)
      have hpos := hs.positive _ x hx
      have := hshare val key.asId
      cases Option.some.inj ((hheld _ x hx).symm.trans hw)
      simp only [VarS.recount,hone key hc]
      omega
    rw [release_lookup hlast (hheld id v hv)]
    refine congrArg some ?_
    simp only [VarS.recount,VarS.mk.injEq,true_and,and_true]
    omega
  intro id v hv
  have hlast : referenceCountable val = true → ∀ w,
      (ppbVarRelease (disown t key) key).table.lookup val.asId = some w → 1 < w.refCount := by
    intro hc w hw
    cases hl : s.table.lookup val.asId with
    | none =>
      have hgone : t.table.lookup val.asId = none := by
        rw [hval hl]
        exact addRef2_lookup_none (addRef2_lookup_none hl key) val
      rw [← disown_table t key] at hgone
      rw [release_lookup_none hgone] at hw
      cases hw
    | some x =>
      have hpos := hs.positive _ x hl
      cases Option.some.inj ((hfirst _ x hl).symm.trans hw)
      simp only [VarS.recount,hone val hc]
      omega
  rw [release_lookup hlast (hfirst id v hv)]
  refine congrArg some ?_
  simp only [VarS.recount]
  congr 1
  omega

/-! The keys of a dictionary. -/

theorem Listed.extends {s t : State} {keys : PPVar} {xs : List PPVar} {names : List Text}
    (h : Listed s keys xs names) (ht : Extends s t) : Listed t keys xs names := by
  obtain ⟨refCount,hkeys⟩ := h.array
  refine ⟨h.type,⟨refCount,ht _ _ hkeys⟩,h.names.imp fun x a hx => ?_⟩
  obtain ⟨r,hx⟩ := hx
  exact ⟨r,ht _ _ hx⟩

theorem Listed.setKeys_lookup {s t : State} {keys : PPVar} {xs : List PPVar}
    {names rest : List Text} (h : Listed s keys xs names)
    (ht : Var.setKeys s keys xs.length rest = some t) {id : ℕ} {v : VarS}
    (hv : s.table.lookup id = some v) (hid : id ≠ keys.asId) : t.table.lookup id = some v := by
  induction rest generalizing s xs names with
  | nil =>
    cases ht
    exact hv
  | cons sKey rest ih =>
    obtain ⟨⟨s₁,key⟩,h₁,ht⟩ := Option.bind_eq_some_iff.mp ht
    obtain ⟨⟨s₂,b⟩,h₂,ht⟩ := Option.bind_eq_some_iff.mp ht
    have hlen : xs.length+1 = (xs ++ [key]).length := by simp
    rw [hlen] at ht
    exact ih (h.addKey h₁ h₂) ht (h.addKey_lookup h₁ h₂ hv hid)

theorem setKeys_length {s t : State} {keys : PPVar} {idx : ℕ} {rest : List Text}
    (hkeys : keys.type = .array) (h : setKeys s keys idx rest = some t) (hne : rest ≠ []) :
    idx+rest.length < 2^32 := by
  induction rest generalizing s idx with
  | nil => exact absurd rfl hne
  | cons sKey rest ih =>
    obtain ⟨⟨s₁,key⟩,_,h⟩ := Option.bind_eq_some_iff.mp h
    obtain ⟨⟨s₂,b⟩,h₂,h⟩ := Option.bind_eq_some_iff.mp h
    rcases ppbVarArraySet_some h₂ with ⟨htype,_⟩ | ⟨_,_,_,_,hidx,_⟩
    · exact absurd hkeys htype
    · cases rest with
      | nil => exact hidx
      | cons a rest =>
        have := ih h (List.cons_ne_nil a rest)
        simp only [List.length_cons] at this ⊢
        omega

/-- A dictionary that is asked for its keys is there, and the answer is a new array. -/
theorem dictionaryGetKeys_spec {s t : State} {dict keys : PPVar} (htype : dict.type = .dictionary)
    (ht : ppbVarDictionaryGetKeys s dict = some (t,keys)) :
    Extends s t ∧ s.table.lookup keys.asId = none ∧ ∃ var refCount d xs,
      s.table.lookup dict.asId = some ⟨var,refCount,.dict d⟩ ∧ Listed t keys xs d.keys ∧
        d.keys.length < 2^32 := by
  rcases ppbVarDictionaryGetKeys_some ht with ⟨hno,_⟩ | ⟨s₁,var,refCount,d,_,h₁,hl,hu⟩
  · exact absurd htype hno
  obtain ⟨_,hkeys,_,_,hold⟩ := createVar_spec h₁
  have hnew : s.table.lookup keys.asId = none := by
    by_contra hne
    obtain ⟨v,hv⟩ := Option.ne_none_iff_exists'.mp hne
    exact (hold _ _ hv).1 rfl
  have htype₁ : keys.type = .array := by
    obtain ⟨_,_,rfl,_⟩ := createVar_eq h₁
    rfl
  have hlisted : Listed s₁ keys [] [] := ⟨htype₁,⟨1,hkeys⟩,.nil⟩
  have hframe : Extends s t := by
    intro id v hv
    obtain ⟨hid,hv₁⟩ := hold _ _ hv
    exact hlisted.setKeys_lookup hu hv₁ hid
  have hdict : s.table.lookup dict.asId = some ⟨var,refCount,.dict d⟩ := by
    obtain ⟨id,hid,rfl,rfl⟩ := createVar_eq h₁
    have hne : dict.asId ≠ id := by
      rintro rfl
      have := (lookup_put_self s dict.asId _).symm.trans hl
      cases this
    exact (lookup_put_ne s _ hne).symm.trans hl
  obtain ⟨ys,hys⟩ := hlisted.setKeys hu
  have hlen : d.keys.length < 2^32 := by
    by_cases hne : d.keys = []
    · rw [hne]
      decide
    · have := setKeys_length htype₁ hu hne
      omega
  exact ⟨hframe,hnew,var,refCount,d,ys,hdict,hys,hlen⟩

theorem Listed.arrayGet {s t : State} {keys key : PPVar} {xs : List PPVar} {names : List Text}
    (h : Listed s keys xs names) {k : ℕ} (ht : ppbVarArrayGet s keys k = some (t,key)) :
    t = (ppbVarAddRef2 s key).1 ∧ key = readSlot xs k := by
  obtain ⟨refCount,hkeys⟩ := h.array
  have hvalue := arrayGet_value h.type hkeys k
  rw [ht] at hvalue
  exact ⟨arrayGet_addRef2 ht,Option.some.inj hvalue⟩

/-- The keys are strings that are there. -/
theorem Listed.key {s : State} {keys : PPVar} {xs : List PPVar} {names : List Text}
    (h : Listed s keys xs names) (hs : Kept s) (k : ℕ) :
    (readSlot xs k).type ≠ .dictionary ∧ (referenceCountable (readSlot xs k) = true →
      (s.table.lookup (readSlot xs k).asId).isSome = true) := by
  rw [readSlot,List.getD_eq_getElem?_getD]
  cases hx : xs[k]? with
  | none => exact ⟨by decide,fun hc => absurd hc (by decide)⟩
  | some x =>
    obtain ⟨i,hi⟩ := List.forall₂_iff_get.mp h.names
    have hk := (List.getElem?_eq_some_iff.mp hx).1
    obtain ⟨refCount,hspell⟩ := hi k hk (i ▸ hk)
    have hget : xs.get ⟨k,hk⟩ = x := (List.getElem?_eq_some_iff.mp hx).2
    rw [hget] at hspell
    have htype : x.type = .string := (hs.entry _ _ hspell).type
    exact ⟨by simp [htype],fun _ => by simp [hspell]⟩

/-! Printing, by the depth of dictionaries. -/

/-- What holds of a function that prints vars. -/
structure Steady : Prop where
  keeps : ∀ {s t x out}, Kept s → trace s x = some (t,out) → Extends s t ∧ Kept t
  flat : ∀ {s t x out}, trace s x = some (t,out) → x.type ≠ .dictionary → t = s
  live : ∀ {s t x out}, trace s x = some (t,out) → x.type = .dictionary →
    (s.table.lookup x.asId).isSome = true

variable {trace}

/-- One turn of the loop over the keys. -/
theorem traceEntries_cons {dict keys : PPVar} {k : ℕ} {ks : List ℕ} {s u : State} {out : Printed}
    {xs : List PPVar} {names : List Text} (hl : Listed s keys xs names)
    (h : traceEntries trace dict keys (k::ks) s = some (u,out)) :
    ∃ val t₁ t₂ sKey sVal rest, let key := readSlot xs k
      ppbVarDictionaryGet (ppbVarAddRef2 s key).1 dict key =
        some ((ppbVarAddRef2 (ppbVarAddRef2 s key).1 val).1,val) ∧
      trace (ppbVarAddRef2 (ppbVarAddRef2 s key).1 val).1 key = some (t₁,sKey) ∧
      trace t₁ val = some (t₂,sVal) ∧
      traceEntries trace dict keys ks
        (ppbVarRelease (disown (ppbVarRelease (disown t₂ key) key) val) val) = some (u,rest) := by
  rw [traceEntries] at h
  obtain ⟨⟨s₁,key⟩,h₁,h⟩ := Option.bind_eq_some_iff.mp h
  obtain ⟨⟨s₂,val⟩,h₂,h⟩ := Option.bind_eq_some_iff.mp h
  obtain ⟨⟨t₁,sKey⟩,h₃,h⟩ := Option.bind_eq_some_iff.mp h
  obtain ⟨⟨t₂,sVal⟩,h₄,h⟩ := Option.bind_eq_some_iff.mp h
  obtain ⟨⟨t₃,rest⟩,h₅,he⟩ := Option.map_eq_some_iff.mp h
  obtain ⟨rfl,rfl⟩ := hl.arrayGet h₁
  have hs₂ := dictionaryGet_addRef2 h₂
  subst hs₂
  cases he
  exact ⟨val,t₁,t₂,sKey,sVal,rest,h₂,h₃,h₄,h₅⟩

theorem Steady.entry (h : Steady trace) {s t₁ t₂ : State} {keys val : PPVar} {xs : List PPVar}
    {names : List Text} {k : ℕ} {sKey sVal : Printed} (hs : Kept s) (hl : Listed s keys xs names)
    (h₁ : trace (ppbVarAddRef2 (ppbVarAddRef2 s (readSlot xs k)).1 val).1 (readSlot xs k) =
      some (t₁,sKey)) (h₂ : trace t₁ val = some (t₂,sVal)) :
    let key := readSlot xs k
    let u := ppbVarRelease (disown (ppbVarRelease (disown t₂ key) key) val) val
    Extends s u ∧ Kept u := by
  obtain ⟨hflat,hlive⟩ := hl.key hs k
  have hheld : Kept (ppbVarAddRef2 (ppbVarAddRef2 s (readSlot xs k)).1 val).1 :=
    (hs.addRef2 _).addRef2 _
  obtain rfl := h.flat h₁ hflat
  obtain ⟨hext,hkept⟩ := h.keeps hheld h₂
  refine ⟨extends_entry hs hlive hext fun hnone => ?_,(hkept.releaseOwned _).releaseOwned _⟩
  refine h.flat h₂ fun hd => ?_
  have hsome := h.live h₂ hd
  rw [addRef2_lookup_none (addRef2_lookup_none hnone _) val] at hsome
  cases hsome

theorem Steady.entries (h : Steady trace) {dict keys : PPVar} {xs : List PPVar}
    {names : List Text} {ks : List ℕ} {s t : State} {out : Printed} (hs : Kept s)
    (hl : Listed s keys xs names) (ht : traceEntries trace dict keys ks s = some (t,out)) :
    Extends s t ∧ Kept t := by
  induction ks generalizing s out with
  | nil =>
    cases ht
    exact ⟨fun _ _ hv => hv,hs⟩
  | cons k ks ih =>
    obtain ⟨val,t₁,t₂,sKey,sVal,rest,_,h₁,h₂,hrest⟩ := traceEntries_cons hl ht
    obtain ⟨hext,hkept⟩ := h.entry hs hl h₁ h₂
    obtain ⟨hext',hkept'⟩ := ih hkept (hl.extends hext) hrest
    exact ⟨hext.trans hext',hkept'⟩

theorem dictionaryVarToString_live {dict : PPVar} {s t : State} {out : Printed}
    (hd : dict.type = .dictionary) (ht : dictionaryVarToString trace s dict = some (t,out)) :
    (s.table.lookup dict.asId).isSome = true := by
  rw [dictionaryVarToString,if_neg (not_not.mpr hd)] at ht
  obtain ⟨⟨s₁,keys⟩,h₁,_⟩ := Option.bind_eq_some_iff.mp ht
  obtain ⟨_,_,var,refCount,d,xs,hdict,_⟩ := dictionaryGetKeys_spec hd h₁
  rw [hdict]
  rfl

/-- Nothing is taken away, and the array of keys is left. -/
theorem Steady.dictionary (h : Steady trace) {dict : PPVar} {s t : State} {out : Printed}
    (hs : Kept s) (hd : dict.type = .dictionary)
    (ht : dictionaryVarToString trace s dict = some (t,out)) :
    Extends s t ∧ Kept t ∧ ∃ id v, s.table.lookup id = none ∧ t.table.lookup id = some v := by
  rw [dictionaryVarToString,if_neg (not_not.mpr hd)] at ht
  obtain ⟨⟨s₁,keys⟩,h₁,ht⟩ := Option.bind_eq_some_iff.mp ht
  obtain ⟨⟨t',rest⟩,h₂,he⟩ := Option.map_eq_some_iff.mp ht
  cases he
  obtain ⟨hext,hnew,var,refCount,d,xs,hdict,hlisted,_⟩ := dictionaryGetKeys_spec hd h₁
  obtain ⟨hext',hkept⟩ := h.entries (hs.dictionaryGetKeys h₁) hlisted h₂
  obtain ⟨n,hkeys⟩ := hlisted.array
  exact ⟨hext.trans hext',hkept,keys.asId,_,hnew,hext' _ _ hkeys⟩

theorem trace_dictionary {depth : ℕ} {s t : State} {var : PPVar} {out : Printed}
    (h : traceVarAsString (depth+1) s var = some (t,out)) (hv : var.type = .dictionary) :
    ∃ out, dictionaryVarToString (traceVarAsString depth) s var = some (t,out) := by
  simp only [traceVarAsString,hv] at h
  obtain ⟨⟨u,sDict⟩,hu,he⟩ := Option.map_eq_some_iff.mp h
  cases he
  exact ⟨sDict,hu⟩

theorem steady_traceVarAsString (depth : ℕ) : Steady (traceVarAsString depth) := by
  induction depth with
  | zero => exact ⟨fun _ h => (by cases h),fun h => (by cases h),fun h => (by cases h)⟩
  | succ depth ih =>
    refine ⟨fun {s t x out} hs ht => ?_,fun ht hx => trace_flat ht hx,fun {s t x out} ht hx => ?_⟩
    · by_cases hx : x.type = .dictionary
      · obtain ⟨sDict,hu⟩ := trace_dictionary ht hx
        obtain ⟨hext,hkept,_⟩ := ih.dictionary hs hx hu
        exact ⟨hext,hkept⟩
      · obtain rfl := trace_flat ht hx
        exact ⟨fun _ _ hv => hv,hs⟩
    · obtain ⟨sDict,hu⟩ := trace_dictionary ht hx
      exact dictionaryVarToString_live hx hu

/-! A dictionary that is a value of its own. -/

/-- The dictionary has itself under a key, which has no zeros. -/
structure SelfValued (s : State) (dict : PPVar) (key : Text) : Prop where
  type : dict.type = .dictionary
  free : 0 ∉ key
  value : ∃ var refCount d, s.table.lookup dict.asId = some ⟨var,refCount,.dict d⟩ ∧
    d.lookup key = some dict

theorem SelfValued.extends {s t : State} {dict : PPVar} {key : Text} (h : SelfValued s dict key)
    (ht : Extends s t) : SelfValued t dict key := by
  obtain ⟨var,refCount,d,hl,hd⟩ := h.value
  exact ⟨h.type,h.free,var,refCount,d,ht _ _ hl,hd⟩

theorem SelfValued.addRef2 {s : State} {dict : PPVar} {key : Text} (h : SelfValued s dict key)
    (x : PPVar) : SelfValued (ppbVarAddRef2 s x).1 dict key := by
  obtain ⟨var,refCount,d,hl,hd⟩ := h.value
  exact ⟨h.type,h.free,var,_,d,addRef2_lookup hl x,hd⟩

theorem SelfValued.get {s t : State} {dict key val : PPVar} {name : Text}
    (h : SelfValued s dict name) (hs : Kept s) (hkey : Spells s key name)
    (ht : ppbVarDictionaryGet s dict key = some (t,val)) : val = dict := by
  obtain ⟨var,refCount,d,hl,hd⟩ := h.value
  obtain ⟨_,hspell⟩ := hkey
  have hstring : key.type = .string := (hs.entry _ _ hspell).type
  have hvalue := dictionaryGet_value h.type hstring hl
  rw [ht,Spells.textOf ⟨_,hspell⟩,cut_eq_self h.free,hd] at hvalue
  exact Option.some.inj hvalue

theorem SelfValued.entries {depth : ℕ} {dict keys : PPVar} {name : Text} {xs : List PPVar}
    {names : List Text} {i : ℕ} (hdepth : ∀ {s : State}, Kept s → SelfValued s dict name →
      traceVarAsString depth s dict = none) {ks : List ℕ} (hi : i ∈ ks) {s t : State}
    {out : Printed} (h : SelfValued s dict name) (hs : Kept s) (hl : Listed s keys xs names)
    (hname : Spells s (readSlot xs i) name) :
    traceEntries (traceVarAsString depth) dict keys ks s ≠ some (t,out) := by
  induction ks generalizing s out with
  | nil => cases hi
  | cons k ks ih =>
    intro ht
    obtain ⟨val,t₁,t₂,sKey,sVal,rest,hget,h₁,h₂,hrest⟩ := traceEntries_cons hl ht
    obtain ⟨refCount,hspell⟩ := hname
    by_cases hk : i = k
    · subst hk
      have hval := (h.addRef2 _).get (hs.addRef2 _) ⟨_,addRef2_lookup hspell _⟩ hget
      subst hval
      obtain rfl := (steady_traceVarAsString depth).flat h₁ (hl.key hs i).1
      rw [hdepth ((hs.addRef2 _).addRef2 _) ((h.addRef2 _).addRef2 _)] at h₂
      cases h₂
    · obtain ⟨hext,hkept⟩ := (steady_traceVarAsString depth).entry hs hl h₁ h₂
      have hmem : i ∈ ks := (List.mem_cons.mp hi).resolve_left hk
      exact ih hmem (h.extends hext) hkept (hl.extends hext) ⟨refCount,hext _ _ hspell⟩ hrest

/-- Such a dictionary is entered again and again. -/
theorem selfValued_never_returns (depth : ℕ) {dict : PPVar} {name : Text} {s : State}
    (hs : Kept s) (h : SelfValued s dict name) : traceVarAsString depth s dict = none := by
  induction depth generalizing s with
  | zero => rfl
  | succ depth ih =>
    by_contra hne
    obtain ⟨⟨t,out⟩,ht⟩ := Option.ne_none_iff_exists'.mp hne
    obtain ⟨sDict,hu⟩ := trace_dictionary ht h.type
    rw [dictionaryVarToString,if_neg (not_not.mpr h.type)] at hu
    obtain ⟨⟨s₁,keys⟩,h₁,hu⟩ := Option.bind_eq_some_iff.mp hu
    obtain ⟨⟨t',rest⟩,h₂,_⟩ := Option.map_eq_some_iff.mp hu
    obtain ⟨hext,_,var,refCount,d,xs,hdict,hlisted,hlen⟩ := dictionaryGetKeys_spec h.type h₁
    obtain ⟨_,_,d',hdict',hself⟩ := h.value
    cases Option.some.inj (hdict.symm.trans hdict')
    obtain ⟨hsame,hspells⟩ := List.forall₂_iff_get.mp hlisted.names
    have hmem : name ∈ d.keys := by
      refine AList.mem_keys.mp (AList.lookup_isSome.mp ?_)
      rw [hself]
      rfl
    obtain ⟨i,hi,hname⟩ := List.getElem_of_mem hmem
    have hix : i < xs.length := by rwa [hsame]
    have hspell : Spells s₁ (readSlot xs i) name := by
      have := hspells i hix hi
      rw [List.get_eq_getElem,List.get_eq_getElem,hname] at this
      rwa [readSlot,List.getD_eq_getElem?_getD,List.getElem?_eq_getElem hix]
    obtain ⟨n,hkeys⟩ := hlisted.array
    have hcount : (ppbVarArrayGetLength s₁ keys).toNat = xs.length := by
      rw [← arrayOf_eq hkeys]
      refine arrayGetLength_eq hlisted.type ?_
      rwa [arrayOf_eq hkeys,hsame]
    have hrange : i ∈ List.range (ppbVarArrayGetLength s₁ keys).toNat := by
      rw [hcount]
      exact List.mem_range.mpr hix
    exact (h.extends hext).entries ih hrange (hs.dictionaryGetKeys h₁) hlisted hspell h₂

example : ∃ s : State, machine.exec State.create [.dictionaryCreate,.varFromUtf8 (CText.bytes "a"),
    .dictionarySet ⟨.dictionary,2⟩ ⟨.string,3⟩ ⟨.dictionary,2⟩] = some s ∧
    SelfValued s ⟨.dictionary,2⟩ (CText.bytes "a") := ⟨_,rfl,rfl,by decide,_,_,_,rfl,rfl⟩

/-- Printing is transparent exactly for the vars that are no dictionaries; in any case the
vars that were there keep their counts. -/
theorem trace_transparent_iff {s : State} (hs : machine.Reachable s) (var : PPVar) :
    (Transparent s var ↔ Flat s var) ∧
    ∀ depth t out, traceVarAsString depth s var = some (t,out) → Extends s t := by
  have hkept := kept_of_reachable hs
  refine ⟨⟨fun h => ?_,fun h => ⟨trace_returns h,fun depth t out ht id => ?_⟩⟩,
    fun depth t out ht => ((steady_traceVarAsString depth).keeps hkept ht).1⟩
  · obtain ⟨depth,t,out,ht⟩ := h.returns
    refine flat_of_returns ht fun hd => ?_
    cases depth with
    | zero => cases ht
    | succ depth =>
      obtain ⟨sDict,hu⟩ := trace_dictionary ht hd
      obtain ⟨_,_,id,v,hnone,hsome⟩ := (steady_traceVarAsString depth).dictionary hkept hd hu
      have hcounts := h.counts _ _ _ ht id
      rw [hnone,hsome] at hcounts
      cases hcounts
  · have hd : var.type ≠ .dictionary := by
      intro hd
      rw [Flat,hd] at h
      exact h
    rw [trace_flat ht hd]

def oneEntry : List Op := [.dictionaryCreate,.varFromUtf8 (CText.bytes "a"),
  .dictionarySet ⟨.dictionary,2⟩ ⟨.string,3⟩ ⟨.int32,5⟩]

theorem key_transparent : ∃ s : State, machine.exec State.create oneEntry = some s ∧
    Transparent s ⟨.string,3⟩ := by
  obtain ⟨s,hs,hv⟩ : ∃ s : State, machine.exec State.create oneEntry = some s ∧
      ∃ n, s.table.lookup 3 = some ⟨⟨.string,3⟩,n,.str (CText.bytes "a")⟩ := ⟨_,rfl,_,rfl⟩
  obtain ⟨n,hv⟩ := hv
  have hflat : Flat s ⟨.string,3⟩ := by
    intro v hl
    cases Option.some.inj (hv.symm.trans hl)
    exact nofun
  exact ⟨s,hs,(trace_transparent_iff (Machine.reachable_of_exec hs) _).1.mpr hflat⟩

/-- Printing a dictionary of one entry leaves an array and its key. -/
theorem traced_dictionary_leaks : ¬∀ s, machine.Reachable s → ∀ var, Transparent s var := by
  intro h
  obtain ⟨s,hs,hnone,t,out,ht,hkeys,hkey⟩ : ∃ s : State,
      machine.exec State.create oneEntry = some s ∧ s.table.lookup 4 = none ∧
      ∃ t out, traceVarAsString 2 s ⟨.dictionary,2⟩ = some (t,out) ∧
        (t.table.lookup 4).map VarS.refCount = some 1 ∧
        (t.table.lookup 5).map VarS.refCount = some 1 := ⟨_,rfl,rfl,_,_,rfl,rfl,rfl⟩
  have hcounts := (h s (Machine.reachable_of_exec hs) ⟨.dictionary,2⟩).counts 2 t out ht 4
  rw [hkeys,hnone] at hcounts
  cases hcounts

end Var
end FreshPlayer
