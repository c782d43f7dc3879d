import Mathlib.Data.List.Basic
import Mathlib.Data.Nat.Notation
import Mathlib.Tactic.Common
import Mathlib.Algebra.Group.Nat.Defs

/-! The attributes a Graphics3D context is created with, on their way to GLX. Attributes come in
pairs with their values and end with a terminator. -/
namespace FreshPlayer
namespace GraphicsAttributes

def ppNone : Int32 := 0x3038
def ppHeight : Int32 := 0x3056
def ppWidth : Int32 := 0x3057
def ppGpuPreference : Int32 := 0x11000
def ppSwapBehavior : Int32 := 0x3093
def ppAlphaSize : Int32 := 0x3021
def ppBlueSize : Int32 := 0x3022
def ppGreenSize : Int32 := 0x3023
def ppRedSize : Int32 := 0x3024
def ppDepthSize : Int32 := 0x3025
def ppStencilSize : Int32 := 0x3026
def ppSamples : Int32 := 0x3031
def ppSampleBuffers : Int32 := 0x3032

def glxRedSize : Int32 := 8
def glxGreenSize : Int32 := 9
def glxBlueSize : Int32 := 10
def glxAlphaSize : Int32 := 11
def glxDepthSize : Int32 := 12
def glxStencilSize : Int32 := 13
def glxSampleBuffers : Int32 := 100000
def glxSamples : Int32 := 100001
def glxYInvertedExt : Int32 := 0x20D4
def glxBindToTextureRgbaExt : Int32 := 0x20D1
def glxDrawableType : Int32 := 0x8010
def glxXRenderable : Int32 := 0x8012
def glxWindowBit : Int32 := 1
def glxPixmapBit : Int32 := 2

/-- The attributes that GLX gets, under its own names. -/
def configAttribs : List (Int32 × Int32) :=
  [(ppAlphaSize,glxAlphaSize),(ppBlueSize,glxBlueSize),(ppGreenSize,glxGreenSize),
    (ppRedSize,glxRedSize),(ppDepthSize,glxDepthSize),(ppStencilSize,glxStencilSize),
    (ppSamples,glxSamples),(ppSampleBuffers,glxSampleBuffers),
    (glxYInvertedExt,glxYInvertedExt),(glxBindToTextureRgbaExt,glxBindToTextureRgbaExt)]

/-- What is done with the value of an attribute. -/
inductive Use
  | height | width | dropped
  | config (glx : Int32)
  deriving DecidableEq

inductive Case
  | none | unknown
  | known (u : Use)
  deriving DecidableEq

def caseOf (attrib : Int32) : Case :=
  if attrib = ppHeight then .known .height
  else if attrib = ppWidth then .known .width
  else if attrib = ppGpuPreference ∨ attrib = ppSwapBehavior then .known .dropped
  else if attrib = ppNone then .none
  else
    match configAttribs.lookup attrib with
    | some glx => .known (.config glx)
    | Option.none => .unknown

/-- The counters of the code are of type `int`. -/
def int (n : ℕ) : Option ℕ := if n < 2^31 then some n else none

/-- The first loop looks at attributes only. Beyond the list nothing may be read. -/
def attribLen : List Int32 → ℕ → Option ℕ
  | [], _ => none
  | [attrib], n => if attrib = ppNone then some n else none
  | attrib::_::l, n => if attrib = ppNone then some n else (int (n+2)).bind fun n => attribLen l n

def maxAttribCount (attribList : List Int32) : Option ℕ :=
  (attribLen attribList 0).bind fun n => int (n+1+3*2)

/-- The second loop: how far it is in the list, what it has written, and the size of the context.
The places at which it found attributes it knows are ghosts. -/
structure Translation where
  k1 : ℕ
  cfgAttrs : List Int32
  width : Int32
  height : Int32
  found : List ℕ
  deriving DecidableEq

/-- Behind the block nothing may be written. -/
def Translation.write (max : ℕ) (t : Translation) (l : List Int32) : Option Translation :=
  if t.cfgAttrs.length+l.length ≤ max then some { t with cfgAttrs := t.cfgAttrs ++ l } else none

def Translation.take (max : ℕ) (t : Translation) (value : Int32) : Use → Option Translation
  | .height => some { t with height := value, k1 := t.k1+2, found := t.k1::t.found }
  | .width => some { t with width := value, k1 := t.k1+2, found := t.k1::t.found }
  | .dropped => some { t with k1 := t.k1+2, found := t.k1::t.found }
  | .config glx =>
    { t with k1 := t.k1+2, found := t.k1::t.found }.write max [glx,value]

/-- The value of an unknown attribute is not skipped. -/
def translate (max : ℕ) : List Int32 → Translation → Option Translation
  | [], _ => none
  | attrib::l, t =>
    match caseOf attrib with
    | .none => t.write max [0]
    | .unknown => translate max l { t with k1 := t.k1+1 }
    | .known u =>
      match l with
      | [] => none
      | value::l => (t.take max value u).bind fun t => translate max l t

def header : List Int32 := [glxXRenderable,1,glxDrawableType,glxWindowBit ||| glxPixmapBit]

/-- A new context has no size. -/
def start : Translation := ⟨0,[],0,0,[]⟩

def create (attribList : List Int32) : Option Translation :=
  (maxAttribCount attribList).bind fun max =>
    (start.write max header).bind fun t => translate max attribList t

/-! What the plugin means. -/

abbrev Pairs := List (Int32 × Int32)

def attribList (ps : Pairs) : List Int32 := ps.flatMap (fun p => [p.1,p.2]) ++ [ppNone]

/-- No attribute but the last one is the terminator. -/
def Terminated (ps : Pairs) : Prop := ∀ p ∈ ps, caseOf p.1 ≠ .none

instance (ps : Pairs) : Decidable (Terminated ps) :=
  List.decidableBAll (fun p : Int32 × Int32 => caseOf p.1 ≠ .none) ps

def glxPair (p : Int32 × Int32) : List Int32 :=
  match caseOf p.1 with
  | .known (.config glx) => [glx,p.2]
  | _ => []

/-- The value given last, if any. -/
def lastValue (u : Use) (initial : Int32) (ps : Pairs) : Int32 :=
  ps.foldl (fun v p => if caseOf p.1 = .known u then p.2 else v) initial

/-- The pairs of a list, taken as pairs up to its end. -/
structure Translates (ps : Pairs) (t : Translation) : Prop where
  k1 : t.k1 = 2*ps.length
  cfgAttrs : t.cfgAttrs = header ++ (ps.flatMap glxPair ++ [0])
  width : t.width = lastValue .width 0 ps
  height : t.height = lastValue .height 0 ps
  found : ∀ k ∈ t.found, k % 2 = 0

/-- No value of an unknown attribute is one that the loop knows. -/
def Skippable (p : Int32 × Int32) : Prop := caseOf p.1 = .unknown → caseOf p.2 = .unknown

instance (p : Int32 × Int32) : Decidable (Skippable p) := inferInstanceAs (Decidable (_ → _))

def InStep (ps : Pairs) : Prop := ∀ p ∈ ps, Skippable p

instance (ps : Pairs) : Decidable (InStep ps) := List.decidableBAll Skippable ps

theorem attribList_cons (p : Int32 × Int32) (ps : Pairs) :
    attribList (p::ps) = p.1::p.2::attribList ps := rfl

theorem attribList_ne_nil (ps : Pairs) : attribList ps ≠ [] := by
  cases ps <;> exact List.cons_ne_nil _ _

/-! The first loop counts the pairs. -/

theorem caseOf_ppNone : caseOf ppNone = .none := by decide

theorem ne_ppNone_of_case {attrib : Int32} (h : caseOf attrib ≠ .none) : attrib ≠ ppNone :=
  fun he => h (he ▸ caseOf_ppNone)

theorem int_eq_some {n m : ℕ} : int n = some m ↔ n < 2^31 ∧ n = m := by
  rw [int,Option.ite_none_right_eq_some,Option.some_inj]

theorem attribLen_attribList {ps : Pairs} (h : Terminated ps) {n m : ℕ} (hn : n < 2^31) :
    attribLen (attribList ps) n = some m ↔ n+2*ps.length < 2^31 ∧ n+2*ps.length = m := by
  induction ps generalizing n with
  | nil =>
    have hend : attribLen (attribList []) n = some n := if_pos rfl
    rw [hend,Option.some_inj]
    simpa using fun _ => hn
  | cons p ps ih =>
    have hne := ne_ppNone_of_case (h p List.mem_cons_self)
    have htail : Terminated ps := fun q hq => h q (List.mem_cons_of_mem p hq)
    rw [attribList_cons,attribLen,if_neg hne,Option.bind_eq_some_iff,List.length_cons]
    constructor
    · rintro ⟨k,hk,hm⟩
      obtain ⟨hlt,rfl⟩ := int_eq_some.mp hk
      have := (ih htail hlt).mp hm
      omega
    · rintro ⟨hlt,heq⟩
      exact ⟨n+2,int_eq_some.mpr ⟨by omega,rfl⟩,(ih htail (by omega)).mpr ⟨by omega,by omega⟩⟩

theorem maxAttribCount_eq_some {ps : Pairs} (h : Terminated ps) {max : ℕ} :
    maxAttribCount (attribList ps) = some max ↔ 2*ps.length+7 < 2^31 ∧ max = 2*ps.length+7 := by
  rw [maxAttribCount,Option.bind_eq_some_iff]
  constructor
  · rintro ⟨n,hn,hmax⟩
    have hlen := (attribLen_attribList h (by decide)).mp hn
    obtain ⟨hlt,rfl⟩ := int_eq_some.mp hmax
    omega
  · rintro ⟨hlt,rfl⟩
    exact ⟨2*ps.length,(attribLen_attribList h (by decide)).mpr ⟨by omega,by omega⟩,
      int_eq_some.mpr ⟨by omega,rfl⟩⟩

/-! The second loop, one attribute at a time. -/

variable {max : ℕ} {attrib value : Int32} {l : List Int32} {t t' : Translation}

theorem translate_none (h : caseOf attrib = .none) :
    translate max (attrib::l) t = t.write max [0] := by
  rw [translate,h]

theorem translate_unknown (h : caseOf attrib = .unknown) :
    translate max (attrib::l) t = translate max l { t with k1 := t.k1+1 } := by
  rw [translate,h]

theorem translate_known {u : Use} (h : caseOf attrib = .known u) :
    translate max (attrib::value::l) t =
      (t.take max value u).bind fun t => translate max l t := by
  rw [translate,h]

theorem write_eq_some {t t' : Translation} {l : List Int32} (h : t.write max l = some t') :
    t' = { t with cfgAttrs := t.cfgAttrs ++ l } :=
  (Option.some.inj (Option.ite_none_right_eq_some.mp h).2).symm

theorem take_found {u : Use} (h : t.take max value u = some t') :
    t'.k1 = t.k1+2 ∧ t'.found = t.k1::t.found := by
  cases u with
  | config glx =>
    rw [write_eq_some h]
    exact ⟨rfl,rfl⟩
  | height => exact (Option.some.inj h) ▸ ⟨rfl,rfl⟩
  | width => exact (Option.some.inj h) ▸ ⟨rfl,rfl⟩
  | dropped => exact (Option.some.inj h) ▸ ⟨rfl,rfl⟩

/-- What was found stays found. -/
theorem translate_found (h : translate max l t = some t') : t.found ⊆ t'.found := by
  induction l,t using translate.induct with
  | case1 => cases h
  | case2 attrib l t hcase =>
    rw [translate_none hcase] at h
    exact (write_eq_some h) ▸ List.Subset.refl _
  | case3 attrib l t hcase ih =>
    rw [translate_unknown hcase] at h
    exact ih h
  | case4 attrib t u hcase =>
    rw [translate,hcase] at h
    cases h
  | case5 attrib t u hcase value l ih =>
    rw [translate_known hcase] at h
    obtain ⟨t₁,htake,hrest⟩ := Option.bind_eq_some_iff.mp h
    exact fun k hk => ih t₁ hrest ((take_found htake).2 ▸ List.mem_cons_of_mem _ hk)

/-- What a list of pairs does to a translation. -/
structure Reads (t : Translation) (ps : Pairs) (u : Translation) : Prop where
  k1 : u.k1 = t.k1+2*ps.length
  cfgAttrs : u.cfgAttrs = t.cfgAttrs ++ ps.flatMap glxPair
  width : u.width = lastValue .width t.width ps
  height : u.height = lastValue .height t.height ps
  found : ∀ k ∈ u.found, k ∈ t.found ∨ k % 2 = t.k1 % 2

theorem Reads.trans {t u v : Translation} {ps qs : Pairs} (h : Reads t ps u) (h' : Reads u qs v) :
    Reads t (ps ++ qs) v where
  k1 := by
    rw [h'.k1,h.k1,List.length_append]
    omega
  cfgAttrs := by rw [h'.cfgAttrs,h.cfgAttrs,List.flatMap_append,List.append_assoc]
  width := by rw [h'.width,h.width,lastValue,lastValue,lastValue,List.foldl_append]
  height := by rw [h'.height,h.height,lastValue,lastValue,lastValue,List.foldl_append]
  found := fun k hk => (h'.found k hk).elim (h.found k) fun hmod => Or.inr (by
    rw [hmod,h.k1]
    omega)

/-- A pair of an attribute that is known. -/
theorem take_reads {p : Int32 × Int32} {u : Use} (hcase : caseOf p.1 = .known u)
    (hroom : t.cfgAttrs.length+2 ≤ max) : ∃ t', t.take max p.2 u = some t' ∧ Reads t [p] t' := by
  have hfound (k : ℕ) (hk : k ∈ t.k1::t.found) : k ∈ t.found ∨ k % 2 = t.k1 % 2 := by
    rcases List.mem_cons.mp hk with rfl | hk
    · exact Or.inr rfl
    · exact Or.inl hk
  cases u with
  | config glx =>
    refine ⟨_,if_pos hroom,rfl,?_,?_,?_,hfound⟩
    all_goals simp [glxPair,lastValue,hcase]
  | height =>
    refine ⟨_,rfl,rfl,?_,?_,?_,hfound⟩
    all_goals simp [glxPair,lastValue,hcase]
  | width =>
    refine ⟨_,rfl,rfl,?_,?_,?_,hfound⟩
    all_goals simp [glxPair,lastValue,hcase]
  | dropped =>
    refine ⟨_,rfl,rfl,?_,?_,?_,hfound⟩
    all_goals simp [glxPair,lastValue,hcase]

/-- A pair that the loop passes in step. -/
theorem translate_pair {p : Int32 × Int32} (hp : caseOf p.1 ≠ .none) (hskip : Skippable p)
    (hroom : t.cfgAttrs.length+2 ≤ max) :
    ∃ u, translate max (p.1::p.2::l) t = translate max l u ∧ Reads t [p] u := by
  cases hcase : caseOf p.1 with
  | none => exact absurd hcase hp
  | unknown =>
    refine ⟨_,(translate_unknown hcase).trans (translate_unknown (hskip hcase)),rfl,?_,?_,?_,
      fun k hk => Or.inl hk⟩
    all_goals simp [glxPair,lastValue,hcase]
  | known u =>
    obtain ⟨t',htake,hreads⟩ := take_reads hcase hroom
    exact ⟨t',by rw [translate_known hcase,htake]; rfl,hreads⟩

theorem length_glxPair_le (p : Int32 × Int32) : (glxPair p).length ≤ 2 := by
  unfold glxPair
  split <;> simp

theorem translate_pairs {ps : Pairs} (hterm : Terminated ps) (hskip : InStep ps)
    (hroom : t.cfgAttrs.length+2*ps.length+1 ≤ max) :
    ∃ u, translate max (attribList ps) t = u.write max [0] ∧ Reads t ps u ∧
      u.cfgAttrs.length+1 ≤ max := by
  induction ps generalizing t with
  | nil =>
    exact ⟨t,translate_none caseOf_ppNone,
      ⟨rfl,(List.append_nil _).symm,rfl,rfl,fun k hk => Or.inl hk⟩,by simpa using hroom⟩
  | cons p ps ih =>
    rw [List.length_cons] at hroom
    obtain ⟨u,hu,hreads⟩ := translate_pair (l := attribList ps) (hterm p List.mem_cons_self)
      (hskip p List.mem_cons_self) (by omega : t.cfgAttrs.length+2 ≤ max)
    have hlength : u.cfgAttrs.length ≤ t.cfgAttrs.length+2 := by
      have := length_glxPair_le p
      rw [hreads.cfgAttrs,List.flatMap_singleton,List.length_append]
      omega
    obtain ⟨v,hv,hreads',hle⟩ := ih (fun q hq => hterm q (List.mem_cons_of_mem p hq))
      (fun q hq => hskip q (List.mem_cons_of_mem p hq)) (by omega : u.cfgAttrs.length+_+1 ≤ max)
    exact ⟨v,by rw [attribList_cons,hu,hv],hreads.trans hreads',hle⟩

/-- A value that the loop knows is taken for an attribute, or ends the list. -/
theorem translate_unskippable {p : Int32 × Int32} {ps : Pairs} (hbad : ¬Skippable p)
    (h : translate max (attribList (p::ps)) t = some t') :
    t'.k1 = t.k1+1 ∨ t.k1+1 ∈ t'.found := by
  obtain ⟨hcase,hvalue⟩ := Classical.not_imp.mp hbad
  rw [attribList_cons,translate_unknown hcase] at h
  cases hvcase : caseOf p.2 with
  | none =>
    rw [translate_none hvcase] at h
    exact Or.inl ((write_eq_some h) ▸ rfl)
  | unknown => exact absurd hvcase hvalue
  | known u =>
    obtain ⟨next,l,hl⟩ := List.exists_cons_of_ne_nil (attribList_ne_nil ps)
    rw [hl,translate_known hvcase] at h
    obtain ⟨t₁,htake,hrest⟩ := Option.bind_eq_some_iff.mp h
    have hmem : t.k1+1 ∈ t₁.found := (take_found htake).2 ▸ List.mem_cons_self
    exact Or.inr (translate_found hrest hmem)

/-- Up to the first such value the places of attributes are even. -/
theorem translate_odd {ps : Pairs} (hterm : Terminated ps) (hbad : ∃ p ∈ ps, ¬Skippable p)
    (heven : t.k1 % 2 = 0) (h : translate max (attribList ps) t = some t') :
    t'.k1 % 2 = 1 ∨ ∃ k ∈ t'.found, k % 2 = 1 := by
  induction ps generalizing t with
  | nil => exact absurd hbad (by simp)
  | cons p ps ih =>
    by_cases hskip : Skippable p
    · have hbad' : ∃ q ∈ ps, ¬Skippable q := by
        obtain ⟨q,hq,hnot⟩ := hbad
        rcases List.mem_cons.mp hq with rfl | hq
        · exact absurd hskip hnot
        · exact ⟨q,hq,hnot⟩
      have htail := fun (q) (hq : q ∈ ps) => hterm q (List.mem_cons_of_mem p hq)
      rw [attribList_cons] at h
      cases hcase : caseOf p.1 with
      | none => exact absurd hcase (hterm p List.mem_cons_self)
      | unknown =>
        rw [translate_unknown hcase,translate_unknown (hskip hcase)] at h
        exact ih htail hbad' (by dsimp only; omega) h
      | known u =>
        rw [translate_known hcase] at h
        obtain ⟨t₁,htake,hrest⟩ := Option.bind_eq_some_iff.mp h
        exact ih htail hbad' (by rw [(take_found htake).1]; omega) hrest
    · rcases translate_unskippable hskip h with hk | hmem
      · exact Or.inl (by omega)
      · exact Or.inr ⟨t.k1+1,hmem,by omega⟩

theorem header_write {ps : Pairs} :
    start.write (2*ps.length+7) header = some { start with cfgAttrs := header } :=
  if_pos (show 0+4 ≤ 2*ps.length+7 by omega)

/-- The translation of a list is that of its pairs exactly if no value of an unknown attribute
is one of those that the loop knows, and the counters do not overflow. -/
theorem create_translates {ps : Pairs} (hterm : Terminated ps) :
    (∃ t, create (attribList ps) = some t ∧ Translates ps t) ↔
      InStep ps ∧ 2*ps.length+7 < 2^31 := by
  constructor
  · rintro ⟨t,ht,h⟩
    obtain ⟨max,hmax,ht⟩ := Option.bind_eq_some_iff.mp ht
    obtain ⟨u,hu,ht⟩ := Option.bind_eq_some_iff.mp ht
    refine ⟨?_,((maxAttribCount_eq_some hterm).mp hmax).1⟩
    by_contra hnot
    have hbad : ∃ p ∈ ps, ¬Skippable p := by simpa [InStep] using hnot
    have heven : u.k1 % 2 = 0 := by
      rw [write_eq_some hu]
      rfl
    rcases translate_odd hterm hbad heven ht with hodd | ⟨k,hk,hodd⟩
    · rw [h.k1] at hodd
      omega
    · have := h.found k hk
      omega
  · rintro ⟨hskip,hlt⟩
    have hmax := (maxAttribCount_eq_some hterm).mpr ⟨hlt,rfl⟩
    have hroom : header.length+2*ps.length+1 ≤ 2*ps.length+7 := by
      change 4+2*ps.length+1 ≤ 2*ps.length+7
      omega
    obtain ⟨u,hu,hreads,hle⟩ := translate_pairs (t := { start with cfgAttrs := header }) hterm
      hskip hroom
    refine ⟨{ u with cfgAttrs := u.cfgAttrs ++ [0] },?_,?_,?_,hreads.width,hreads.height,?_⟩
    · rw [create,hmax,Option.bind_some,header_write,Option.bind_some,hu]
      exact if_pos hle
    · exact hreads.k1.trans (Nat.zero_add _)
    · change u.cfgAttrs ++ [0] = _
      rw [hreads.cfgAttrs,List.append_assoc]
    · intro k hk
      exact (hreads.found k hk).elim (fun h => nomatch h) id

def sized : Pairs := [(ppWidth,640),(0x3999,7),(ppDepthSize,24),(ppHeight,480)]

/-- An unknown attribute with a value that means nothing to the loop. -/
theorem create_sized : ∃ t, create (attribList sized) = some t ∧ Translates sized t :=
  (create_translates (by decide)).mpr (by decide)

def misread : Pairs := [(0x3999,ppWidth),(ppWidth,640),(ppHeight,480)]

/-- The value of an unknown attribute is taken for the width, which becomes the next attribute.
Where it is taken for the terminator, what is behind it is lost. As the last one in the list, it
has the loop run past the terminator. -/
theorem create_misread :
    (∃ t, create (attribList misread) = some t ∧ t.width = ppWidth ∧ ¬Translates misread t) ∧
    (∃ t, create (attribList [(0x3999,ppNone),(ppWidth,640)]) = some t ∧ t.width = 0) ∧
    create (attribList [(0x3999,ppDepthSize)]) = none := by
  refine ⟨⟨_,rfl,by decide,fun h => ?_⟩,⟨_,rfl,by decide⟩,by decide⟩
  exact absurd h.width (by decide)

end GraphicsAttributes
end FreshPlayer
