import FreshPlayer.CText
import FreshPlayer.Transition
import Mathlib.Data.List.Forall2
import Mathlib.Data.List.Infix
import Mathlib.Logic.Function.Basic

/-! Sources of shaders, which are kept beside those that the library gets, in a build without
native GLES2. A source is put together from parts and read back into a buffer of the plugin. -/
namespace FreshPlayer
namespace ShaderSource

open CText

abbrev GLuint := UInt32

def glShaderSourceLength : UInt32 := 0x8B88

/-- Up to the terminator. -/
def cString (s : Text) : Text := s.takeWhile (· ≠ 0)

def appendLen (res s : Text) (len : Int32) : Text :=
  if len.toInt < 0 then res ++ cString s else res ++ s.take len.toInt.toNat

def append (res s : Text) : Text := res ++ cString s

def combineShaderSourceParts (str : List Text) : Option (List Int32) → Text
  | some length => (str.zip length).foldl (fun res part => appendLen res part.1 part.2) []
  | none => str.foldl append []

/-- Parts without a terminator in them, and lengths that stay inside of them. -/
structure Parts where
  str : List Text
  length : Option (List Int32)
  no_nul : ∀ s ∈ str, 0 ∉ s
  inside : ∀ l ∈ length, List.Forall₂ (fun s n => n.toInt.toNat ≤ s.length) str l

/-- Sources by the number of their shader. -/
abbrev State := GLuint → Option Text

/-- Nothing is done without the context. -/
inductive Call
  | shaderSource (acquired : Bool) (shader : GLuint) (parts : Parts)
  | deleteShader (acquired : Bool) (shader : GLuint)

def Call.shader : Call → GLuint
  | .shaderSource _ shader _ => shader
  | .deleteShader _ shader => shader

def step (s : State) : Call → Option State
  | .shaderSource acquired shader parts => some <|
    if acquired then
      Function.update s shader (some (combineShaderSourceParts parts.str parts.length))
    else s
  | .deleteShader acquired shader => some <|
    if acquired then Function.update s shader none else s

def machine : Machine State Call := ⟨fun _ => none,step⟩

/-- `strlen` as an `int`. -/
def strlen (s : Text) : Int32 := Int32.ofNat (cString s).length

/-- What is asked of the library instead is `none`. -/
def getShaderiv (s : State) (shader : GLuint) (pname : UInt32) : Option Int32 :=
  if pname = glShaderSourceLength then
    match s shader with
    | some source => some (strlen source)
    | none => some 0
  else none

/-- Neither of the two memories may be left. -/
def memcpy (dest src : Text) (len : Int32) : Option Text :=
  let size := (len.toInt % 2^64).toNat
  if size ≤ dest.length ∧ size ≤ src.length then some (src.take size ++ dest.drop size) else none

def terminate (dest : Text) (len : Int32) : Option Text :=
  if 0 ≤ len.toInt ∧ len.toInt < dest.length then some (dest.set len.toInt.toNat 0) else none

/-- How many bytes are copied. -/
def copied (source : Text) (bufsize : Int32) : Int32 :=
  if strlen source+1 > bufsize then bufsize-1 else strlen source

/-- The buffer afterwards, and what is stored as the length. Beyond the buffer nothing is
defined. -/
def getShaderSource (s : State) (shader : GLuint) (bufsize : Int32) (source : Text) :
    Option (Text × Int32) :=
  match s shader with
  | none => some (source,0)
  | some body =>
    let len := copied body bufsize
    (memcpy source (cString body ++ [0]) len).bind fun source =>
      (terminate source len).map fun source => (source,len)

/-- What the plugin has given. -/
def Parts.text (c : Parts) : Text :=
  match c.length with
  | none => c.str.flatten
  | some length => (List.zipWith (fun s n => if n.toInt < 0 then s else s.take n.toInt.toNat)
      c.str length).flatten

/-- A buffer that the text, or as much of it as has room there, can be read from. -/
structure ReadsBack (s : State) (shader : GLuint) (text : Text) (bufsize : Int32)
    (buffer : Text) (length : Int32) : Prop where
  nonneg : 0 ≤ length.toInt
  terminated : 0 < bufsize.toInt → ∃ front, front <+: text ∧ front ++ [0] <+: buffer ∧
    length.toInt = front.length
  whole : getShaderiv s shader glShaderSourceLength = some bufsize → text ++ [0] <+: buffer

/-! Putting the parts together. -/

theorem cString_eq {s : Text} (h : 0 ∉ s) : cString s = s :=
  List.takeWhile_eq_self_iff.mpr fun _ hb => decide_eq_true fun h0 => h (h0 ▸ hb)

theorem foldl_append {str : List Text} (h : ∀ s ∈ str, 0 ∉ s) (res : Text) :
    str.foldl append res = res ++ str.flatten := by
  induction str generalizing res with
  | nil => simp
  | cons s str ih =>
    rw [List.foldl_cons,ih fun t ht => h t (List.mem_cons_of_mem s ht),append,
      cString_eq (h s List.mem_cons_self),List.flatten_cons,List.append_assoc]

theorem foldl_appendLen {str : List Text} {length : List Int32} (h : ∀ s ∈ str, 0 ∉ s)
    (res : Text) :
    (str.zip length).foldl (fun res part => appendLen res part.1 part.2) res =
      res ++ (List.zipWith (fun s n => if n.toInt < 0 then s else s.take n.toInt.toNat)
        str length).flatten := by
  induction str generalizing length res with
  | nil => simp
  | cons s str ih =>
    cases length with
    | nil => simp
    | cons n length =>
      rw [List.zip_cons_cons,List.foldl_cons,ih fun t ht => h t (List.mem_cons_of_mem s ht),
        List.zipWith_cons_cons,List.flatten_cons,← List.append_assoc]
      congr 1
      simp only [appendLen,cString_eq (h s List.mem_cons_self)]
      split <;> rfl

theorem combine_eq (c : Parts) : combineShaderSourceParts c.str c.length = c.text := by
  unfold combineShaderSourceParts Parts.text
  cases c.length with
  | none => exact (foldl_append c.no_nul []).trans (List.nil_append _)
  | some length => exact (foldl_appendLen c.no_nul []).trans (List.nil_append _)

theorem nul_notMem_text (c : Parts) : 0 ∉ c.text := by
  unfold Parts.text
  cases c.length with
  | none =>
    intro h
    obtain ⟨s,hs,h0⟩ := List.mem_flatten.mp h
    exact c.no_nul s hs h0
  | some length =>
    intro h
    obtain ⟨s,hs,h0⟩ := List.mem_flatten.mp h
    obtain ⟨k,hk,rfl⟩ := List.getElem_of_mem hs
    rw [List.getElem_zipWith] at h0
    split at h0
    · exact c.no_nul _ (List.getElem_mem _) h0
    · exact c.no_nul _ (List.getElem_mem _) (List.mem_of_mem_take h0)

/-! Reading it back. -/

variable {s t : State} {shader : GLuint} {text buffer : Text} {bufsize : Int32}

theorem strlen_toInt (h : 0 ∉ text) : (strlen text).toInt = (text.length : ℤ).bmod (2^32) := by
  have hof : (Int32.ofNat text.length).toInt = (text.length : ℤ).bmod (2^32) := Int32.toInt_ofNat'
  rw [strlen,cString_eq h,hof]

theorem copied_toInt (hbuf : bufsize.toInt = buffer.length) (h0 : 0 ≤ (strlen text).toInt)
    (hlt : (strlen text).toInt < 2^31-1) :
    (copied text bufsize).toInt = min (strlen text).toInt (buffer.length-1) := by
  have hsucc : (strlen text+1).toInt = (strlen text).toInt+1 := by
    rw [Int32.toInt_add,Int.bmod_eq_of_le (by simp; omega) (by simp; omega)]
    rfl
  have hpred : (bufsize-1).toInt = buffer.length-1 := by
    have hle := bufsize.toInt_lt
    rw [Int32.toInt_sub,Int.bmod_eq_of_le (by simp; omega) (by simp; omega),hbuf]
    rfl
  have hroom : bufsize < strlen text+1 ↔ (buffer.length : ℤ) < (strlen text).toInt+1 := by
    rw [Int32.lt_iff_toInt_lt,hsucc,hbuf]
  unfold copied
  split
  next h =>
    have := hroom.mp h
    rw [hpred]
    omega
  next h =>
    have := mt hroom.mpr h
    omega

/-- Lengths that are not those of an `int` with its successor are copied as they are. -/
theorem copied_of_not (hbuf : bufsize.toInt = buffer.length)
    (h : ¬(0 ≤ (strlen text).toInt ∧ (strlen text).toInt < 2^31-1)) :
    copied text bufsize = strlen text := by
  have hlt := (strlen text).toInt_lt
  have hle := (strlen text).le_toInt
  have hsucc : (strlen text+1).toInt ≤ 0 := by
    rw [Int32.toInt_add]
    change ((strlen text).toInt+1).bmod (2^32) ≤ 0
    rw [Int.bmod_def]
    omega
  refine if_neg fun hgt => ?_
  have := Int32.lt_iff_toInt_lt.mp hgt
  omega

theorem memcpy_eq_some {dest src copy : Text} {len : Int32} (h : memcpy dest src len = some copy) :
    copy.length = dest.length := by
  obtain ⟨hfit,hcopy⟩ := Option.ite_none_right_eq_some.mp h
  rw [← Option.some.inj hcopy,List.length_append,List.length_take,List.length_drop]
  omega

theorem memcpy_of_le {dest src : Text} {n : Int32} {len : ℕ} (hlen : n.toInt = len)
    (hdest : len ≤ dest.length) (hsrc : len ≤ src.length) :
    memcpy dest src n = some (src.take len ++ dest.drop len) := by
  have hsize : (n.toInt % 2^64).toNat = len := by
    have := n.toInt_lt
    omega
  rw [memcpy,hsize]
  exact if_pos ⟨hdest,hsrc⟩

theorem terminate_append {copy rest : Text} {b : UInt8} {len : Int32}
    (h : len.toInt = copy.length) : terminate (copy ++ b::rest) len = some (copy ++ 0::rest) := by
  have hlt : 0 ≤ len.toInt ∧ len.toInt < (copy ++ b::rest).length := by
    rw [h,List.length_append,List.length_cons]
    omega
  rw [terminate,if_pos hlt,h,Int.toNat_natCast,List.set_append_right copy.length 0 le_rfl,
    Nat.sub_self,List.set_cons_zero]

/-- A terminator that does not get a place in the buffer. -/
theorem getShaderSource_eq_none (hs : s shader = some text)
    (h : ¬(0 ≤ (copied text bufsize).toInt ∧ (copied text bufsize).toInt < buffer.length)) :
    getShaderSource s shader bufsize buffer = none := by
  unfold getShaderSource
  rw [hs]
  refine Option.bind_eq_none_iff.mpr fun source hsource => ?_
  rw [terminate,memcpy_eq_some hsource,if_neg h]
  rfl

theorem getShaderSource_eq_some (buffer : Text) {len : ℕ} (h0 : 0 ∉ text) (hs : s shader = some text)
    (hlen : (copied text bufsize).toInt = len) (hlt : len < buffer.length)
    (hle : len ≤ text.length) :
    getShaderSource s shader bufsize buffer =
      some (text.take len ++ 0::buffer.drop (len+1),copied text bufsize) := by
  have hcopy : memcpy buffer (cString text ++ [0]) (copied text bufsize) =
      some (text.take len ++ buffer.drop len) := by
    rw [cString_eq h0,memcpy_of_le hlen hlt.le (by rw [List.length_append]; omega),
      List.take_append_of_le_length hle]
  have hterminate : terminate (text.take len ++ buffer[len]::buffer.drop (len+1))
      (copied text bufsize) = some (text.take len ++ 0::buffer.drop (len+1)) :=
    terminate_append (by rw [hlen,List.length_take,Nat.min_eq_left hle])
  unfold getShaderSource
  rw [hs]
  dsimp only
  rw [hcopy,Option.bind_some,List.drop_eq_getElem_cons hlt,hterminate]
  rfl

theorem getShaderiv_eq (hs : s shader = some text) :
    getShaderiv s shader glShaderSourceLength = some (strlen text) := by
  rw [getShaderiv,if_pos rfl,hs]

/-- The length is one whose successor is an `int`. -/
theorem strlen_fits (h0 : 0 ∉ text) :
    (0 ≤ (strlen text).toInt ∧ (strlen text).toInt < 2^31-1) ↔ text.length % 2^32 < 2^31-1 := by
  rw [strlen_toInt h0,Int.bmod_def]
  omega

theorem strlen_of_fits (h0 : 0 ∉ text) (h : text.length % 2^32 < 2^31-1) :
    (strlen text).toInt = (text.length % 2^32 : ℕ) := by
  rw [strlen_toInt h0,Int.bmod_def]
  omega

theorem getShaderiv_iff (h0 : 0 ∉ text) (hs : s shader = some text)
    (hbuf : bufsize.toInt = buffer.length) (h : text.length % 2^32 < 2^31-1) :
    getShaderiv s shader glShaderSourceLength = some bufsize ↔
      text.length % 2^32 = buffer.length := by
  rw [getShaderiv_eq hs,Option.some_inj,← Int32.toInt_inj,hbuf,strlen_of_fits h0 h,Int.ofNat_inj]

/-- What is read back has a place for the terminator, and more than the length reported. -/
theorem fits_of_readsBack (h0 : 0 ∉ text) (hs : s shader = some text)
    (hbuf : bufsize.toInt = buffer.length) {buffer' : Text} {length : Int32}
    (he : getShaderSource s shader bufsize buffer = some (buffer',length))
    (hkeep : buffer'.length = buffer.length) (hread : ReadsBack s shader text bufsize buffer' length) :
    0 < buffer.length ∧ text.length % 2^32 < 2^31-1 ∧ text.length % 2^32 ≠ buffer.length := by
  have hplace : 0 ≤ (copied text bufsize).toInt ∧ (copied text bufsize).toInt < buffer.length := by
    by_contra hplace
    rw [getShaderSource_eq_none hs hplace] at he
    cases he
  have hshort : text.length % 2^32 < 2^31-1 := by
    by_contra hlong
    have hlong' := mt (strlen_fits h0).mp hlong
    rw [copied_of_not hbuf hlong'] at hplace
    have := bufsize.toInt_lt
    omega
  refine ⟨by omega,hshort,fun heq => ?_⟩
  have hwhole := hread.whole ((getShaderiv_iff h0 hs hbuf hshort).mpr heq)
  have hlen := hwhole.length_le
  rw [List.length_append,List.length_singleton,hkeep] at hlen
  have := Nat.mod_le text.length (2^32)
  omega

theorem readsBack_of_fits (h0 : 0 ∉ text) (hs : s shader = some text)
    (hbuf : bufsize.toInt = buffer.length) (hpos : 0 < buffer.length)
    (hshort : text.length % 2^32 < 2^31-1) (hne : text.length % 2^32 ≠ buffer.length) :
    ∃ buffer' length, getShaderSource s shader bufsize buffer = some (buffer',length) ∧
      buffer'.length = buffer.length ∧ ReadsBack s shader text bufsize buffer' length := by
  obtain ⟨hnonneg,hlt⟩ := (strlen_fits h0).mpr hshort
  have hcopied := copied_toInt hbuf hnonneg hlt
  have hle := Nat.mod_le text.length (2^32)
  have hlen : (copied text bufsize).toInt =
      (min (text.length % 2^32) (buffer.length-1) : ℕ) := by
    rw [hcopied,strlen_of_fits h0 hshort]
    omega
  have hget := getShaderSource_eq_some buffer h0 hs hlen (by omega) (by omega)
  have hfront := List.take_prefix (min (text.length % 2^32) (buffer.length-1)) text
  refine ⟨_,_,hget,?_,?_,fun _ => ⟨_,hfront,?_,?_⟩,fun hiv => ?_⟩
  · rw [List.length_append,List.length_cons,List.length_take,List.length_drop]
    omega
  · omega
  · exact ⟨_,List.append_assoc ..⟩
  · rw [hlen,List.length_take]
    omega
  · -- the length reported leaves no room for the terminator
    exact absurd ((getShaderiv_iff h0 hs hbuf hshort).mp hiv) hne

theorem step_of_ne {l : Call} (hl : l.shader ≠ shader) (ht : step s l = some t) :
    t shader = s shader := by
  cases l with
  | shaderSource acquired other parts =>
    cases Option.some.inj ht
    split
    · exact Function.update_of_ne (Ne.symm hl) ..
    · rfl
  | deleteShader acquired other =>
    cases Option.some.inj ht
    split
    · exact Function.update_of_ne (Ne.symm hl) ..
    · rfl

theorem exec_of_ne {ls : List Call} (hls : ∀ l ∈ ls, l.shader ≠ shader)
    (hr : machine.exec s ls = some t) : t shader = s shader := by
  induction ls generalizing s with
  | nil => rw [Option.some.inj hr]
  | cons l ls ih =>
    obtain ⟨u,hu,ht⟩ := Option.bind_eq_some_iff.mp hr
    rw [ih (fun k hk => hls k (List.mem_cons_of_mem l hk)) ht,
      step_of_ne (hls l List.mem_cons_self) hu]

/-- A source is read back, whatever is done to other shaders in between, exactly if there is a
buffer, which is not just as long as the source without its terminator, and that length is one
whose successor is an `int`. -/
theorem source_readsBack {s t : State} {shader : GLuint} {c : Parts} {ls : List Call}
    (hls : ∀ l ∈ ls, l.shader ≠ shader)
    (hr : machine.exec s (.shaderSource true shader c::ls) = some t) {bufsize : Int32}
    {buffer : Text} (hbuf : bufsize.toInt = buffer.length) :
    (∃ buffer' length, getShaderSource t shader bufsize buffer = some (buffer',length) ∧
      buffer'.length = buffer.length ∧ ReadsBack t shader c.text bufsize buffer' length) ↔
    0 < buffer.length ∧ c.text.length % 2^32 < 2^31-1 ∧
      c.text.length % 2^32 ≠ buffer.length := by
  obtain ⟨u,hu,ht⟩ := Option.bind_eq_some_iff.mp hr
  have hs : t shader = some c.text := by
    rw [exec_of_ne hls ht,← Option.some.inj hu,← combine_eq c]
    exact Function.update_self ..
  have h0 := nul_notMem_text c
  constructor
  · rintro ⟨buffer',length,he,hkeep,hread⟩
    exact fits_of_readsBack h0 hs hbuf he hkeep hread
  · rintro ⟨hpos,hshort,hne⟩
    exact readsBack_of_fits h0 hs hbuf hpos hshort hne

def parts : Parts where
  str := [bytes "ab",bytes "cd"]
  length := some [-1,1]
  no_nul := by decide
  inside := by
    rintro l ⟨⟩
    exact .cons (by decide) (.cons (by decide) .nil)

/-- A buffer with more room than the source takes. -/
theorem parts_readBack : ∃ t buffer' length,
    getShaderSource t 7 5 [1,1,1,1,1] = some (buffer',length) ∧
      buffer'.length = 5 ∧ ReadsBack t 7 parts.text 5 buffer' length := by
  have hr : machine.exec (fun _ => none) [.shaderSource true 7 parts] =
      some (Function.update (fun _ => none) 7 (some (bytes "abc"))) := rfl
  exact ⟨_,(source_readsBack (List.forall_mem_nil _) hr rfl).mpr (by decide)⟩

/-- With a buffer as long as the source is reported to be, its last character is lost, and with
none the terminator is stored in front of it. -/
theorem parts_truncated :
    ∃ t, machine.exec (fun _ => none) [.shaderSource true 7 parts] = some t ∧
      getShaderiv t 7 glShaderSourceLength = some 3 ∧
      getShaderSource t 7 3 [1,1,1] = some (bytes "ab" ++ [0],2) ∧
      ¬ReadsBack t 7 parts.text 3 (bytes "ab" ++ [0]) 2 ∧
      copied parts.text 0 = -1 ∧ getShaderSource t 7 0 [] = none := by
  refine ⟨_,rfl,by decide,by decide,fun h => ?_,by decide,by decide⟩
  have hwhole : parts.text ++ [0] <+: bytes "ab" ++ [0] := h.whole (by decide)
  exact absurd hwhole (by decide)

end ShaderSource
end FreshPlayer
