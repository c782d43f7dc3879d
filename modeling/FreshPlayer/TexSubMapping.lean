import FreshPlayer.Transition
import Mathlib.Algebra.Order.Ring.Int
import Mathlib.Logic.Function.Basic
import Mathlib.Tactic.Ring

/-! Memory that a plugin fills with a part of a texture. It is allocated when the part is mapped
and read when it is unmapped; other calls come in between, also ones that change how rows are
aligned. Addresses are numbers, 0 is NULL. -/
namespace FreshPlayer
namespace TexSubMapping

abbrev GLenum := UInt32

def glTexture2d : GLenum := 0x0DE1
def glWriteOnlyOes : GLenum := 0x88B9
def glUnpackAlignment : GLenum := 0x0CF5
def glAlpha : GLenum := 0x1906
def glRgb : GLenum := 0x1907
def glRgba : GLenum := 0x1908
def glLuminance : GLenum := 0x1909
def glLuminanceAlpha : GLenum := 0x190A
def glUnsignedByte : GLenum := 0x1401
def glUnsignedShort4444 : GLenum := 0x8033
def glUnsignedShort5551 : GLenum := 0x8034
def glUnsignedShort565 : GLenum := 0x8363

/-- `struct tex_sub_mapping_param_s`. -/
structure TexSubMappingParam where
  level : Int32
  xoffset : Int32
  yoffset : Int32
  width : Int32
  height : Int32
  format : GLenum
  type : GLenum
  access : GLenum
  deriving DecidableEq

/-- The alignments the library takes. -/
abbrev Alignment := { a : ℕ // a = 1 ∨ a = 2 ∨ a = 4 ∨ a = 8 }

/-- A graphics context with its table of mappings, and the sizes of the blocks in use. -/
structure State where
  subMaps : ℕ → Option TexSubMappingParam
  blocks : ℕ → Option ℕ
  unpackAlignment : Alignment

def created : State := ⟨fun _ => none,fun _ => none,⟨4,by decide⟩⟩

/-- `malloc` gives NULL or memory that is not in use. -/
def Fresh (s : State) (memory : ℕ) : Prop := memory = 0 ∨ s.blocks memory = none

instance (s : State) (memory : ℕ) : Decidable (Fresh s memory) := inferInstanceAs (Decidable (_ ∨ _))

def malloc (s : State) (size memory : ℕ) : State :=
  if memory = 0 then s else { s with blocks := Function.update s.blocks memory (some size) }

def free (s : State) (mem : ℕ) : State :=
  { s with blocks := Function.update s.blocks mem none }

def bytesPerPixel (format : GLenum) : Int32 := if glRgb = format then 3 else 4

/-- An `int` where a `size_t` is expected. -/
def sizeT (n : Int32) : ℕ := (n.toInt % 2^64).toNat

def mapSize (m : TexSubMappingParam) : ℕ := sizeT (m.width*m.height*bytesPerPixel m.format)

/-- The address returned, where the context is acquired and `malloc` gives `memory`. -/
def mapTexSubImage2d (acquired : Bool) (target : GLenum) (m : TexSubMappingParam) (memory : ℕ)
    (s : State) : ℕ × State :=
  if target ≠ glTexture2d ∨ m.level ≠ 0 ∨ m.access ≠ glWriteOnlyOes then (0,s)
  else if !acquired then (0,s)
  else
    let s := malloc s (mapSize m) memory
    (memory,{ s with subMaps := Function.update s.subMaps memory (some m) })

/-- What is handed to the library together with `mem`. -/
def unmapTexSubImage2d (acquired : Bool) (mem : ℕ) (s : State) :
    Option TexSubMappingParam × State :=
  if !acquired then (none,s)
  else
    match s.subMaps mem with
    | none => (none,s)
    | some mp => (some mp,free { s with subMaps := Function.update s.subMaps mem none } mem)

/-- Other parameters do not concern what is read, other values are errors. -/
def pixelStorei (pname : GLenum) (param : Int32) (s : State) : State :=
  if h : pname = glUnpackAlignment ∧ (param.toInt.toNat = 1 ∨ param.toInt.toNat = 2 ∨
      param.toInt.toNat = 4 ∨ param.toInt.toNat = 8) then
    { s with unpackAlignment := ⟨param.toInt.toNat,h.2⟩ }
  else s

inductive Call
  | mapTexSubImage2d (acquired : Bool) (target : GLenum) (m : TexSubMappingParam) (memory : ℕ)
  | unmapTexSubImage2d (acquired : Bool) (mem : ℕ)
  | pixelStorei (pname : GLenum) (param : Int32)
  deriving DecidableEq

def step (s : State) : Call → Option State
  | .mapTexSubImage2d acquired target m memory =>
    if Fresh s memory then some (mapTexSubImage2d acquired target m memory s).2 else none
  | .unmapTexSubImage2d acquired mem => some (unmapTexSubImage2d acquired mem s).2
  | .pixelStorei pname param => some (pixelStorei pname param s)

def machine : Machine State Call := ⟨created,step⟩

/-! What the library reads. -/

/-- Bytes of a pixel, for the formats and types there are. -/
def pixelSize (format type : GLenum) : Option ℕ :=
  if type = glUnsignedByte then
    if format = glAlpha ∨ format = glLuminance then some 1
    else if format = glLuminanceAlpha then some 2
    else if format = glRgb then some 3
    else if format = glRgba then some 4
    else none
  else if type = glUnsignedShort565 then if format = glRgb then some 2 else none
  else if type = glUnsignedShort4444 ∨ type = glUnsignedShort5551 then
    if format = glRgba then some 2 else none
  else none

/-- A row with its padding. -/
def rowBytes (alignment : Alignment) (row : ℕ) : ℕ :=
  (row+(alignment.val-1))/alignment.val*alignment.val

/-- The rows of a part of a texture. Negative sizes and wrong formats are errors. -/
def bytesRead (alignment : Alignment) (m : TexSubMappingParam) : ℕ :=
  match pixelSize m.format m.type with
  | none => 0
  | some size => m.height.toInt.toNat*rowBytes alignment (m.width.toInt.toNat*size)

/-- Memory is still mapped with the parameters it was mapped with, and what its block has is
enough for what is read when it is unmapped. -/
def Covers (s : State) (mem : ℕ) (m : TexSubMappingParam) : Prop :=
  (unmapTexSubImage2d true mem s).1 = some m ∧
  ∃ size, s.blocks mem = some size ∧ bytesRead s.unpackAlignment m ≤ size

/-- Nothing is read, or a padded row is no longer than the code takes it to be and the product
does not overflow, or it wraps to a negative one, or to one that happens to be enough. -/
def Fits (alignment : Alignment) (m : TexSubMappingParam) : Prop :=
  ∀ size, pixelSize m.format m.type = some size → 0 < m.width.toInt → 0 < m.height.toInt →
    let w := m.width.toInt.toNat
    let h := m.height.toInt.toNat
    let product := w*h*(bytesPerPixel m.format).toInt.toNat
    (product < 2^31 ∧ rowBytes alignment (w*size) ≤ w*(bytesPerPixel m.format).toInt.toNat) ∨
    2^31 ≤ product % 2^32 ∨
    (product < 3*2^31 ∧ 2^32+h*rowBytes alignment (w*size) ≤ product)

/-! The size of the block. -/

theorem bytesPerPixel_cases (format : GLenum) :
    (format = glRgb ∧ (bytesPerPixel format).toInt = 3) ∨
      (format ≠ glRgb ∧ (bytesPerPixel format).toInt = 4) := by
  unfold bytesPerPixel
  by_cases h : glRgb = format
  · exact Or.inl ⟨h.symm,by rw [if_pos h]; rfl⟩
  · exact Or.inr ⟨fun h' => h h'.symm,by rw [if_neg h]; rfl⟩

/-- No pixel has more bytes than the code takes it to have. -/
theorem pixelSize_bounds {format type : GLenum} {size : ℕ} (h : pixelSize format type = some size) :
    0 < size ∧ size ≤ (bytesPerPixel format).toInt.toNat := by
  have hbpp := bytesPerPixel_cases format
  unfold pixelSize at h
  grind

theorem le_rowBytes (a : Alignment) (row : ℕ) : row ≤ rowBytes a row := by
  obtain ⟨a,rfl | rfl | rfl | rfl⟩ := a <;> simp only [rowBytes] <;> omega

theorem rowBytes_le (a : Alignment) (row : ℕ) : rowBytes a row ≤ row+7 := by
  obtain ⟨a,rfl | rfl | rfl | rfl⟩ := a <;> simp only [rowBytes] <;> omega

theorem rowBytes_zero (a : Alignment) : rowBytes a 0 = 0 := by
  obtain ⟨a,rfl | rfl | rfl | rfl⟩ := a <;> rfl

/-- The product of the sizes as the code computes it. -/
theorem mapSize_eq {m : TexSubMappingParam} {w h bpp : ℕ} (hw : m.width.toInt = w)
    (hh : m.height.toInt = h) (hbpp : (bytesPerPixel m.format).toInt = bpp) :
    mapSize m = if w*h*bpp % 2^32 < 2^31 then w*h*bpp % 2^32 else w*h*bpp % 2^32 + (2^64-2^32) := by
  have hproduct : (m.width*m.height*bytesPerPixel m.format).toInt =
      ((w*h*bpp : ℕ) : ℤ).bmod (2^32) := by
    rw [Int32.toInt_mul,Int32.toInt_mul,Int.bmod_mul_bmod,hw,hh,hbpp]
    push_cast
    rfl
  rw [mapSize,sizeT,hproduct,Int.bmod_def]
  generalize w*h*bpp = n
  split <;> split <;> omega

/-- A block of a negative size would be longer than anything that is read. -/
theorem read_lt_negative {a : Alignment} {w h size : ℕ} (hw : w < 2^31) (hh : h < 2^31)
    (hsize : size ≤ 4) : h*rowBytes a (w*size) ≤ 2^64-2^31 := by
  have hrow : rowBytes a (w*size) ≤ 2^33+3 := by
    have hle := rowBytes_le a (w*size)
    have hmul : w*size ≤ (2^31-1)*4 := Nat.mul_le_mul (by omega) hsize
    omega
  calc h*rowBytes a (w*size) ≤ (2^31-1)*(2^33+3) := Nat.mul_le_mul (by omega) hrow
    _ ≤ 2^64-2^31 := by decide

/-- What is read is a quarter of the product or more. -/
theorem product_le_read {a : Alignment} {w h bpp size : ℕ} (hbpp : bpp ≤ 4) (hsize : 0 < size) :
    w*h*bpp ≤ 4*(h*rowBytes a (w*size)) := by
  have hrow : w ≤ rowBytes a (w*size) :=
    (Nat.le_mul_of_pos_right w hsize).trans (le_rowBytes a _)
  calc w*h*bpp ≤ w*h*4 := Nat.mul_le_mul_left _ hbpp
    _ = 4*(h*w) := by ring
    _ ≤ 4*(h*rowBytes a (w*size)) := Nat.mul_le_mul_left _ (Nat.mul_le_mul_left _ hrow)

/-- In the last case the product has wrapped once only. -/
theorem read_le_iff (a : Alignment) {w h bpp size : ℕ} (hw : w < 2^31) (hh : h < 2^31)
    (hpos : 0 < h) (hsize : 0 < size) (hle : size ≤ bpp) (hbpp : bpp ≤ 4) :
    (h*rowBytes a (w*size) ≤
      if w*h*bpp % 2^32 < 2^31 then w*h*bpp % 2^32 else w*h*bpp % 2^32 + (2^64-2^32)) ↔
    (w*h*bpp < 2^31 ∧ rowBytes a (w*size) ≤ w*bpp) ∨ 2^31 ≤ w*h*bpp % 2^32 ∨
      (w*h*bpp < 3*2^31 ∧ 2^32+h*rowBytes a (w*size) ≤ w*h*bpp) := by
  have hnegative := read_lt_negative (a := a) hw hh (hle.trans hbpp)
  have hquarter := product_le_read (a := a) (w := w) (h := h) hbpp hsize
  have hrow : h*rowBytes a (w*size) ≤ w*h*bpp ↔ rowBytes a (w*size) ≤ w*bpp := by
    rw [Nat.mul_comm w h,Nat.mul_assoc]
    exact Nat.mul_le_mul_left_iff hpos
  rw [← hrow]
  generalize w*h*bpp = product at *
  generalize h*rowBytes a (w*size) = read at *
  by_cases hs : product % 2^32 < 2^31
  · rw [if_pos hs]
    omega
  · rw [if_neg hs]
    omega

theorem read_le_mapSize (a : Alignment) (m : TexSubMappingParam) :
    bytesRead a m ≤ mapSize m ↔ Fits a m := by
  have hwlt : m.width.toInt < 2^31 := m.width.toInt_lt
  have hhlt : m.height.toInt < 2^31 := m.height.toInt_lt
  unfold bytesRead Fits
  cases hpixel : pixelSize m.format m.type with
  | none => exact iff_of_true (Nat.zero_le _) (fun _ h => nomatch h)
  | some size =>
    by_cases hpos : 0 < m.width.toInt ∧ 0 < m.height.toInt
    · obtain ⟨hsize,hle⟩ := pixelSize_bounds hpixel
      have hbpp := bytesPerPixel_cases m.format
      have hread := read_le_iff a (show m.width.toInt.toNat < 2^31 by omega)
        (show m.height.toInt.toNat < 2^31 by omega) (by omega) hsize hle (by omega)
      rw [mapSize_eq (Int.toNat_of_nonneg hpos.1.le).symm (Int.toNat_of_nonneg hpos.2.le).symm
        (show (bytesPerPixel m.format).toInt = (bytesPerPixel m.format).toInt.toNat by omega)]
      refine hread.trans ⟨fun h size' he _ _ => ?_,fun h => h size rfl hpos.1 hpos.2⟩
      cases he
      exact h
    · have hzero : m.height.toInt.toNat*rowBytes a (m.width.toInt.toNat*size) = 0 := by
        rcases not_and_or.mp hpos with hw | hh
        · rw [Int.toNat_of_nonpos (not_lt.mp hw),Nat.zero_mul,rowBytes_zero,Nat.mul_zero]
        · rw [Int.toNat_of_nonpos (not_lt.mp hh),Nat.zero_mul]
      exact iff_of_true (hzero.le.trans (Nat.zero_le _)) fun _ _ hw hh => absurd ⟨hw,hh⟩ hpos

/-! What a mapping keeps until it is unmapped. -/

/-- A mapping and its block. -/
def Mapped (s : State) (mem : ℕ) (m : TexSubMappingParam) : Prop :=
  s.subMaps mem = some m ∧ s.blocks mem = some (mapSize m)

variable {s t u : State} {mem : ℕ} {m : TexSubMappingParam}

/-- Memory that is not NULL was mapped with the arguments of the call. -/
theorem mapped_of_mapTexSubImage2d {acquired : Bool} {target : GLenum}
    (h : (mapTexSubImage2d acquired target m mem s).1 ≠ 0) :
    Mapped (mapTexSubImage2d acquired target m mem s).2 mem m := by
  unfold mapTexSubImage2d at h ⊢
  split
  next hbad => exact absurd (by rw [if_pos hbad]) h
  next hgood =>
    rw [if_neg hgood] at h
    split
    next hacquired => exact absurd (by rw [if_pos hacquired]) h
    next hacquired =>
      rw [if_neg hacquired] at h
      have hmem : mem ≠ 0 := h
      refine ⟨Function.update_self ..,?_⟩
      rw [malloc,if_neg hmem]
      exact Function.update_self ..

theorem Mapped.malloc {size memory : ℕ} (h : Mapped s mem m) (hne : mem ≠ memory) :
    Mapped (malloc s size memory) mem m := by
  unfold TexSubMapping.malloc
  split
  · exact h
  · exact ⟨h.1,(Function.update_of_ne hne ..).trans h.2⟩

/-- Memory in use is not mapped again. -/
theorem Mapped.mapTexSubImage2d {acquired : Bool} {target : GLenum} {m' : TexSubMappingParam}
    {memory : ℕ} (h : Mapped s mem m) (hmem : mem ≠ 0) (hfresh : Fresh s memory) :
    Mapped (mapTexSubImage2d acquired target m' memory s).2 mem m := by
  have hne : mem ≠ memory := by
    rintro rfl
    rcases hfresh with h0 | hnone
    · exact hmem h0
    · exact absurd (h.2.symm.trans hnone) (by simp)
  have hmalloc : Mapped (TexSubMapping.malloc s (mapSize m') memory) mem m := h.malloc hne
  unfold TexSubMapping.mapTexSubImage2d
  split
  · exact h
  · split
    · exact h
    · exact ⟨(Function.update_of_ne hne ..).trans hmalloc.1,hmalloc.2⟩

theorem Mapped.unmapTexSubImage2d {acquired : Bool} {other : ℕ} (h : Mapped s mem m)
    (hne : acquired = true → mem ≠ other) :
    Mapped (unmapTexSubImage2d acquired other s).2 mem m := by
  unfold TexSubMapping.unmapTexSubImage2d
  split
  · exact h
  next hacquired =>
    have hne := hne (by simpa using hacquired)
    split
    · exact h
    · exact ⟨(Function.update_of_ne hne ..).trans h.1,(Function.update_of_ne hne ..).trans h.2⟩

theorem Mapped.pixelStorei {pname : GLenum} {param : Int32} (h : Mapped s mem m) :
    Mapped (pixelStorei pname param s) mem m := by
  unfold TexSubMapping.pixelStorei
  split <;> exact h

/-- Any call but the one that unmaps it. -/
theorem Mapped.step {l : Call} (h : Mapped s mem m) (hmem : mem ≠ 0)
    (hl : l ≠ .unmapTexSubImage2d true mem) (ht : step s l = some t) : Mapped t mem m := by
  cases l with
  | mapTexSubImage2d acquired target m' memory =>
    obtain ⟨hfresh,ht⟩ := Option.ite_none_right_eq_some.mp ht
    cases Option.some.inj ht
    exact h.mapTexSubImage2d hmem hfresh
  | unmapTexSubImage2d acquired other =>
    cases Option.some.inj ht
    exact h.unmapTexSubImage2d fun hacquired he => hl (by rw [hacquired,he])
  | pixelStorei pname param =>
    cases Option.some.inj ht
    exact h.pixelStorei

theorem Mapped.exec {ls : List Call} (h : Mapped s mem m) (hmem : mem ≠ 0)
    (hls : Call.unmapTexSubImage2d true mem ∉ ls) (hr : machine.exec s ls = some u) :
    Mapped u mem m := by
  induction ls generalizing s with
  | nil => exact (Option.some.inj hr) ▸ h
  | cons l ls ih =>
    obtain ⟨t,ht,hu⟩ := Option.bind_eq_some_iff.mp hr
    exact ih (h.step hmem (fun he => hls (he ▸ List.mem_cons_self)) ht)
      (fun hm => hls (List.mem_cons_of_mem l hm)) hu

theorem covers_iff (h : Mapped s mem m) :
    Covers s mem m ↔ bytesRead s.unpackAlignment m ≤ mapSize m := by
  have hread : (TexSubMapping.unmapTexSubImage2d true mem s).1 = some m := by
    rw [TexSubMapping.unmapTexSubImage2d,if_neg (by decide),h.1]
  refine ⟨fun ⟨_,size,hsize,hle⟩ => ?_,fun hle => ⟨hread,_,h.2,hle⟩⟩
  cases h.2.symm.trans hsize
  exact hle

/-- What a call maps is enough for what is read when it is unmapped, whatever comes in between,
exactly if it fits. -/
theorem mapped_covers {s t : State} {acquired : Bool} {target : GLenum} {m : TexSubMappingParam}
    {memory : ℕ} {ls : List Call}
    (hret : (mapTexSubImage2d acquired target m memory s).1 ≠ 0)
    (hls : Call.unmapTexSubImage2d true memory ∉ ls)
    (hr : machine.exec s (.mapTexSubImage2d acquired target m memory::ls) = some t) :
    Covers t memory m ↔ Fits t.unpackAlignment m := by
  have hmapped := mapped_of_mapTexSubImage2d hret
  obtain ⟨u,hu,ht⟩ := Option.bind_eq_some_iff.mp hr
  obtain ⟨_,hu⟩ := Option.ite_none_right_eq_some.mp hu
  cases Option.some.inj hu
  have hmem : memory ≠ 0 := by
    rintro rfl
    refine hret ?_
    unfold mapTexSubImage2d
    split
    · rfl
    · split <;> rfl
  exact (covers_iff (hmapped.exec hmem hls ht)).trans (read_le_mapSize ..)

def whole (width height : Int32) (format : GLenum) : TexSubMappingParam :=
  ⟨0,0,0,width,height,format,glUnsignedByte,glWriteOnlyOes⟩

theorem pixelSize_rgba {size : ℕ} (h : pixelSize glRgba glUnsignedByte = some size) : size = 4 :=
  (Option.some.inj h).symm

/-- Two rows of two pixels, also where rows are aligned to eight bytes. -/
theorem mapped_covers_square :
    Covers (pixelStorei glUnpackAlignment 8
      (mapTexSubImage2d true glTexture2d (whole 2 2 glRgba) 16 created).2) 16 (whole 2 2 glRgba) := by
  have hr : machine.exec created [.mapTexSubImage2d true glTexture2d (whole 2 2 glRgba) 16,
      .pixelStorei glUnpackAlignment 8] = some (pixelStorei glUnpackAlignment 8
        (mapTexSubImage2d true glTexture2d (whole 2 2 glRgba) 16 created).2) := rfl
  refine (mapped_covers (by decide) (by decide) hr).mpr fun size hsize _ _ => Or.inl ?_
  rw [pixelSize_rgba hsize]
  decide

/-- Two rows of one pixel of three bytes are read with their padding, and a product that wraps
leaves a small block for a large image. -/
theorem mapped_overread :
    (mapTexSubImage2d true glTexture2d (whole 1 2 glRgb) 16 created).1 = 16 ∧
    ¬Covers (mapTexSubImage2d true glTexture2d (whole 1 2 glRgb) 16 created).2 16
      (whole 1 2 glRgb) ∧
    (mapTexSubImage2d true glTexture2d (whole 65536 16385 glRgba) 16 created).1 = 16 ∧
    ¬Covers (mapTexSubImage2d true glTexture2d (whole 65536 16385 glRgba) 16 created).2 16
      (whole 65536 16385 glRgba) := by
  refine ⟨rfl,fun h => ?_,rfl,fun h => ?_⟩
  · have hle := (covers_iff (mapped_of_mapTexSubImage2d (by decide))).mp h
    exact absurd hle (by decide)
  · have hle := (covers_iff (mapped_of_mapTexSubImage2d (by decide))).mp h
    exact absurd hle (by decide)

end TexSubMapping
end FreshPlayer
