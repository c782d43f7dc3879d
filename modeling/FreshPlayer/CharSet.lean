import Mathlib.Data.Int.Notation
import Mathlib.Algebra.Order.Ring.Int
import Mathlib.Data.UInt

/-! Conversions between UTF-16 and other character sets. The buffer is sized from the length
of the text alone, and the library reports how long the result would be without a limit. -/
namespace FreshPlayer
namespace CharSet

inductive OnError
  | fail | skip | substitute
  deriving DecidableEq, Repr

/-- How a call of the library ends; warnings are successes. -/
inductive Status
  | success | bufferOverflow | failure
  deriving DecidableEq, Repr

/-- An open converter, with the source it is given: the length of the whole result for a source
of that many units, or up to a terminator for -1. No result is a source it fails on. -/
structure Converter where
  needed : ℤ → Option ℕ
  needed_lt : ∀ n k, needed n = some k → k < 2^31

/-- What the libraries do: whether memory is there, the character set is known, and `?` can be
its substitute. -/
structure Libraries where
  allocates : Bool
  opens : Bool
  substitutes : Bool
  converter : Converter

/-- The value returned, the units written, and the status. -/
structure Answer where
  value : ℤ
  written : ℕ
  status : Status
  deriving DecidableEq, Repr

/-- `ucnv_fromUChars` and `ucnv_toUChars`, which do nothing once there is a failure. -/
def ucnvConvert (c : Converter) (destCapacity srcLength : ℤ) : Status → Answer
  | .failure => ⟨0,0,.failure⟩
  | _ =>
    if destCapacity < 0 ∨ srcLength < -1 then ⟨0,0,.failure⟩
    else match c.needed srcLength with
      | none => ⟨0,0,.failure⟩
      | some needed =>
        ⟨needed,min needed destCapacity.toNat,
          if (needed : ℤ) ≤ destCapacity then .success else .bufferOverflow⟩

/-- A buffer of so many bytes with so many units written, and the length reported. -/
structure Result where
  output : Option (ℕ × ℕ)
  outputLength : ℕ
  deriving DecidableEq, Repr

/-- Also where memory runs out, though the converter it tests then is not initialized. -/
def failed : Result := ⟨none,0⟩

/-- As an argument of type `int32_t`. -/
def int32 (n : UInt32) : ℤ := (n.toNat : ℤ).bmod (2^32)

def afterSubstitution (onError : OnError) (lib : Libraries) : Status :=
  if onError = .substitute ∧ lib.substitutes = false then .failure else .success

/-- What the two functions share, from the allocation on. -/
def convert (outputBufferLength : UInt32) (destCapacity srcLength : ℤ) (st : Status)
    (lib : Libraries) : Result :=
  if !lib.allocates || !lib.opens then failed
  else
    let a := ucnvConvert lib.converter destCapacity srcLength st
    match a.status with
    | .failure => failed
    | _ => ⟨some (outputBufferLength.toNat,a.written),(a.value % 2^32).toNat⟩

def utf16BufferLength (utf16Len : UInt32) : UInt32 := (utf16Len+1)*4+1

/-- The status of the substitution is still there when the text is converted. -/
def ppbCharSetUtf16ToCharSet (utf16Len : UInt32) (onError : OnError) (lib : Libraries) : Result :=
  let outputBufferLength := utf16BufferLength utf16Len
  convert outputBufferLength (int32 outputBufferLength) (int32 utf16Len)
    (afterSubstitution onError lib) lib

/-- `sizeof` makes the last product one of 64 bits. -/
def charSetBufferLength (inputLen : UInt32) : UInt32 :=
  (((inputLen+2)*2).toUInt64*2).toUInt32

/-- The status of the substitution is reset before the text is converted. -/
def ppbCharSetCharSetToUtf16 (inputLen : UInt32) (lib : Libraries) : Result :=
  let outputBufferLength := charSetBufferLength inputLen
  convert outputBufferLength (int32 (outputBufferLength/2)) (int32 inputLen) .success lib

/-- The length reported is that of units of `unit` bytes which were allocated and written. -/
def Reported (unit : ℕ) (r : Result) : Prop :=
  r.outputLength ≤ (r.output.getD (0,0)).2 ∧ r.outputLength*unit ≤ (r.output.getD (0,0)).1

variable {outputBufferLength : UInt32} {destCapacity srcLength : ℤ} {st : Status}
  {lib : Libraries} {unit : ℕ}

theorem reported_failed : Reported unit failed := ⟨le_rfl,Nat.zero_mul unit ▸ le_rfl⟩

/-- What the library does unless there was a failure before. -/
theorem ucnvConvert_eq {c : Converter} (h : st ≠ .failure) :
    ucnvConvert c destCapacity srcLength st =
      if destCapacity < 0 ∨ srcLength < -1 then ⟨0,0,.failure⟩
      else match c.needed srcLength with
        | none => ⟨0,0,.failure⟩
        | some needed =>
          ⟨needed,min needed destCapacity.toNat,
            if (needed : ℤ) ≤ destCapacity then .success else .bufferOverflow⟩ := by
  cases st with
  | failure => exact absurd rfl h
  | success => rfl
  | bufferOverflow => rfl

/-- Nothing but a result that is longer than the buffer is reported wrongly. -/
theorem reported_convert (hcapacity : destCapacity*unit ≤ outputBufferLength.toNat) :
    Reported unit (convert outputBufferLength destCapacity srcLength st lib) ↔
      (lib.allocates = true → lib.opens = true → st ≠ .failure → 0 ≤ destCapacity →
        -1 ≤ srcLength → ∀ needed, lib.converter.needed srcLength = some needed →
          (needed : ℤ) ≤ destCapacity) := by
  unfold convert
  split
  · rename_i hlib
    refine iff_of_true reported_failed fun halloc hopen => ?_
    rw [halloc,hopen] at hlib
    cases hlib
  rename_i hlib
  obtain ⟨halloc,hopen⟩ : lib.allocates = true ∧ lib.opens = true := by simpa using hlib
  by_cases hst : st = .failure
  · subst hst
    exact iff_of_true reported_failed fun _ _ hne => absurd rfl hne
  rw [ucnvConvert_eq hst]
  by_cases hargs : destCapacity < 0 ∨ srcLength < -1
  · rw [if_pos hargs]
    exact iff_of_true reported_failed fun _ _ _ hcap hsrc => by omega
  rw [if_neg hargs]
  cases hneeded : lib.converter.needed srcLength with
  | none => exact iff_of_true reported_failed fun _ _ _ _ _ needed h => nomatch h
  | some needed =>
    have hlt := lib.converter.needed_lt srcLength needed hneeded
    have hvalue : ((needed : ℤ) % 2^32).toNat = needed := by omega
    by_cases hfits : (needed : ℤ) ≤ destCapacity
    · simp only [if_pos hfits,hvalue,Reported,Option.getD_some]
      refine iff_of_true ⟨by omega,?_⟩ fun _ _ _ _ _ n hn => Option.some.inj hn ▸ hfits
      have hmul := Int.mul_le_mul_of_nonneg_right hfits (Int.natCast_nonneg unit)
      exact Int.ofNat_le.mp ((Nat.cast_mul needed unit).le.trans (hmul.trans hcapacity))
    · simp only [if_neg hfits,hvalue,Reported,Option.getD_some]
      refine iff_of_false (fun h => by omega) fun h => ?_
      exact hfits (h halloc hopen hst (by omega) (by omega) needed rfl)

theorem utf16BufferLength_toNat (n : UInt32) :
    (utf16BufferLength n).toNat = ((n.toNat+1)*4+1) % 2^32 := by
  simp only [utf16BufferLength,UInt32.toNat_add,UInt32.toNat_mul,UInt32.reduceToNat]
  omega

theorem charSetBufferLength_toNat (n : UInt32) :
    (charSetBufferLength n).toNat = (n.toNat+2)*4 % 2^32 := by
  simp only [charSetBufferLength,UInt64.toNat_toUInt32,UInt64.toNat_mul,UInt32.toNat_toUInt64,
    UInt32.toNat_add,UInt32.toNat_mul,UInt32.reduceToNat,UInt64.reduceToNat]
  omega

theorem int32_le (n : UInt32) : int32 n ≤ n.toNat := by
  unfold int32
  rw [Int.bmod_def]
  omega

theorem int32_of_lt {n : UInt32} (h : n.toNat < 2^31) : int32 n = n.toNat := by
  unfold int32
  rw [Int.bmod_def]
  omega

theorem int32_nonneg {n : UInt32} : 0 ≤ int32 n ↔ n.toNat < 2^31 := by
  have hlt := n.toNat_lt
  unfold int32
  rw [Int.bmod_def]
  omega

theorem afterSubstitution_ne_failure {onError : OnError} :
    afterSubstitution onError lib ≠ .failure ↔
      (onError = .substitute → lib.substitutes = true) := by
  unfold afterSubstitution
  split
  · rename_i h
    exact iff_of_false (fun hne => hne rfl) fun hall => by
      rw [hall h.1] at h
      cases h.2
  · rename_i h
    refine iff_of_true (fun he => nomatch he) fun he => ?_
    by_contra hfalse
    exact h ⟨he,Bool.not_eq_true _ ▸ hfalse⟩

/-- The buffer is as large as the formula says, and the length reported is that of units of
`unit` bytes in it. -/
def Bounded (unit size : ℕ) (outputBufferLength : UInt32) (r : Result) : Prop :=
  outputBufferLength.toNat = size ∧ Reported unit r

theorem utf16ToCharSet_bounded (len : UInt32) (onError : OnError) (lib : Libraries) :
    Bounded 1 ((len.toNat+1)*4+1) (utf16BufferLength len)
        (ppbCharSetUtf16ToCharSet len onError lib) ↔
      (len.toNat+1)*4+1 < 2^32 ∧
      (lib.allocates = true → lib.opens = true → (onError = .substitute → lib.substitutes = true) →
        (len.toNat+1)*4+1 < 2^31 → ∀ needed, lib.converter.needed len.toNat = some needed →
          needed ≤ (len.toNat+1)*4+1) := by
  have hsize := utf16BufferLength_toNat len
  have hexact : (utf16BufferLength len).toNat = (len.toNat+1)*4+1 ↔
      (len.toNat+1)*4+1 < 2^32 := by omega
  rw [Bounded,hexact]
  refine and_congr_right fun hlt => ?_
  have hlen : int32 len = len.toNat := int32_of_lt (by omega)
  have hcap : int32 (utf16BufferLength len)*(1 : ℕ) ≤ (utf16BufferLength len).toNat :=
    (Int.mul_one _).le.trans (int32_le _)
  rw [ppbCharSetUtf16ToCharSet,reported_convert hcap,afterSubstitution_ne_failure,int32_nonneg,
    hlen,hexact.mpr hlt]
  refine forall₄_congr fun _ _ _ hsmall => ?_
  rw [int32_of_lt (hexact.mpr hlt ▸ hsmall),hexact.mpr hlt]
  exact ⟨fun h needed hn => Int.ofNat_le.mp (h (by omega) needed hn),
    fun h _ needed hn => Int.ofNat_le.mpr (h needed hn)⟩

theorem charSetToUtf16_bounded (len : UInt32) (lib : Libraries) :
    Bounded 2 ((len.toNat+2)*4) (charSetBufferLength len) (ppbCharSetCharSetToUtf16 len lib) ↔
      (len.toNat+2)*4 < 2^32 ∧
      (lib.allocates = true → lib.opens = true →
        ∀ needed, lib.converter.needed len.toNat = some needed → needed ≤ (len.toNat+2)*2) := by
  have hsize := charSetBufferLength_toNat len
  have hexact : (charSetBufferLength len).toNat = (len.toNat+2)*4 ↔
      (len.toNat+2)*4 < 2^32 := by omega
  rw [Bounded,hexact]
  refine and_congr_right fun hlt => ?_
  have hlen : int32 len = len.toNat := int32_of_lt (by omega)
  have hhalf : (charSetBufferLength len/2).toNat = (len.toNat+2)*2 := by
    simp only [UInt32.toNat_div,UInt32.reduceToNat,hexact.mpr hlt]
    omega
  have hcapacity : int32 (charSetBufferLength len/2) = ((len.toNat+2)*2 : ℕ) := by
    rw [int32_of_lt (by omega),hhalf]
  have hcap : int32 (charSetBufferLength len/2)*(2 : ℕ) ≤ (charSetBufferLength len).toNat := by
    omega
  rw [ppbCharSetCharSetToUtf16,reported_convert hcap,hlen,hcapacity]
  refine forall₂_congr fun _ _ => ?_
  exact ⟨fun h needed hn => Int.ofNat_le.mp
      (h (fun he => nomatch he) (Int.natCast_nonneg _) (by omega) needed hn),
    fun h _ _ _ needed hn => Int.ofNat_le.mpr (h needed hn)⟩

/-- Both functions keep their bounds exactly if the size of the buffer does not wrap, and it
has room for the whole result unless the conversion is refused. -/
theorem charSet_bounded (len : UInt32) (onError : OnError) (lib : Libraries) :
    (Bounded 1 ((len.toNat+1)*4+1) (utf16BufferLength len)
        (ppbCharSetUtf16ToCharSet len onError lib) ↔
      (len.toNat+1)*4+1 < 2^32 ∧
      (lib.allocates = true → lib.opens = true → (onError = .substitute → lib.substitutes = true) →
        (len.toNat+1)*4+1 < 2^31 → ∀ needed, lib.converter.needed len.toNat = some needed →
          needed ≤ (len.toNat+1)*4+1)) ∧
    (Bounded 2 ((len.toNat+2)*4) (charSetBufferLength len) (ppbCharSetCharSetToUtf16 len lib) ↔
      (len.toNat+2)*4 < 2^32 ∧
      (lib.allocates = true → lib.opens = true →
        ∀ needed, lib.converter.needed len.toNat = some needed → needed ≤ (len.toNat+2)*2)) :=
  ⟨utf16ToCharSet_bounded len onError lib,charSetToUtf16_bounded len lib⟩

/-- Kana and letters in turn, in a character set that escapes at each change: nine bytes for
two units. -/
def escaping : Converter :=
  ⟨fun n => if n.toNat < 2^27 then some (9*(n.toNat/2)+8*(n.toNat % 2)) else none,fun n k h => by
    obtain ⟨hlt,h⟩ := Option.ite_none_right_eq_some.mp h
    cases h
    omega⟩

/-- Forty units need 180 bytes of a buffer of 165, and all of them are reported. A text of
2^30-1 units is given a buffer of one byte. -/
theorem escaping_overread :
    ppbCharSetUtf16ToCharSet 40 .fail ⟨true,true,true,escaping⟩ = ⟨some (165,165),180⟩ ∧
    ¬Bounded 1 165 (utf16BufferLength 40)
      (ppbCharSetUtf16ToCharSet 40 .fail ⟨true,true,true,escaping⟩) ∧
    utf16BufferLength (2^30-1) = 1 := by
  have hresult : ppbCharSetUtf16ToCharSet 40 .fail ⟨true,true,true,escaping⟩ =
      ⟨some (165,165),180⟩ := by decide +kernel
  refine ⟨hresult,fun h => ?_,by decide⟩
  rw [hresult] at h
  exact absurd h.2.1 (by decide)

end CharSet
end FreshPlayer
