import FreshPlayer.Var
import Mathlib.Data.UInt

/-! Input events of input methods and the offsets of their segments. A block of memory is the
words in it, a pointer the block or `none` for `NULL`, and what touches memory elsewhere is
undefined. -/
namespace FreshPlayer
namespace ImeEvent

open Var

inductive EventClass
  | mouse | wheel | keyboard | ime
  deriving DecidableEq, Repr

inductive EventType
  | imeCompositionStart | imeCompositionUpdate | imeCompositionEnd | imeText | other
  deriving DecidableEq, Repr

def EventType.isIme (type : EventType) : Bool := type ≠ .other

structure InputEvent where
  eventClass : EventClass
  type : EventType
  text : PPVar
  segmentNumber : UInt32
  segmentOffsets : Option (List UInt32)
  targetSegment : Int32
  selectionStart : UInt32
  selectionEnd : UInt32
  deriving DecidableEq, Repr

/-- A copy of that many words, if they are there. -/
def memcpy (src : Option (List UInt32)) (words : ℕ) : Option (List UInt32) :=
  if words = 0 then some []
  else src.bind fun block => if words ≤ block.length then some (block.take words) else none

/-- One word of a block. -/
def read (block : Option (List UInt32)) (index : UInt32) : Option UInt32 :=
  block.bind (·[index.toNat]?)

/-- The event made, `some none` where it is refused. The number of words is an `uint32_t`. -/
def ppbImeInputEventCreate (instanceKnown : Bool) (type : EventType) (text : PPVar)
    (segmentNumber : UInt32) (segmentOffsets : Option (List UInt32)) (targetSegment : Int32)
    (selectionStart selectionEnd : UInt32) : Option (Option InputEvent) :=
  if !instanceKnown then some none
  else if !type.isIme then some none
  else
    let event : InputEvent :=
      ⟨.ime,type,text,segmentNumber,none,targetSegment,selectionStart,selectionEnd⟩
    if 0 < segmentNumber then
      (memcpy segmentOffsets (segmentNumber+1).toNat).map fun block =>
        some { event with segmentOffsets := some block }
    else some (some event)

/-- What the resource of an event is when it is acquired, `none` for a bad one. -/
def ppbImeInputEventGetSegmentOffset (event : Option InputEvent) (index : UInt32) :
    Option UInt32 :=
  match event with
  | none => some 0
  | some ie =>
    if ie.eventClass ≠ .ime then some 0
    else if index ≤ ie.segmentNumber then read ie.segmentOffsets index else some 0

/-! The handlers of the input method. -/

def imPreeditStart (instanceKnown : Bool) : Option (Option InputEvent) :=
  ppbImeInputEventCreate instanceKnown .imeCompositionStart ppMakeUndefined 0 none 0 0 0

/-- With the length of the preedit string and the position of the cursor in it, in bytes. -/
def imPreeditChanged (instanceKnown : Bool) (text : PPVar) (preeditStringLen cursorPosBytes : ℕ) :
    Option (Option InputEvent) :=
  let cursor := UInt32.ofNat cursorPosBytes
  ppbImeInputEventCreate instanceKnown .imeCompositionUpdate text 1
    (some [0,UInt32.ofNat preeditStringLen]) (-1) cursor cursor

/-- The two events of a commit. -/
def imCommit (instanceKnown : Bool) (text : PPVar) (strLen : ℕ) :
    List (Option (Option InputEvent)) :=
  [.imeCompositionEnd,.imeText].map fun type =>
    let len := UInt32.ofNat strLen
    ppbImeInputEventCreate instanceKnown type text 1 (some [0,len]) 0 len len

/-- Events there can be, with the number and the offsets they were made from. -/
inductive Made : UInt32 → Option (List UInt32) → InputEvent → Prop
  | created {b : Bool} {type : EventType} {text : PPVar} {segmentNumber : UInt32}
      {offsets : Option (List UInt32)} {target : Int32} {start fin : UInt32} {ie : InputEvent}
      (h : ppbImeInputEventCreate b type text segmentNumber offsets target start fin =
        some (some ie)) : Made segmentNumber offsets ie
  | preeditStart {b : Bool} {ie : InputEvent} (h : imPreeditStart b = some (some ie)) :
      Made 0 none ie
  | preeditChanged {b : Bool} {text : PPVar} {len cursor : ℕ} {ie : InputEvent}
      (h : imPreeditChanged b text len cursor = some (some ie)) :
      Made 1 (some [0,UInt32.ofNat len]) ie
  | committed {b : Bool} {text : PPVar} {len : ℕ} {ie : InputEvent}
      (h : some (some ie) ∈ imCommit b text len) : Made 1 (some [0,UInt32.ofNat len]) ie

variable {n index : UInt32} {offsets : Option (List UInt32)} {ie : InputEvent}

/-- What an event is made of. A number of segments that wraps stores an empty block. -/
structure Stores (n : UInt32) (offsets : Option (List UInt32)) (ie : InputEvent) : Prop where
  eventClass : ie.eventClass = .ime
  number : ie.segmentNumber = n
  empty : n = 0 → ie.segmentOffsets = none
  block : 0 < n → ie.segmentOffsets = memcpy offsets (n+1).toNat ∧ ie.segmentOffsets.isSome = true

theorem stores_of_create {b : Bool} {type : EventType} {text : PPVar} {target : Int32}
    {start fin : UInt32} (h : ppbImeInputEventCreate b type text n offsets target start fin =
      some (some ie)) : Stores n offsets ie := by
  unfold ppbImeInputEventCreate at h
  dsimp only at h
  split_ifs at h with _ _ hn
  · cases h
  · cases h
  · obtain ⟨block,hblock,he⟩ := Option.map_eq_some_iff.mp h
    cases Option.some.inj he
    exact ⟨rfl,rfl,fun hz => absurd hn (by rw [hz]; decide),fun _ => ⟨hblock.symm,rfl⟩⟩
  · cases Option.some.inj (Option.some.inj h)
    exact ⟨rfl,rfl,fun _ => rfl,fun hpos => absurd hpos hn⟩

theorem Made.stores (h : Made n offsets ie) : Stores n offsets ie := by
  cases h with
  | created h => exact stores_of_create h
  | preeditStart h => exact stores_of_create h
  | preeditChanged h => exact stores_of_create h
  | committed h =>
    obtain ⟨type,_,h⟩ := List.mem_map.mp h
    exact stores_of_create h

/-- The offset an index stands for. -/
def offsetOf (n : UInt32) (offsets : Option (List UInt32)) (index : UInt32) : UInt32 :=
  if index ≤ n ∧ 0 < n then ((offsets.getD [])[index.toNat]?).getD 0 else 0

/-- The words asked for are one more than the segments, unless that wraps. -/
theorem toNat_add_one (n : UInt32) :
    (n+1).toNat = if n.toNat < 2^32-1 then n.toNat+1 else 0 := by
  have hn := n.toNat_lt
  rw [UInt32.toNat_add]
  show (n.toNat+1) % 2^32 = _
  split_ifs <;> omega

/-- A word within a copy is the one copied. -/
theorem read_memcpy {src block : Option (List UInt32)} {words : ℕ} (h : block = memcpy src words)
    (hb : block.isSome = true) (hi : index.toNat < words) :
    read block index = some ((src.getD [])[index.toNat]?.getD 0) := by
  subst h
  have hw : words ≠ 0 := by omega
  rw [memcpy,if_neg hw] at hb ⊢
  cases src with
  | none => cases hb
  | some words' =>
    rw [Option.bind_some] at hb ⊢
    have hle : words ≤ words'.length := by
      by_contra hle
      rw [if_neg hle] at hb
      cases hb
    rw [if_pos hle]
    have hlt : index.toNat < words'.length := by omega
    simp [read,List.getElem?_take_of_lt hi,List.getElem?_eq_getElem hlt]

/-- The offset is returned exactly if the index is past the number, or there are segments and
their number is not the greatest there is. -/
theorem getSegmentOffset_iff (h : Made n offsets ie) (index : UInt32) :
    ppbImeInputEventGetSegmentOffset (some ie) index = some (offsetOf n offsets index) ↔
      n < index ∨ 0 < n ∧ n.toNat < 2^32-1 := by
  have hs := h.stores
  have hget : ppbImeInputEventGetSegmentOffset (some ie) index =
      if index ≤ n then read ie.segmentOffsets index else some 0 := by
    simp only [ppbImeInputEventGetSegmentOffset,hs.eventClass,hs.number,ne_eq,not_true_eq_false,
      if_false]
  rw [hget,offsetOf]
  by_cases hi : index ≤ n
  · have hlt : ¬n < index := UInt32.not_lt.mpr hi
    rw [if_pos hi,or_iff_right hlt]
    by_cases hn : 0 < n
    · obtain ⟨hblock,hsome⟩ := hs.block hn
      rw [if_pos ⟨hi,hn⟩,and_iff_right hn]
      by_cases hmax : n.toNat < 2^32-1
      · have hwords : index.toNat < (n+1).toNat := by
          have hle := UInt32.le_iff_toNat_le.mp hi
          rw [toNat_add_one,if_pos hmax]
          omega
        exact iff_of_true (read_memcpy hblock hsome hwords) hmax
      · rw [toNat_add_one,if_neg hmax] at hblock
        refine iff_of_false (fun hr => ?_) hmax
        rw [hblock] at hr
        cases hr
    · have hzero : n = 0 := UInt32.le_zero_iff.mp (UInt32.not_lt.mp hn)
      refine iff_of_false (fun hr => ?_) fun hpos => hn hpos.1
      rw [hs.empty hzero] at hr
      cases hr
  · have hlt : n < index := UInt32.not_le.mp hi
    rw [if_neg hi,if_neg fun hc => hi hc.1]
    exact iff_of_true rfl (.inl hlt)

/-- The last offset of a commit of five bytes. -/
theorem committed_offset : ∃ ie : InputEvent, some (some ie) ∈ imCommit true ⟨.string,7⟩ 5 ∧
    ppbImeInputEventGetSegmentOffset (some ie) 1 = some 5 := by
  obtain ⟨ie,hie⟩ : ∃ ie : InputEvent, some (some ie) ∈ imCommit true ⟨.string,7⟩ 5 :=
    ⟨_,List.mem_cons_self⟩
  exact ⟨ie,hie,(getSegmentOffset_iff (.committed hie) 1).mpr (.inr (by decide))⟩

/-- The first offset of the event that begins a composition is read through a null pointer. -/
theorem preeditStart_undefined : ¬∀ (n : UInt32) (offsets : Option (List UInt32)) (ie : InputEvent)
    (index : UInt32), Made n offsets ie →
    ppbImeInputEventGetSegmentOffset (some ie) index = some (offsetOf n offsets index) := by
  intro h
  exact absurd (h 0 none _ 0 (.preeditStart (b := true) rfl)) (by decide)

end ImeEvent
end FreshPlayer
