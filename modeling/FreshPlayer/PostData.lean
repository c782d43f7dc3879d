import FreshPlayer.Transition
import Mathlib.Algebra.Order.Ring.Int
import Mathlib.Data.List.Basic

/-! The post data of a request: its items, their lengths, and the bytes written for them.
File refs are known by what the system answers when their files are queried, opened and
read, which need not agree. -/
namespace FreshPlayer
namespace PostData

-- times are compared only
variable {τ : Type*} [DecidableEq τ] [Zero τ]

/-- Filled in by `ppb_flash_file_file_ref_query_file`. -/
structure FileInfo (τ : Type*) where
  size : ℕ
  lastModifiedTime : τ
  size_lt : size < 2^63

/-- An open file; `fails` tells which of the reads return -1, by their number. -/
structure OpenFile where
  content : List UInt8
  fails : ℕ → Bool

/-- `hasPath` is not set for the body of a response, which has a descriptor only. -/
structure FileRef (τ : Type*) where
  hasPath : Bool
  stat : Option (FileInfo τ)
  file : Option OpenFile

structure PostDataItem (τ : Type*) where
  data : List UInt8
  fileRef : ℤ
  startOffset : ℤ
  numberOfBytes : ℤ
  expectedLastModifiedTime : τ
  data_lt : data.length < 2^32
  numberOfBytes_lt : numberOfBytes < 2^63

abbrev Files (τ : Type*) := ℤ → Option (FileRef τ)

def ppbFlashFileFileRefQueryFile (files : Files τ) (fileRef : ℤ) : Option (FileInfo τ) :=
  (files fileRef).bind FileRef.stat

/-- A file ref without a path is not opened. -/
def ppbFlashFileFileRefOpenFile (files : Files τ) (fileRef : ℤ) : Option OpenFile :=
  (files fileRef).bind fun fr => if fr.hasPath then fr.file else none

/-- `(size_t)-1` -/
def sizeError : ℕ := 2^64-1

def postDataGetItemLength (files : Files τ) (pdi : PostDataItem τ) : ℕ :=
  if pdi.fileRef ≠ 0 then
    let startOffset := (max pdi.startOffset 0).toNat
    match ppbFlashFileFileRefQueryFile files pdi.fileRef with
    | none => sizeError
    | some finfo =>
      if pdi.expectedLastModifiedTime ≠ 0 ∧
          finfo.lastModifiedTime ≠ pdi.expectedLastModifiedTime then sizeError
      else if 0 ≤ pdi.numberOfBytes then pdi.numberOfBytes.toNat
      else if finfo.size ≤ startOffset then 0
      else finfo.size-startOffset
  else pdi.data.length

/-- The loop over the items, with the length so far. -/
def addItemLengths (files : Files τ) : ℕ → List (PostDataItem τ) → ℕ
  | totalLen, [] => totalLen
  | totalLen, pdi::rest =>
    let itemLen := postDataGetItemLength files pdi
    if itemLen = sizeError then sizeError
    else addItemLengths files ((totalLen+itemLen) % 2^64) rest

def postDataGetAllItemLength (files : Files τ) (postData : List (PostDataItem τ)) : ℕ :=
  addItemLengths files 0 postData

/-- The loop that copies a file. `position` is where the descriptor stands and `reads` the
number of reads made. -/
structure Copy where
  toWrite : ℕ
  position : ℕ
  reads : ℕ
  s : List UInt8

def bufSize : ℕ := 128*1024

def Copy.read (c : Copy) (f : OpenFile) : List UInt8 :=
  (f.content.drop c.position).take (min c.toWrite bufSize)

def Copy.next (c : Copy) (f : OpenFile) : Copy :=
  let bytes := c.read f
  ⟨c.toWrite-bytes.length,c.position+bytes.length,c.reads+1,c.s ++ bytes⟩

/-- So many turns of the loop; `none` when these do not end it. -/
def Copy.run (f : OpenFile) : ℕ → Copy → Option (List UInt8)
  | 0, _ => none
  | n+1, c =>
    if c.toWrite = 0 then some c.s
    else if f.fails c.reads then some c.s
    else (c.next f).run f n

/-- Writes nothing of a file that cannot be opened. -/
def postDataWriteToGstring (turns : ℕ) (files : Files τ) (pdi : PostDataItem τ)
    (s : List UInt8) : Option (List UInt8) :=
  if pdi.fileRef ≠ 0 then
    match ppbFlashFileFileRefOpenFile files pdi.fileRef with
    | none => some s
    | some f => Copy.run f turns ⟨postDataGetItemLength files pdi,0,0,s⟩
  else some (s ++ pdi.data)

/-- The loop over the items in `url_loader_open_ptac`. -/
def writePostData (turns : ℕ) (files : Files τ) : List (PostDataItem τ) → List UInt8 →
    Option (List UInt8)
  | [], s => some s
  | pdi::rest, s =>
    (postDataWriteToGstring turns files pdi s).bind (writePostData turns files rest)

/-! The copying loop. -/

theorem read_length (c : Copy) (f : OpenFile) :
    (c.read f).length = min (min c.toWrite bufSize) (f.content.length-c.position) := by
  rw [Copy.read,List.length_take,List.length_drop]

theorem run_succ (f : OpenFile) (n : ℕ) (c : Copy) (h : c.toWrite ≠ 0)
    (hr : f.fails c.reads = false) : Copy.run f (n+1) c = Copy.run f n (c.next f) := by
  simp [Copy.run,h,hr]

/-- More turns change nothing. -/
theorem run_mono {f : OpenFile} {n m : ℕ} (h : n ≤ m) {c : Copy} {s : List UInt8}
    (hs : Copy.run f n c = some s) : Copy.run f m c = some s := by
  induction n generalizing m c with
  | zero => cases hs
  | succ n ih =>
    obtain ⟨m,rfl⟩ : ∃ k, m = k+1 := ⟨m-1,by omega⟩
    unfold Copy.run at hs ⊢
    split_ifs at hs ⊢
    · exact hs
    · exact hs
    · exact ih (by omega) hs

/-- A file that has the bytes is copied. -/
theorem run_copies (f : OpenFile) (hf : ∀ k, f.fails k = false) (c : Copy)
    (h : c.toWrite ≤ f.content.length-c.position) :
    ∃ n, Copy.run f n c = some (c.s ++ (f.content.drop c.position).take c.toWrite) := by
  induction hw : c.toWrite using Nat.strong_induction_on generalizing c with
  | h w ih =>
    rcases Nat.eq_zero_or_pos w with rfl | hpos
    · exact ⟨1,by simp [Copy.run,hw]⟩
    · have hlen := read_length c f
      have hbuf : 0 < bufSize := by decide
      have hless : c.toWrite-(c.read f).length < w := by omega
      have hrest : (c.next f).toWrite ≤ f.content.length-(c.next f).position := by
        change c.toWrite-_ ≤ f.content.length-(c.position+_)
        omega
      obtain ⟨n,hn⟩ := ih _ hless (c.next f) hrest rfl
      refine ⟨n+1,?_⟩
      rw [run_succ f n c (by omega) (hf _),hn]
      have hbytes : c.read f = (f.content.drop c.position).take (c.read f).length := by
        rw [hlen,Copy.read,← List.length_drop,List.take_eq_take_min]
      have hsplit : w = (c.read f).length+(w-(c.read f).length) := by omega
      change some (c.s ++ c.read f ++ (f.content.drop (c.position+(c.read f).length)).take
        (c.toWrite-(c.read f).length)) = _
      rw [List.append_assoc,hw]
      conv_rhs => rw [hsplit,List.take_add,List.drop_drop,← hbytes]

/-- A turn after which the loop ends ends it. -/
theorem run_ends_of_next {f : OpenFile} {c : Copy}
    (h : c.toWrite ≠ 0 → f.fails c.reads = false → ∃ n, (Copy.run f n (c.next f)).isSome) :
    ∃ n, (Copy.run f n c).isSome := by
  by_cases hw : c.toWrite = 0
  · exact ⟨1,by simp [Copy.run,hw]⟩
  · cases hr : f.fails c.reads with
    | true => exact ⟨1,by simp [Copy.run,hr]⟩
    | false =>
      obtain ⟨n,hn⟩ := h hw hr
      exact ⟨n+1,by rw [run_succ f n c hw hr]; exact hn⟩

theorem run_ends_of_enough (f : OpenFile) (c : Copy)
    (h : c.toWrite ≤ f.content.length-c.position) : ∃ n, (Copy.run f n c).isSome := by
  induction hw : c.toWrite using Nat.strong_induction_on generalizing c with
  | h w ih =>
    refine run_ends_of_next fun hne _ => ih _ ?_ (c.next f) ?_ rfl
    · have hlen := read_length c f
      have hbuf : 0 < bufSize := by decide
      change c.toWrite-_ < w
      omega
    · have hlen := read_length c f
      change c.toWrite-_ ≤ f.content.length-(c.position+_)
      omega

theorem run_ends_of_fails (f : OpenFile) (c : Copy) {k : ℕ} (hk : c.reads ≤ k)
    (h : f.fails k = true) : ∃ n, (Copy.run f n c).isSome := by
  induction hd : k-c.reads generalizing c with
  | zero =>
    obtain rfl : k = c.reads := by omega
    exact run_ends_of_next fun _ hr => absurd (hr.symm.trans h) (by simp)
  | succ d ih =>
    refine run_ends_of_next fun _ _ => ih (c.next f) ?_ ?_
    · change c.reads+1 ≤ k
      omega
    · change k-(c.reads+1) = d
      omega

/-- The loop goes on for ever unless the file has the bytes or a read fails. -/
theorem run_ends_iff (f : OpenFile) (c : Copy) : (∃ n, (Copy.run f n c).isSome) ↔
    c.toWrite ≤ f.content.length-c.position ∨ ∃ k, c.reads ≤ k ∧ f.fails k = true := by
  constructor
  · rintro ⟨n,hn⟩
    induction n generalizing c with
    | zero => cases hn
    | succ n ih =>
      unfold Copy.run at hn
      split_ifs at hn with hw hr
      · exact Or.inl (by omega)
      · exact Or.inr ⟨c.reads,le_rfl,hr⟩
      · have hlen := read_length c f
        rcases ih (c.next f) hn with h | ⟨k,hk,hfk⟩
        · change c.toWrite-_ ≤ f.content.length-(c.position+_) at h
          exact Or.inl (by omega)
        · exact Or.inr ⟨k,by change c.reads+1 ≤ k at hk; omega,hfk⟩
  · rintro (h | ⟨k,hk,hf⟩)
    · exact run_ends_of_enough f c h
    · exact run_ends_of_fails f c hk hf

/-- The file holds the bytes that are to be written when it is read, or one of the reads
fails. -/
def WriteEnds (files : Files τ) (pdi : PostDataItem τ) : Prop :=
  pdi.fileRef ≠ 0 → ∀ f ∈ ppbFlashFileFileRefOpenFile files pdi.fileRef,
    postDataGetItemLength files pdi ≤ f.content.length ∨ ∃ k, f.fails k = true

theorem write_mono {files : Files τ} {pdi : PostDataItem τ} {n m : ℕ} (h : n ≤ m)
    {s t : List UInt8} (hs : postDataWriteToGstring n files pdi s = some t) :
    postDataWriteToGstring m files pdi s = some t := by
  unfold postDataWriteToGstring at hs ⊢
  split_ifs at hs ⊢
  · cases hopen : ppbFlashFileFileRefOpenFile files pdi.fileRef with
    | none => simpa [hopen] using hs
    | some f =>
      simp only [hopen] at hs ⊢
      exact run_mono h hs
  · exact hs

theorem writeEnds_of_some {files : Files τ} {pdi : PostDataItem τ} {n : ℕ} {s t : List UInt8}
    (h : postDataWriteToGstring n files pdi s = some t) : WriteEnds files pdi := by
  intro href f hf
  have hopen : ppbFlashFileFileRefOpenFile files pdi.fileRef = some f := hf
  simp only [postDataWriteToGstring,if_pos href,hopen] at h
  have hends := (run_ends_iff f ⟨postDataGetItemLength files pdi,0,0,s⟩).mp
    ⟨n,Option.isSome_of_eq_some h⟩
  simpa using hends

theorem write_ends {files : Files τ} {pdi : PostDataItem τ} (h : WriteEnds files pdi)
    (s : List UInt8) : ∃ n t, postDataWriteToGstring n files pdi s = some t := by
  unfold postDataWriteToGstring
  by_cases href : pdi.fileRef ≠ 0
  · simp only [if_pos href]
    cases hopen : ppbFlashFileFileRefOpenFile files pdi.fileRef with
    | none => exact ⟨0,s,rfl⟩
    | some f =>
      obtain ⟨n,hn⟩ := (run_ends_iff f ⟨postDataGetItemLength files pdi,0,0,s⟩).mpr
        (by simpa using h href f hopen)
      exact ⟨n,Option.isSome_iff_exists.mp hn⟩
  · exact ⟨0,s ++ pdi.data,if_neg href⟩

/-- Writing an item comes to an end exactly if the file is not shorter than the length found
for the item, however the file has changed in between, or reading it fails. -/
theorem write_ends_iff (files : Files τ) (pdi : PostDataItem τ) (s : List UInt8) :
    (∃ turns t, postDataWriteToGstring turns files pdi s = some t) ↔ WriteEnds files pdi :=
  ⟨fun ⟨_,_,h⟩ => writeEnds_of_some h,fun h => write_ends h s⟩

/-- A file of one byte. -/
def shortFile : Files ℕ := fun _ =>
  some ⟨true,some ⟨1,7,by decide⟩,some ⟨[65],fun _ => false⟩⟩

theorem noData_lt : ([] : List UInt8).length < 2^32 := by decide

theorem toTheEnd_lt : (-1 : ℤ) < 2^63 := by decide

/-- The first two bytes of a file. -/
def twoBytes : PostDataItem ℕ := ⟨[],1,0,2,0,noData_lt,by decide⟩

theorem twoBytes_loops : ¬∀ (files : Files ℕ) (pdi : PostDataItem ℕ) (s : List UInt8),
    ∃ turns t, postDataWriteToGstring turns files pdi s = some t := by
  intro h
  obtain ⟨n,t,hn⟩ := h shortFile twoBytes []
  rcases writeEnds_of_some hn (by decide) ⟨[65],fun _ => false⟩ rfl with hlen | ⟨k,hk⟩
  · exact absurd hlen (by decide)
  · cases hk

/-! All items. -/

theorem writePostData_mono {files : Files τ} {items : List (PostDataItem τ)} {n m : ℕ}
    (h : n ≤ m) {s t : List UInt8} (hs : writePostData n files items s = some t) :
    writePostData m files items s = some t := by
  induction items generalizing s with
  | nil => exact hs
  | cons pdi rest ih =>
    obtain ⟨u,hu,ht⟩ := Option.bind_eq_some_iff.mp hs
    exact Option.bind_eq_some_iff.mpr ⟨u,write_mono h hu,ih ht⟩

theorem writePostData_ends_iff (files : Files τ) (items : List (PostDataItem τ))
    (s : List UInt8) : (∃ n t, writePostData n files items s = some t) ↔
      ∀ pdi ∈ items, WriteEnds files pdi := by
  induction items generalizing s with
  | nil => simp [writePostData]
  | cons pdi rest ih =>
    rw [List.forall_mem_cons]
    constructor
    · rintro ⟨n,t,h⟩
      obtain ⟨u,hu,ht⟩ := Option.bind_eq_some_iff.mp h
      exact ⟨writeEnds_of_some hu,(ih u).mp ⟨n,t,ht⟩⟩
    · rintro ⟨hpdi,hrest⟩
      obtain ⟨n,u,hu⟩ := write_ends hpdi s
      obtain ⟨m,t,ht⟩ := (ih u).mpr hrest
      refine ⟨max n m,t,Option.bind_eq_some_iff.mpr ⟨u,?_,?_⟩⟩
      · exact write_mono (le_max_left n m) hu
      · exact writePostData_mono (le_max_right n m) ht

end PostData
end FreshPlayer
