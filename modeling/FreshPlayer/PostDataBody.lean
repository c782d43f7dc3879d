import FreshPlayer.PostData
import Mathlib.Algebra.Order.BigOperators.Group.List
import Mathlib.Algebra.Order.Ring.Nat

/-! The body of a POST request. What is written of a file begins where the file begins,
while its length is that of the range asked for. -/
namespace FreshPlayer
namespace PostData

variable {τ : Type*}

/-- The bytes an item stands for. -/
def requested (files : Files τ) (pdi : PostDataItem τ) : List UInt8 :=
  if pdi.fileRef = 0 then pdi.data
  else match (files pdi.fileRef).bind FileRef.file with
  | none => []
  | some f =>
    let rest := f.content.drop (max pdi.startOffset 0).toNat
    if 0 ≤ pdi.numberOfBytes then rest.take pdi.numberOfBytes.toNat else rest

/-- The range is empty, or it has the bytes that the file at this path begins with. -/
def BeginsFile (files : Files τ) (pdi : PostDataItem τ) : Prop :=
  pdi.fileRef ≠ 0 → requested files pdi = [] ∨ ∃ fr ∈ files pdi.fileRef, fr.hasPath = true ∧
    ∃ f ∈ fr.file, requested files pdi = f.content.take (requested files pdi).length

/-- What is written instead. -/
def written (files : Files τ) (pdi : PostDataItem τ) : List UInt8 :=
  if pdi.fileRef = 0 then pdi.data
  else match ppbFlashFileFileRefOpenFile files pdi.fileRef with
  | none => []
  | some f => f.content.take (requested files pdi).length

theorem written_le {files : Files τ} {pdi : PostDataItem τ} :
    (written files pdi).length ≤ (requested files pdi).length := by
  unfold written
  by_cases href : pdi.fileRef = 0
  · simp [requested,href]
  · rw [if_neg href]
    cases ppbFlashFileFileRefOpenFile files pdi.fileRef with
    | none => exact Nat.zero_le _
    | some f => exact List.length_take_le _ _

theorem length_flatMap_le {α β : Type*} {f g : α → List β} {l : List α}
    (h : ∀ a ∈ l, (f a).length ≤ (g a).length) :
    (l.flatMap f).length ≤ (l.flatMap g).length := by
  rw [List.length_flatMap,List.length_flatMap]
  exact List.sum_le_sum h

/-- Lists no longer than others, item by item, are together the same only if each is. -/
theorem flatMap_eq_iff_of_length_le {α β : Type*} {f g : α → List β} {l : List α}
    (h : ∀ a ∈ l, (f a).length ≤ (g a).length) :
    l.flatMap f = l.flatMap g ↔ ∀ a ∈ l, f a = g a := by
  induction l with
  | nil => simp
  | cons a l ih =>
    have htail : ∀ b ∈ l, (f b).length ≤ (g b).length :=
      fun b hb => h b (List.mem_cons_of_mem a hb)
    have hrest := length_flatMap_le htail
    rw [List.flatMap_cons,List.flatMap_cons,List.forall_mem_cons,← ih htail]
    constructor
    · intro he
      have hlen := congrArg List.length he
      rw [List.length_append,List.length_append] at hlen
      have ha := h a List.mem_cons_self
      exact List.append_inj he (by omega)
    · rintro ⟨ha,hl⟩
      rw [ha,hl]

variable [Zero τ]

/-- The file can be queried and read, has not changed since the expected time, and holds
the whole range. -/
structure Holds (fr : FileRef τ) (pdi : PostDataItem τ) (info : FileInfo τ) (f : OpenFile) :
    Prop where
  stat : fr.stat = some info
  file : fr.file = some f
  reads : ∀ k, f.fails k = false
  size : info.size = f.content.length
  unchanged : pdi.expectedLastModifiedTime = 0 ∨
    info.lastModifiedTime = pdi.expectedLastModifiedTime
  range : 0 ≤ pdi.numberOfBytes →
    (max pdi.startOffset 0).toNat+pdi.numberOfBytes.toNat ≤ f.content.length

def Readable (files : Files τ) (pdi : PostDataItem τ) : Prop :=
  pdi.fileRef ≠ 0 → ∃ fr info f, files pdi.fileRef = some fr ∧ Holds fr pdi info f

theorem requested_file {files : Files τ} {pdi : PostDataItem τ} {fr : FileRef τ}
    {info : FileInfo τ} {f : OpenFile} (href : pdi.fileRef ≠ 0)
    (hfr : files pdi.fileRef = some fr) (h : Holds fr pdi info f) :
    requested files pdi = if 0 ≤ pdi.numberOfBytes then
      (f.content.drop (max pdi.startOffset 0).toNat).take pdi.numberOfBytes.toNat
    else f.content.drop (max pdi.startOffset 0).toNat := by
  simp only [requested,if_neg href,hfr,Option.bind_some,h.file]

/-- A file that holds the range has at least as many bytes to read from its beginning. -/
theorem requested_le {files : Files τ} {pdi : PostDataItem τ} {fr : FileRef τ}
    {info : FileInfo τ} {f : OpenFile} (href : pdi.fileRef ≠ 0)
    (hfr : files pdi.fileRef = some fr) (h : Holds fr pdi info f) :
    (requested files pdi).length ≤ f.content.length := by
  rw [requested_file href hfr h]
  split_ifs
  · rw [List.length_take,List.length_drop]
    omega
  · rw [List.length_drop]
    omega

theorem written_eq_iff {files : Files τ} {pdi : PostDataItem τ} (h : Readable files pdi) :
    written files pdi = requested files pdi ↔ BeginsFile files pdi := by
  unfold BeginsFile written
  by_cases href : pdi.fileRef = 0
  · simp [href,requested]
  · obtain ⟨fr,info,f,hfr,hh⟩ := h href
    have hopen : ppbFlashFileFileRefOpenFile files pdi.fileRef =
        if fr.hasPath then some f else none := by
      rw [ppbFlashFileFileRefOpenFile,hfr,Option.bind_some,hh.file]
    rw [if_neg href,hopen]
    cases hp : fr.hasPath with
    | false =>
      constructor
      · exact fun he _ => Or.inl he.symm
      · intro he
        rcases he href with hnil | ⟨fr',hfr',hpath,_⟩
        · exact hnil.symm
        · cases hfr.symm.trans hfr'
          rw [hp] at hpath
          cases hpath
    | true =>
      constructor
      · exact fun he _ => Or.inr ⟨fr,hfr,hp,f,hh.file,he.symm⟩
      · intro he
        rcases he href with hnil | ⟨fr',hfr',_,f',hf',hbegins⟩
        · rw [hnil]
          rfl
        · cases hfr.symm.trans hfr'
          cases hh.file.symm.trans hf'
          exact hbegins.symm

variable [DecidableEq τ]

/-- The length of an item is right, and not the error. -/
theorem getItemLength_readable {files : Files τ} {pdi : PostDataItem τ}
    (h : Readable files pdi) : postDataGetItemLength files pdi = (requested files pdi).length ∧
      postDataGetItemLength files pdi < 2^63 := by
  by_cases href : pdi.fileRef = 0
  · have hdata := pdi.data_lt
    simp only [postDataGetItemLength,requested,href,ne_eq,not_true_eq_false,if_false,if_true,
      true_and]
    omega
  · obtain ⟨fr,info,f,hfr,hh⟩ := h href
    have hquery : ppbFlashFileFileRefQueryFile files pdi.fileRef = some info := by
      rw [ppbFlashFileFileRefQueryFile,hfr]
      exact hh.stat
    have hsame : ¬(pdi.expectedLastModifiedTime ≠ 0 ∧
        info.lastModifiedTime ≠ pdi.expectedLastModifiedTime) := by
      rintro ⟨hne,hch⟩
      exact hh.unchanged.elim hne hch
    have hlt := pdi.numberOfBytes_lt
    have hsize := info.size_lt
    have hcontent := hh.size
    rw [requested_file href hfr hh]
    unfold postDataGetItemLength
    simp only [if_pos href,hquery,if_neg hsame]
    split_ifs with hn hle
    · have hrange := hh.range hn
      rw [List.length_take,List.length_drop]
      omega
    · rw [List.length_drop]
      omega
    · rw [List.length_drop]
      omega

theorem write_readable {files : Files τ} {pdi : PostDataItem τ} (h : Readable files pdi)
    (s : List UInt8) :
    ∃ n, postDataWriteToGstring n files pdi s = some (s ++ written files pdi) := by
  unfold postDataWriteToGstring written
  by_cases href : pdi.fileRef = 0
  · simp [href]
  · obtain ⟨fr,info,f,hfr,hh⟩ := h href
    have hopen : ppbFlashFileFileRefOpenFile files pdi.fileRef =
        if fr.hasPath then some f else none := by
      rw [ppbFlashFileFileRefOpenFile,hfr,Option.bind_some,hh.file]
    simp only [ne_eq,href,not_false_eq_true,if_true,if_false,hopen]
    cases fr.hasPath with
    | false => exact ⟨0,by simp⟩
    | true =>
      have hlen := (getItemLength_readable h).1
      have hle := requested_le href hfr hh
      simpa [hlen] using run_copies f hh.reads ⟨postDataGetItemLength files pdi,0,0,s⟩
        (by change postDataGetItemLength files pdi ≤ f.content.length-0; omega)

/-! All items. -/

theorem writePostData_readable {files : Files τ} {items : List (PostDataItem τ)}
    (h : ∀ pdi ∈ items, Readable files pdi) (s : List UInt8) :
    ∃ n, writePostData n files items s = some (s ++ items.flatMap (written files)) := by
  induction items generalizing s with
  | nil => exact ⟨0,by simp [writePostData]⟩
  | cons pdi rest ih =>
    obtain ⟨n,hn⟩ := write_readable (h pdi List.mem_cons_self) s
    obtain ⟨m,hm⟩ := ih (fun q hq => h q (List.mem_cons_of_mem _ hq)) (s ++ written files pdi)
    refine ⟨max n m,?_⟩
    rw [writePostData,write_mono (le_max_left n m) hn,Option.bind_some,
      writePostData_mono (le_max_right n m) hm,List.flatMap_cons,List.append_assoc]

theorem addItemLengths_readable {files : Files τ} {items : List (PostDataItem τ)}
    (h : ∀ pdi ∈ items, Readable files pdi) (total : ℕ) :
    addItemLengths files (total % 2^64) items =
      (total+(items.flatMap (requested files)).length) % 2^64 := by
  induction items generalizing total with
  | nil => rfl
  | cons pdi rest ih =>
    obtain ⟨hlen,hlt⟩ := getItemLength_readable (h pdi List.mem_cons_self)
    have hne : postDataGetItemLength files pdi ≠ sizeError := by
      unfold sizeError
      omega
    have hstep : (total % 2^64+postDataGetItemLength files pdi) % 2^64 =
        (total+(requested files pdi).length) % 2^64 := by
      rw [hlen,Nat.mod_add_mod]
    rw [addItemLengths,if_neg hne,hstep,ih fun q hq => h q (List.mem_cons_of_mem _ hq),
      List.flatMap_cons,List.length_append,Nat.add_assoc]

/-- For readable files the body is what was asked for, with its length announced, exactly
if each range asked for has the bytes its file begins with. -/
theorem post_body_iff (files : Files τ) (items : List (PostDataItem τ))
    (h : ∀ pdi ∈ items, Readable files pdi) :
    (∃ turns body, writePostData turns files items [] = some body ∧
      body = items.flatMap (requested files) ∧
      postDataGetAllItemLength files items = body.length % 2^64) ↔
    ∀ pdi ∈ items, BeginsFile files pdi := by
  have hlength : postDataGetAllItemLength files items =
      (items.flatMap (requested files)).length % 2^64 := by
    simpa [postDataGetAllItemLength] using addItemLengths_readable h 0
  have hbegins : items.flatMap (written files) = items.flatMap (requested files) ↔
      ∀ pdi ∈ items, BeginsFile files pdi := by
    rw [flatMap_eq_iff_of_length_le fun pdi _ => written_le]
    exact forall₂_congr fun pdi hp => written_eq_iff (h pdi hp)
  obtain ⟨n,hn⟩ := writePostData_readable h []
  rw [List.nil_append] at hn
  rw [← hbegins]
  constructor
  · rintro ⟨m,body,hm,hbody,_⟩
    have hsame : some body = some (items.flatMap (written files)) :=
      (writePostData_mono (le_max_right n m) hm).symm.trans
        (writePostData_mono (le_max_left n m) hn)
    rw [← Option.some.inj hsame,hbody]
  · intro he
    exact ⟨n,_,hn,he,by rw [hlength,he]⟩

/-- A file of two bytes. -/
def letters : OpenFile := ⟨[65,66],fun _ => false⟩

def lettersInfo : FileInfo ℕ := ⟨2,7,by decide⟩

def letterFile : Files ℕ := fun _ => some ⟨true,some lettersInfo,some letters⟩

/-- The second of them. -/
def secondByte : PostDataItem ℕ := ⟨[],1,1,1,7,noData_lt,by decide⟩

theorem readable_secondByte : Readable letterFile secondByte :=
  fun _ => ⟨_,lettersInfo,letters,rfl,rfl,rfl,fun _ => rfl,rfl,Or.inr rfl,fun _ => by decide⟩

theorem secondByte_first : ¬∀ (files : Files ℕ) (items : List (PostDataItem ℕ)),
    (∀ pdi ∈ items, Readable files pdi) → ∃ turns body,
      writePostData turns files items [] = some body ∧ body = items.flatMap (requested files) ∧
      postDataGetAllItemLength files items = body.length % 2^64 := by
  intro h
  obtain ⟨n,body,hn,hbody,_⟩ := h letterFile [secondByte]
    (by simpa using readable_secondByte)
  have hwrong : writePostData 2 letterFile [secondByte] [] = some [65] := by decide
  have hsame := (writePostData_mono (le_max_left n 2) hn).symm.trans
    (writePostData_mono (le_max_right n 2) hwrong)
  rw [hbody] at hsame
  exact absurd hsame (by decide)

/-- Two bytes of data, then a file from its beginning. -/
def beginning : List (PostDataItem ℕ) :=
  [⟨[1,2],0,0,0,0,by decide,by decide⟩,⟨[],1,-3,-1,0,noData_lt,toTheEnd_lt⟩]

theorem beginning_written :
    (∃ turns body, writePostData turns letterFile beginning [] = some body ∧
      body = beginning.flatMap (requested letterFile) ∧
      postDataGetAllItemLength letterFile beginning = body.length % 2^64) ↔
    ∀ pdi ∈ beginning, BeginsFile letterFile pdi := by
  refine post_body_iff letterFile beginning fun pdi hp => ?_
  rcases List.mem_cons.mp hp with rfl | hp
  · exact fun h => absurd rfl h
  · cases List.mem_singleton.mp hp
    exact fun _ => ⟨_,lettersInfo,letters,rfl,rfl,rfl,fun _ => rfl,rfl,Or.inl rfl,
      fun h => absurd h (by decide)⟩

end PostData
end FreshPlayer
