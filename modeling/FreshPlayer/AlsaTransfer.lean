import Mathlib.Algebra.Order.Ring.Int
import Mathlib.Tactic.Linarith
import Mathlib.Tactic.Ring

/-! The transfer loops of the ALSA thread. The counter of bytes and the sizes of segments are
unsigned, the library counts frames in signed numbers. -/
namespace FreshPlayer
namespace AlsaTransfer

inductive Direction
  | capture | playback
  deriving DecidableEq, Repr

/-- Mono or stereo, 16 bits. -/
def frameSize : Direction → ℕ
  | .capture => 2
  | .playback => 4

def sizeofBuf : ℕ := 16*1024

/-- A stream is created with an `unsigned int` of frames. -/
structure Stream where
  sampleFrameCount : ℕ
  paused : Bool
  hasCallback : Bool
  sampleFrameCount_pos : 1 ≤ sampleFrameCount
  sampleFrameCount_lt : sampleFrameCount < 2^32

/-- What call number `n` to the device returns when asked for `frames`: some of them, or an
error. Errors end. -/
structure Device where
  answer : (n frames : ℕ) → ℤ
  lawful : ∀ n frames, 1 ≤ frames →
    answer n frames < 0 ∨ 1 ≤ answer n frames ∧ answer n frames ≤ frames
  recovers : ∃ last, ∀ n ≥ last, ∀ frames, 0 ≤ answer n frames

/-- One round of a loop: the counter before it, the segment, what the device returns for it,
and the bytes the callback of the stream is called with. -/
structure Round where
  toProcess : ℕ
  segmentLength : ℕ
  frames : ℤ
  heard : Option ℕ
  deriving DecidableEq, Repr

def sizeT (n : ℤ) : ℕ := (n % 2^64).toNat

def maxSegmentLength (d : Direction) (s : Stream) : ℕ :=
  min (sizeT (s.sampleFrameCount*frameSize d)) sizeofBuf

/-- A frame captured is given to the callback after the call, a frame played comes from it
before, or is silence. -/
def heard (d : Direction) (s : Stream) (segmentLength : ℕ) (frames : ℤ) : Option ℕ :=
  if s.paused || !s.hasCallback then none
  else match d with
    | .capture => if frames < 0 then none else some (sizeT (frames*frameSize d))
    | .playback => some segmentLength

def segmentLength (d : Direction) (s : Stream) (toProcess : ℕ) : ℕ :=
  min toProcess (maxSegmentLength d s)

def round (d : Direction) (s : Stream) (dev : Device) (n toProcess : ℕ) : Round :=
  let segment := segmentLength d s toProcess
  let frames := dev.answer n (segment/frameSize d)
  ⟨toProcess,segment,frames,heard d s segment frames⟩

/-- An error is recovered from and the round is made again. -/
def Round.left (d : Direction) (r : Round) : ℕ :=
  if r.frames < 0 then r.toProcess else sizeT (r.toProcess-r.frames*frameSize d)

/-- The loop, from call number `n` on; `none` while it has not ended. -/
def transferFrom (d : Direction) (s : Stream) (dev : Device) : ℕ → ℕ → ℕ → Option (List Round)
  | 0, _, toProcess => if toProcess = 0 then some [] else none
  | fuel+1, n, toProcess =>
    if toProcess = 0 then some []
    else
      let r := round d s dev n toProcess
      (transferFrom d s dev fuel (n+1) (r.left d)).map (r::·)

def transfer (d : Direction) (s : Stream) (dev : Device) (fuel : ℕ) (avail : ℤ) :
    Option (List Round) :=
  transferFrom d s dev fuel 0 (sizeT (avail*frameSize d))

def moved (rounds : List Round) : ℕ := (rounds.map fun r => r.frames.toNat).sum

/-- The segment fits the buffer, and the counter does not wrap. -/
structure Fits (d : Direction) (r : Round) : Prop where
  segment : r.segmentLength ≤ sizeofBuf
  heard : ∀ bytes, r.heard = some bytes → bytes ≤ sizeofBuf
  counter : r.frames*frameSize d ≤ r.toProcess

/-- The loop ends, after as many frames as there are, or none for an error. -/
def TransfersAll (d : Direction) (s : Stream) (dev : Device) (avail : ℤ) : Prop :=
  ∃ fuel rounds, transfer d s dev fuel avail = some rounds ∧
    moved rounds = avail.toNat ∧ ∀ r ∈ rounds, Fits d r

variable (d : Direction) (s : Stream) (dev : Device)

theorem frameSize_pos : 0 < frameSize d := by cases d <;> decide

theorem frameSize_dvd_sizeofBuf : frameSize d ∣ sizeofBuf := by cases d <;> decide

theorem sizeT_le {n : ℤ} {b : ℕ} (h : 0 ≤ n) (hb : n ≤ b) : sizeT n ≤ b := by
  unfold sizeT
  omega

theorem frameSize_dvd_sizeT (n : ℤ) : frameSize d ∣ sizeT (n*frameSize d) := by
  cases d <;> simp only [frameSize,sizeT] <;> omega

theorem maxSegmentLength_pos : 0 < maxSegmentLength d s := by
  have hs := s.sampleFrameCount_lt
  have hp := s.sampleFrameCount_pos
  unfold maxSegmentLength
  cases d <;> simp only [frameSize,sizeT,sizeofBuf] <;> omega

theorem frameSize_dvd_maxSegmentLength : frameSize d ∣ maxSegmentLength d s := by
  unfold maxSegmentLength
  rcases Nat.le_total (sizeT (s.sampleFrameCount*frameSize d)) sizeofBuf with h | h
  · rw [Nat.min_eq_left h]
    exact frameSize_dvd_sizeT d _
  · rw [Nat.min_eq_right h]
    exact frameSize_dvd_sizeofBuf d

theorem segmentLength_le (toProcess : ℕ) : segmentLength d s toProcess ≤ toProcess :=
  Nat.min_le_left _ _

theorem segmentLength_le_sizeofBuf (toProcess : ℕ) : segmentLength d s toProcess ≤ sizeofBuf :=
  (Nat.min_le_right _ _).trans (Nat.min_le_right _ _)

theorem frameSize_dvd_segmentLength {toProcess : ℕ} (h : frameSize d ∣ toProcess) :
    frameSize d ∣ segmentLength d s toProcess := by
  unfold segmentLength
  rcases Nat.le_total toProcess (maxSegmentLength d s) with hle | hle
  · rw [Nat.min_eq_left hle]
    exact h
  · rw [Nat.min_eq_right hle]
    exact frameSize_dvd_maxSegmentLength d s

theorem segmentLength_pos {toProcess : ℕ} (h : toProcess ≠ 0) :
    0 < segmentLength d s toProcess :=
  Nat.lt_min.mpr ⟨Nat.pos_of_ne_zero h,maxSegmentLength_pos d s⟩

variable {d s dev} {n toProcess : ℕ}

/-- The device is asked for a frame at least, so it answers with an error or with frames of
the segment. -/
theorem round_frames (hpos : toProcess ≠ 0) (hdvd : frameSize d ∣ toProcess) :
    (round d s dev n toProcess).frames < 0 ∨ 0 < (round d s dev n toProcess).frames ∧
      (round d s dev n toProcess).frames*frameSize d ≤ segmentLength d s toProcess := by
  have hseg := frameSize_dvd_segmentLength d s hdvd
  have hone : 1 ≤ segmentLength d s toProcess/frameSize d :=
    Nat.div_pos (Nat.le_of_dvd (segmentLength_pos d s hpos) hseg) (frameSize_pos d)
  rcases dev.lawful n _ hone with hneg | ⟨hfirst,hlast⟩
  · exact Or.inl hneg
  · refine Or.inr ⟨hfirst,?_⟩
    calc (round d s dev n toProcess).frames*frameSize d
        ≤ (segmentLength d s toProcess/frameSize d : ℕ)*frameSize d :=
          Int.mul_le_mul_of_nonneg_right hlast (Int.natCast_nonneg _)
      _ = segmentLength d s toProcess := by
          rw [← Nat.cast_mul,Nat.div_mul_cancel hseg]

theorem round_fits (hpos : toProcess ≠ 0) (hdvd : frameSize d ∣ toProcess) :
    Fits d (round d s dev n toProcess) := by
  have hle := segmentLength_le d s toProcess
  have hbuf := segmentLength_le_sizeofBuf d s toProcess
  refine ⟨hbuf,fun bytes hb => ?_,?_⟩
  · obtain ⟨_,hb⟩ := Option.ite_none_left_eq_some.mp hb
    cases hd : d with
    | capture =>
      subst hd
      obtain ⟨hnonneg,hb⟩ := Option.ite_none_left_eq_some.mp hb
      cases hb
      rcases round_frames hpos hdvd with hneg | ⟨_,hbytes⟩
      · exact absurd hneg hnonneg
      · exact sizeT_le (Int.mul_nonneg (not_lt.mp hnonneg) (Int.natCast_nonneg _))
          (hbytes.trans (Int.ofNat_le.mpr hbuf))
    | playback =>
      subst hd
      cases hb
      exact hbuf
  · rcases round_frames hpos hdvd with hneg | ⟨_,hbytes⟩
    · exact (Int.mul_neg_of_neg_of_pos hneg (Int.natCast_pos.mpr (frameSize_pos d))).le.trans
        (Int.natCast_nonneg _)
    · exact hbytes.trans (Int.ofNat_le.mpr hle)

/-- An error leaves the counter, frames lower it by their bytes. -/
theorem round_left (hpos : toProcess ≠ 0) (hdvd : frameSize d ∣ toProcess)
    (hlt : toProcess < 2^64) :
    (round d s dev n toProcess).frames < 0 ∧ (round d s dev n toProcess).left d = toProcess ∨
    0 < (round d s dev n toProcess).frames.toNat ∧
      (round d s dev n toProcess).frames.toNat*frameSize d +
        (round d s dev n toProcess).left d = toProcess := by
  rcases round_frames hpos hdvd with hneg | ⟨hfirst,hbytes⟩
  · exact Or.inl ⟨hneg,if_pos hneg⟩
  · refine Or.inr ⟨by omega,?_⟩
    have hle := segmentLength_le d s toProcess
    have hleft : (round d s dev n toProcess).left d =
        sizeT (toProcess-(round d s dev n toProcess).frames*frameSize d) :=
      if_neg (by omega)
    have hcast : (((round d s dev n toProcess).frames.toNat*frameSize d : ℕ) : ℤ) =
        (round d s dev n toProcess).frames*frameSize d := by
      rw [Nat.cast_mul,Int.toNat_of_nonneg hfirst.le]
    rw [hleft,sizeT]
    omega

/-- A loop that ends has moved all the bytes, in segments that fit. -/
theorem transferFrom_moved {fuel : ℕ} {rounds : List Round} (hdvd : frameSize d ∣ toProcess)
    (hlt : toProcess < 2^64) (h : transferFrom d s dev fuel n toProcess = some rounds) :
    moved rounds*frameSize d = toProcess ∧ ∀ r ∈ rounds, Fits d r := by
  induction fuel generalizing n toProcess rounds with
  | zero =>
    obtain ⟨hzero,h⟩ := Option.ite_none_right_eq_some.mp h
    cases h
    exact ⟨hzero.symm ▸ Nat.zero_mul _,fun r hr => nomatch hr⟩
  | succ fuel ih =>
    unfold transferFrom at h
    split at h
    · rename_i hzero
      cases h
      exact ⟨hzero.symm ▸ Nat.zero_mul _,fun r hr => nomatch hr⟩
    · rename_i hpos
      obtain ⟨rest,hrest,rfl⟩ := Option.map_eq_some_iff.mp h
      have hmoved : moved (round d s dev n toProcess::rest) =
          (round d s dev n toProcess).frames.toNat+moved rest := by
        simp [moved]
      rcases round_left hpos hdvd hlt with ⟨hneg,hleft⟩ | ⟨_,hleft⟩
      · rw [hleft] at hrest
        obtain ⟨hsum,hfits⟩ := ih hdvd hlt hrest
        refine ⟨?_,List.forall_mem_cons.mpr ⟨round_fits hpos hdvd,hfits⟩⟩
        rw [hmoved,Int.toNat_of_nonpos hneg.le,Nat.zero_add,hsum]
      · obtain ⟨hsum,hfits⟩ := ih ((Nat.dvd_add_right (Nat.dvd_mul_left _ _)).mp
          (hleft ▸ hdvd)) (by omega) hrest
        refine ⟨?_,List.forall_mem_cons.mpr ⟨round_fits hpos hdvd,hfits⟩⟩
        rw [hmoved,Nat.add_mul,hsum,hleft]

theorem transferFrom_step
    (h : toProcess ≠ 0 → ∃ fuel rounds,
      transferFrom d s dev fuel (n+1) ((round d s dev n toProcess).left d) = some rounds) :
    ∃ fuel rounds, transferFrom d s dev fuel n toProcess = some rounds := by
  rcases Nat.eq_zero_or_pos toProcess with hzero | hpos
  · exact ⟨0,[],if_pos hzero⟩
  · obtain ⟨fuel,rounds,hrounds⟩ := h hpos.ne'
    refine ⟨fuel+1,round d s dev n toProcess::rounds,?_⟩
    rw [transferFrom,if_neg hpos.ne']
    exact Option.map_eq_some_iff.mpr ⟨rounds,hrounds,rfl⟩

/-- Errors end, and from then on each round lowers the counter. -/
theorem transferFrom_ends (hdvd : frameSize d ∣ toProcess) (hlt : toProcess < 2^64) :
    ∃ fuel rounds, transferFrom d s dev fuel n toProcess = some rounds := by
  obtain ⟨last,hlast⟩ := dev.recovers
  have hleft_dvd {n toProcess : ℕ} (hpos : toProcess ≠ 0) (hdvd : frameSize d ∣ toProcess)
      (hlt : toProcess < 2^64) : frameSize d ∣ (round d s dev n toProcess).left d := by
    rcases round_left hpos hdvd hlt with ⟨_,hleft⟩ | ⟨_,hleft⟩
    · exact hleft.symm ▸ hdvd
    · exact (Nat.dvd_add_right (Nat.dvd_mul_left _ _)).mp (hleft.symm ▸ hdvd)
  -- on the errors that may still come, then on the counter
  induction hk : last-n generalizing n toProcess with
  | zero =>
    induction toProcess using Nat.strong_induction_on generalizing n with
    | _ toProcess ih =>
      refine transferFrom_step fun hpos => ?_
      rcases @round_left d s dev n _ hpos hdvd hlt with ⟨hneg,_⟩ | ⟨hsome,hleft⟩
      · exact absurd hneg (not_lt.mpr (hlast n (by omega) _))
      · have hbytes := Nat.mul_pos hsome (frameSize_pos d)
        exact ih _ (by omega) (hleft_dvd hpos hdvd hlt) (by omega) (by omega)
  | succ k ih =>
    refine transferFrom_step fun hpos => ih (hleft_dvd hpos hdvd hlt) ?_ (by omega)
    rcases @round_left d s dev n _ hpos hdvd hlt with ⟨_,hleft⟩ | ⟨_,hleft⟩ <;> omega

theorem sizeT_lt (n : ℤ) : sizeT n < 2^64 := by
  unfold sizeT
  omega

/-- The loop moves what there is exactly when the product that starts its counter does not
wrap, or wraps to nothing where there is an error. -/
theorem transfer_all (d : Direction) (s : Stream) (dev : Device) (avail : ℤ) :
    TransfersAll d s dev avail ↔
      0 ≤ avail ∧ avail*frameSize d < 2^64 ∨ avail < 0 ∧ (2^64 : ℤ) ∣ avail*frameSize d := by
  have hdvd := frameSize_dvd_sizeT d avail
  have hlt := sizeT_lt (avail*frameSize d)
  have hstart : sizeT (avail*frameSize d) = avail.toNat*frameSize d ↔
      0 ≤ avail ∧ avail*frameSize d < 2^64 ∨ avail < 0 ∧ (2^64 : ℤ) ∣ avail*frameSize d := by
    cases d <;> simp only [frameSize,sizeT] <;> omega
  rw [← hstart]
  constructor
  · rintro ⟨fuel,rounds,hrun,hmoved,_⟩
    rw [← hmoved]
    exact (transferFrom_moved hdvd hlt hrun).1.symm
  · intro heq
    obtain ⟨fuel,rounds,hrun⟩ := @transferFrom_ends d s dev 0 _ hdvd hlt
    obtain ⟨hsum,hfits⟩ := transferFrom_moved hdvd hlt hrun
    exact ⟨fuel,rounds,hrun,Nat.eq_of_mul_eq_mul_right (frameSize_pos d) (hsum.trans heq),hfits⟩

def stream : Stream := ⟨1024,false,true,by decide,by decide⟩

/-- It takes all the frames of a segment. -/
def eager : Device :=
  ⟨fun _ frames => frames,fun _ _ h => Or.inr ⟨Int.ofNat_le.mpr h,le_rfl⟩,
    ⟨0,fun _ _ frames => Int.natCast_nonneg frames⟩⟩

/-- The error for a broken pipe is taken for a number of frames. -/
theorem brokenPipe_transferred :
    (∃ fuel rounds, transfer .playback stream eager fuel (-32) = some rounds ∧
      moved rounds = 2^62-32) ∧ ¬TransfersAll .playback stream eager (-32) := by
  have hstart : sizeT (-32*frameSize .playback) = (2^62-32)*frameSize .playback := by decide
  have hdvd := frameSize_dvd_sizeT .playback (-32)
  have hlt := sizeT_lt (-32*frameSize .playback)
  constructor
  · obtain ⟨fuel,rounds,hrun⟩ := @transferFrom_ends .playback stream eager 0 _ hdvd hlt
    have hsum := (transferFrom_moved hdvd hlt hrun).1.trans hstart
    exact ⟨fuel,rounds,hrun,Nat.eq_of_mul_eq_mul_right (frameSize_pos .playback) hsum⟩
  · rintro ⟨fuel,rounds,hrun,hmoved,_⟩
    have hsum := (transferFrom_moved hdvd hlt hrun).1.trans hstart
    rw [hmoved] at hsum
    exact absurd hsum (by decide)

end AlsaTransfer
end FreshPlayer
