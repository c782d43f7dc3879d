import FreshPlayer.Transition
import Mathlib.Algebra.Order.Ring.Int

/-! Playback through JACK: a thread resamples into two ring buffers, one for each channel, and
the process callback of JACK drains them. A call on a ring is atomic, two calls are not. -/
namespace FreshPlayer
namespace AudioJack

def sizeofFloat : ℕ := 4

/-- A ring buffer, by the bytes written to it and read from it so far. -/
structure Ring where
  written : ℕ
  taken : ℕ
  deriving DecidableEq, Repr

def Ring.readSpace (r : Ring) : ℕ := r.written-r.taken

/-- `jack_ringbuffer_write`, with room for `capacity` bytes. -/
def Ring.write (capacity cnt : ℕ) (r : Ring) : Ring :=
  { r with written := r.written + min cnt (capacity-r.readSpace) }

/-- `jack_ringbuffer_read`. -/
def Ring.read (cnt : ℕ) (r : Ring) : Ring := { r with taken := r.taken + min cnt r.readSpace }

inductive Command
  | resampleNextChunk | terminate
  deriving DecidableEq, Repr

/-- The resampler thread: at its inner loop, with a chunk to resample, between the two rings,
popping a command, or gone. -/
inductive Resampler
  | checking | resampling
  | between (odone : ℕ)
  | popping | ended
  deriving DecidableEq, Repr

/-- The process callback: not in a call, or between the two rings. `seen` is a ghost, the bytes
that had been written to the first ring when it was read. -/
inductive Process
  | idle
  | between (nframes seen : ℕ)
  deriving DecidableEq, Repr

structure State where
  rbOut0 : Ring
  rbOut1 : Ring
  asyncQ : List Command
  resampler : Resampler
  process : Process
  closed : Bool
  deriving DecidableEq, Repr

def created : State := ⟨⟨0,0⟩,⟨0,0⟩,[],.checking,.idle,false⟩

inductive Action
  | check
  /-- The callback of the stream and the resampler, then the first write. -/
  | write0 (odone : ℕ)
  | write1
  | pop
  /-- `ja_process_cb` is called, up to its first read. -/
  | read0 (nframes : ℕ)
  | read1
  /-- `ja_destroy_stream`, up to the join. -/
  | destroy
  deriving DecidableEq, Repr

/-- The rings have the same capacity, chosen for `jackBufSize` bytes. -/
def step (capacity jackBufSize : ℕ) (s : State) : Action → Option State
  | .check =>
    if s.resampler = .checking then
      if s.rbOut0.readSpace < jackBufSize/2 then some { s with resampler := .resampling }
      else some { s with resampler := .popping }
    else none
  | .write0 odone =>
    if s.resampler = .resampling then
      some { s with
        rbOut0 := s.rbOut0.write capacity (odone*sizeofFloat), resampler := .between odone }
    else none
  | .write1 => match s.resampler with
    | .between odone => some { s with
        rbOut1 := s.rbOut1.write capacity (odone*sizeofFloat), resampler := .checking }
    | _ => none
  | .pop =>
    if s.resampler = .popping then match s.asyncQ with
      | .resampleNextChunk::q => some { s with asyncQ := q, resampler := .checking }
      | .terminate::q => some { s with asyncQ := q, resampler := .ended }
      | [] => none
    else none
  | .read0 nframes =>
    if s.process = .idle ∧ s.closed = false then
      some { s with
        rbOut0 := s.rbOut0.read (nframes*sizeofFloat)
        process := .between nframes s.rbOut0.written }
    else none
  | .read1 => match s.process with
    | .between nframes _ => some { s with
        rbOut1 := s.rbOut1.read (nframes*sizeofFloat)
        asyncQ := s.asyncQ ++ [.resampleNextChunk], process := .idle }
    | .idle => none
  | .destroy =>
    if s.process = .idle ∧ s.closed = false then
      some { s with closed := true, asyncQ := s.asyncQ ++ [.terminate] }
    else none

def machine (capacity jackBufSize : ℕ) : Machine State Action :=
  ⟨created,step capacity jackBufSize⟩

/-- No call is under way: as many frames have been read from one ring as from the other. -/
def Lockstep (s : State) : Prop := s.process = .idle → s.rbOut0.taken = s.rbOut1.taken

/-- The second ring is read when it has been written as far as the first was when that was
read, unless both had all the frames that were asked for. -/
def Steady (s : State) : Action → Prop
  | .read1 => match s.process with
    | .between nframes seen => s.rbOut1.written = seen ∨
        s.rbOut1.taken+nframes*sizeofFloat ≤ seen ∧
          s.rbOut1.taken+nframes*sizeofFloat ≤ s.rbOut1.written
    | .idle => True
  | _ => True

/-- Lockstep, also in the middle of a call. -/
def Abreast (s : State) : Prop :=
  match s.process with
  | .idle => s.rbOut0.taken = s.rbOut1.taken
  | .between nframes seen =>
    s.rbOut0.taken = s.rbOut1.taken + min (nframes*sizeofFloat) (seen-s.rbOut1.taken)

/-- A ring is not read further than it was written. -/
structure Bounded (s : State) : Prop where
  rbOut0 : s.rbOut0.taken ≤ s.rbOut0.written
  rbOut1 : s.rbOut1.taken ≤ s.rbOut1.written
  seen : ∀ nframes seen, s.process = .between nframes seen → s.rbOut0.taken ≤ seen

instance (s : State) (a : Action) : Decidable (Steady s a) := by
  unfold Steady
  split
  · split <;> infer_instance
  · infer_instance

variable {capacity jackBufSize : ℕ} {s t : State} {a : Action}

theorem taken_read_le {r : Ring} (h : r.taken ≤ r.written) (cnt : ℕ) :
    (r.read cnt).taken ≤ (r.read cnt).written := by
  simp only [Ring.read,Ring.readSpace]
  omega

theorem taken_le_written_write {r : Ring} (h : r.taken ≤ r.written) (capacity cnt : ℕ) :
    (r.write capacity cnt).taken ≤ (r.write capacity cnt).written := by
  simp only [Ring.write]
  omega

/-- A read moves the process callback, every other step leaves it and what has been read. -/
theorem step_cases (h : step capacity jackBufSize s a = some t) :
    (∃ nframes, a = .read0 nframes ∧ s.process = .idle ∧
      t = { s with
        rbOut0 := s.rbOut0.read (nframes*sizeofFloat)
        process := .between nframes s.rbOut0.written }) ∨
    (∃ nframes seen, a = .read1 ∧ s.process = .between nframes seen ∧
      t = { s with
        rbOut1 := s.rbOut1.read (nframes*sizeofFloat)
        asyncQ := s.asyncQ ++ [.resampleNextChunk], process := .idle }) ∨
    (Steady s a ∧ t.process = s.process ∧
      (t.rbOut0 = s.rbOut0 ∨ ∃ cnt, t.rbOut0 = s.rbOut0.write capacity cnt) ∧
      (t.rbOut1 = s.rbOut1 ∨ ∃ cnt, t.rbOut1 = s.rbOut1.write capacity cnt)) := by
  cases a with
  | check =>
    obtain ⟨_,h⟩ := Option.ite_none_right_eq_some.mp h
    split at h <;> cases h <;> exact Or.inr (Or.inr ⟨trivial,rfl,Or.inl rfl,Or.inl rfl⟩)
  | write0 odone =>
    obtain ⟨_,h⟩ := Option.ite_none_right_eq_some.mp h
    cases h
    exact Or.inr (Or.inr ⟨trivial,rfl,Or.inr ⟨_,rfl⟩,Or.inl rfl⟩)
  | write1 =>
    unfold step at h
    dsimp only at h
    split at h
    · cases h
      exact Or.inr (Or.inr ⟨trivial,rfl,Or.inl rfl,Or.inr ⟨_,rfl⟩⟩)
    · cases h
  | pop =>
    obtain ⟨_,h⟩ := Option.ite_none_right_eq_some.mp h
    split at h
    · cases h
      exact Or.inr (Or.inr ⟨trivial,rfl,Or.inl rfl,Or.inl rfl⟩)
    · cases h
      exact Or.inr (Or.inr ⟨trivial,rfl,Or.inl rfl,Or.inl rfl⟩)
    · cases h
  | read0 nframes =>
    obtain ⟨⟨hidle,_⟩,h⟩ := Option.ite_none_right_eq_some.mp h
    cases h
    exact Or.inl ⟨nframes,rfl,hidle,rfl⟩
  | read1 =>
    unfold step at h
    dsimp only at h
    split at h
    · rename_i nframes seen hp
      cases h
      exact Or.inr (Or.inl ⟨nframes,seen,rfl,hp,rfl⟩)
    · cases h
  | destroy =>
    obtain ⟨_,h⟩ := Option.ite_none_right_eq_some.mp h
    cases h
    exact Or.inr (Or.inr ⟨trivial,rfl,Or.inl rfl,Or.inl rfl⟩)

theorem bounded_step (hb : Bounded s) (h : step capacity jackBufSize s a = some t) :
    Bounded t := by
  rcases step_cases h with ⟨nframes,_,_,rfl⟩ | ⟨nframes,seen,_,_,rfl⟩ | ⟨_,hp,h0,h1⟩
  · refine ⟨taken_read_le hb.rbOut0 _,hb.rbOut1,fun _ _ hp => ?_⟩
    cases hp
    exact taken_read_le hb.rbOut0 _
  · exact ⟨hb.rbOut0,taken_read_le hb.rbOut1 _,fun _ _ hp => nomatch hp⟩
  · have htaken : t.rbOut0.taken = s.rbOut0.taken := by
      rcases h0 with h0 | ⟨_,h0⟩ <;> rw [h0]
      rfl
    refine ⟨?_,?_,fun nframes seen hpt => htaken ▸ hb.seen nframes seen (hp ▸ hpt)⟩
    · rcases h0 with h0 | ⟨cnt,h0⟩ <;> rw [h0]
      · exact hb.rbOut0
      · exact taken_le_written_write hb.rbOut0 capacity cnt
    · rcases h1 with h1 | ⟨cnt,h1⟩ <;> rw [h1]
      · exact hb.rbOut1
      · exact taken_le_written_write hb.rbOut1 capacity cnt

/-- Only the second read decides: it takes what the first took exactly if it is steady. -/
theorem abreast_step (hb : Bounded s) (hs : Abreast s)
    (h : step capacity jackBufSize s a = some t) : Abreast t ↔ Steady s a := by
  rcases step_cases h with ⟨nframes,rfl,hp,rfl⟩ | ⟨nframes,seen,rfl,hp,rfl⟩ | ⟨hsteady,hp,h0,h1⟩
  · refine iff_of_true ?_ trivial
    simp only [Abreast,hp] at hs
    simp only [Abreast,Ring.read,Ring.readSpace]
    omega
  · have hseen := hb.seen nframes seen hp
    have hwritten := hb.rbOut1
    simp only [Abreast,hp] at hs
    simp only [Abreast,Steady,hp,Ring.read,Ring.readSpace]
    omega
  · refine iff_of_true ?_ hsteady
    have h0 : t.rbOut0.taken = s.rbOut0.taken := by
      rcases h0 with h0 | ⟨_,h0⟩ <;> rw [h0]
      rfl
    have h1 : t.rbOut1.taken = s.rbOut1.taken := by
      rcases h1 with h1 | ⟨_,h1⟩ <;> rw [h1]
      rfl
    unfold Abreast at hs ⊢
    rw [hp,h0,h1]
    exact hs

theorem bounded_created : Bounded created :=
  ⟨le_rfl,le_rfl,fun _ _ hp => by cases hp⟩

/-- Where calls end in lockstep, the ones under way are abreast. -/
theorem abreast_of_lockstep (hb : Bounded s) (hs : Abreast s)
    (h : step capacity jackBufSize s a = some t) (ht : Lockstep t) : Abreast t := by
  have hstep := abreast_step hb hs h
  rcases step_cases h with ⟨_,rfl,_,_⟩ | ⟨_,_,_,_,rfl⟩ | ⟨hsteady,_⟩
  · exact hstep.mpr trivial
  · exact ht rfl
  · exact hstep.mpr hsteady

theorem lockstep_of_abreast (hs : Abreast s) : Lockstep s := fun hidle => by
  unfold Abreast at hs
  rw [hidle] at hs
  exact hs

/-- The channels stay together exactly if no second read finds more or less than the first. -/
theorem stereo_lockstep (capacity jackBufSize : ℕ) (ls : List Action) (u : State)
    (hr : (machine capacity jackBufSize).exec created ls = some u) :
    (machine capacity jackBufSize).AlwaysFrom Lockstep created ls ↔
      (machine capacity jackBufSize).EachFrom Steady created ls := by
  have hstart : Abreast created := rfl
  rw [← Machine.always_iff_each Bounded (fun _ _ _ hi ht => bounded_step hi ht)
    (fun _ _ _ hi hp ht => abreast_step hi hp ht) bounded_created hstart hr]
  constructor
  · intro h
    have hboth : (machine capacity jackBufSize).AlwaysFrom (fun s => Bounded s ∧ Abreast s)
        created ls :=
      h.strengthen (fun _ _ _ hs ht hl =>
        ⟨bounded_step hs.1 ht,abreast_of_lockstep hs.1 hs.2 ht hl⟩) ⟨bounded_created,hstart⟩
    exact hboth.mono fun _ hs => hs.2
  · exact Machine.AlwaysFrom.mono fun _ hs => lockstep_of_abreast hs

/-- A chunk of ten frames in both rings, then a call for eight. -/
theorem stereo_lockstep_chunk :
    (machine 63 64).AlwaysFrom Lockstep created [.check,.write0 10,.write1,.read0 8,.read1] :=
  (stereo_lockstep 63 64 _ _ rfl).mpr (by decide)

/-- JACK calls between the two writes of the first chunk: five frames are read from the first
ring and none from the second, and the next call leaves the channels as far apart. -/
theorem channels_shifted :
    ∃ s, (machine 63 64).exec created
      [.check,.write0 5,.read0 5,.read1,.write1,.check,.write0 5,.write1,.read0 5,.read1] =
        some s ∧
      s.process = .idle ∧ s.rbOut0.taken/sizeofFloat = 10 ∧ s.rbOut1.taken/sizeofFloat = 5 ∧
      ¬Lockstep s :=
  ⟨_,rfl,rfl,rfl,rfl,fun h => absurd (h rfl) (by decide)⟩

end AudioJack
end FreshPlayer
