import FreshPlayer.VideoCapture

/-! The buffers of a capture and their count. The count is set when Open makes the arrays, and
never reset. -/
namespace FreshPlayer
namespace VideoCapture

open Deed

def held (s : State) : List ℕ := s.buffers.getD []

/-- The count is that of the buffers and of the flags there are, so that ReuseBuffer writes
into the flags or nowhere. Each buffer made is held or was released once. -/
structure Consistent (s : State) : Prop where
  buffers : s.alive = true → (held s).length = s.bufferCount
  flags : s.alive = true → (s.bufferIsFree.getD []).length = s.bufferCount
  reuse : s.alive = true → ∀ k, (ppbVideoCaptureReuseBuffer k s).isSome = true
  complete : Complete s.log (held s)

/-- Close is called only if Open has not made buffers. Open, once it makes the arrays, makes all
the buffers, and there are none yet. -/
def Orderly (s : State) : Action → Prop
  | .openCapture _ .noAccess | .openCapture _ .failed => True
  | .openCapture _ .noBuffers | .openCapture _ .noFlags => False
  | .openCapture requested (.made n) => max requested 5 ≤ n ∧ s.bufferCount = 0
  | .destroy => s.bufferCount = 0
  | _ => True

instance (s : State) (a : Action) : Decidable (Orderly s a) := by
  unfold Orderly
  split <;> infer_instance

variable {s t : State}

theorem length_createBuffers (n : ℕ) (log : List Deed) : (createBuffers n log).2.length = n := by
  induction n generalizing log with
  | zero => rfl
  | succ n ih => rw [createBuffers,List.length_cons,ih]

theorem carries_createBuffers (n : ℕ) (log : List Deed) (ids : List ℕ) :
    Carries (log,ids) ((createBuffers n log).1,(createBuffers n log).2 ++ ids) True := by
  induction n generalizing log ids with
  | zero => exact .refl _
  | succ n ih =>
    have hrest := ih (.create log.length::log) (log.length::ids)
    have hmove : Carries ((createBuffers (n+1) log).1,
        (createBuffers n (.create log.length::log)).2 ++ log.length::ids)
        ((createBuffers (n+1) log).1,(createBuffers (n+1) log).2 ++ ids) True :=
      .perm List.perm_middle
    exact (((Carries.create log ids).trans hrest).trans hmove).congr (by simp)

theorem carries_releaseBuffers (buffers : List ℕ) (log : List Deed) (ids : List ℕ) :
    Carries (log,buffers ++ ids) (releaseBuffers buffers log,ids) True := by
  induction buffers generalizing log with
  | nil => exact .refl _
  | cons o buffers ih =>
    exact ((Carries.release log o (buffers ++ ids)).trans (ih (.release o::log))).congr (by simp)

/-- Buffers that are not released on the way. -/
def lost (s : State) : Action → List ℕ
  | .openCapture _ .noAccess | .openCapture _ .failed => []
  | .openCapture _ _ => held s
  | .destroy | .lastRelease => (held s).drop s.bufferCount
  | _ => []

theorem carries_lost (s : State) : Carries (s.log,held s) (s.log,[]) (held s = []) := by
  have hl := Carries.lose s.log (held s) []
  rwa [List.append_nil] at hl

theorem carries_open (requested : ℕ) (outcome : Outcome) (s : State) :
    Carries (s.log,held s) ((ppbVideoCaptureOpen requested outcome s).log,
      held (ppbVideoCaptureOpen requested outcome s))
      (lost s (.openCapture requested outcome) = []) := by
  cases outcome with
  | noAccess => exact (Carries.refl _).congr (by simp [lost])
  | failed => exact (Carries.refl _).congr (by simp [lost])
  | noBuffers => exact carries_lost s
  | noFlags => exact carries_lost s
  | made n =>
    unfold ppbVideoCaptureOpen
    dsimp only
    split
    · have hmade := (carries_lost s).trans (carries_createBuffers n s.log [])
      rw [List.append_nil] at hmade
      have hrel := carries_releaseBuffers (createBuffers n s.log).2 (createBuffers n s.log).1 []
      rw [List.append_nil] at hrel
      exact (hmade.trans hrel).congr (by simp [lost])
    · have hmade := (carries_lost s).trans (carries_createBuffers (max requested 5) s.log [])
      rw [List.append_nil] at hmade
      exact hmade.congr (by simp [lost])

theorem carries_destroy (s : State) :
    Carries (s.log,held s) ((ppbVideoCaptureDestroy s).log,held (ppbVideoCaptureDestroy s))
      ((held s).drop s.bufferCount = []) := by
  have hrel := carries_releaseBuffers ((held s).take s.bufferCount) s.log
    ((held s).drop s.bufferCount)
  rw [List.take_append_drop] at hrel
  have hlost := Carries.lose (ppbVideoCaptureDestroy s).log ((held s).drop s.bufferCount) []
  rw [List.append_nil] at hlost
  exact (hrel.trans hlost).congr (by simp)

/-- The rest of the steps leaves the buffers alone, and the number of flags. -/
structure Same (s t : State) : Prop where
  alive : t.alive = s.alive
  count : t.bufferCount = s.bufferCount
  buffers : held t = held s
  flags : (t.bufferIsFree.getD []).length = (s.bufferIsFree.getD []).length
  log : t.log = s.log

theorem Same.reuse {k : ℕ} (h : ppbVideoCaptureReuseBuffer k s = some t) : Same s t := by
  unfold ppbVideoCaptureReuseBuffer at h
  split at h
  · split at h
    · rename_i flags hf
      split at h
      · cases h
        refine ⟨rfl,rfl,rfl,?_,rfl⟩
        rw [hf]
        exact List.length_set
      · cases h
    · cases h
  · cases h
    exact ⟨rfl,rfl,rfl,rfl,rfl⟩

theorem Same.threadPick (h : threadPick s = some t) : Same s t := by
  obtain ⟨found,_,h⟩ := Option.bind_eq_some_iff.mp h
  split at h
  · cases h
    exact ⟨rfl,rfl,rfl,rfl,rfl⟩
  · split at h
    · cases h
      refine ⟨rfl,rfl,rfl,?_,rfl⟩
      cases s.bufferIsFree with
      | none => rfl
      | some flags => exact List.length_set
    · cases h

/-- What a step does to the buffers. -/
theorem step_cases {a : Action} (h : step s a = some t) :
    (∃ requested outcome, a = .openCapture requested outcome ∧ s.alive = true ∧
      t = ppbVideoCaptureOpen requested outcome s) ∨
    (a = .destroy ∧ s.alive = true ∧ t = { ppbVideoCaptureDestroy s with phase := .idle }) ∨
    (a = .lastRelease ∧ s.alive = true ∧ t = { ppbVideoCaptureDestroy s with alive := false }) ∨
    (Same s t ∧ lost s a = [] ∧ Orderly s a) := by
  cases a with
  | openCapture requested outcome =>
    obtain ⟨halive,h⟩ := Option.ite_none_right_eq_some.mp h
    cases h
    exact Or.inl ⟨requested,outcome,rfl,halive,rfl⟩
  | startCapture =>
    obtain ⟨_,h⟩ := Option.ite_none_right_eq_some.mp h
    cases h
    refine Or.inr (Or.inr (Or.inr ⟨?_,rfl,trivial⟩))
    unfold ppbVideoCaptureStartCapture
    split <;> exact ⟨rfl,rfl,rfl,rfl,rfl⟩
  | reuseBuffer session buffer =>
    obtain ⟨_,h⟩ := Option.ite_none_right_eq_some.mp h
    cases session with
    | none => exact Or.inr (Or.inr (Or.inr ⟨Same.reuse h,rfl,trivial⟩))
    | some n =>
      obtain ⟨_,h⟩ := Option.ite_none_right_eq_some.mp h
      obtain ⟨u,hu,rfl⟩ := Option.map_eq_some_iff.mp h
      have hs := Same.reuse hu
      exact Or.inr (Or.inr (Or.inr ⟨⟨hs.alive,hs.count,hs.buffers,hs.flags,hs.log⟩,rfl,trivial⟩))
  | stopCapture =>
    obtain ⟨_,h⟩ := Option.ite_none_right_eq_some.mp h
    cases h
    refine Or.inr (Or.inr (Or.inr ⟨?_,rfl,trivial⟩))
    unfold ppbVideoCaptureStopCapture
    split <;> exact ⟨rfl,rfl,rfl,rfl,rfl⟩
  | close =>
    obtain ⟨_,h⟩ := Option.ite_none_right_eq_some.mp h
    cases h
    refine Or.inr (Or.inr (Or.inr ⟨?_,rfl,trivial⟩))
    unfold ppbVideoCaptureClose
    split <;> exact ⟨rfl,rfl,rfl,rfl,rfl⟩
  | join =>
    obtain ⟨_,h⟩ := Option.ite_none_right_eq_some.mp h
    split at h <;> cases h <;> exact Or.inr (Or.inr (Or.inr ⟨⟨rfl,rfl,rfl,rfl,rfl⟩,rfl,trivial⟩))
  | destroy =>
    obtain ⟨hjoined,h⟩ := Option.ite_none_right_eq_some.mp h
    cases h
    exact Or.inr (Or.inl ⟨rfl,hjoined.1,rfl⟩)
  | lastRelease =>
    obtain ⟨hidle,h⟩ := Option.ite_none_right_eq_some.mp h
    cases h
    exact Or.inr (Or.inr (Or.inl ⟨rfl,hidle.1,rfl⟩))
  | threadPick =>
    obtain ⟨_,h⟩ := Option.ite_none_right_eq_some.mp h
    exact Or.inr (Or.inr (Or.inr ⟨Same.threadPick h,rfl,trivial⟩))
  | threadPost =>
    obtain ⟨ready,_,rfl⟩ := threadPost_some h
    exact Or.inr (Or.inr (Or.inr ⟨⟨rfl,rfl,rfl,rfl,rfl⟩,rfl,trivial⟩))
  | threadExit =>
    obtain ⟨_,h⟩ := Option.ite_none_right_eq_some.mp h
    cases h
    exact Or.inr (Or.inr (Or.inr ⟨⟨rfl,rfl,rfl,rfl,rfl⟩,rfl,trivial⟩))
  | onBufferReady ready =>
    obtain ⟨_,h⟩ := Option.ite_none_right_eq_some.mp h
    cases h
    exact Or.inr (Or.inr (Or.inr ⟨⟨rfl,rfl,rfl,rfl,rfl⟩,rfl,trivial⟩))

theorem step_carries {a : Action} (h : step s a = some t) :
    Carries (s.log,held s) (t.log,held t) (lost s a = []) := by
  rcases step_cases h with ⟨requested,outcome,rfl,_,rfl⟩ | ⟨rfl,_,rfl⟩ | ⟨rfl,_,rfl⟩ |
    ⟨hs,hl,_⟩
  · exact carries_open requested outcome s
  · exact carries_destroy s
  · exact carries_destroy s
  · rw [hs.log,hs.buffers,hl]
    exact (Carries.refl _).congr (by simp)

/-- The lengths of the arrays decide. -/
theorem consistent_iff : Consistent s ↔ (s.alive = true → (held s).length = s.bufferCount ∧
    (s.bufferIsFree.getD []).length = s.bufferCount) ∧ Complete s.log (held s) := by
  constructor
  · exact fun h => ⟨fun ha => ⟨h.buffers ha,h.flags ha⟩,h.complete⟩
  · rintro ⟨hl,hc⟩
    refine ⟨fun ha => (hl ha).1,fun ha => (hl ha).2,fun ha k => ?_,hc⟩
    have hflags := (hl ha).2
    unfold ppbVideoCaptureReuseBuffer
    split
    · rename_i hk
      cases hf : s.bufferIsFree with
      | none =>
        rw [hf] at hflags
        exact absurd hk (by simp [← hflags])
      | some flags =>
        rw [hf] at hflags
        dsimp only [Option.getD_some] at hflags ⊢
        rw [if_pos (by omega)]
        rfl
    · rfl

theorem Consistent.held_nil (h : Consistent s) (ha : s.alive = true) :
    held s = [] ↔ s.bufferCount = 0 := by
  rw [← h.buffers ha,List.length_eq_zero_iff]

theorem Consistent.same (h : Consistent s) (hs : Same s t) : Consistent t := by
  refine consistent_iff.mpr ⟨fun hf => ?_,?_⟩
  · rw [hs.alive] at hf
    rw [hs.buffers,hs.flags,hs.count]
    exact ⟨h.buffers hf,h.flags hf⟩
  · rw [hs.log,hs.buffers]
    exact h.complete

theorem open_consistent {requested : ℕ} {outcome : Outcome} (hc : Custody s.log (held s))
    (h : Consistent s) (ha : s.alive = true) :
    Consistent (ppbVideoCaptureOpen requested outcome s) ↔
      Orderly s (.openCapture requested outcome) := by
  have hpos : max requested 5 ≠ 0 := by omega
  have hcomplete := (carries_open requested outcome s).complete hc
  cases outcome with
  | noAccess => exact iff_of_true (h.same ⟨rfl,rfl,rfl,rfl,rfl⟩) trivial
  | failed => exact iff_of_true (h.same ⟨rfl,rfl,rfl,rfl,rfl⟩) trivial
  | noBuffers => exact iff_of_false (fun hcons => hpos ((hcons.held_nil ha).mp rfl)) id
  | noFlags => exact iff_of_false (fun hcons => hpos ((hcons.held_nil ha).mp rfl)) id
  | made n =>
    by_cases hn : n < max requested 5
    · refine iff_of_false ?_ fun ho => absurd ho.1 (by omega)
      rw [ppbVideoCaptureOpen,if_pos hn]
      exact fun hcons => hpos ((hcons.held_nil ha).mp rfl)
    · rw [consistent_iff,hcomplete]
      rw [ppbVideoCaptureOpen,if_neg hn]
      have hb := h.held_nil ha
      constructor
      · rintro ⟨_,_,hl⟩
        exact ⟨by omega,hb.mp hl⟩
      · rintro ⟨_,h0⟩
        refine ⟨fun _ => ⟨?_,?_⟩,h.complete,hb.mpr h0⟩
        · exact length_createBuffers _ _
        · exact List.length_replicate

theorem destroy_complete (hc : Custody s.log (held s)) (h : Consistent s) (ha : s.alive = true) :
    Complete (ppbVideoCaptureDestroy s).log (held (ppbVideoCaptureDestroy s)) := by
  refine ((carries_destroy s).complete hc).mpr ⟨h.complete,?_⟩
  rw [← h.buffers ha,List.drop_length]

theorem step_consistent {a : Action} (hc : Custody s.log (held s)) (h : Consistent s)
    (ht : step s a = some t) : Consistent t ↔ Orderly s a := by
  rcases step_cases ht with ⟨requested,outcome,rfl,ha,rfl⟩ | ⟨rfl,ha,rfl⟩ | ⟨rfl,ha,rfl⟩ |
    ⟨hs,_,ho⟩
  · exact open_consistent hc h ha
  · have hcomplete := destroy_complete hc h ha
    constructor
    · exact fun hcons => (hcons.held_nil ha).mp rfl
    · intro h0
      refine consistent_iff.mpr ⟨fun _ => ?_,hcomplete⟩
      exact ⟨Eq.symm h0,Eq.symm h0⟩
  · refine iff_of_true (consistent_iff.mpr ⟨fun hf => ?_,destroy_complete hc h ha⟩) trivial
    exact Bool.noConfusion hf
  · exact iff_of_true (h.same hs) ho

theorem created_consistent : Consistent created :=
  consistent_iff.mpr ⟨fun _ => ⟨rfl,rfl⟩,Complete.nil⟩

/-- The count, the arrays and the buffers agree throughout a run exactly if nothing is closed or
opened again, and no Open fails after it has set the count. -/
theorem buffers_bookkept_iff {ls : List Action} {u : State}
    (hr : machine.exec created ls = some u) :
    machine.AlwaysFrom Consistent created ls ↔ machine.EachFrom Orderly created ls :=
  Machine.always_iff_each (fun s => Custody s.log (held s))
    (fun _ _ _ h hs => (step_carries hs).custody h)
    (fun _ _ _ hc h hs => step_consistent hc h hs) Custody.nil created_consistent hr

/-- A capture that is stopped and destroyed without having been closed. -/
def neverClosed : List Action :=
  [.openCapture 0 .failed,.openCapture 2 (.made 5),.startCapture,.threadPick,.threadPost,
    .onBufferReady (1,0),.reuseBuffer (some 1) 0,.stopCapture,.threadExit,.join,.lastRelease]

theorem neverClosed_bookkept : ∃ u, machine.exec created neverClosed = some u ∧
    machine.AlwaysFrom Consistent created neverClosed := by
  obtain ⟨u,hr⟩ : ∃ u, machine.exec created neverClosed = some u := ⟨_,rfl⟩
  exact ⟨u,hr,(buffers_bookkept_iff hr).mpr (by decide)⟩

/-- After Close the count is still five, and ReuseBuffer writes where the flags were. -/
theorem closed_miscounted : ¬∀ (ls : List Action) (u : State),
    machine.exec created ls = some u → machine.AlwaysFrom Consistent created ls := by
  intro h
  obtain ⟨u,hr,ha,hreuse⟩ : ∃ u, machine.exec created
      [.openCapture 5 (.made 5),.close,.destroy] = some u ∧ u.alive = true ∧
      (ppbVideoCaptureReuseBuffer 0 u).isSome = false := ⟨_,rfl,rfl,rfl⟩
  have hc := ((h _ u hr).last hr).reuse ha 0
  rw [hreuse] at hc
  exact Bool.noConfusion hc

end VideoCapture
end FreshPlayer
