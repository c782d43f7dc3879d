import FreshPlayer.MessageLoopConservation

/-! What the outermost run leaves behind. Every accepted work task stays in one of
the queues until it is called, and the stack of activations says which flags a poster
reads; so a run that drained both queues before it left has called everything. -/
namespace FreshPlayer
namespace MessageLoop

/-- The flags of `ppb_message_loop_run`. -/
def runFlags : Flags := ⟨false,true,false⟩

/-- The loop is not the browser thread's, whose posts are accepted in teardown. -/
def NotBrowserThread : Action → Prop
  | .postWork b _ _ _ _ _ => b = false
  | _ => True

instance (a : Action) : Decidable (NotBrowserThread a) := by
  apply a.casesOn (motive := fun a => Decidable (NotBrowserThread a)) <;> intros <;>
    dsimp only [NotBrowserThread] <;> infer_instance

/-- All accepted work has been called and none of it is queued. -/
def NothingAbandoned (L : Ledger) : Prop :=
  ∀ x ∈ L.accepted, x.terminate = false → x ∈ L.called ∧ x ∉ L.asyncQ ∧ x ∉ L.intQ.keys

instance (L : Ledger) : Decidable (NothingAbandoned L) :=
  inferInstanceAs (Decidable (∀ x ∈ L.accepted, _))

/-- No work is posted with a negative depth or dropped on its way into `int_q`, and an
outermost run in teardown that finds no task has no work left in `async_q` either. -/
def LeavesNoWork (s : State) : Action → Prop
  | .postWork b _ _ _ depth _ => b = false ∧ 0 ≤ depth
  | .pump | .pop => ∀ x ∈ s.asyncQ.head?, x.terminate = false → ¬s.intQ.Clashes x
  | .iterate _ => ∀ f ∈ s.frames.head?, s.frames.length = 1 → f.flags = runFlags →
      f.teardown = true → findFirstTaskWithAppropriateDepth s.intQ f.depth = none →
      ∀ x ∈ s.asyncQ, x.terminate = true
  | _ => True

instance (s : State) (a : Action) : Decidable (LeavesNoWork s a) := by
  apply a.casesOn (motive := fun a => Decidable (LeavesNoWork s a)) <;> intros <;>
    dsimp only [LeavesNoWork] <;> infer_instance

/-! The stack of activations. -/

/-- The innermost activation has the loop's flag and depth, and each activation saved
the flags of the one it interrupted. -/
inductive Stack : List Frame → Bool → Bool → ℤ → Prop
  | idle (teardown : Bool) : Stack [] false teardown 0
  | push {f : Frame} {fs : List Frame} {running teardown : Bool} {depth : ℤ}
      (below : Stack fs running teardown depth) (nested : running = true → f.flags.nested = true)
      (savedRunning : f.savedRunning = running) (savedTeardown : f.savedTeardown = teardown)
      (atDepth : f.depth = if f.flags.increaseDepth then depth+1 else depth)
      (destroyMl : f.destroyMl = true → depth ≤ 0) : Stack (f::fs) true f.teardown f.depth

theorem Stack.head {f : Frame} {fs : List Frame} {r td : Bool} {d : ℤ}
    (h : Stack (f::fs) r td d) : r = true ∧ td = f.teardown ∧ d = f.depth := by
  cases h
  exact ⟨rfl,rfl,rfl⟩

/-- The flags and depth the innermost activation will restore. -/
theorem Stack.tail {f : Frame} {fs : List Frame} {r td : Bool} {d : ℤ}
    (h : Stack (f::fs) r td d) : ∃ depth, Stack fs f.savedRunning f.savedTeardown depth ∧
      (f.savedRunning = true → f.flags.nested = true) ∧
      f.depth = (if f.flags.increaseDepth then depth+1 else depth) ∧
      (f.destroyMl = true → depth ≤ 0) := by
  cases h with
  | push below hn hr htd hd hdes =>
    rw [hr,htd]
    exact ⟨_,below,hn,hd,hdes⟩

theorem Stack.depth_nonneg {fs : List Frame} {r td : Bool} {d : ℤ} (h : Stack fs r td d) :
    0 ≤ d := by
  induction h with
  | idle => exact le_refl 0
  | push _ _ _ _ hd _ ih =>
    rw [hd]
    split_ifs <;> omega

/-- Above an outermost run the depth is positive. -/
theorem Stack.depth_pos {fs : List Frame} {r td : Bool} {d : ℤ} (h : Stack fs r td d)
    {g : Frame} (hg : fs.getLast? = some g) (hr : g.flags = runFlags) : 0 < d := by
  induction h with
  | idle => simp at hg
  | @push f fs' _ _ depth below _ _ _ hd _ ih =>
    cases fs' with
    | nil =>
      have hfg : f = g := by simpa using hg
      have hz := below.depth_nonneg
      rw [hd,hfg,hr]
      simp only [runFlags,if_true]
      omega
    | cons f' fs'' =>
      have hpos : 0 < depth := ih (by simpa using hg)
      rw [hd]
      split_ifs <;> omega

/-- The innermost activation `f` of `s` has become `f'`. -/
structure Advance (s t : State) (f f' : Frame) (fs : List Frame) : Prop where
  frames : t.frames = f'::fs
  flags : f'.flags = f.flags
  savedRunning : f'.savedRunning = f.savedRunning
  savedTeardown : f'.savedTeardown = f.savedTeardown
  depth : f'.depth = f.depth
  destroyMl : f'.destroyMl = true → f.destroyMl = true ∨ f.flags.increaseDepth = true ∧ f.depth ≤ 1
  running : t.running = s.running
  loopDepth : t.depth = s.depth
  refCnt : t.refCnt = s.refCnt
  teardown : s.teardown = f.teardown → t.teardown = f'.teardown

theorem Stack.advance {s t : State} {f f' : Frame} {fs : List Frame} (hf : s.frames = f::fs)
    (h : Stack s.frames s.running s.teardown s.depth) (ha : Advance s t f f' fs) :
    Stack t.frames t.running t.teardown t.depth := by
  rw [hf] at h
  obtain ⟨hr,htd,hd⟩ := h.head
  obtain ⟨depth,below,hn,hdep,hdes⟩ := h.tail
  rw [ha.frames,ha.running,hr,ha.teardown htd,ha.loopDepth,hd,← ha.depth]
  refine .push below (by rw [ha.flags]; exact hn) ha.savedRunning ha.savedTeardown
    (by rw [ha.depth,ha.flags]; exact hdep) fun hx => ?_
  rcases ha.destroyMl hx with hx | ⟨hi,hle⟩
  · exact hdes hx
  · rw [hdep,if_pos hi] at hle
    omega

/-- Why an activation leaves: a quit of a nested loop, or the lack of tasks. -/
def LeavesFor (s : State) (f : Frame) : Prop :=
  1 < f.depth ∨ f.flags.increaseDepth = false ∨
    findFirstTaskWithAppropriateDepth s.intQ f.depth = none ∧
      (f.teardown = true ∨ f.flags.exitOnEmpty = true)

theorem runIntPump_advance {s : State} {f : Frame} {fs : List Frame} (hf : s.frames = f::fs)
    (hp : f.pc = .pumping) :
    ∃ f', Advance s (runIntPump s f fs) f f' fs ∧ f'.pc ≠ .leaving := by
  unfold runIntPump
  split_ifs
  · exact ⟨_,⟨rfl,rfl,rfl,rfl,rfl,Or.inl,rfl,rfl,rfl,id⟩,nofun⟩
  · exact ⟨f,⟨hf,rfl,rfl,rfl,rfl,Or.inl,rfl,rfl,rfl,id⟩,by simp [hp]⟩

theorem runIntIterate_advance {s : State} {f : Frame} {fs : List Frame} (hf : s.frames = f::fs)
    (hp : f.pc = .looping) (now : Timespec) :
    ∃ f', Advance s (runIntIterate s f fs now) f f' fs ∧
      (f'.pc = .leaving → LeavesFor s f ∧ f'.teardown = f.teardown) := by
  have hpc : f.pc ≠ .leaving := by simp [hp]
  unfold runIntIterate
  split
  · split_ifs
    · unfold runIntDue
      split_ifs with ht hn ha hc
      · refine ⟨_,⟨rfl,rfl,rfl,rfl,rfl,Or.inl,rfl,rfl,rfl,id⟩,fun _ => ⟨?_,rfl⟩⟩
        rcases Bool.or_eq_true_iff.mp hn with hn | hn
        · exact Or.inl (by simpa using hn)
        · exact Or.inr (Or.inl (by simpa using hn))
      · have hn' : f.depth ≤ 1 ∧ f.flags.increaseDepth = true := by simpa using hn
        exact ⟨_,⟨rfl,rfl,rfl,rfl,rfl,fun _ => Or.inr ⟨hn'.2,hn'.1⟩,rfl,rfl,rfl,fun _ => rfl⟩,
          fun h => absurd h hpc⟩
      · exact ⟨_,⟨rfl,rfl,rfl,rfl,rfl,Or.inl,rfl,rfl,rfl,id⟩,fun h => absurd h hpc⟩
      · exact ⟨f,⟨hf,rfl,rfl,rfl,rfl,Or.inl,rfl,rfl,rfl,id⟩,fun h => absurd h hpc⟩
      · exact ⟨_,⟨rfl,rfl,rfl,rfl,rfl,Or.inl,rfl,rfl,rfl,id⟩,nofun⟩
    · exact ⟨_,⟨rfl,rfl,rfl,rfl,rfl,Or.inl,rfl,rfl,rfl,id⟩,nofun⟩
  · rename_i hnone
    split_ifs with h
    · refine ⟨_,⟨rfl,rfl,rfl,rfl,rfl,Or.inl,rfl,rfl,rfl,id⟩,fun _ => ⟨?_,rfl⟩⟩
      exact Or.inr (Or.inr ⟨hnone,by simpa using h⟩)
    · exact ⟨_,⟨rfl,rfl,rfl,rfl,rfl,Or.inl,rfl,rfl,rfl,id⟩,nofun⟩

/-! The queues. -/

/-- Accepted work is queued until it is called. -/
def Ledger.Kept (L : Ledger) : Prop :=
  ∀ x ∈ L.accepted, x.terminate = false → x ∈ L.asyncQ ∨ x ∈ L.intQ.keys ∨ x ∈ L.called

theorem Ledger.Kept.accept {L : Ledger} (h : L.Kept) (x : Task) : (L.accept x).Kept := by
  intro y hy hw
  rcases List.mem_append.mp hy with hy | hy
  · exact (h y hy hw).imp_left (List.mem_append_left [x])
  · exact Or.inl (List.mem_append_right _ hy)

theorem Ledger.Kept.move {L : Ledger} (h : L.Kept)
    (hm : ∀ x ∈ L.asyncQ.head?, x.terminate = false → ¬L.intQ.Clashes x) : L.move.Kept := by
  obtain ⟨q,tree,accepted,taken,called⟩ := L
  cases q with
  | nil => exact h
  | cons z rest =>
    intro y hy hw
    have htree : ∀ y ∈ tree.keys, y ∈ (tree.insert z).keys := by
      intro y hy
      by_cases hc : tree.Clashes z
      · rw [KeyTree.insert_of_clash hc]; exact hy
      · exact (KeyTree.insert_perm hc).mem_iff.mpr (List.mem_cons_of_mem z hy)
    rcases h y hy hw with hq | ht | hcalled
    · rcases List.mem_cons.mp hq with rfl | hq
      · have hins := KeyTree.insert_perm (hm y rfl hw)
        exact Or.inr (Or.inl (hins.mem_iff.mpr List.mem_cons_self))
      · exact Or.inl hq
    · exact Or.inr (Or.inl (htree y ht))
    · exact Or.inr (Or.inr hcalled)

theorem Ledger.Kept.take {L : Ledger} (h : L.Kept) (hb : L.Books) {x : Task}
    (hx : x ∈ L.intQ.keys) : (L.take x).Kept := by
  intro y hy hw
  have hcalled : ∀ z ∈ L.called, z ∈ (L.take x).called := by
    intro z hz
    simp only [Ledger.take]
    split_ifs
    · exact hz
    · exact List.mem_append_left _ hz
  rcases h y hy hw with hq | ht | hc
  · exact Or.inl hq
  · rcases List.mem_cons.mp ((KeyTree.remove_perm hx).mem_iff.mp ht) with rfl | ht
    · refine Or.inr (Or.inr ?_)
      simp [Ledger.take,hw,hb.work y hy hw]
    · exact Or.inr (Or.inl ht)
  · exact Or.inr (Or.inr (hcalled y hc))

/-- What holds in every state of a run whose steps leave no work. -/
structure QuitInv (s : State) : Prop where
  books : s.toLedger.Books
  stack : s.alive = true → Stack s.frames s.running s.teardown s.depth
  counted : ∀ f ∈ s.frames.getLast?, f.flags = runFlags → (s.frames.length : ℤ) ≤ s.refCnt
  below : ∀ f ∈ s.frames.tail, f.pc ≠ .leaving
  depths : ∀ x ∈ s.accepted, x.terminate = false → 0 ≤ x.depth
  kept : s.alive = true → s.toLedger.Kept
  drained : ∀ f, s.frames = [f] → f.flags = runFlags → f.pc = .leaving →
    f.teardown = true ∧ ∀ x ∈ s.asyncQ ++ s.intQ.keys, x.terminate = true

/-- While an outermost run lasts the loop exists. -/
theorem QuitInv.alive {s : State} (h : QuitInv s) {f : Frame} (hf : s.frames.getLast? = some f)
    (hr : f.flags = runFlags) : s.alive = true := by
  have hc := h.counted f hf hr
  have hne : s.frames ≠ [] := by
    intro he
    simp [he] at hf
  have hpos := List.length_pos_iff.mpr hne
  simp only [State.alive,decide_eq_true_eq]
  omega

theorem QuitInv.create (n : ℤ) : QuitInv (State.create n) where
  books := create_books n
  stack _ := .idle false
  counted f hf := by simp [State.create] at hf
  below f hf := by simp [State.create] at hf
  depths x hx := by simp [State.create] at hx
  kept _ x hx := by simp [State.create] at hx
  drained f hf := by simp [State.create] at hf

theorem QuitInv.accept {s t : State} {x : Task} (h : QuitInv s)
    (ht : t = { s with toLedger := s.toLedger.accept x }) (hid : x.id = s.accepted.length)
    (hw : x.terminate = false → x.ccb.func ≠ none ∧ 0 ≤ x.depth ∧
      ∀ f, s.frames = [f] → f.flags = runFlags → f.pc ≠ .leaving) : QuitInv t := by
  subst ht
  refine ⟨h.books.accept hid fun hx => (hw hx).1,h.stack,h.counted,h.below,?_,
    fun ha => (h.kept ha).accept x,?_⟩
  · intro y hy hyw
    rcases List.mem_append.mp hy with hy | hy
    · exact h.depths y hy hyw
    · cases List.mem_singleton.mp hy
      exact (hw hyw).2.1
  · intro f hf hr hl
    obtain ⟨htd,hq⟩ := h.drained f hf hr hl
    refine ⟨htd,fun y hy => ?_⟩
    have hy' : y ∈ s.asyncQ ++ s.intQ.keys ∨ y = x := by
      simp only [Ledger.accept,List.mem_append,List.mem_singleton] at hy ⊢
      tauto
    rcases hy' with hy' | rfl
    · exact hq y hy'
    · by_contra hyt
      exact (hw (by simpa using hyt)).2.2 f hf hr hl

theorem QuitInv.postWork {s : State} (h : QuitInv s) {b : Bool} {cb : Callback} {ms r d : ℤ}
    {now : Timespec} (hb : b = false) (hd : 0 ≤ d) :
    QuitInv (ppbMessageLoopPostWorkWithResult s b cb ms r d now).2 := by
  unfold ppbMessageLoopPostWorkWithResult
  split_ifs with hf ha hrt
  · exact h
  · exact h
  · exact h
  · refine h.accept rfl rfl fun _ => ⟨hf,hd,fun f hfs hr hl => hrt ?_⟩
    -- a run that is about to leave has set the flags a poster reads
    have halive : s.alive = true := h.alive (by rw [hfs]; rfl) hr
    have hst := h.stack halive
    obtain ⟨htd,_⟩ := h.drained f hfs hr hl
    rw [hfs] at hst
    obtain ⟨hrun,hmt,_⟩ := hst.head
    rw [htd] at hmt
    rw [hb,hrun,hmt]
    rfl

theorem QuitInv.postQuit {s : State} (h : QuitInv s) (b : Bool) (d : ℤ) (now : Timespec)
    (o : Owner) : QuitInv (ppbMessageLoopPostQuitDepth s b d now o).2 := by
  unfold ppbMessageLoopPostQuitDepth
  split_ifs
  · exact h
  · exact h.accept rfl rfl nofun

theorem QuitInv.advance {s t : State} {f f' : Frame} {fs : List Frame} (h : QuitInv s)
    (hf : s.frames = f::fs) (ha : Advance s t f f' fs) (hb : t.toLedger.Books)
    (hk : s.toLedger.Kept → t.toLedger.Kept) (hacc : t.accepted = s.accepted)
    (hl : s.frames = [f] → f.flags = runFlags → f'.pc = .leaving →
      f'.teardown = true ∧ ∀ x ∈ t.asyncQ ++ t.intQ.keys, x.terminate = true) : QuitInv t := by
  have halive : t.alive = s.alive := by rw [State.alive,State.alive,ha.refCnt]
  refine ⟨hb,fun hat => (h.stack (halive ▸ hat)).advance hf ha,?_,?_,by rw [hacc]; exact h.depths,
    fun hat => hk (h.kept (halive ▸ hat)),?_⟩
  · intro g hg hr
    rw [ha.frames] at hg ⊢
    rw [ha.refCnt]
    cases fs with
    | nil =>
      have hgf : f' = g := by simpa using hg
      simpa [hf] using h.counted f (by rw [hf]; rfl) (by rw [← ha.flags,hgf]; exact hr)
    | cons f₁ fs₁ =>
      simpa [hf] using h.counted g (by rw [hf]; simpa using hg) hr
  · rw [ha.frames]
    have hbelow := h.below
    rw [hf] at hbelow
    exact hbelow
  · intro g hg hr hp
    rw [ha.frames,List.cons.injEq] at hg
    obtain ⟨rfl,rfl⟩ := hg
    exact hl hf (by rw [← ha.flags]; exact hr) hp

theorem QuitInv.enter {s : State} (h : QuitInv s) (hc : ∀ f ∈ s.frames.head?, f.pc ≠ .leaving)
    (b : Bool) (flags : Flags) (o : Owner) : QuitInv (runIntEnter s b flags o).2 := by
  unfold runIntEnter
  by_cases hb : (!b) = true
  · rw [if_pos hb]
    exact h
  by_cases ha : (!s.alive) = true
  · rw [if_neg hb,if_pos ha]
    exact h
  by_cases hn : (!flags.nested && s.running) = true
  · rw [if_neg hb,if_neg ha,if_pos hn]
    exact h
  have halive : s.alive = true := by simpa using ha
  have href : 0 < s.refCnt := by simpa [State.alive] using halive
  rw [if_neg hb,if_neg ha,if_neg hn]
  refine ⟨h.books,fun _ => ?_,fun g hg hr => ?_,fun g hg => ?_,h.depths,fun _ => h.kept halive,
    fun g hg hr hp => ?_⟩
  · refine .push (h.stack halive) (fun hr => ?_) rfl rfl rfl fun hc => ?_
    · simpa [hr] using hn
    · cases hc
  · cases hfs : s.frames with
    | nil =>
      simp only [List.length_singleton,Nat.cast_one]
      omega
    | cons f₁ fs₁ =>
      have hcounted := h.counted g (by simpa [hfs] using hg) hr
      rw [hfs] at hcounted
      simp only [List.length_cons,Nat.cast_add,Nat.cast_one] at hcounted ⊢
      omega
  · cases hfs : s.frames with
    | nil => simp [hfs] at hg
    | cons f₁ fs₁ =>
      simp only [hfs,List.tail_cons,List.mem_cons] at hg
      rcases hg with rfl | hg
      · exact hc g (by simp [hfs])
      · exact h.below g (by simpa [hfs] using hg)
  · rw [List.cons.injEq] at hg
    rw [← hg.1] at hp
    dsimp only at hp
    split_ifs at hp

theorem ppResourceUnref_frames (s : State) : (ppResourceUnref s).frames = s.frames := by
  simp only [ppResourceUnref,ppbMessageLoopDestroy]
  split_ifs <;> rfl

theorem ppResourceUnref_fields (s : State) : (ppResourceUnref s).running = s.running ∧
    (ppResourceUnref s).teardown = s.teardown ∧ (ppResourceUnref s).depth = s.depth := by
  unfold ppResourceUnref
  by_cases ha : (!s.alive) = true
  · rw [if_pos ha]
    exact ⟨rfl,rfl,rfl⟩
  · rw [if_neg ha]
    dsimp only
    split_ifs <;> exact ⟨rfl,rfl,rfl⟩

/-- Leaving gives back the reference of the activation and, where its quit asked for
it, one more. -/
theorem runIntLeave_refCnt (s : State) (f : Frame) (fs : List Frame) :
    (runIntLeave s f fs).refCnt ≤ s.refCnt ∧
    (f.destroyMl = false → s.refCnt-1 ≤ (runIntLeave s f fs).refCnt) ∧
    (0 < (runIntLeave s f fs).refCnt → ¬DropsLastReference s f) := by
  simp only [runIntLeave,DropsLastReference,State.alive,decide_eq_true_eq]
  cases f.destroyMl with
  | false =>
    simp only [Bool.false_eq_true,if_false,ppResourceUnref_refCnt,runIntRestore_refCnt,State.alive,
      decide_eq_true_eq]
    refine ⟨?_,fun _ => ?_,?_⟩ <;> split_ifs <;> omega
  | true =>
    simp only [if_true,ppResourceUnref_refCnt,runIntRestore_refCnt,State.alive,decide_eq_true_eq]
    refine ⟨?_,fun hf => (by cases hf),?_⟩ <;> split_ifs <;> omega

/-- Giving references back changes no field. -/
theorem runIntLeave_fields (s : State) (f : Frame) (fs : List Frame) :
    (runIntLeave s f fs).running = (runIntRestore s f).running ∧
    (runIntLeave s f fs).teardown = (runIntRestore s f).teardown ∧
    (runIntLeave s f fs).depth = (runIntRestore s f).depth := by
  unfold runIntLeave
  split_ifs <;> simp [ppResourceUnref_fields]

theorem Stack.leave {s : State} {f : Frame} {fs : List Frame} (hf : s.frames = f::fs)
    (ha : s.alive = true) (h : Stack s.frames s.running s.teardown s.depth) :
    Stack fs (runIntLeave s f fs).running (runIntLeave s f fs).teardown
      (runIntLeave s f fs).depth := by
  rw [hf] at h
  obtain ⟨_,_,hd⟩ := h.head
  obtain ⟨depth,below,hn,hdep,_⟩ := h.tail
  have hdepth : (if f.flags.increaseDepth then s.depth-1 else s.depth) = depth := by
    rw [hd,hdep]
    split_ifs <;> omega
  obtain ⟨hrunning,hteardown,hdepthLeft⟩ := runIntLeave_fields s f fs
  rw [hrunning,hteardown,hdepthLeft,runIntRestore,if_pos ha]
  simp only [hdepth]
  by_cases hne : f.flags.nested = true
  · simpa only [hne,if_true] using below
  · -- an activation that is not nested interrupted none
    have hsr : f.savedRunning = false := by
      by_contra hsr
      exact hne (hn (by simpa using hsr))
    rw [hsr] at below
    cases below
    simpa [hne] using Stack.idle s.teardown

theorem QuitInv.leave {s : State} {f : Frame} {fs : List Frame} (h : QuitInv s)
    (hf : s.frames = f::fs) : QuitInv (runIntLeave s f fs) := by
  obtain ⟨hle,hge,hlast⟩ := runIntLeave_refCnt s f fs
  have hl := runIntLeave_ledger s f fs
  have halive : (runIntLeave s f fs).alive = true →
      s.alive = true ∧ (runIntLeave s f fs).toLedger = s.toLedger := by
    intro ha
    have hpos : 0 < (runIntLeave s f fs).refCnt := by simpa [State.alive] using ha
    refine ⟨?_,by rw [hl,if_neg (hlast hpos)]⟩
    simp only [State.alive,decide_eq_true_eq]
    omega
  have hacc : (runIntLeave s f fs).accepted = s.accepted := by
    have hcases : (runIntLeave s f fs).toLedger = s.toLedger.discard ∨
        (runIntLeave s f fs).toLedger = s.toLedger := by
      rw [hl]
      split_ifs
      · exact Or.inl rfl
      · exact Or.inr rfl
    rcases hcases with hc | hc <;> rw [hc]
    rfl
  have hbelow : ∀ g ∈ fs, g.pc ≠ .leaving := by
    have hb := h.below
    rw [hf] at hb
    exact hb
  refine ⟨by rw [hl]; exact h.books.discard_or,fun ha => (h.stack (halive ha).1).leave hf
    (halive ha).1,fun g hg hr => ?_,fun g hg => hbelow g (List.mem_of_mem_tail hg),
    by rw [hacc]; exact h.depths,fun ha => ?_,fun g hg _ hp => ?_⟩
  · -- below `g`, the outermost run, no activation gives back a reference of the plugin
    have hfs : fs.getLast? = some g := hg
    have hlen := h.counted g (by rw [hf,List.getLast?_cons,hfs]; rfl) hr
    have ha : s.alive = true := h.alive (by rw [hf,List.getLast?_cons,hfs]; rfl) hr
    have hst := h.stack ha
    rw [hf] at hst
    obtain ⟨depth,below,_,_,hdes⟩ := hst.tail
    have hpos := below.depth_pos hfs hr
    have hdf : f.destroyMl = false := by
      by_contra hd
      have := hdes (by simpa using hd)
      omega
    have hge' := hge hdf
    change (fs.length : ℤ) ≤ _
    rw [hf,List.length_cons,Nat.cast_add,Nat.cast_one] at hlen
    omega
  · obtain ⟨ha',hl'⟩ := halive ha
    rw [hl']
    exact h.kept ha'
  · have hg' : fs = [g] := hg
    exact absurd hp (hbelow g (by simp [hg']))

/-- What `run_int` finds appropriate at depth 1 is everything but work of negative depth. -/
theorem no_work_of_findFirst {q : KeyTree Task taskTreeCompareFunc}
    (h : findFirstTaskWithAppropriateDepth q 1 = none) {x : Task} (hx : x ∈ q.keys)
    (hd : 0 ≤ x.depth) : False := by
  have hno := List.find?_eq_none.mp h x hx
  simp only [taskTreeTraverseFunc,Bool.or_eq_true,decide_eq_true_eq,not_or] at hno
  omega

theorem QuitInv.depth_of_run {s : State} (h : QuitInv s) {f : Frame} (hf : s.frames = [f])
    (hr : f.flags = runFlags) : f.depth = 1 := by
  have hst := h.stack (h.alive (by rw [hf]; rfl) hr)
  rw [hf] at hst
  obtain ⟨depth,below,_,hd,_⟩ := hst.tail
  have hz : depth = 0 := by
    generalize f.savedRunning = r,f.savedTeardown = td at below
    cases below
    rfl
  rw [hd,hr,hz]
  rfl

theorem QuitInv.iterate {s : State} {f : Frame} {fs : List Frame} (h : QuitInv s)
    (hf : s.frames = f::fs) (hp : f.pc = .looping) {now : Timespec}
    (hg : LeavesNoWork s (.iterate now)) : QuitInv (runIntIterate s f fs now) := by
  obtain ⟨f',ha,hl⟩ := runIntIterate_advance hf hp now
  have hledger := runIntIterate_ledger s f fs now
  refine h.advance hf ha ?_ (fun hk => ?_) ?_ fun hs hr hpc => ?_
  · rcases hledger with he | ⟨x,hx,he⟩
    · rw [he]; exact h.books
    · rw [he]; exact h.books.take hx
  · rcases hledger with he | ⟨x,hx,he⟩
    · rw [he]; exact hk
    · rw [he]; exact hk.take h.books hx
  · rcases hledger with he | ⟨x,hx,he⟩ <;> rw [he]
    rfl
  · obtain ⟨hfor,htd⟩ := hl hpc
    have hd := h.depth_of_run hs hr
    -- the outermost run only leaves in teardown, for want of tasks
    obtain ⟨hnone,hft⟩ : findFirstTaskWithAppropriateDepth s.intQ f.depth = none ∧
        f.teardown = true := by
      rcases hfor with hfor | hfor | ⟨hnone,hft⟩
      · omega
      · simp [hr,runFlags] at hfor
      · exact ⟨hnone,by simpa [hr,runFlags] using hft⟩
    have hq : ∀ x ∈ s.asyncQ ++ s.intQ.keys, x.terminate = true := by
      intro x hx
      rcases List.mem_append.mp hx with hx | hx
      · exact hg f (by rw [hs]; rfl) (by rw [hs]; rfl) hr hft hnone x hx
      · by_contra hw
        rw [hd] at hnone
        exact no_work_of_findFirst hnone hx
          (h.depths x (h.books.mem_of_intQ hx) (by simpa using hw))
    refine ⟨by rw [htd]; exact hft,?_⟩
    rcases hledger with he | ⟨y,hy,he⟩
    · rw [he]; exact hq
    · rw [he]
      intro x hx
      refine hq x ?_
      rcases List.mem_append.mp hx with hx | hx
      · exact List.mem_append_left _ hx
      · refine List.mem_append_right _ ((KeyTree.remove_perm hy).mem_iff.mpr ?_)
        exact List.mem_cons_of_mem y hx

theorem QuitInv.step {s t : State} {a : Action} (h : QuitInv s) (hg : LeavesNoWork s a)
    (ht : step s a = some t) : QuitInv t := by
  cases a with
  | postWork b cb ms r d now =>
    cases ht
    exact h.postWork hg.1 hg.2
  | postQuitDepth b d now o =>
    cases ht
    exact h.postQuit b d now o
  | enter b fl o =>
    obtain ⟨hc,rfl⟩ := step_enter ht
    refine h.enter (fun f hf => ?_) b fl o
    obtain ⟨task,hp⟩ := hc f hf
    simp [hp]
  | pump =>
    obtain ⟨f,fs,hf,hp,rfl⟩ := step_pump ht
    obtain ⟨f',ha,hl⟩ := runIntPump_advance hf hp
    refine h.advance hf ha ?_ (fun hk => ?_) ?_ fun _ _ hpc => absurd hpc hl
    · rw [runIntPump_ledger]; exact h.books.move
    · rw [runIntPump_ledger]; exact hk.move hg
    · rw [runIntPump_ledger]; exact Ledger.move_accepted _
  | iterate now =>
    obtain ⟨f,fs,hf,hp,rfl⟩ := step_iterate ht
    exact h.iterate hf hp hg
  | pop =>
    obtain ⟨f,fs,_,hf,_,rfl⟩ := step_pop ht
    exact h.advance hf ⟨rfl,rfl,rfl,rfl,rfl,Or.inl,rfl,rfl,rfl,id⟩ h.books.move (·.move hg)
      (Ledger.move_accepted _) fun _ _ hp => by cases hp
  | callbackReturns =>
    obtain ⟨f,fs,_,hf,_,rfl⟩ := step_callbackReturns ht
    exact h.advance hf ⟨rfl,rfl,rfl,rfl,rfl,Or.inl,rfl,rfl,rfl,id⟩ h.books id rfl
      fun _ _ hp => by cases hp
  | leave =>
    obtain ⟨f,fs,hf,_,rfl⟩ := step_leave ht
    exact h.leave hf

/-- In every run whose steps leave no work behind, once an outermost run has returned,
every work task accepted until then has been called and none is left in a queue. -/
theorem nothing_abandoned_at_quit (refCnt : ℤ) {s t : State} {f : Frame}
    (h : (machine refCnt).ReachableVia LeavesNoWork s) (hf : s.frames = [f])
    (hr : f.flags = runFlags) (ht : step s .leave = some t) : NothingAbandoned t.toLedger := by
  have hinv : QuitInv s := h.invariant QuitInv (.create refCnt) fun s a t => QuitInv.step
  have hp : f.pc = .leaving := by
    by_contra hp
    simp [step,hf,hp] at ht
  have htl : t = runIntLeave s f [] := by simpa [step,hf,hp] using ht.symm
  obtain ⟨_,hq⟩ := hinv.drained f hf hr hp
  have hkept := hinv.kept (hinv.alive (by rw [hf]; rfl) hr)
  have hcalled : ∀ x ∈ s.accepted, x.terminate = false → x ∈ s.called ∧ x ∉ s.asyncQ ∧
      x ∉ s.intQ.keys := by
    intro x hx hw
    have hno : x ∉ s.asyncQ ++ s.intQ.keys := fun hm => by simp [hq x hm] at hw
    obtain ⟨ha,hi⟩ := not_or.mp (mt List.mem_append.mpr hno)
    exact ⟨((hkept x hx hw).resolve_left ha).resolve_left hi,ha,hi⟩
  rw [htl,runIntLeave_ledger]
  split_ifs
  · intro x hx hw
    exact ⟨(hcalled x hx hw).1,by simp [Ledger.discard],by simp [Ledger.discard]⟩
  · exact hcalled

/-- A quit and then a callback are posted before the loop turns: the loop consumes the
quit, finds `int_q` empty and leaves with the callback in `async_q`. -/
def workBehindQuit : List Action :=
  [.enter true runFlags .loop,.postQuitDepth false 1 ⟨0,0⟩ .loop,
    .postWork false ⟨some 0,0⟩ 0 0 1 ⟨1,0⟩,.iterate ⟨1,0⟩,.pop,.iterate ⟨1,0⟩,.iterate ⟨1,0⟩]

theorem workBehindQuit_abandoned : ¬∀ (ls : List Action) (s t : State) (f : Frame),
    (∀ a ∈ ls, NotBrowserThread a) → (machine 1).exec (machine 1).start ls = some s →
    s.frames = [f] → f.flags = runFlags → step s .leave = some t →
    NothingAbandoned t.toLedger := by
  intro h
  exact absurd (h workBehindQuit _ _ _ (by decide) rfl rfl rfl rfl) (by decide)

/-- A callback posted from the last callback before the quit is still executed. -/
def workBeforeQuit : List Action :=
  [.postWork false ⟨some 0,0⟩ 0 0 0 ⟨0,0⟩,.enter true runFlags .loop,.iterate ⟨0,0⟩,.pop,
    .iterate ⟨0,0⟩,.postWork false ⟨some 1,0⟩ 0 0 1 ⟨1,0⟩,.postQuitDepth false 1 ⟨2,0⟩ .loop,
    .callbackReturns,.iterate ⟨2,0⟩,.pop,.iterate ⟨2,0⟩,.callbackReturns,.iterate ⟨2,0⟩,.pop,
    .iterate ⟨2,0⟩,.iterate ⟨2,0⟩]

theorem workBeforeQuit_executed : ∃ s t : State,
    (machine 1).exec (machine 1).start workBeforeQuit = some s ∧ step s .leave = some t ∧
    t.accepted.length = 3 ∧ NothingAbandoned t.toLedger :=
  ⟨_,_,rfl,rfl,by decide,nothing_abandoned_at_quit 1
    (Machine.reachableVia_of_exec workBeforeQuit .start rfl (by decide)) rfl rfl rfl⟩

end MessageLoop
end FreshPlayer
