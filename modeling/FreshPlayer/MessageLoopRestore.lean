import FreshPlayer.MessageLoopQuit

/-! What one call of `run_int` leaves of the state it found. While it lasts, its callbacks
enter further activations and take and give back references; each of these is undone
before the call restores what it had saved itself. -/
namespace FreshPlayer
namespace MessageLoop

def ppResourceRef (s : State) : State :=
  if s.alive then { s with refCnt := s.refCnt+1 } else s

/-- What happens to a loop while a call lasts. -/
inductive Event
  | loop (a : Action) | addRef | releaseRef
  deriving DecidableEq, Repr

def happen (s : State) : Event → Option State
  | .loop a => step s a
  | .addRef => some (ppResourceRef s)
  | .releaseRef => some (ppResourceUnref s)

/-- The runs that begin when `run_int` has entered its loop. -/
def activation (entered : State) : Machine State Event := ⟨entered,happen⟩

/-- The depth of a loop with these activations over `depth`. -/
def depthAbove (depth : ℤ) : List Frame → ℤ
  | [] => depth
  | f::fs => if f.flags.increaseDepth then depthAbove depth fs + 1 else depthAbove depth fs

/-! What a step can do to the activations. -/

inductive Change (s t : State) (a : Action) : Prop
  | stays (frames : t.frames = s.frames) (depth : t.depth = s.depth) (refCnt : t.refCnt = s.refCnt)
  | enters (f : Frame) (frames : t.frames = f::s.frames) (depth : t.depth = depthAbove s.depth [f])
      (refCnt : t.refCnt = s.refCnt+1) (alive : s.alive = true)
  | advances (f f' : Frame) (fs : List Frame) (frames : s.frames = f::fs)
      (advance : Advance s t f f' fs)
  | leaves (f : Frame) (fs : List Frame) (frames : s.frames = f::fs) (left : t = runIntLeave s f fs)
      (action : a = .leave)

variable {a : Action}

theorem postWork_change (s : State) (b : Bool) (cb : Callback) (ms r d : ℤ) (now : Timespec) :
    Change s (ppbMessageLoopPostWorkWithResult s b cb ms r d now).2 a := by
  unfold ppbMessageLoopPostWorkWithResult
  split_ifs <;> exact .stays rfl rfl rfl

theorem postQuitDepth_change (s : State) (b : Bool) (d : ℤ) (now : Timespec) (o : Owner) :
    Change s (ppbMessageLoopPostQuitDepth s b d now o).2 a := by
  unfold ppbMessageLoopPostQuitDepth
  split_ifs <;> exact .stays rfl rfl rfl

theorem Entered.depthAbove {s t : State} {flags : Flags} {o : Owner} {f : Frame}
    (h : Entered s t flags o f) : t.depth = depthAbove s.depth [f] := by
  rw [h.depth,h.frameDepth,← h.flags_eq]
  rfl

theorem runIntEnter_change (s : State) (b : Bool) (flags : Flags) (o : Owner) :
    Change s (runIntEnter s b flags o).2 a := by
  obtain ⟨_,he⟩ | ⟨_,f,hent⟩ := runIntEnter_spec s b flags o
  · rw [he]
    exact .stays rfl rfl rfl
  · exact .enters f hent.frames hent.depthAbove hent.refCnt hent.alive

theorem step_change {s t : State} (h : step s a = some t) : Change s t a := by
  cases a with
  | postWork b cb ms r d now =>
    cases h
    exact postWork_change ..
  | postQuitDepth b d now o =>
    cases h
    exact postQuitDepth_change ..
  | enter b flags o =>
    obtain ⟨_,rfl⟩ := step_enter h
    exact runIntEnter_change ..
  | pump =>
    obtain ⟨f,fs,hf,hp,rfl⟩ := step_pump h
    obtain ⟨f',ha,_⟩ := runIntPump_advance hf hp
    exact .advances f f' fs hf ha
  | iterate now =>
    obtain ⟨f,fs,hf,hp,rfl⟩ := step_iterate h
    obtain ⟨f',ha,_⟩ := runIntIterate_advance hf hp now
    exact .advances f f' fs hf ha
  | pop =>
    obtain ⟨f,fs,_,hf,_,rfl⟩ := step_pop h
    exact .advances f _ fs hf ⟨rfl,rfl,rfl,rfl,rfl,.inl,rfl,rfl,rfl,id⟩
  | callbackReturns =>
    obtain ⟨f,fs,_,hf,_,rfl⟩ := step_callbackReturns h
    exact .advances f _ fs hf ⟨rfl,rfl,rfl,rfl,rfl,.inl,rfl,rfl,rfl,id⟩
  | leave =>
    obtain ⟨f,fs,hf,_,rfl⟩ := step_leave h
    exact .leaves f fs hf rfl rfl

/-! What an activation finds again. -/

/-- `t` is a state during an activation with these flags that was entered in `s`. -/
def During (s : State) (flags : Flags) (t : State) : Prop :=
  ∃ above f, t.frames = above ++ f::s.frames ∧ f.flags = flags ∧ f.savedRunning = s.running ∧
    f.savedTeardown = s.teardown ∧
    (t.alive = true → t.depth = depthAbove s.depth (above ++ [f]))

theorem During.enter {s s₁ : State} {b : Bool} {flags : Flags} {o : Owner}
    (h : runIntEnter s b flags o = (.ok,s₁)) : During s flags s₁ := by
  obtain ⟨hne,_⟩ | ⟨_,f,hent⟩ := runIntEnter_spec s b flags o
  · exact absurd (by rw [h]) hne
  · rw [h] at hent
    exact ⟨[],f,hent.frames,hent.flags_eq,hent.savedRunning,hent.savedTeardown,
      fun _ => hent.depthAbove⟩

/-- A loop that is still there after an activation has left was there before. -/
theorem alive_of_runIntLeave {s : State} {f : Frame} {fs : List Frame}
    (h : (runIntLeave s f fs).alive = true) : s.alive = true := by
  have hle := (runIntLeave_refCnt s f fs).1
  simp only [State.alive,decide_eq_true_eq] at h ⊢
  omega

theorem runIntLeave_depth {s : State} {f : Frame} (fs : List Frame) (ha : s.alive = true) {d : ℤ}
    (hd : s.depth = depthAbove d (f::fs)) (gs : List Frame) :
    (runIntLeave s f gs).depth = depthAbove d fs := by
  rw [(runIntLeave_fields s f gs).2.2,runIntRestore,if_pos ha]
  simp only [hd,depthAbove]
  split_ifs
  · exact add_sub_cancel_right _ _
  · rfl

/-- What leaves the activations alone. -/
theorem During.quiet {s t u : State} {flags : Flags} (h : During s flags t)
    (hframes : u.frames = t.frames) (hdepth : u.depth = t.depth)
    (halive : u.alive = true → t.alive = true) : During s flags u := by
  obtain ⟨above,f,hf,hfl,hr,htd,hd⟩ := h
  exact ⟨above,f,hframes.trans hf,hfl,hr,htd,fun ha => hdepth.trans (hd (halive ha))⟩

theorem During.change {s t u : State} {flags : Flags} (h : During s flags t) (hc : Change t u a)
    (hlen : s.frames.length < u.frames.length) : During s flags u := by
  cases hc with
  | stays frames depth refCnt =>
    have halive : u.alive = t.alive := by rw [State.alive,State.alive,refCnt]
    exact h.quiet frames depth fun ha => halive ▸ ha
  | enters g frames depth refCnt alive =>
    obtain ⟨above,f,hf,hfl,hr,htd,hd⟩ := h
    refine ⟨g::above,f,by rw [frames,hf]; rfl,hfl,hr,htd,fun _ => ?_⟩
    rw [depth,hd alive]
    rfl
  | advances g g' gs frames advance =>
    obtain ⟨above,f,hf,hfl,hr,htd,hd⟩ := h
    have halive : u.alive = t.alive := by rw [State.alive,State.alive,advance.refCnt]
    rw [frames] at hf
    cases above with
    | nil =>
      obtain ⟨rfl,rfl⟩ := List.cons.inj hf
      refine ⟨[],g',advance.frames,advance.flags.trans hfl,advance.savedRunning.trans hr,
        advance.savedTeardown.trans htd,fun ha => ?_⟩
      rw [advance.loopDepth,hd (halive ▸ ha)]
      simp only [List.nil_append,depthAbove,advance.flags]
    | cons g₁ above =>
      obtain ⟨rfl,rfl⟩ := List.cons.inj hf
      refine ⟨g'::above,f,advance.frames,hfl,hr,htd,fun ha => ?_⟩
      rw [advance.loopDepth,hd (halive ▸ ha)]
      simp only [List.cons_append,depthAbove,advance.flags]
  | leaves g gs frames left _ =>
    obtain ⟨above,f,hf,hfl,hr,htd,hd⟩ := h
    have hgs : u.frames = gs := by rw [left]; rfl
    rw [frames] at hf
    cases above with
    | nil =>
      -- the activation itself would have left
      obtain ⟨rfl,rfl⟩ := List.cons.inj hf
      rw [hgs] at hlen
      exact absurd hlen (lt_irrefl _)
    | cons g₁ above =>
      obtain ⟨rfl,rfl⟩ := List.cons.inj hf
      refine ⟨above,f,hgs,hfl,hr,htd,fun ha => ?_⟩
      have halive : t.alive = true := alive_of_runIntLeave (left ▸ ha)
      rw [left]
      exact runIntLeave_depth (above ++ [f]) halive (hd halive) _

theorem During.happen {s t u : State} {flags : Flags} {e : Event} (h : During s flags t)
    (hu : happen t e = some u) (hlen : s.frames.length < u.frames.length) : During s flags u := by
  cases e with
  | loop a => exact h.change (step_change hu) hlen
  | addRef =>
    cases hu
    refine h.quiet ?_ ?_ fun ha => ?_
    · unfold ppResourceRef
      split_ifs <;> rfl
    · unfold ppResourceRef
      split_ifs <;> rfl
    · by_contra hdead
      rw [ppResourceRef,if_neg hdead] at ha
      exact hdead ha
  | releaseRef =>
    cases hu
    refine h.quiet (ppResourceUnref_frames t) (ppResourceUnref_fields t).2.2 fun ha => ?_
    simp only [State.alive,ppResourceUnref_refCnt,decide_eq_true_eq] at ha ⊢
    split_ifs at ha <;> omega

theorem During.leave {s u t : State} {flags : Flags} (h : During s flags u)
    (ht : step u .leave = some t) (hlen : t.frames.length = s.frames.length)
    (ha : u.alive = true) : t.depth = s.depth ∧
      (flags.nested = true → t.running = s.running ∧ t.teardown = s.teardown) := by
  obtain ⟨above,f,hf,hfl,hr,htd,hd⟩ := h
  obtain ⟨g,gs,hg,_,rfl⟩ := step_leave ht
  have habove : above = [] := by
    have hgs : gs.length = s.frames.length := hlen
    have hcount := congrArg List.length (hg.symm.trans hf)
    simp only [List.length_cons,List.length_append] at hcount
    exact List.length_eq_zero_iff.mp (by omega)
  subst habove
  obtain ⟨rfl,rfl⟩ := List.cons.inj (hg.symm.trans hf)
  refine ⟨runIntLeave_depth [] ha (hd ha) _,fun hn => ?_⟩
  rw [(runIntLeave_fields u g s.frames).1,(runIntLeave_fields u g s.frames).2.1,runIntRestore,
    if_pos ha]
  simp only [hfl,hn,if_true]
  exact ⟨hr,htd⟩

/-! Activations hold a reference each, so their loop exists for as long as nobody gives
back a reference of theirs. -/

def GivesOwn (s : State) : Event → Prop
  | .releaseRef => (s.frames.length : ℤ) < s.refCnt
  | .loop .leave => ∀ f ∈ s.frames.head?, f.destroyMl = true → (s.frames.length : ℤ) < s.refCnt
  | _ => True

def Counted (s : State) : Prop := (s.frames.length : ℤ) ≤ s.refCnt

/-- Each activation that leaves gives back one reference, or two. -/
theorem runIntLeave_refCnt_ge (s : State) (f : Frame) (fs : List Frame) :
    s.refCnt-2 ≤ (runIntLeave s f fs).refCnt := by
  simp only [runIntLeave]
  split_ifs <;> simp only [ppResourceUnref_refCnt,runIntRestore_refCnt] <;> split_ifs <;> omega

theorem Counted.step {s t : State} (h : Counted s) (hg : GivesOwn s (.loop a))
    (ht : MessageLoop.step s a = some t) : Counted t := by
  unfold Counted at h ⊢
  have hc := step_change ht
  cases hc with
  | stays frames _ refCnt => rwa [frames,refCnt]
  | enters f frames _ refCnt _ =>
    rw [frames,refCnt,List.length_cons]
    push_cast
    omega
  | advances f f' fs frames advance =>
    rw [frames] at h
    rw [advance.frames,advance.refCnt]
    exact h
  | leaves f fs frames left action =>
    subst action
    have hlen : (t.frames.length : ℤ) = s.frames.length-1 := by
      rw [left,frames]
      show (fs.length : ℤ) = (f::fs).length-1
      rw [List.length_cons]
      push_cast
      omega
    rw [hlen,left]
    by_cases hd : f.destroyMl = true
    · have hgives : (s.frames.length : ℤ) < s.refCnt := hg f (by rw [frames]; rfl) hd
      have hge := runIntLeave_refCnt_ge s f fs
      omega
    · have hge := (runIntLeave_refCnt s f fs).2.1 (by simpa using hd)
      omega

theorem Counted.happen {s t : State} {e : Event} (h : Counted s) (hg : GivesOwn s e)
    (ht : MessageLoop.happen s e = some t) : Counted t := by
  cases e with
  | loop a => exact h.step hg ht
  | addRef =>
    cases ht
    unfold Counted ppResourceRef at *
    split_ifs
    · exact h.trans (Int.le_of_lt (Int.lt_succ _))
    · exact h
  | releaseRef =>
    cases ht
    have hlt : (s.frames.length : ℤ) < s.refCnt := hg
    unfold Counted
    rw [ppResourceUnref_frames,ppResourceUnref_refCnt]
    split_ifs <;> omega

/-- The loop of an activation exists where references are counted so. -/
theorem alive_of_counted {s u : State} {es : List Event} (h : Counted s)
    (hexec : (activation s).exec s es = some u) (heach : (activation s).EachFrom GivesOwn s es)
    (hne : u.frames ≠ []) : u.alive = true := by
  have hvia : (activation s).ReachableVia GivesOwn u :=
    Machine.reachableVia_of_exec es .start hexec heach
  have hu : Counted u := hvia.invariant Counted h fun _ _ _ hc hg ht => hc.happen hg ht
  have hpos := List.length_pos_iff.mpr hne
  simp only [Counted,State.alive,decide_eq_true_eq] at hu ⊢
  omega

/-- A refused call changes none of the fields. Another one, whatever happens until it leaves
its loop, gives the depth back, and the flags if it is nested, to a loop that still exists. -/
theorem runInt_restores (s : State) (attached : Bool) (flags : Flags) (owner : Owner) :
    ((runIntEnter s attached flags owner).1 ≠ .ok →
      (runIntEnter s attached flags owner).2.depth = s.depth ∧
      (runIntEnter s attached flags owner).2.running = s.running ∧
      (runIntEnter s attached flags owner).2.teardown = s.teardown ∧
      (runIntEnter s attached flags owner).2.refCnt = s.refCnt) ∧
    ∀ (s₁ u t : State) (es : List Event), runIntEnter s attached flags owner = (.ok,s₁) →
      (activation s₁).exec s₁ es = some u →
      (activation s₁).AlwaysFrom (fun v => s.frames.length < v.frames.length) s₁ es →
      step u .leave = some t → t.frames.length = s.frames.length → u.alive = true →
      t.depth = s.depth ∧
        (flags.nested = true → t.running = s.running ∧ t.teardown = s.teardown) := by
  constructor
  · intro hne
    obtain ⟨_,he⟩ | ⟨hok,_⟩ := runIntEnter_spec s attached flags owner
    · rw [he]
      exact ⟨rfl,rfl,rfl,rfl⟩
    · exact absurd hok hne
  · intro s₁ u t es henter hexec halways hleave hlen ha
    have hduring : (activation s₁).AlwaysFrom (During s flags) s₁ es :=
      halways.strengthen (fun v e w hv hw hlt => hv.happen hw hlt) (.enter henter)
    exact (hduring.last hexec).leave hleave hlen ha

/-- A callback of the outermost run, in which it starts a nested one. -/
def inCallback : List Action :=
  [.postWork false ⟨some 0,0⟩ 0 0 0 ⟨0,0⟩,.enter true runFlags .loop,.iterate ⟨0,0⟩,.pop,
    .iterate ⟨0,0⟩]

/-- A quit ends the nested run, while a reference comes and goes. -/
def nestedQuit : List Event :=
  [.addRef,.loop (.postQuitDepth false 2 ⟨1,0⟩ (.call 0)),.loop (.iterate ⟨1,0⟩),.loop .pop,
    .releaseRef,.loop (.iterate ⟨1,0⟩)]

theorem nestedQuit_restores : ∃ s s₁ u t : State,
    (machine 1).exec (machine 1).start inCallback = some s ∧
    runIntEnter s true ⟨true,true,false⟩ (.call 0) = (.ok,s₁) ∧
    (activation s₁).exec s₁ nestedQuit = some u ∧ step u .leave = some t ∧
    s.running = true ∧ s₁.depth = 2 ∧ t.depth = s.depth ∧ t.running = s.running ∧
    t.teardown = s.teardown := by
  obtain ⟨s,s₁,u,t,hs,henter,hexec,hleave,halways,hlen,ha,hrunning,hdepth⟩ : ∃ s s₁ u t : State,
      (machine 1).exec (machine 1).start inCallback = some s ∧
      runIntEnter s true ⟨true,true,false⟩ (.call 0) = (.ok,s₁) ∧
      (activation s₁).exec s₁ nestedQuit = some u ∧ step u .leave = some t ∧
      (activation s₁).AlwaysFrom (fun v => s.frames.length < v.frames.length) s₁ nestedQuit ∧
      t.frames.length = s.frames.length ∧ u.alive = true ∧ s.running = true ∧ s₁.depth = 2 :=
    ⟨_,_,_,_,rfl,rfl,rfl,rfl,of_decide_eq_true rfl,rfl,rfl,rfl,rfl⟩
  obtain ⟨hrestored,hflags⟩ := (runInt_restores s true ⟨true,true,false⟩ (.call 0)).2 s₁ u t
    nestedQuit henter hexec halways hleave hlen ha
  exact ⟨s,s₁,u,t,hs,henter,hexec,hleave,hrunning,hdepth,hrestored,hflags rfl⟩

end MessageLoop
end FreshPlayer
