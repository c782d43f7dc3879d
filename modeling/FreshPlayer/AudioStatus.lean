import FreshPlayer.Transition
import Mathlib.Data.Int.Order.Basic
import Mathlib.Logic.Function.Basic

/-! Audio resources. They count themselves as sources of sound of their instance, and the browser
is told on its own thread whether the instance has any. -/
namespace FreshPlayer
namespace AudioStatus

/-- `destroyed` when the last reference is gone, and the stream with it. -/
structure Audio where
  owner : ℕ
  isPlaying : Bool
  streamPaused : Bool
  destroyed : Bool
  deriving DecidableEq, Repr

structure Instance where
  audioSourceCount : ℤ
  alive : Bool
  deriving DecidableEq, Repr

/-- `updates` are the calls of `update_instance_playing_audio_status_ptac` to come, `told` what
the browser holds of each instance. -/
structure State where
  made : ℕ
  instances : ℕ → Instance
  audios : List Audio
  updates : List ℕ
  told : ℕ → Bool

def State.create : State := ⟨0,fun _ => ⟨0,false⟩,[],[],fun _ => false⟩

/-- `g_atomic_int_add`. -/
def State.addSources (s : State) (i : ℕ) (n : ℤ) : State :=
  let p := { s.instances i with audioSourceCount := (s.instances i).audioSourceCount + n }
  { s with instances := Function.update s.instances i p }

def nppNew (s : State) : State :=
  { s with
    made := s.made+1
    instances := Function.update s.instances s.made ⟨0,true⟩
    told := Function.update s.told s.made false }

/-- `tables_remove_pp_instance` on behalf of NPP_Destroy. -/
def nppDestroy (s : State) (i : ℕ) : State :=
  { s with instances := Function.update s.instances i { s.instances i with alive := false } }

/-- What is created has a callback, a configuration that exists, and a stream that could be
made. -/
def doPpbAudioCreate (s : State) (i : ℕ) (callback audioConfig stream : Bool) : ℤ × State :=
  if !(s.instances i).alive then (0,s)
  else if !callback then (-4,s)
  else if !audioConfig then (0,s)
  else if !stream then (0,s)
  else (s.audios.length+1,{ s with audios := s.audios ++ [⟨i,false,true,false⟩] })

def State.acquire (s : State) (k : ℕ) : Option Audio := (s.audios[k]?).filter (!·.destroyed)

/-- StartPlayback and StopPlayback. -/
def setPlayback (s : State) (k : ℕ) (playing : Bool) : Bool × State :=
  match s.acquire k with
  | none => (false,s)
  | some a =>
    let t := if a.isPlaying = playing then s else s.addSources a.owner (if playing then 1 else -1)
    let a := { a with streamPaused := !playing, isPlaying := playing }
    (true,{ t with audios := t.audios.set k a, updates := t.updates ++ [a.owner] })

def ppbAudioStartPlayback (s : State) (k : ℕ) : Bool × State := setPlayback s k true

def ppbAudioStopPlayback (s : State) (k : ℕ) : Bool × State := setPlayback s k false

def ppbAudioDestroy (s : State) (k : ℕ) (a : Audio) : State :=
  let t := if a.isPlaying then s.addSources a.owner (-1) else s
  { t with audios := t.audios.set k { a with isPlaying := false, destroyed := true } }

def updateInstancePlayingAudioStatus (s : State) (i : ℕ) : State :=
  if (s.instances i).alive then
    { s with told := Function.update s.told i (decide (0 < (s.instances i).audioSourceCount)) }
  else s

inductive Action
  | nppNew
  | nppDestroy (i : ℕ)
  | create (i : ℕ) (callback audioConfig stream : Bool)
  | startPlayback (k : ℕ)
  | stopPlayback (k : ℕ)
  | release (k : ℕ)
  | update (k : ℕ)
  deriving DecidableEq, Repr

/-- What is left of an instance that is gone must not be used. -/
def State.usable (s : State) (k : ℕ) : Bool :=
  (s.acquire k).all fun a => (s.instances a.owner).alive

def step (s : State) : Action → Option State
  | .nppNew => some (nppNew s)
  | .nppDestroy i => some (nppDestroy s i)
  | .create i callback audioConfig stream =>
    some (doPpbAudioCreate s i callback audioConfig stream).2
  | .startPlayback k => if s.usable k then some (ppbAudioStartPlayback s k).2 else none
  | .stopPlayback k => if s.usable k then some (ppbAudioStopPlayback s k).2 else none
  | .release k => if s.usable k then (s.acquire k).map (ppbAudioDestroy s k) else none
  | .update k => (s.updates[k]?).map
      (updateInstancePlayingAudioStatus { s with updates := s.updates.eraseIdx k })

def machine : Machine State Action := ⟨.create,step⟩

def Audio.sounds (i : ℕ) (a : Audio) : Bool := a.owner = i && a.isPlaying

/-- The resources of an instance that play. -/
def playing (s : State) (i : ℕ) : ℕ := s.audios.countP (Audio.sounds i)

structure Counted (s : State) : Prop where
  sources : ∀ i, (s.instances i).alive = true → (s.instances i).audioSourceCount = playing s i
  paused : ∀ a ∈ s.audios, a.destroyed = false → a.streamPaused = !a.isPlaying
  silent : ∀ a ∈ s.audios, a.destroyed = true → a.isPlaying = false
  known : ∀ a ∈ s.audios, a.owner < s.made
  living : ∀ i, (s.instances i).alive = true → i < s.made

variable {s t u : State} {a : Audio} {k : ℕ}

theorem acquire_eq (h : s.acquire k = some a) : s.audios[k]? = some a ∧ a.destroyed = false := by
  obtain ⟨hk,hd⟩ := Option.filter_eq_some_iff.mp h
  exact ⟨hk,by simpa using hd⟩

theorem usable_alive (hu : s.usable k = true) (ha : s.acquire k = some a) :
    (s.instances a.owner).alive = true := by
  rw [State.usable,ha] at hu
  exact hu

/-- The instances with the count of one of them changed. -/
def Shifted (s t : State) (i : ℕ) (n : ℤ) : Prop :=
  ∀ j, (t.instances j).alive = (s.instances j).alive ∧
    (t.instances j).audioSourceCount = (s.instances j).audioSourceCount + if j = i then n else 0

theorem shifted_addSources (s : State) (i : ℕ) (n : ℤ) : Shifted s (s.addSources i n) i n := by
  intro j
  by_cases hj : j = i
  · subst hj
    simp [State.addSources]
  · simp [State.addSources,hj]

theorem shifted_zero (s : State) (i : ℕ) : Shifted s s i 0 := fun j => by simp

theorem playing_set (hk : s.audios[k]? = some a) (b : Audio) (i : ℕ) :
    ((s.audios.set k b).countP (Audio.sounds i) : ℤ) =
      playing s i - (if a.sounds i then 1 else 0) + if b.sounds i then 1 else 0 := by
  obtain ⟨hlt,hget⟩ := List.getElem?_eq_some_iff.mp hk
  have hpos : a.sounds i = true → 0 < playing s i := fun h =>
    List.countP_pos_iff.mpr ⟨a,List.mem_of_getElem? hk,h⟩
  have hset : (s.audios.set k b).countP (Audio.sounds i) =
      playing s i - (if a.sounds i then 1 else 0) + if b.sounds i then 1 else 0 := by
    rw [List.countP_set hlt,hget]
    rfl
  rw [hset]
  split_ifs at hpos ⊢ with ha hb hb
  · have := hpos ha
    omega
  · have := hpos ha
    omega
  · omega
  · omega

/-- What a resource contributes to the count. -/
def Audio.part (a : Audio) : ℤ := if a.isPlaying then 1 else 0

/-- A resource takes another one's place, and the count of its instance follows. -/
theorem Counted.replace {b : Audio} (h : Counted s) (hk : s.audios[k]? = some a)
    (ho : b.owner = a.owner) (hp : b.destroyed = false → b.streamPaused = !b.isPlaying)
    (hd : b.destroyed = true → b.isPlaying = false) (ht : t.audios = s.audios.set k b)
    (hm : t.made = s.made) (hi : Shifted s t a.owner (b.part - a.part)) : Counted t where
  sources i hal := by
    obtain ⟨halive,hcount⟩ := hi i
    have hset := playing_set hk b i
    rw [← ht] at hset
    rw [hcount,h.sources i (halive ▸ hal),playing,playing,hset,playing]
    simp only [Audio.sounds,ho,Audio.part,Bool.and_eq_true,decide_eq_true_eq]
    by_cases hown : a.owner = i
    · subst hown
      simp only [true_and,if_true]
      omega
    · simp [hown,Ne.symm hown]
  paused x hx := by
    rw [ht] at hx
    obtain hx | rfl := List.mem_or_eq_of_mem_set hx
    · exact h.paused x hx
    · exact hp
  silent x hx := by
    rw [ht] at hx
    obtain hx | rfl := List.mem_or_eq_of_mem_set hx
    · exact h.silent x hx
    · exact hd
  known x hx := by
    rw [ht] at hx
    rw [hm]
    obtain hx | rfl := List.mem_or_eq_of_mem_set hx
    · exact h.known x hx
    · exact ho ▸ h.known a (List.mem_of_getElem? hk)
  living i hal := hm ▸ h.living i ((hi i).1 ▸ hal)

/-- What a call of Start or Stop does to a resource that is there. -/
structure Switched (s t : State) (k : ℕ) (a : Audio) (playing : Bool) : Prop where
  there : s.audios[k]? = some a
  used : a.destroyed = false
  audios : t.audios = s.audios.set k { a with streamPaused := !playing, isPlaying := playing }
  made : t.made = s.made
  updates : t.updates = s.updates ++ [a.owner]
  told : t.told = s.told
  shifted : Shifted s t a.owner ((if playing then 1 else 0) - a.part)

theorem setPlayback_cases (s : State) (k : ℕ) (playing : Bool) :
    (setPlayback s k playing).2 = s ∨ ∃ a, Switched s (setPlayback s k playing).2 k a playing := by
  unfold setPlayback
  split
  · exact .inl rfl
  · rename_i a ha
    obtain ⟨hk,hd⟩ := acquire_eq ha
    refine .inr ⟨a,?_⟩
    dsimp only
    by_cases hp : a.isPlaying = playing
    · rw [if_pos hp]
      refine ⟨hk,hd,rfl,rfl,rfl,rfl,?_⟩
      rw [Audio.part,hp,Int.sub_self]
      exact shifted_zero s a.owner
    · have hdiff : (if playing = true then (1 : ℤ) else 0) - a.part =
          if playing = true then 1 else -1 := by
        unfold Audio.part
        cases playing <;> cases hplay : a.isPlaying <;> simp_all
      rw [if_neg hp]
      refine ⟨hk,hd,rfl,rfl,rfl,rfl,?_⟩
      rw [hdiff]
      exact shifted_addSources s a.owner _

theorem Counted.switched {p : Bool} (h : Counted s) (hs : Switched s t k a p) : Counted t :=
  h.replace (b := { a with streamPaused := !p, isPlaying := p }) hs.there rfl (fun _ => rfl)
    (fun hd => absurd (hs.used.symm.trans hd) Bool.false_ne_true) hs.audios hs.made hs.shifted

theorem shifted_destroy (s : State) (k : ℕ) (a : Audio) :
    Shifted s (ppbAudioDestroy s k a) a.owner (0 - a.part) := by
  unfold ppbAudioDestroy Audio.part
  dsimp only
  split_ifs
  · exact shifted_addSources s a.owner (-1)
  · exact shifted_zero s a.owner

theorem Counted.destroy (h : Counted s) (ha : s.acquire k = some a) :
    Counted (ppbAudioDestroy s k a) := by
  obtain ⟨hk,-⟩ := acquire_eq ha
  refine h.replace hk (b := { a with isPlaying := false, destroyed := true }) rfl
    (fun hd => (by cases hd)) (fun _ => rfl) ?_ ?_ (shifted_destroy s k a) <;>
  · unfold ppbAudioDestroy
    dsimp only
    split_ifs <;> rfl

theorem Counted.step {x : Action} (h : Counted s) (ht : step s x = some t) : Counted t := by
  cases x with
  | nppNew =>
    cases ht
    refine ⟨fun i hi => ?_,h.paused,h.silent,fun a ha => Nat.lt_succ_of_lt (h.known a ha),
      fun i hi => ?_⟩
    by_cases hm : i = s.made
    · subst hm
      have hnone : playing (nppNew s) s.made = 0 := List.countP_eq_zero.mpr fun a ha => by
        simp [Audio.sounds,Nat.ne_of_lt (h.known a ha)]
      rw [hnone]
      simp [nppNew]
    · simp only [nppNew,Function.update_of_ne hm] at hi ⊢
      exact h.sources i hi
    · by_cases hm : i = s.made
      · exact hm ▸ Nat.lt_succ_self i
      · simp only [nppNew,Function.update_of_ne hm] at hi
        exact Nat.lt_succ_of_lt (h.living i hi)
  | nppDestroy i =>
    cases ht
    have hne : ∀ j, ((nppDestroy s i).instances j).alive = true → j ≠ i := fun j hj he => by
      subst he
      simp [nppDestroy] at hj
    refine ⟨fun j hj => ?_,h.paused,h.silent,h.known,fun j hj => ?_⟩ <;>
      have hji := hne j hj <;> simp only [nppDestroy,Function.update_of_ne hji] at hj ⊢
    · exact h.sources j hj
    · exact h.living j hj
  | create i callback audioConfig stream =>
    cases ht
    unfold doPpbAudioCreate
    split_ifs with halive
    · exact h
    · exact h
    · exact h
    · exact h
    · have halive : (s.instances i).alive = true := by simpa using halive
      refine ⟨fun j hj => ?_,fun a ha => ?_,fun a ha => ?_,fun a ha => ?_,h.living⟩
      · rw [h.sources j hj]
        simp [playing,Audio.sounds]
      all_goals
        obtain ha | ha := List.mem_append.mp ha
      · exact h.paused a ha
      · cases List.mem_singleton.mp ha
        exact fun _ => rfl
      · exact h.silent a ha
      · cases List.mem_singleton.mp ha
        exact fun _ => rfl
      · exact h.known a ha
      · cases List.mem_singleton.mp ha
        exact h.living i halive
  | startPlayback k =>
    simp only [AudioStatus.step] at ht
    split_ifs at ht
    cases ht
    obtain he | ⟨a,hs⟩ := setPlayback_cases s k true
    · rw [ppbAudioStartPlayback,he]
      exact h
    · exact h.switched hs
  | stopPlayback k =>
    simp only [AudioStatus.step] at ht
    split_ifs at ht
    cases ht
    obtain he | ⟨a,hs⟩ := setPlayback_cases s k false
    · rw [ppbAudioStopPlayback,he]
      exact h
    · exact h.switched hs
  | release k =>
    simp only [AudioStatus.step] at ht
    split_ifs at ht
    obtain ⟨a,ha,rfl⟩ := Option.map_eq_some_iff.mp ht
    exact h.destroy ha
  | update k =>
    obtain ⟨i,-,rfl⟩ := Option.map_eq_some_iff.mp ht
    unfold updateInstancePlayingAudioStatus
    dsimp only
    split_ifs
    · exact ⟨h.sources,h.paused,h.silent,h.known,h.living⟩
    · exact ⟨h.sources,h.paused,h.silent,h.known,h.living⟩

theorem created_counted : Counted State.create :=
  ⟨fun _ h => (by cases h),fun _ h => absurd h List.not_mem_nil,fun _ h => absurd h List.not_mem_nil,
    fun _ h => absurd h List.not_mem_nil,fun _ h => (by cases h)⟩

/-- The count of an instance is that of its resources that play, whatever was started, stopped,
started again or released while it played, and the stream of a resource is paused exactly while
it does not play. -/
theorem sources_counted (h : machine.Reachable s) :
    (∀ i, (s.instances i).alive = true → (s.instances i).audioSourceCount = playing s i) ∧
    ∀ a ∈ s.audios, a.destroyed = false → a.streamPaused = !a.isPlaying := by
  have hc := h.invariant Counted created_counted fun _ _ _ hi _ ht => hi.step ht
  exact ⟨hc.sources,hc.paused⟩

/-- The browser knows of each instance whether it plays, or is about to be told. -/
def Right (s : State) : Prop := ∀ i, (s.instances i).alive = true →
  i ∈ s.updates ∨ s.told i = decide (0 < (s.instances i).audioSourceCount)

/-- The last resource of an instance that plays is not released, unless an update is to come. -/
def Announced (s : State) : Action → Prop
  | .release k => ∀ a ∈ s.acquire k, a.isPlaying = true → a.owner ∈ s.updates ∨
      1 < (s.instances a.owner).audioSourceCount
  | _ => True

instance (s : State) (x : Action) : Decidable (Announced s x) := by
  apply x.casesOn (motive := fun x => Decidable (Announced s x)) <;> intros <;>
    dsimp only [Announced] <;> infer_instance

theorem Right.switched {p : Bool} (h : Right s) (hs : Switched s t k a p) : Right t := fun i hi => by
  obtain ⟨halive,hcount⟩ := hs.shifted i
  rw [hs.updates,hs.told,hcount]
  by_cases hown : i = a.owner
  · exact .inl (List.mem_append_right _ (List.mem_singleton.mpr hown))
  · rw [if_neg hown,Int.add_zero]
    exact (h i (halive ▸ hi)).imp_left (List.mem_append_left _)

/-- Releasing a resource that plays tells nobody. -/
theorem destroy_right_iff (hc : Counted s) (h : Right s) (hu : s.usable k = true)
    (ha : s.acquire k = some a) : Right (ppbAudioDestroy s k a) ↔ Announced s (.release k) := by
  obtain ⟨hk,-⟩ := acquire_eq ha
  have halive := usable_alive hu ha
  have hshift := shifted_destroy s k a
  have hupdates : (ppbAudioDestroy s k a).updates = s.updates := by
    unfold ppbAudioDestroy
    dsimp only
    split_ifs <;> rfl
  have htold : (ppbAudioDestroy s k a).told = s.told := by
    unfold ppbAudioDestroy
    dsimp only
    split_ifs <;> rfl
  constructor
  · intro hr b hb hplay
    cases Option.some.inj (hb.symm.trans ha)
    obtain ⟨halive',hcount⟩ := hshift a.owner
    obtain hup | hbefore := h a.owner halive
    · exact .inl hup
    · obtain hup | hafter := hr a.owner (halive'.trans halive)
      · exact .inl (hupdates ▸ hup)
      · -- the browser was told that the instance plays, and it still must
        have hpos : 0 < playing s a.owner := List.countP_pos_iff.mpr
          ⟨a,List.mem_of_getElem? hk,by simp [Audio.sounds,hplay]⟩
        have hsources := hc.sources a.owner halive
        rw [htold,hbefore,hcount,if_pos rfl,Audio.part,if_pos hplay,decide_eq_decide] at hafter
        exact .inr (by omega)
  · intro hg i hi
    obtain ⟨halive',hcount⟩ := hshift i
    have hbefore := h i (halive' ▸ hi)
    rw [hupdates,htold,hcount]
    by_cases hown : i = a.owner
    · subst hown
      cases hplay : a.isPlaying with
      | false => simpa [Audio.part,hplay] using hbefore
      | true =>
        obtain hup | hmore := hg a ha hplay
        · exact .inl hup
        · refine hbefore.imp_right fun hb => ?_
          rw [hb,if_pos rfl,Audio.part,if_pos hplay,decide_eq_decide]
          omega
    · rwa [if_neg hown,Int.add_zero]

theorem Right.step_iff {x : Action} (hc : Counted s) (h : Right s) (ht : step s x = some t) :
    Right t ↔ Announced s x := by
  cases x with
  | nppNew =>
    cases ht
    refine ⟨fun _ => trivial,fun _ i hi => ?_⟩
    by_cases hm : i = s.made
    · subst hm
      right
      simp [nppNew]
    · simp only [nppNew,Function.update_of_ne hm] at hi ⊢
      exact h i hi
  | nppDestroy i =>
    cases ht
    refine ⟨fun _ => trivial,fun _ j hj => ?_⟩
    by_cases hji : j = i
    · subst hji
      simp [nppDestroy] at hj
    · simp only [nppDestroy,Function.update_of_ne hji] at hj ⊢
      exact h j hj
  | create i callback audioConfig stream =>
    cases ht
    refine ⟨fun _ => trivial,fun _ => ?_⟩
    unfold doPpbAudioCreate
    split_ifs
    · exact h
    · exact h
    · exact h
    · exact h
    · exact h
  | startPlayback k =>
    simp only [AudioStatus.step] at ht
    split_ifs at ht
    cases ht
    refine ⟨fun _ => trivial,fun _ => ?_⟩
    obtain he | ⟨a,hs⟩ := setPlayback_cases s k true
    · rw [ppbAudioStartPlayback,he]
      exact h
    · exact h.switched hs
  | stopPlayback k =>
    simp only [AudioStatus.step] at ht
    split_ifs at ht
    cases ht
    refine ⟨fun _ => trivial,fun _ => ?_⟩
    obtain he | ⟨a,hs⟩ := setPlayback_cases s k false
    · rw [ppbAudioStopPlayback,he]
      exact h
    · exact h.switched hs
  | release k =>
    simp only [AudioStatus.step] at ht
    split_ifs at ht with hu
    obtain ⟨a,ha,rfl⟩ := Option.map_eq_some_iff.mp ht
    exact destroy_right_iff hc h hu ha
  | update k =>
    obtain ⟨i,hi,rfl⟩ := Option.map_eq_some_iff.mp ht
    refine ⟨fun _ => trivial,fun _ => ?_⟩
    have hrest : ∀ j, j ≠ i → j ∈ s.updates → j ∈ s.updates.eraseIdx k := fun j hne hj => by
      obtain ⟨n,hn⟩ := List.mem_iff_getElem?.mp hj
      refine List.mem_eraseIdx_iff_getElem?.mpr ⟨n,fun he => hne ?_,hn⟩
      exact Option.some.inj (hn.symm.trans (he ▸ hi))
    unfold updateInstancePlayingAudioStatus
    dsimp only
    split_ifs with halive <;> intro j hj
    · by_cases hji : j = i
      · subst hji
        exact .inr (Function.update_self _ _ _)
      · dsimp only at hj ⊢
        rw [Function.update_of_ne hji]
        exact (h j hj).imp_left (hrest j hji)
    · refine (h j hj).imp_left (hrest j fun he => halive ?_)
      exact he ▸ hj

theorem created_right : Right State.create := fun _ h => (by cases h)

/-- Two resources play, one is stopped and one released. -/
def stopped : List Action :=
  [.nppNew,.create 0 true true true,.create 0 true true true,.startPlayback 0,.update 0,
    .startPlayback 1,.update 0,.release 0,.stopPlayback 1,.update 0,.release 1]

/-- A resource is released while it plays. -/
def released : List Action :=
  [.nppNew,.create 0 true true true,.startPlayback 0,.update 0,.release 0]

theorem stopped_counted : ∃ s : State, machine.exec machine.start stopped = some s ∧
    s.updates = [] ∧ s.told 0 = false ∧
    (∀ i, (s.instances i).alive = true → (s.instances i).audioSourceCount = playing s i) ∧
    ∀ a ∈ s.audios, a.destroyed = false → a.streamPaused = !a.isPlaying := by
  obtain ⟨s,hs,hu,ht⟩ : ∃ s : State, machine.exec machine.start stopped = some s ∧
      s.updates = [] ∧ s.told 0 = false := ⟨_,rfl,rfl,rfl⟩
  exact ⟨s,hs,hu,ht,sources_counted (Machine.reachable_of_exec hs)⟩

end AudioStatus
end FreshPlayer
