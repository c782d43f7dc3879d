import FreshPlayer.GraphicsCompletion
import Mathlib.Data.List.Perm.Subperm

/-! The completion protocol. A call whose callback may still be run is in one place:
a Flush that stored nothing and has not returned, a posted callback, or the slot. The
slot is emptied only by a wrapper posted for the callback in it, provided no wrapper
outlives the callback it was posted for. -/
namespace FreshPlayer
namespace GraphicsCompletion

def Bound (s : State) : Prop := (s.contexts s.graphics).isSome = true

instance (s : State) : Decidable (Bound s) := inferInstanceAs (Decidable (_ = true))

def WrapperQueued (s : State) : Prop := ∃ t ∈ s.tasks, t.2 = .graphicsCcbWrapper

instance (s : State) : Decidable (WrapperQueued s) :=
  inferInstanceAs (Decidable (∃ t ∈ s.tasks, _))

/-- An expose event and the wrapper it posts, once accepted, empty the slot. -/
def ExposeClears (s : State) : Prop :=
  s.graphicsInProgress = true → s.exposing = none → s.locked s.graphics = false →
    ∃ t, machine.exec s [.exposeAcquire,.exposeDraw true,.run s.tasks.length] = some t ∧
      t.graphicsInProgress = false

/-- The protocol: a callback runs at most once, that of a context bound when it was
stored only after an expose event, and the flag is up only while an expose event is
bound to take it down. -/
structure Protocol (s : State) : Prop where
  once : ∀ n, s.runs.countP (·.call = n) ≤ 1
  exposedFirst : ∀ r ∈ s.runs, ∀ c ∈ s.calls[r.call]?, c.stored = true → r.exposed = true
  inProgress : s.graphicsInProgress = true → Bound s ∧ s.graphicsCcb.func ≠ none
  clears : ExposeClears s

/-- The callback that takes the slot is not NULL and no wrapper is queued. -/
def MayStore (s : State) (callback : Callback) : Prop :=
  s.graphicsInProgress = false → callback.func ≠ none ∧ ¬WrapperQueued s

instance (s : State) (callback : Callback) : Decidable (MayStore s callback) :=
  inferInstanceAs (Decidable (_ → _))

/-- The slot is taken only as it may be, no unbinding clears or destroys its context while
it is, and the context of a Flush that stored is still bound when the Flush returns. -/
def Orderly (s : State) : Action → Prop
  | .flush c callback _ | .swapBuffers c callback _ => s.graphics = c → MayStore s callback
  | .flushReturn i _ => ∀ f ∈ s.flushes[i]?, f.stored = true → s.graphics = f.graphics2d
  | .unbindClear => s.graphicsInProgress = false
  | .destroy c => c = s.graphics → s.graphicsInProgress = false
  | _ => True

instance (s : State) (a : Action) : Decidable (Orderly s a) := by
  apply a.casesOn (motive := fun a => Decidable (Orderly s a)) <;> intros <;>
    dsimp only [Orderly] <;> infer_instance

/-! Where a callback may still be. -/

def directCall : Task → Option ℕ
  | .graphicsCcbWrapper => none
  | .callback call _ => some call

def Flush.unstored (f : Flush) : Option ℕ := if f.stored then none else some f.call

/-- The callbacks that are posted, or will be, without having been stored. -/
def State.direct (s : State) : List ℕ :=
  s.tasks.filterMap (fun t => directCall t.2) ++ s.flushes.filterMap Flush.unstored

def State.slot (s : State) : List ℕ := if s.graphicsInProgress then [s.storedCall] else []

/-- The calls whose callbacks were run or may still be. -/
def State.places (s : State) : List ℕ := s.runs.map Run.call ++ s.direct ++ s.slot

/-- What holds in every state of an orderly run. -/
structure Inv (s : State) : Prop where
  once : s.places.Nodup
  known : ∀ n ∈ s.places, n < s.calls.length
  unstored : ∀ n ∈ s.direct, ∀ c ∈ s.calls[n]?, c.stored = false
  exposedFirst : ∀ r ∈ s.runs, ∀ c ∈ s.calls[r.call]?, c.stored = true → r.exposed = true
  taken : s.graphicsInProgress = true ↔ s.graphicsCcb.func ≠ none
  bound : s.graphicsInProgress = true → Bound s
  exposed : s.graphicsInProgress = true → WrapperQueued s → s.exposed = true

theorem Inv.create : Inv .create where
  once := .nil
  known := nofun
  unstored := nofun
  exposedFirst := nofun
  taken := ⟨nofun,fun h => absurd rfl h⟩
  bound := nofun
  exposed := nofun

theorem filterMap_set {α β : Type*} {f : α → Option β} {l : List α} {i : ℕ} {a b : α}
    (h : l[i]? = some a) (hf : f b = f a) : (l.set i b).filterMap f = l.filterMap f := by
  induction l generalizing i with
  | nil => rfl
  | cons x l ih =>
    cases i with
    | zero =>
      cases Option.some.inj h
      simp only [List.set_cons_zero,List.filterMap_cons,hf]
    | succ i =>
      have ih' := ih (i := i) (by simpa using h)
      simp only [List.set_cons_succ,List.filterMap_cons,ih']

theorem perm_of_getElem? {α : Type*} {l : List α} {i : ℕ} {a : α} (h : l[i]? = some a) :
    List.Perm l (a::l.eraseIdx i) := by
  obtain ⟨hi,rfl⟩ := List.getElem?_eq_some_iff.mp h
  exact (List.getElem_cons_eraseIdx_perm hi).symm

theorem unstored_new {calls : List Call} {c : Call} {n : ℕ} (hn : n < calls.length) :
    (calls ++ [c])[n]? = calls[n]? := List.getElem?_append_left hn

/-- Steps that touch neither the slot nor what is posted. -/
theorem Inv.frame {s t : State} (h : Inv s) (hd : t.direct = s.direct) (hr : t.runs = s.runs)
    (hc : t.calls = s.calls) (hp : t.graphicsInProgress = s.graphicsInProgress)
    (hs : t.storedCall = s.storedCall) (hcb : t.graphicsCcb = s.graphicsCcb)
    (hb : s.graphicsInProgress = true → Bound t)
    (he : s.graphicsInProgress = true → WrapperQueued t → t.exposed = true) : Inv t := by
  have hpl : t.places = s.places := by
    simp only [State.places,State.slot,hd,hr,hp,hs]
  refine ⟨by rw [hpl]; exact h.once,by rw [hpl,hc]; exact h.known,by rw [hd,hc]; exact h.unstored,
    by rw [hr,hc]; exact h.exposedFirst,by rw [hp,hcb]; exact h.taken,by rw [hp]; exact hb,
    by rw [hp]; exact he⟩

/-- A callback in fewer places than before, or run from where it was. -/
theorem Inv.shrink {s t : State} (h : Inv s) (hpl : t.places.Subperm s.places)
    (hd : ∀ n ∈ t.direct, n ∈ s.direct) (hc : t.calls = s.calls)
    (hr : ∀ r ∈ t.runs, ∀ c ∈ s.calls[r.call]?, c.stored = true → r.exposed = true)
    (ht : t.graphicsInProgress = true ↔ t.graphicsCcb.func ≠ none)
    (hb : t.graphicsInProgress = true → Bound t)
    (he : t.graphicsInProgress = true → WrapperQueued t → t.exposed = true) : Inv t := by
  refine ⟨?_,?_,?_,by rw [hc]; exact hr,ht,hb,he⟩
  · exact List.nodup_iff_count.mpr fun n =>
      Nat.le_trans (hpl.count_le n) (List.nodup_iff_count.mp h.once n)
  · rw [hc]
    exact fun n hn => h.known n (hpl.subset hn)
  · rw [hc]
    exact fun n hn => h.unstored n (hd n hn)

/-- A call with its place. -/
theorem Inv.grow {s t : State} {c : Call} (h : Inv s)
    (hpl : List.Perm t.places (s.calls.length::s.places)) (hc : t.calls = s.calls ++ [c])
    (hd : ∀ n ∈ t.direct, n ∈ s.direct ∨ n = s.calls.length ∧ c.stored = false)
    (hr : t.runs = s.runs) (ht : t.graphicsInProgress = true ↔ t.graphicsCcb.func ≠ none)
    (hb : t.graphicsInProgress = true → Bound t)
    (he : t.graphicsInProgress = true → WrapperQueued t → t.exposed = true) : Inv t := by
  refine ⟨?_,?_,?_,?_,ht,hb,he⟩
  · refine hpl.nodup_iff.mpr (List.nodup_cons.mpr ⟨fun hm => ?_,h.once⟩)
    exact absurd (h.known _ hm) (Nat.lt_irrefl _)
  · intro n hn
    rw [hc,List.length_append,List.length_singleton]
    rcases List.mem_cons.mp (hpl.subset hn) with rfl | hn
    · omega
    · have := h.known n hn
      omega
  · intro n hn c' hc'
    rw [hc] at hc'
    rcases hd n hn with hn | ⟨rfl,hcs⟩
    · rw [unstored_new (h.known n (by simp [State.places,hn]))] at hc'
      exact h.unstored n hn c' hc'
    · have hcc : c = c' := by simpa using hc'
      rw [← hcc]
      exact hcs
  · rw [hr]
    intro r hr' c' hc'
    rw [hc,unstored_new (h.known r.call ?_)] at hc'
    · exact h.exposedFirst r hr' c' hc'
    · exact List.mem_append_left _ (List.mem_append_left _ (List.mem_map_of_mem hr'))

/-- A call has passed its checks and taken its place. -/
structure Accepts (s t : State) (c : Call) : Prop where
  idle : s.graphicsInProgress = false
  bound : (s.contexts c.context).isSome = true
  contexts : t.contexts = s.contexts
  graphics : t.graphics = s.graphics
  calls : t.calls = s.calls ++ [c]
  runs : t.runs = s.runs
  tasks : t.tasks = s.tasks
  direct : t.direct = s.direct ++ if c.stored then [] else [s.calls.length]
  stored : c.stored = true → s.graphics = c.context ∧ t.graphicsCcb = c.callback ∧
    t.graphicsInProgress = true ∧ t.storedCall = s.calls.length
  unstored : c.stored = false → t.graphicsCcb = s.graphicsCcb ∧ t.graphicsInProgress = false

theorem flush_accepts {s t : State} {g2d : ℕ} {callback : Callback} {ml : ℕ}
    (ht : ppbGraphics2dFlush s g2d callback ml = some t) :
    t = s ∨ Accepts s t ⟨g2d,callback,decide (s.graphics = g2d)⟩ := by
  unfold ppbGraphics2dFlush at ht
  split_ifs at ht with hty hl hp
  · exact Or.inl (Option.some.inj ht).symm
  · exact Or.inl (Option.some.inj ht).symm
  have hp' : s.graphicsInProgress = false := by simpa using hp
  have hb : (s.contexts g2d).isSome = true := by
    rw [not_not.mp hty]
    rfl
  refine Or.inr ?_
  by_cases hs : s.graphics = g2d
  · simp only [hs,decide_true,if_true] at ht ⊢
    cases ht
    refine ⟨hp',hb,rfl,rfl,rfl,rfl,rfl,?_,fun _ => ⟨hs,rfl,rfl,rfl⟩,nofun⟩
    simp [State.direct,State.setLocked,State.addCall,State.store,Flush.unstored]
  · simp only [hs,decide_false,Bool.false_eq_true,if_false] at ht ⊢
    cases ht
    refine ⟨hp',hb,rfl,rfl,rfl,rfl,rfl,?_,nofun,fun _ => ⟨rfl,hp'⟩⟩
    simp [State.direct,State.setLocked,State.addCall,Flush.unstored]

theorem swapBuffers_accepts {s t : State} {c : ℕ} {callback : Callback} {ml : ℕ}
    (ht : ppbGraphics3dSwapBuffers s c callback ml = some t) :
    t = s ∨ s.graphics = c ∧ Accepts s t ⟨c,callback,true⟩ := by
  unfold ppbGraphics3dSwapBuffers at ht
  split_ifs at ht with hty hl hs hp
  · exact Or.inl (Option.some.inj ht).symm
  · exact Or.inl (Option.some.inj ht).symm
  · exact Or.inl (Option.some.inj ht).symm
  cases ht
  have hb : (s.contexts c).isSome = true := by
    rw [not_not.mp hty]
    rfl
  have hs' := not_not.mp hs
  exact Or.inr ⟨hs',by simpa using hp,hb,rfl,rfl,rfl,rfl,rfl,
    by simp [State.direct,State.addCall,State.store],fun _ => ⟨hs',rfl,rfl,rfl⟩,nofun⟩

theorem Inv.accepts {s t : State} {c : Call} (h : Inv s) (ha : Accepts s t c)
    (hg : c.stored = true → MayStore s c.callback) : Inv t := by
  have hslot : s.slot = [] := by simp [State.slot,ha.idle]
  have hdir := ha.direct
  cases hs : c.stored with
  | true =>
    -- the slot was free and takes the callback
    obtain ⟨hbd,hcb,hp,hcall⟩ := ha.stored hs
    obtain ⟨hf,hw⟩ := hg hs ha.idle
    simp only [hs,if_true,List.append_nil] at hdir
    have hw' : ¬WrapperQueued t := by rwa [WrapperQueued,ha.tasks]
    refine h.grow ?_ ha.calls (fun n hn => Or.inl (hdir ▸ hn)) ha.runs ?_ (fun _ => ?_)
      fun _ hq => absurd hq hw'
    · rw [State.places,State.places,hdir,ha.runs,hslot,List.append_nil]
      simp only [State.slot,hp,hcall,if_true]
      exact List.perm_append_singleton _ _
    · rw [hp,hcb]
      exact ⟨fun _ => hf,fun _ => rfl⟩
    · rw [Bound,ha.contexts,ha.graphics,hbd]
      exact ha.bound
  | false =>
    obtain ⟨hcb,hp⟩ := ha.unstored hs
    simp only [hs,Bool.false_eq_true,if_false] at hdir
    refine h.grow ?_ ha.calls (fun n hn => ?_) ha.runs ?_ ?_ ?_
    · rw [State.places,State.places,hdir,ha.runs,hslot,List.append_nil]
      simp only [State.slot,hp,Bool.false_eq_true,if_false,List.append_nil]
      rw [← List.append_assoc]
      exact List.perm_append_singleton _ _
    · rw [hdir] at hn
      rcases List.mem_append.mp hn with hn | hn
      · exact Or.inl hn
      · exact Or.inr ⟨List.mem_singleton.mp hn,hs⟩
    · have htaken := h.taken
      rw [ha.idle] at htaken
      rw [hp,hcb]
      exact htaken
    · rw [hp]
      nofun
    · rw [hp]
      nofun

theorem Inv.flushRelease {s t : State} {i : ℕ} {f : Flush} (h : Inv s)
    (hf : s.flushes[i]? = some f) (ht : flushRelease s i f = some t) : Inv t := by
  unfold GraphicsCompletion.flushRelease at ht
  split_ifs at ht
  cases ht
  refine h.frame ?_ rfl rfl rfl rfl rfl h.bound h.exposed
  simp only [State.direct,State.setLocked]
  rw [filterMap_set hf]
  rfl

/-- Taking a Flush out leaves its callback, unless stored, without a place. -/
theorem direct_erase_flush {s : State} {i : ℕ} {f : Flush} (hf : s.flushes[i]? = some f) :
    List.Perm s.direct
      (f.unstored.toList ++ State.direct { s with flushes := s.flushes.eraseIdx i }) := by
  have hp := (perm_of_getElem? hf).filterMap Flush.unstored
  have hc : (f::s.flushes.eraseIdx i).filterMap Flush.unstored =
      f.unstored.toList ++ (s.flushes.eraseIdx i).filterMap Flush.unstored := by
    cases hu : f.unstored <;> simp [hu]
  rw [hc] at hp
  simp only [State.direct]
  refine (hp.append_left _).trans ?_
  rw [← List.append_assoc,← List.append_assoc]
  exact List.perm_append_comm.append_right _

theorem Inv.flushReturn {s t : State} {i : ℕ} {accepted : Bool} {f : Flush} (h : Inv s)
    (hg : Orderly s (.flushReturn i accepted)) (hf : s.flushes[i]? = some f)
    (ht : flushReturn s i f accepted = some t) : Inv t := by
  have hdir := direct_erase_flush hf
  unfold GraphicsCompletion.flushReturn at ht
  split_ifs at ht with ha hpost
  · cases ht
    -- a callback posted here was not stored, its context being bound otherwise
    have hst : f.stored = false := by
      by_contra hst
      exact hpost.2.1 (hg f hf (by simpa using hst))
    have hun : f.unstored.toList = [f.call] := by simp [Flush.unstored,hst]
    rw [hun] at hdir
    have hmove : List.Perm (State.direct { s with
        flushes := s.flushes.eraseIdx i
        tasks := s.tasks ++ [(f.ml,.callback f.call f.callback)] }) s.direct := by
      refine List.Perm.trans ?_ hdir.symm
      simp only [State.direct,List.filterMap_append,List.append_assoc]
      exact List.perm_middle
    refine h.shrink ?_ (fun n hn => hmove.subset hn) rfl h.exposedFirst h.taken h.bound ?_
    · exact ((hmove.append_left _).append_right _).subperm
    · rintro hp ⟨x,hx,hxw⟩
      refine h.exposed hp ⟨x,?_,hxw⟩
      rcases List.mem_append.mp hx with hx | hx
      · exact hx
      · rw [List.mem_singleton.mp hx] at hxw
        cases hxw
  · cases ht
    have hsub : (State.direct { s with flushes := s.flushes.eraseIdx i }).Subperm s.direct :=
      (List.sublist_append_right _ _).subperm.trans hdir.symm.subperm
    refine h.shrink ?_ (fun n hn => hsub.subset hn) rfl h.exposedFirst h.taken h.bound h.exposed
    exact (List.subperm_append_right _).mpr ((List.subperm_append_left _).mpr hsub)

theorem Inv.bindGraphics {s t : State} {device : ℕ} (h : Inv s)
    (ht : ppbInstanceBindGraphics s device = some t) : Inv t := by
  unfold ppbInstanceBindGraphics at ht
  split_ifs at ht with hd hl
  · cases ht
    exact h
  · cases ht
    exact h.frame rfl rfl rfl rfl rfl rfl (fun _ => Option.isSome_iff_ne_none.mpr hd) h.exposed

theorem Inv.exposeAcquire {s t : State} (h : Inv s) (ht : exposeAcquire s = some t) : Inv t := by
  unfold GraphicsCompletion.exposeAcquire at ht
  split_ifs at ht
  · cases ht
    exact h.frame rfl rfl rfl rfl rfl rfl h.bound h.exposed
  · cases ht
    exact h.frame rfl rfl rfl rfl rfl rfl h.bound h.exposed

theorem Inv.exposeDraw {s t : State} {accepted : Bool} (h : Inv s)
    (ht : handleGraphicsExposeEvent s accepted = some t) : Inv t := by
  unfold handleGraphicsExposeEvent at ht
  split at ht
  · cases ht
  · cases ht
    exact h.frame rfl rfl rfl rfl rfl rfl h.bound h.exposed
  · dsimp only at ht
    split_ifs at ht
    · cases ht
      refine h.frame ?_ rfl rfl rfl rfl rfl h.bound fun _ _ => rfl
      simp [State.direct,directCall,State.setLocked]
    · cases ht
      exact h.frame rfl rfl rfl rfl rfl rfl h.bound fun _ _ => rfl

/-- Taking a task out leaves the callback it runs, if any, without a place. -/
theorem direct_erase_task {s : State} {i ml : ℕ} {task : Task} (hi : s.tasks[i]? = some (ml,task)) :
    List.Perm s.direct
      ((directCall task).toList ++ State.direct { s with tasks := s.tasks.eraseIdx i }) := by
  have hp := (perm_of_getElem? hi).filterMap fun t => directCall t.2
  have hc : ((ml,task)::s.tasks.eraseIdx i).filterMap (fun t => directCall t.2) =
      (directCall task).toList ++ (s.tasks.eraseIdx i).filterMap fun t => directCall t.2 := by
    cases hu : directCall task <;> simp [hu]
  rw [hc] at hp
  simp only [State.direct,← List.append_assoc]
  exact hp.append_right _

theorem WrapperQueued.of_erase {s : State} {i : ℕ}
    (h : WrapperQueued { s with tasks := s.tasks.eraseIdx i }) : WrapperQueued s := by
  obtain ⟨x,hx,hw⟩ := h
  exact ⟨x,List.mem_of_mem_eraseIdx hx,hw⟩

theorem Inv.runWrapper {s : State} {i ml : ℕ} (h : Inv s)
    (hi : s.tasks[i]? = some (ml,.graphicsCcbWrapper)) :
    Inv (runTask s i .graphicsCcbWrapper) := by
  have hdir : List.Perm s.direct (State.direct { s with tasks := s.tasks.eraseIdx i }) :=
    direct_erase_task hi
  have hq : WrapperQueued s := ⟨_,List.mem_of_getElem? hi,rfl⟩
  by_cases hp : s.graphicsInProgress = true
  · have hf := h.taken.mp hp
    have hex := h.exposed hp hq
    have hrun : runTask s i .graphicsCcbWrapper =
        { s with tasks := s.tasks.eraseIdx i, graphicsCcb := ⟨none,0⟩, graphicsInProgress := false,
                 runs := s.runs ++ [⟨s.storedCall,s.graphicsCcb,s.exposed⟩] } := by
      simp only [runTask,graphicsCcbWrapperComt,State.run,if_neg hf]
    rw [hrun]
    refine h.shrink ?_ (fun n hn => hdir.symm.subset hn) rfl (fun r hr c hc hst => ?_)
      ⟨nofun,fun hn => absurd rfl hn⟩ nofun nofun
    · simp only [State.places,State.slot,hp,if_true,Bool.false_eq_true,if_false,List.map_append,
        List.map_cons,List.map_nil,List.append_nil,List.append_assoc]
      refine ((List.perm_append_comm.trans (hdir.symm.append_right _)).append_left _).subperm
    · rcases List.mem_append.mp hr with hr | hr
      · exact h.exposedFirst r hr c hc hst
      · rw [List.mem_singleton.mp hr]
        exact hex
  · -- a wrapper that finds the slot empty
    have hf : s.graphicsCcb.func = none := not_not.mp (mt h.taken.mpr hp)
    have hrun : runTask s i .graphicsCcbWrapper =
        { s with tasks := s.tasks.eraseIdx i, graphicsCcb := ⟨none,0⟩
                 graphicsInProgress := false } := by
      simp only [runTask,graphicsCcbWrapperComt,State.run,if_pos hf]
    rw [hrun]
    refine h.shrink ?_ (fun n hn => hdir.symm.subset hn) rfl h.exposedFirst
      ⟨nofun,fun hn => absurd rfl hn⟩ nofun nofun
    simp only [State.places,State.slot,hp,Bool.false_eq_true,if_false,List.append_nil]
    exact (hdir.symm.append_left _).subperm

theorem Inv.runCallback {s : State} {i ml n : ℕ} {callback : Callback} (h : Inv s)
    (hi : s.tasks[i]? = some (ml,.callback n callback)) :
    Inv (runTask s i (.callback n callback)) := by
  have hdir : List.Perm s.direct (n::State.direct { s with tasks := s.tasks.eraseIdx i }) :=
    direct_erase_task hi
  have hsub : ∀ m ∈ State.direct { s with tasks := s.tasks.eraseIdx i }, m ∈ s.direct :=
    fun m hm => hdir.symm.subset (List.mem_cons_of_mem n hm)
  have hex : s.graphicsInProgress = true →
      WrapperQueued { s with tasks := s.tasks.eraseIdx i } → s.exposed = true :=
    fun hp hq => h.exposed hp hq.of_erase
  simp only [runTask,State.run]
  split_ifs
  · refine h.shrink ?_ hsub rfl h.exposedFirst h.taken h.bound hex
    refine (List.subperm_append_right _).mpr ((List.subperm_append_left _).mpr ?_)
    exact (List.sublist_cons_self n _).subperm.trans hdir.symm.subperm
  · refine h.shrink ?_ hsub rfl (fun r hr c hc hst => ?_) h.taken h.bound hex
    · simp only [State.places,List.map_append,List.map_cons,List.map_nil]
      rw [List.append_assoc (s.runs.map Run.call) [n]]
      exact ((hdir.symm.append_left _).append_right _).subperm
    · rcases List.mem_append.mp hr with hr | hr
      · exact h.exposedFirst r hr c hc hst
      · -- it was posted by a Flush that stored nothing
        rw [List.mem_singleton.mp hr] at hc
        rw [h.unstored n (hdir.symm.subset List.mem_cons_self) c hc] at hst
        cases hst

theorem Inv.step {s t : State} {a : Action} (h : Inv s) (hg : Orderly s a)
    (ht : step s a = some t) : Inv t := by
  cases a with
  | create type c =>
    simp only [GraphicsCompletion.step] at ht
    split_ifs at ht with hc
    cases ht
    refine h.frame rfl rfl rfl rfl rfl rfl (fun hp => ?_) h.exposed
    have hne : s.graphics ≠ c := by
      rintro rfl
      have hb := h.bound hp
      rw [Bound,hc.2] at hb
      cases hb
    change (Function.update s.contexts c (some type) s.graphics).isSome = true
    rw [Function.update_of_ne hne]
    exact h.bound hp
  | destroy c =>
    simp only [GraphicsCompletion.step] at ht
    split_ifs at ht
    cases ht
    refine h.frame rfl rfl rfl rfl rfl rfl (fun hp => ?_) h.exposed
    have hne : s.graphics ≠ c := by
      intro he
      rw [hg he.symm] at hp
      cases hp
    change (Function.update s.contexts c none s.graphics).isSome = true
    rw [Function.update_of_ne hne]
    exact h.bound hp
  | flush g2d callback ml =>
    rcases flush_accepts ht with rfl | ha
    · exact h
    · exact h.accepts ha fun hs => hg (by simpa using hs)
  | flushRelease i =>
    obtain ⟨f,hf,ht⟩ := Option.bind_eq_some_iff.mp ht
    exact h.flushRelease hf ht
  | flushReturn i accepted =>
    obtain ⟨f,hf,ht⟩ := Option.bind_eq_some_iff.mp ht
    exact h.flushReturn hg hf ht
  | swapBuffers c callback ml =>
    rcases swapBuffers_accepts ht with rfl | ⟨hs,ha⟩
    · exact h
    · exact h.accepts ha fun _ => hg hs
  | bindGraphics device => exact h.bindGraphics ht
  | unbindRelease =>
    cases ht
    exact h.frame rfl rfl rfl rfl rfl rfl h.bound h.exposed
  | unbindClear =>
    simp only [GraphicsCompletion.step] at ht
    split_ifs at ht
    cases ht
    refine h.frame rfl rfl rfl rfl rfl rfl (fun hp => ?_) h.exposed
    rw [show s.graphicsInProgress = false from hg] at hp
    cases hp
  | exposeAcquire => exact h.exposeAcquire ht
  | exposeDraw accepted => exact h.exposeDraw ht
  | run i =>
    obtain ⟨⟨ml,task⟩,hi,rfl⟩ := Option.map_eq_some_iff.mp ht
    cases task with
    | graphicsCcbWrapper => exact h.runWrapper hi
    | callback n callback => exact h.runCallback hi

theorem exposeAcquire_bound {s : State} (hx : s.exposing = none) (hb : Bound s)
    (hl : s.locked s.graphics = false) : ∃ t, exposeAcquire s = some t ∧
      t.exposing = some (some s.graphics) ∧ t.tasks = s.tasks ∧
      t.graphicsInProgress = s.graphicsInProgress ∧ t.graphicsCcb = s.graphicsCcb := by
  have hc : s.contexts s.graphics ≠ none := Option.isSome_iff_ne_none.mp hb
  refine ⟨{ s.setLocked s.graphics true with exposing := some (some s.graphics) },?_,
    rfl,rfl,rfl,rfl⟩
  simp [exposeAcquire,hx,hc,hl]

theorem exposeDraw_posts {s : State} {c : ℕ} (hx : s.exposing = some (some c))
    (hp : s.graphicsInProgress = true) (hf : s.graphicsCcb.func ≠ none) :
    ∃ t, handleGraphicsExposeEvent s true = some t ∧
      t.tasks = s.tasks ++ [(s.graphicsCcbMl,.graphicsCcbWrapper)] := by
  simp [handleGraphicsExposeEvent,hx,hp,hf]

@[simp] theorem runWrapper_inProgress (s : State) (i : ℕ) :
    (runTask s i .graphicsCcbWrapper).graphicsInProgress = false := by
  simp only [runTask,graphicsCcbWrapperComt,State.run]
  split_ifs <;> rfl

/-- With a context bound and a callback in the slot, one expose event is enough. -/
theorem Inv.exposeClears {s : State} (h : Inv s) : ExposeClears s := by
  intro hp hx hl
  obtain ⟨t,ht,htx,httasks,htp,htcb⟩ := exposeAcquire_bound hx (h.bound hp) hl
  obtain ⟨u,hu,hutasks⟩ := exposeDraw_posts htx (htp.trans hp) (htcb ▸ h.taken.mp hp)
  have hi : u.tasks[s.tasks.length]? = some (t.graphicsCcbMl,.graphicsCcbWrapper) := by
    rw [hutasks,httasks]
    simp
  refine ⟨runTask u s.tasks.length .graphicsCcbWrapper,?_,by simp⟩
  simp [machine,Machine.exec,GraphicsCompletion.step,ht,hu,hi]

/-- In every state of every orderly run the protocol holds. -/
theorem completion_protocol {s : State} (h : machine.ReachableVia Orderly s) : Protocol s := by
  have hinv : Inv s := h.invariant Inv .create fun s a t => Inv.step
  refine ⟨fun n => ?_,hinv.exposedFirst,fun hp => ⟨hinv.bound hp,hinv.taken.mp hp⟩,
    hinv.exposeClears⟩
  have hsub : (s.runs.map Run.call).Sublist s.places := by
    rw [State.places,List.append_assoc]
    exact List.sublist_append_left _ _
  have hn := List.nodup_iff_count.mp (hinv.once.sublist hsub) n
  rw [List.count,List.countP_map] at hn
  refine le_of_eq_of_le (List.countP_congr fun r _ => ?_) hn
  simp

/-- Two expose events come before the first wrapper runs, so the second wrapper is
still queued when the next Flush stores its callback. -/
def exposedTwice : List Action :=
  [.create .graphics2d 1,.bindGraphics 1,.flush 1 ⟨some 0,0⟩ 7,.flushRelease 0,.flushReturn 0 true,
    .exposeAcquire,.exposeDraw true,.exposeAcquire,.exposeDraw true,.run 0,
    .flush 1 ⟨some 1,0⟩ 7,.flushRelease 0,.flushReturn 0 true,.run 0]

theorem exposedTwice_runs_early :
    ¬∀ (ls : List Action) (u : State), machine.exec machine.start ls = some u → Protocol u := by
  intro h
  have hp := (h exposedTwice _ rfl).exposedFirst
  exact absurd (hp ⟨1,⟨some 1,0⟩,false⟩ (by decide) ⟨1,⟨some 1,0⟩,true⟩ (by decide) rfl) (by decide)

/-- A Flush of a context that is not bound, and two of the bound one with an expose
event between them. -/
def exposedOnceEach : List Action :=
  [.create .graphics2d 1,.create .graphics2d 2,.bindGraphics 1,.flush 2 ⟨some 2,0⟩ 7,
    .flushRelease 0,.flushReturn 0 true,.flush 1 ⟨some 0,0⟩ 7,.flushRelease 0,.flushReturn 0 true,
    .exposeAcquire,.exposeDraw true,.run 1,.run 0,.flush 1 ⟨some 1,0⟩ 7]

theorem exposedOnceEach_protocol : ∃ u : State,
    machine.exec machine.start exposedOnceEach = some u ∧ u.runs.length = 2 ∧
    Protocol u :=
  ⟨_,rfl,by decide,completion_protocol
    (Machine.reachableVia_of_exec exposedOnceEach .start rfl (by decide))⟩

end GraphicsCompletion
end FreshPlayer
