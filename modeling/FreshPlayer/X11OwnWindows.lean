import FreshPlayer.X11Registrations

/-! Without XEmbed, and with a window for each instance, what is registered is what the
living instances have. -/
namespace FreshPlayer
namespace X11EventThread

open Rendezvous

/-- The window is no other instance's, and the only one of this instance. -/
def OwnWindow (d : Data) (i n : ℕ) : Prop :=
  n ≠ 0 ∧ ∀ a ∈ d.instances.entries, a.2.destroying = false →
    (a.1 = i → a.2.wnd = .none ∨ a.2.wnd = .browser n) ∧ (a.2.wnd = .browser n → a.1 = i)

def OwnCall (d : Data) : Call → Prop
  | .setWindow i n => OwnWindow d i n
  | .destroy _ => True

def OwnAct (d : Data) : Act → Prop
  | .setWindowAgain i n => OwnWindow d i n
  | _ => True

instance (d : Data) (i n : ℕ) : Decidable (OwnWindow d i n) :=
  inferInstanceAs (Decidable (_ ∧ _))

instance (d : Data) (c : Call) : Decidable (OwnCall d c) := by
  apply c.casesOn (motive := fun c => Decidable (OwnCall d c)) <;> intros <;>
    dsimp only [OwnCall] <;> infer_instance

instance (d : Data) (a : Act) : Decidable (OwnAct d a) := by
  apply a.casesOn (motive := fun a => Decidable (OwnAct d a)) <;> intros <;>
    dsimp only [OwnAct] <;> infer_instance

variable {d e : Data} {i n : ℕ} {inst : Instance} {out : Option Window}

theorem alive_iff : d.alive i = some inst ↔
    d.instances.lookup i = some inst ∧ inst.destroying = false := by
  simp [Data.alive,Option.filter_eq_some_iff]

theorem OwnWindow.only (h : OwnWindow d i n) {j : ℕ} (hj : d.alive j = some inst) :
    (j = i → inst.wnd = .none ∨ inst.wnd = .browser n) ∧ (inst.wnd = .browser n → j = i) := by
  obtain ⟨hlookup,hd⟩ := alive_iff.mp hj
  exact h.2 ⟨j,inst⟩ (List.of_mem_dlookup hlookup) hd

def HasWindow (d : Data) (i : ℕ) (w : Window) : Prop := d.alive i = some ⟨w,false⟩

/-- The registered windows are those of the living instances, but for one that is
registered still and belongs to none of them. -/
structure Exact (out : Option Window) (d : Data) : Prop where
  entries : ∀ w, some w ≠ out → ∀ entry, d.ht.lookup w = some entry ↔
    w ≠ .none ∧ ∃ i, entry = ⟨i,true,false,w⟩ ∧ HasWindow d i w
  left : ∀ w, out = some w → ∀ i, ¬HasWindow d i w
  fresh : ∀ i inst, d.instances.lookup i = some inst → i < d.nextInstance

/-- A window is registered for one instance. -/
theorem Exact.unique (h : Exact none d) {i j : ℕ} {w : Window} (hw : w ≠ .none)
    (hi : HasWindow d i w) (hj : HasWindow d j w) : i = j := by
  have hilookup := (h.entries w (Option.some_ne_none w) ⟨i,true,false,w⟩).mpr ⟨hw,i,rfl,hi⟩
  have hjlookup := (h.entries w (Option.some_ne_none w) ⟨j,true,false,w⟩).mpr ⟨hw,j,rfl,hj⟩
  rw [hilookup] at hjlookup
  cases hjlookup
  rfl

/-- The same windows, and the same living instances that have one. -/
theorem Exact.congr {out : Option Window} (h : Exact out d)
    (hht : ∀ w, e.ht.lookup w = d.ht.lookup w)
    (ha : ∀ i w, w ≠ .none → (HasWindow e i w ↔ HasWindow d i w))
    (ho : ∀ w, out = some w → w ≠ .none)
    (hf : ∀ i inst, e.instances.lookup i = some inst → i < e.nextInstance) : Exact out e := by
  refine ⟨fun w hw entry => ?_,fun w hw i hi => ?_,hf⟩
  · rw [hht,h.entries w hw]
    refine and_congr_right fun hne => exists_congr fun i => and_congr_right fun _ => ?_
    exact (ha i w hne).symm
  · exact h.left w hw i ((ha i w (ho w hw)).mp hi)

/-- An instance that has its window already, or is no longer alive. -/
theorem hasWindow_insert {inst' : Instance} (hi : d.instances.lookup i = some inst)
    (hsame : inst'.destroying = inst.destroying)
    (hwnd : inst'.wnd = inst.wnd ∨ inst.destroying = true) (j : ℕ) (w : Window) :
    HasWindow { d with instances := d.instances.insert i inst' } j w ↔ HasWindow d j w := by
  unfold HasWindow
  rw [alive_iff,alive_iff]
  dsimp only
  by_cases hj : j = i
  · subst hj
    obtain ⟨w₀,b₀⟩ := inst
    obtain ⟨w₁,b₁⟩ := inst'
    simp only at hsame hwnd
    subst hsame
    rw [AList.lookup_insert,hi]
    obtain rfl | rfl := hwnd
    · rfl
    · simp
  · rw [AList.lookup_insert_ne hj]

theorem fresh_insert {inst' : Instance} {out : Option Window} (h : Exact out d)
    (hi : d.instances.lookup i = some inst) :
    ∀ j c, (d.instances.insert i inst').lookup j = some c → j < d.nextInstance := by
  intro j c hj
  obtain ⟨rfl,-⟩ | ⟨-,hj⟩ := lookup_insert_cases hj
  · exact h.fresh j inst hi
  · exact h.fresh j c hj

/-- A window that is not registered is nobody's. -/
theorem Exact.nobody (h : Exact none d) {w : Window} (hw : w ≠ .none) (hn : d.ht.lookup w = none)
    (j : ℕ) : ¬HasWindow d j w := by
  intro hj
  have hlookup := (h.entries w (Option.some_ne_none w) ⟨j,true,false,w⟩).mpr ⟨hw,j,rfl,hj⟩
  rw [hn] at hlookup
  cases hlookup

theorem Exact.setWindow (h : Exact none d) (hown : OwnWindow d i n)
    (hi : d.alive i = some inst) (hn : d.ht.lookup (.browser n) = none) :
    Exact none { d with
      ht := d.ht.insert (.browser n) ⟨i,true,false,.browser n⟩
      instances := d.instances.insert i { inst with wnd := .browser n } } := by
  obtain ⟨hlookup,hliving⟩ := alive_iff.mp hi
  have hne : Window.browser n ≠ .none := by simpa [Window.none] using hown.1
  have hbare : inst.wnd = .none := ((hown.only hi).1 rfl).resolve_right fun hw => by
    refine h.nobody hne hn i ?_
    rw [HasWindow,hi,← hw,← hliving]
  refine ⟨fun w _ entry => ?_,fun _ hw => (by cases hw),fresh_insert h hlookup⟩
  have hhas : ∀ j, HasWindow { d with
      ht := d.ht.insert (.browser n) ⟨i,true,false,.browser n⟩
      instances := d.instances.insert i { inst with wnd := .browser n } } j w ↔
      (j = i ∧ w = .browser n) ∨ (j ≠ i ∧ HasWindow d j w) := by
    intro j
    unfold HasWindow
    rw [alive_iff,alive_iff]
    dsimp only
    by_cases hj : j = i
    · subst hj
      rw [AList.lookup_insert,hliving]
      simp [eq_comm]
    · rw [AList.lookup_insert_ne hj]
      simp [hj]
  dsimp only
  by_cases hw : w = .browser n
  · subst hw
    rw [AList.lookup_insert]
    constructor
    · rintro ⟨⟩
      exact ⟨hne,i,rfl,(hhas i).mpr (.inl ⟨rfl,rfl⟩)⟩
    · rintro ⟨-,j,rfl,hj⟩
      obtain ⟨rfl,-⟩ | ⟨-,hj⟩ := (hhas j).mp hj
      · rfl
      · exact absurd hj (h.nobody hne hn j)
  · rw [AList.lookup_insert_ne hw,h.entries w (Option.some_ne_none w)]
    refine and_congr_right fun hwn => exists_congr fun j => and_congr_right fun _ => ?_
    rw [hhas]
    constructor
    · intro hj
      refine .inr ⟨?_,hj⟩
      rintro rfl
      rw [HasWindow,hi] at hj
      cases hj
      exact hwn hbare
    · rintro (⟨-,hw'⟩ | ⟨-,hj⟩)
      · exact absurd hw' hw
      · exact hj

theorem hasWindow_leave (hi : d.alive i = some inst) (j : ℕ) (w : Window) :
    HasWindow { d with instances := d.instances.insert i { inst with destroying := true } } j w ↔
      j ≠ i ∧ HasWindow d j w := by
  unfold HasWindow
  rw [alive_iff,alive_iff]
  dsimp only
  by_cases hj : j = i
  · subst hj
    rw [AList.lookup_insert]
    simp
  · rw [AList.lookup_insert_ne hj]
    simp [hj]

/-- An instance that is being destroyed leaves its window behind. -/
theorem Exact.destroy (h : Exact none d) (hi : d.alive i = some inst)
    (hw : (d.ht.lookup inst.wnd).isSome = true) : inst.wnd ≠ .none ∧ Exact (some inst.wnd)
      { d with instances := d.instances.insert i { inst with destroying := true } } := by
  obtain ⟨hlookup,hliving⟩ := alive_iff.mp hi
  obtain ⟨entry,hentry⟩ := Option.isSome_iff_exists.mp hw
  have hne := ((h.entries _ (Option.some_ne_none _) entry).mp hentry).1
  have hhas : HasWindow d i inst.wnd := by rw [HasWindow,hi,← hliving]
  refine ⟨hne,fun w hw entry => ?_,fun w hw j hj => ?_,fresh_insert h hlookup⟩
  · dsimp only
    rw [h.entries w (Option.some_ne_none w)]
    refine and_congr_right fun _ => exists_congr fun j => and_congr_right fun _ => ?_
    rw [hasWindow_leave hi]
    refine ⟨fun hj => ⟨?_,hj⟩,And.right⟩
    rintro rfl
    rw [HasWindow,hi] at hj
    cases hj
    exact hw rfl
  · cases hw
    obtain ⟨hji,hj⟩ := (hasWindow_leave hi j inst.wnd).mp hj
    exact hji (h.unique hne hj hhas)

theorem Exact.erase {w : Window} (h : Exact (some w) d) :
    Exact none { d with ht := d.ht.erase w } := by
  refine ⟨fun v _ entry => ?_,fun _ hv => (by cases hv),h.fresh⟩
  dsimp only
  by_cases hv : v = w
  · subst hv
    rw [AList.lookup_erase]
    refine ⟨nofun,?_⟩
    rintro ⟨-,i,-,hi⟩
    exact absurd hi (h.left v rfl i)
  · rw [AList.lookup_erase_ne hv]
    exact h.entries v (by simpa using hv) entry

theorem Exact.act {a : Act} (h : Exact none d) (hown : OwnAct d a) (ha : act d a = some e) :
    Exact none e := by
  cases a with
  | new =>
    cases ha
    refine h.congr (fun _ => rfl) (fun j w hw => ?_) nofun fun j c hj => ?_
    · unfold HasWindow
      rw [alive_iff,alive_iff]
      dsimp only
      by_cases hj : j = d.nextInstance
      · subst hj
        rw [AList.lookup_insert]
        constructor
        · rintro ⟨hj,-⟩
          cases hj
          exact absurd rfl hw
        · rintro ⟨hj,-⟩
          exact absurd (h.fresh _ _ hj) (Nat.lt_irrefl _)
      · rw [AList.lookup_insert_ne hj]
    · dsimp only
      obtain ⟨rfl,-⟩ | ⟨-,hj⟩ := lookup_insert_cases hj
      · exact Nat.lt_succ_self _
      · exact Nat.lt_succ_of_lt (h.fresh j c hj)
  | setWindowAgain i n =>
    obtain ⟨inst,hinst,ha⟩ := Option.bind_eq_some_iff.mp ha
    obtain ⟨entry,hentry,rfl⟩ := Option.map_eq_some_iff.mp ha
    obtain ⟨hlookup,-⟩ := alive_iff.mp hinst
    -- the entry found is the instance's own
    obtain ⟨-,j,rfl,hj⟩ := (h.entries _ (Option.some_ne_none _) entry).mp hentry
    obtain rfl := (hown.only hj).2 rfl
    rw [HasWindow,hinst] at hj
    cases hj
    exact h.congr (fun _ => rfl) (fun k w _ => hasWindow_insert hlookup rfl (.inl rfl) k w) nofun
      (fresh_insert h hlookup)
  | destroyUnregistered i =>
    obtain ⟨inst,hinst,ha⟩ := Option.bind_eq_some_iff.mp ha
    split at ha <;> cases ha
    rename_i hnone
    obtain ⟨hlookup,hliving⟩ := alive_iff.mp hinst
    refine h.congr (fun _ => rfl) (fun j w hw => ?_) nofun (fresh_insert h hlookup)
    rw [hasWindow_leave hinst]
    refine ⟨And.right,fun hj => ⟨?_,hj⟩⟩
    rintro rfl
    have hsame : inst.wnd = w := by
      rw [HasWindow,hinst] at hj
      cases hj
      rfl
    exact h.nobody hw (hsame ▸ hnone) j hj
  | didDestroy i =>
    simp only [X11EventThread.act] at ha
    split at ha <;> cases ha
    rename_i w₀ hlookup
    refine h.congr (fun _ => rfl) (fun j w _ => ?_) nofun
      fun j c hj => h.fresh j c (lookup_erase_cases hj).2
    unfold HasWindow
    rw [alive_iff,alive_iff]
    dsimp only
    by_cases hj : j = i
    · subst hj
      rw [AList.lookup_erase,hlookup]
      simp
    · rw [AList.lookup_erase_ne hj]
  | ptac k =>
    obtain ⟨call,-,rfl⟩ := Option.map_eq_some_iff.mp ha
    obtain heq | ⟨w,entry,-,-,heq⟩ :=
      callHandleEventPtac_cases { d with ptacs := d.ptacs.eraseIdx k } call
    all_goals rw [heq]; exact ⟨h.entries,h.left,h.fresh⟩

/-- A window that is registered again or for the first time keeps its entry. -/
theorem handleTask_native (hb : Books false out d) (w : Window) :
    (x11etHandleTask d).ht.lookup w = d.ht.lookup w := by
  unfold x11etHandleTask
  split
  · rfl
  · rename_i task rest _
    dsimp only
    split
    · rfl
    · rename_i entry hentry
      split
      · dsimp only
        by_cases hw : w = task.socketWnd
        · subst hw
          obtain ⟨i,p,x,plug⟩ := entry
          obtain rfl : x = false := (hb.entry _ _ hentry).1
          rw [AList.lookup_insert,hentry]
          rfl
        · rw [AList.lookup_insert_ne hw]
      · rfl

def ExactHolds : Call → Data → Prop
  | .setWindow i n, d => Holds false (.setWindow i n) d ∧ n ≠ 0 ∧ HasWindow d i (.browser n) ∧
      Exact none d
  | .destroy i, d => Holds false (.destroy i) d ∧
      ∃ inst, d.instances.lookup i = some inst ∧ inst.wnd ≠ .none ∧ Exact (some inst.wnd) d

def ExactServed : Call → Data → Prop
  | .setWindow i n, d => Served false (.setWindow i n) d ∧ n ≠ 0 ∧ HasWindow d i (.browser n) ∧
      Exact none d
  | .destroy i, d => Served false (.destroy i) d ∧
      ∃ inst, d.instances.lookup i = some inst ∧ inst.wnd ≠ .none ∧ Exact (some inst.wnd) d

theorem exactContract : Contract Unit (service false) OwnCall OwnAct
    (fun d => Clear false d ∧ Exact none d) ExactHolds ExactServed where
  post d t e h hown hlook he := by
    have hheld := (contract false).post d t e h.1 trivial hlook he
    obtain ⟨i,n,inst,rfl,hinst,hn,rfl⟩ | ⟨i,inst,rfl,hinst,hw,rfl⟩ := post_cases he
    · have hexact := h.2.setWindow hown hinst hn
      refine ⟨hheld,hown.1,?_,hexact.entries,fun _ h => (by cases h),hexact.fresh⟩
      have hliving := (alive_iff.mp hinst).2
      refine alive_iff.mpr ⟨?_,rfl⟩
      simp [← hliving]
    · obtain ⟨hne,hexact⟩ := h.2.destroy hinst hw
      refine ⟨hheld,{ inst with destroying := true },AList.lookup_insert _,hne,?_⟩
      exact ⟨hexact.entries,hexact.left,hexact.fresh⟩
  looked _ _ h := by cases h
  notPending d h := (contract false).notPending d h.1
  notPendingAgain d t h := by
    cases t with
    | setWindow i n => exact (contract false).notPendingAgain d _ h.1
    | destroy i => exact (contract false).notPendingAgain d _ h.1
  serve d t w h := by
    obtain ⟨hi,hnext,-,-⟩ := handleTask_frame d
    have hhas : ∀ j v, HasWindow (x11etHandleTask d) j v ↔ HasWindow d j v := by
      intro j v
      rw [HasWindow,HasWindow,Data.alive,hi,Data.alive]
    have hkeep : ∀ o, (∀ v, o = some v → v ≠ .none) → (∃ o', Books false o' d) → Exact o d →
        Exact o (x11etHandleTask d) := by
      rintro o ho ⟨o',hb⟩ hexact
      refine hexact.congr (handleTask_native hb) (fun j v _ => hhas j v) ho fun j c hj => ?_
      rw [hnext]
      exact hexact.fresh j c (hi ▸ hj)
    cases t with
    | setWindow i n =>
      obtain ⟨hheld,hn,hwnd,hexact⟩ := h
      exact ⟨(contract false).serve d _ w hheld,hn,(hhas _ _).mpr hwnd,
        hkeep _ (fun _ h => (by cases h)) ⟨_,hheld.2.2.2⟩ hexact⟩
    | destroy i =>
      obtain ⟨hheld,inst,hinst,hne,hexact⟩ := h
      have hbooks : ∃ o, Books false o d := by
        obtain ⟨_,_,_,_,hb⟩ := hheld
        exact ⟨_,hb⟩
      refine ⟨(contract false).serve d _ w hheld,inst,by rw [← hinst]; exact congrArg _ hi,hne,?_⟩
      exact hkeep _ (by rintro v ⟨rfl⟩; exact hne) hbooks hexact
  finish d t h := by
    cases t with
    | setWindow i n =>
      obtain ⟨hserved,-,hwnd,hexact⟩ := h
      refine ⟨(contract false).finish d _ hserved,?_⟩
      simp only [service,finish]
      split
      · rename_i inst entry hinst hentry
        -- the instance has the window already
        obtain ⟨-,j,rfl,-⟩ := (hexact.entries _ (Option.some_ne_none _) entry).mp hentry
        have hsame : inst.wnd = .browser n := by
          have hlookup := (alive_iff.mp hwnd).1
          rw [hinst] at hlookup
          cases hlookup
          rfl
        have hhas := @hasWindow_insert d i inst { inst with wnd := .browser n } hinst rfl
          (.inl hsame.symm)
        exact hexact.congr (fun _ => rfl) (fun k w _ => hhas k w) (fun _ h => (by cases h))
          (fresh_insert hexact hinst)
      · exact hexact
    | destroy i =>
      obtain ⟨hserved,inst,hinst,-,hexact⟩ := h
      refine ⟨(contract false).finish d _ hserved,?_⟩
      simp only [service,finish,hinst]
      exact hexact.erase
  work d ev := by
    obtain ⟨r,q,heq⟩ := x11etHandleXevent_eq d ev
    obtain ⟨hc,ht⟩ := (contract false).work d ev
    have hkeep : ∀ o, Exact o d → Exact o ((service false).work d ev) := fun o h => by
      simp only [service,heq]
      exact ⟨h.entries,h.left,h.fresh⟩
    refine ⟨fun h => ⟨hc h.1,hkeep _ h.2⟩,fun t => ?_⟩
    have hinst : ((service false).work d ev).instances = d.instances := by
      simp only [service,heq]
    have hhas : ∀ j v, HasWindow d j v → HasWindow ((service false).work d ev) j v := by
      intro j v hj
      rw [HasWindow,Data.alive,hinst]
      exact hj
    cases t with
    | setWindow i n =>
      refine ⟨?_,?_⟩
      · rintro ⟨hheld,hn,hwnd,hexact⟩
        exact ⟨(ht _).1 hheld,hn,hhas _ _ hwnd,hkeep _ hexact⟩
      · rintro ⟨hserved,hn,hwnd,hexact⟩
        exact ⟨(ht _).2 hserved,hn,hhas _ _ hwnd,hkeep _ hexact⟩
    | destroy i =>
      refine ⟨?_,?_⟩
      · rintro ⟨hheld,inst,hlookup,hne,hexact⟩
        exact ⟨(ht _).1 hheld,inst,hinst ▸ hlookup,hne,hkeep _ hexact⟩
      · rintro ⟨hserved,inst,hlookup,hne,hexact⟩
        exact ⟨(ht _).2 hserved,inst,hinst ▸ hlookup,hne,hkeep _ hexact⟩
  act d a e hown h :=
    ⟨fun hd => ⟨((contract false).act d a e trivial h).1 hd.1,hd.2.act hown h⟩,
      fun hn => absurd hn (not_nontrivial Unit)⟩

abbrev ExactStage (s : State Data Call Unit) : Prop :=
  Stage (service false) (fun d => Clear false d ∧ Exact none d) ExactHolds ExactServed s

theorem exactStage {s : State Data Call Unit}
    (h : (machine false).ReachableVia (Within OwnCall OwnAct) s) : ExactStage s :=
  stage_of_reachableVia exactContract
    ⟨created_clear false,by simp [Data.create,HasWindow,Data.alive],nofun,by simp [Data.create]⟩
    (fun hw ht => ⟨serial_of_step ht,hw⟩) h

/-- Between calls the registered windows are those of the living instances. -/
theorem registered_iff {s : State Data Call Unit}
    (h : (machine false).ReachableVia (Within OwnCall OwnAct) s) (hc : s.calls () = none)
    (w : Window) (entry : Entry) : s.data.ht.lookup w = some entry ↔
      w ≠ .none ∧ ∃ i, entry = ⟨i,true,false,w⟩ ∧ s.data.alive i = some ⟨w,false⟩ :=
  ((exactStage h).clear fun _ => hc).1.2.entries w (Option.some_ne_none w) entry

/-- An instance that `NPP_Destroy` was called for, there still or not. -/
structure Gone (i : ℕ) (d : Data) : Prop where
  old : i < d.nextInstance
  dead : d.alive i = none

def handedTo (i : ℕ) (d : Data) : List Delivery := d.delivered.filter fun y => y.instanceId = i

theorem Gone.insert {j : ℕ} (h : Gone i d) (hj : i = j → inst.destroying = true) :
    Gone i { d with instances := d.instances.insert j inst } := by
  refine ⟨h.old,?_⟩
  rw [Option.eq_none_iff_forall_ne_some]
  intro c hc
  obtain ⟨hlookup,hliving⟩ := alive_iff.mp hc
  obtain ⟨rfl,rfl⟩ | ⟨-,hlookup⟩ := lookup_insert_cases hlookup
  · rw [hj rfl] at hliving
    cases hliving
  · have hsome := alive_iff.mpr ⟨hlookup,hliving⟩
    rw [h.dead] at hsome
    cases hsome

theorem Gone.ne {j : ℕ} (h : Gone i d) (hj : d.alive j = some inst) : i ≠ j := by
  rintro rfl
  rw [h.dead] at hj
  cases hj

/-- Nobody comes back, and nothing is handed to those who are gone. -/
theorem gone_act {a : Act} (h : Gone i d) (hexact : Exact none d) (ha : act d a = some e) :
    Gone i e ∧ handedTo i e = handedTo i d := by
  cases a with
  | new =>
    cases ha
    have hins := @Gone.insert _ _ ⟨.none,false⟩ d.nextInstance h
      fun hi => absurd h.old (by rw [hi]; exact Nat.lt_irrefl _)
    exact ⟨⟨Nat.lt_succ_of_lt h.old,hins.dead⟩,rfl⟩
  | setWindowAgain j n =>
    obtain ⟨inst,hinst,ha⟩ := Option.bind_eq_some_iff.mp ha
    obtain ⟨entry,-,rfl⟩ := Option.map_eq_some_iff.mp ha
    exact ⟨h.insert fun hi => absurd hi (h.ne hinst),rfl⟩
  | destroyUnregistered j =>
    obtain ⟨inst,hinst,ha⟩ := Option.bind_eq_some_iff.mp ha
    split at ha <;> cases ha
    exact ⟨h.insert fun _ => rfl,rfl⟩
  | didDestroy j =>
    simp only [act] at ha
    split at ha <;> cases ha
    refine ⟨⟨h.old,?_⟩,rfl⟩
    rw [Option.eq_none_iff_forall_ne_some]
    intro c hc
    obtain ⟨hlookup,hliving⟩ := alive_iff.mp hc
    have hsome := alive_iff.mpr ⟨(lookup_erase_cases hlookup).2,hliving⟩
    rw [h.dead] at hsome
    cases hsome
  | ptac k =>
    obtain ⟨call,-,rfl⟩ := Option.map_eq_some_iff.mp ha
    obtain heq | ⟨w,entry,hw,-,heq⟩ :=
      callHandleEventPtac_cases { d with ptacs := d.ptacs.eraseIdx k } call
    · rw [heq]
      exact ⟨⟨h.old,h.dead⟩,rfl⟩
    · rw [heq]
      refine ⟨⟨h.old,h.dead⟩,?_⟩
      -- who has an entry is alive
      obtain ⟨-,j,rfl,hj⟩ := (hexact.entries w (Option.some_ne_none w) entry).mp hw
      have hne := (h.ne hj).symm
      simp [handedTo,List.filter_append,hne]

theorem gone_step {s t : State Data Call Unit} {l : Label Call Unit XEvent Act Unit}
    (hs : ExactStage s) (ht : step (service false) s l = some t) (h : Gone i s.data) :
    Gone i t.data ∧ handedTo i t.data = handedTo i s.data := by
  have hd := step_data _ ht
  cases l with
  | call c u =>
    obtain ⟨j,n,inst,-,hinst,-,heq⟩ | ⟨j,inst,-,hinst,-,heq⟩ := post_cases hd.2
    · have hins := @Gone.insert _ _ { inst with wnd := .browser n } j h
        fun hi => absurd hi (h.ne hinst)
      rw [heq]
      exact ⟨⟨h.old,hins.dead⟩,rfl⟩
    · have hins := @Gone.insert _ _ { inst with destroying := true } j h fun _ => rfl
      rw [heq]
      exact ⟨⟨h.old,hins.dead⟩,rfl⟩
  | proceed c =>
    obtain ⟨u,-,hlook,-⟩ := hd
    cases hlook
  | arrive c => rw [hd]; exact ⟨h,rfl⟩
  | ret c =>
    obtain ⟨u,-,hfin⟩ := hd
    rw [hfin]
    cases u with
    | setWindow j n =>
      simp only [service,finish]
      split
      · rename_i inst _ hinst _
        refine ⟨h.insert fun hi => ?_,rfl⟩
        subst hi
        by_contra hliving
        have hsome := alive_iff.mpr ⟨hinst,by simpa using hliving⟩
        rw [h.dead] at hsome
        cases hsome
      · exact ⟨h,rfl⟩
    | destroy j =>
      simp only [service,finish]
      split
      · exact ⟨⟨h.old,h.dead⟩,rfl⟩
      · exact ⟨h,rfl⟩
  | act c a => exact gone_act h (hs.clear fun d => by cases d; cases c; exact hd.1).1.2 hd.2
  | serve w =>
    obtain ⟨hinst,hnext,hdel,-⟩ := handleTask_frame s.data
    rw [hd.2]
    refine ⟨⟨hnext ▸ h.old,?_⟩,by rw [handedTo,handedTo]; exact congrArg _ hdel⟩
    exact (congrArg (fun t => (AList.lookup i t).filter _) hinst).trans h.dead
  | workerArrive => rw [hd]; exact ⟨h,rfl⟩
  | work ev =>
    obtain ⟨r,q,heq⟩ := x11etHandleXevent_eq s.data ev
    rw [hd.2]
    simp only [service,heq]
    exact ⟨⟨h.old,h.dead⟩,rfl⟩

/-- Nothing is handed to an instance once `NPP_Destroy` was called for it, though its events
may be on their way. -/
theorem quiet_after_destroy {s t : State Data Call Unit}
    {ls : List (Label Call Unit XEvent Act Unit)}
    (h : (machine false).ReachableVia (Within OwnCall OwnAct) s) (hi : Gone i s.data)
    (hr : (machine false).exec s ls = some t)
    (hg : (machine false).EachFrom (Within OwnCall OwnAct) s ls) :
    handedTo i t.data = handedTo i s.data := by
  induction ls generalizing s with
  | nil => rw [Option.some.inj hr]
  | cons l ls ih =>
    obtain ⟨u,hu,hr⟩ := Option.bind_eq_some_iff.mp hr
    obtain ⟨hgone,hsame⟩ := gone_step (exactStage h) hu hi
    exact (ih (.step h hg.1 hu) hgone hr (hg.2 u hu)).trans hsame

/-- Two instances register windows, and the first is destroyed while an event is on its way. -/
def eventInFlight : List (Label Call Unit XEvent Act Unit) :=
  .act () .new::(registerOne 10 5++.act () .new::(registerOne 11 6++
    [.work ⟨.browser 5,.buttonPress⟩,.act () (.ptac 0),.work ⟨.browser 5,.other 3⟩,
      .call () (.destroy 10),.arrive (),.serve (),.workerArrive,.ret ()]))

theorem eventInFlight_registered : ∃ s : State Data Call Unit,
    (machine false).exec (machine false).start eventInFlight = some s ∧
    s.data.ht.lookup (.browser 5) = none ∧
    ∀ w entry, s.data.ht.lookup w = some entry ↔
      w ≠ .none ∧ ∃ i, entry = ⟨i,true,false,w⟩ ∧ s.data.alive i = some ⟨w,false⟩ := by
  obtain ⟨s,hs,hc,hnone⟩ : ∃ s : State Data Call Unit,
      (machine false).exec (machine false).start eventInFlight = some s ∧
      s.calls () = none ∧ s.data.ht.lookup (.browser 5) = none := ⟨_,rfl,rfl,rfl⟩
  have hreach : (machine false).ReachableVia (Within OwnCall OwnAct) s :=
    Machine.reachableVia_of_exec eventInFlight .start hs (by decide)
  exact ⟨s,hs,hnone,registered_iff hreach hc⟩

/-- The event comes back after that. -/
theorem eventInFlight_quiet : ∃ s t : State Data Call Unit,
    (machine false).exec (machine false).start eventInFlight = some s ∧ s.data.ptacs ≠ [] ∧
    (machine false).exec s [.act () (.ptac 0)] = some t ∧ (handedTo 10 t.data).length = 1 ∧
    handedTo 10 t.data = handedTo 10 s.data := by
  obtain ⟨s,hs,hgone,hp,t,ht,hone,hg⟩ : ∃ s : State Data Call Unit,
      (machine false).exec (machine false).start eventInFlight = some s ∧
      (10 < s.data.nextInstance ∧ s.data.alive 10 = none) ∧ s.data.ptacs ≠ [] ∧
      ∃ t, (machine false).exec s [.act () (.ptac 0)] = some t ∧
        (handedTo 10 t.data).length = 1 ∧
        (machine false).EachFrom (Within OwnCall OwnAct) s [.act () (.ptac 0)] :=
    ⟨_,rfl,⟨by decide,rfl⟩,by decide,_,rfl,rfl,by decide⟩
  have hreach : (machine false).ReachableVia (Within OwnCall OwnAct) s :=
    Machine.reachableVia_of_exec eventInFlight .start hs (by decide)
  exact ⟨s,t,hs,hp,ht,hone,quiet_after_destroy hreach ⟨hgone.1,hgone.2⟩ ht hg⟩

end X11EventThread
end FreshPlayer
