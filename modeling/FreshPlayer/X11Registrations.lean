import FreshPlayer.X11EventThread

/-! The table of sockets and the table of plugs. They differ only while the thread has a
task; where XEmbed is used, a window is never taken out of them. -/
namespace FreshPlayer
namespace X11EventThread

open Rendezvous

/-- The tables agree, but for a window that is not yet, or no longer, in the second. -/
structure Books (useXembed : Bool) (out : Option Window) (d : Data) : Prop where
  agree : ∀ p w, d.socketHt.lookup p = some w ↔
    some w ≠ out ∧ ∃ e, d.ht.lookup w = some e ∧ e.plugWnd = p
  entry : ∀ w e, d.ht.lookup w = some e → e.isXembed = useXembed ∧ ∃ n, w = .browser n
  plain : useXembed = false → ∀ w e, d.ht.lookup w = some e → e.plugWnd = w
  plug : useXembed = true → ∀ w e, d.ht.lookup w = some e → some w ≠ out →
    ∃ k < d.made, e.plugWnd = .own k

structure Clear (useXembed : Bool) (d : Data) : Prop where
  pipe : d.taskPipe = []
  books : Books useXembed none d

def Holds (useXembed : Bool) : Call → Data → Prop
  | .setWindow i n, d => d.taskPipe = [⟨.browser n,.registerWindow⟩] ∧
      (d.ht.lookup (.browser n)).isSome = true ∧ (d.instances.lookup i).isSome = true ∧
      Books useXembed (some (.browser n)) d
  | .destroy i, d => ∃ inst, d.instances.lookup i = some inst ∧
      d.taskPipe = [⟨inst.wnd,.unregisterWindow⟩] ∧ (d.ht.lookup inst.wnd).isSome = true ∧
      Books useXembed none d

def Served (useXembed : Bool) : Call → Data → Prop
  | .setWindow i n, d => (d.ht.lookup (.browser n)).isSome = true ∧
      (d.instances.lookup i).isSome = true ∧ Clear useXembed d
  | .destroy i, d => ∃ inst, d.instances.lookup i = some inst ∧ d.taskPipe = [] ∧
      Books useXembed (some inst.wnd) d

variable {x : Bool} {d e : Data} {out : Option Window}

theorem Books.congr (h : Books x out d) (hht : e.ht = d.ht) (hs : e.socketHt = d.socketHt)
    (hm : e.made = d.made) : Books x out e := by
  refine ⟨?_,?_,?_,?_⟩
  · rw [hs,hht]; exact h.agree
  · rw [hht]; exact h.entry
  · rw [hht]; exact h.plain
  · rw [hht,hm]; exact h.plug

theorem Books.post (h : Books x none d) (i n : ℕ) (hn : d.ht.lookup (.browser n) = none) :
    Books x (some (.browser n))
      { d with ht := d.ht.insert (.browser n) ⟨i,true,x,.browser n⟩ } := by
  refine ⟨fun p w => ?_,fun w e he => ?_,fun hx w e he => ?_,fun hx w e he hw => ?_⟩
  · rw [h.agree]
    by_cases hw : w = .browser n
    · subst hw
      simp [hn]
    · rw [AList.lookup_insert_ne hw]
      simp [hw]
  · obtain ⟨rfl,rfl⟩ | ⟨_,he⟩ := lookup_insert_cases he
    · exact ⟨rfl,n,rfl⟩
    · exact h.entry w e he
  · obtain ⟨rfl,rfl⟩ | ⟨_,he⟩ := lookup_insert_cases he
    · rfl
    · exact h.plain hx w e he
  · obtain ⟨rfl,rfl⟩ | ⟨_,he⟩ := lookup_insert_cases he
    · exact absurd rfl hw
    · exact h.plug hx w e he nofun

/-- A plug made now is none of those there are. -/
theorem Books.register {w : Window} {entry : Entry} (h : Books x (some w) d)
    (hw : d.ht.lookup w = some entry) :
    let plug := if entry.isXembed then .own d.made else entry.plugWnd
    Books x none { d with
      ht := d.ht.insert w { entry with plugWnd := plug }
      socketHt := d.socketHt.insert plug w
      made := if entry.isXembed then d.made+1 else d.made } := by
  intro plug
  have hx := (h.entry w entry hw).1
  have hnew : ∀ v e, d.ht.lookup v = some e → v ≠ w → e.plugWnd ≠ plug := by
    intro v e hv hne heq
    cases x with
    | false =>
      have hplug : plug = w := by simp [plug,hx,h.plain rfl w entry hw]
      exact hne ((h.plain rfl v e hv).symm.trans (heq.trans hplug))
    | true =>
      obtain ⟨k,hk,hown⟩ := h.plug rfl v e hv (by simpa using hne)
      simp only [plug,hx,if_true,hown,Window.own.injEq] at heq
      omega
  refine ⟨fun p v => ?_,fun v e he => ?_,fun hx' v e he => ?_,fun hx' v e he _ => ?_⟩
  · dsimp only
    by_cases hp : p = plug
    · subst hp
      rw [AList.lookup_insert]
      constructor
      · intro hv
        cases hv
        exact ⟨nofun,_,AList.lookup_insert _,rfl⟩
      · rintro ⟨-,e,he,heq⟩
        obtain ⟨rfl,-⟩ | ⟨hne,he⟩ := lookup_insert_cases he
        · rfl
        · exact absurd heq (hnew v e he hne)
    · rw [AList.lookup_insert_ne hp,h.agree]
      constructor
      · rintro ⟨hv,e,he,heq⟩
        exact ⟨nofun,e,by rw [AList.lookup_insert_ne (by simpa using hv)]; exact he,heq⟩
      · rintro ⟨-,e,he,heq⟩
        obtain ⟨rfl,rfl⟩ | ⟨hne,he⟩ := lookup_insert_cases he
        · exact absurd heq.symm hp
        · exact ⟨by simpa using hne,e,he,heq⟩
  · obtain ⟨rfl,rfl⟩ | ⟨_,he⟩ := lookup_insert_cases he
    · exact h.entry v entry hw
    · exact h.entry v e he
  · obtain ⟨rfl,rfl⟩ | ⟨_,he⟩ := lookup_insert_cases he
    · simp [plug,hx,hx',h.plain hx' v entry hw]
    · exact h.plain hx' v e he
  · dsimp only
    rw [hx,hx',if_pos rfl]
    obtain ⟨rfl,rfl⟩ | ⟨hne,he⟩ := lookup_insert_cases he
    · exact ⟨d.made,Nat.lt_succ_self _,by simp [plug,hx,hx']⟩
    · obtain ⟨k,hk,heq⟩ := h.plug hx' v e he (by simpa using hne)
      exact ⟨k,Nat.lt_succ_of_lt hk,heq⟩

theorem Books.unregister {w : Window} {entry : Entry} (h : Books x none d)
    (hw : d.ht.lookup w = some entry) :
    Books x (some w) { d with socketHt := d.socketHt.erase entry.plugWnd } := by
  refine ⟨fun p v => ?_,h.entry,h.plain,fun hx v e he _ => h.plug hx v e he nofun⟩
  have howner : d.socketHt.lookup entry.plugWnd = some w :=
    (h.agree _ _).mpr ⟨nofun,entry,hw,rfl⟩
  dsimp only
  by_cases hp : p = entry.plugWnd
  · subst hp
    rw [AList.lookup_erase]
    refine ⟨nofun,?_⟩
    rintro ⟨hv,e,he,heq⟩
    have hsame := (h.agree _ _).mpr ⟨nofun,e,he,heq⟩
    exact absurd (hsame.symm.trans howner) hv
  · rw [AList.lookup_erase_ne hp,h.agree]
    constructor
    · rintro ⟨-,e,he,heq⟩
      refine ⟨?_,e,he,heq⟩
      rintro ⟨rfl⟩
      rw [hw] at he
      cases he
      exact hp heq.symm
    · rintro ⟨-,e,he,heq⟩
      exact ⟨nofun,e,he,heq⟩

theorem Books.erase {w : Window} (h : Books x (some w) d) :
    Books x none { d with ht := d.ht.erase w } := by
  refine ⟨fun p v => ?_,fun v e he => ?_,fun hx v e he => ?_,fun hx v e he _ => ?_⟩
  · rw [h.agree]
    dsimp only
    by_cases hv : v = w
    · subst hv
      simp
    · rw [AList.lookup_erase_ne hv]
      simp [hv]
  · exact h.entry v e (lookup_erase_cases he).2
  · exact h.plain hx v e (lookup_erase_cases he).2
  · obtain ⟨hne,he⟩ := lookup_erase_cases he
    exact h.plug hx v e he (by simpa using hne)

/-- An event is passed on or dropped, nothing else. -/
theorem x11etHandleXevent_eq (d : Data) (ev : XEvent) :
    ∃ r q, x11etHandleXevent d ev = { d with requested := r, ptacs := q } := by
  unfold x11etHandleXevent
  dsimp only
  split
  · exact ⟨d.requested,d.ptacs,rfl⟩
  · split
    · split <;> exact ⟨_,_,rfl⟩
    · split <;> split <;> exact ⟨_,_,rfl⟩

/-- A call that comes back reaches the instance of the entry found then, or nobody. -/
theorem callHandleEventPtac_cases (d : Data) (call : Ptac) :
    callHandleEventPtac d call = d ∨ ∃ w entry, d.ht.lookup w = some entry ∧
      (d.instances.lookup entry.instanceId).isSome = true ∧ callHandleEventPtac d call =
        { d with delivered := d.delivered ++ [⟨call,w,entry.instanceId⟩] } := by
  unfold callHandleEventPtac
  dsimp only
  split
  · exact .inl rfl
  · rename_i entry hentry
    split
    · rename_i h
      exact .inr ⟨_,entry,hentry,h.2,rfl⟩
    · exact .inl rfl

/-- Outside of calls the browser changes instances and takes events. -/
theorem act_keeps {a : Act} (h : act d a = some e) : e.ht = d.ht ∧ e.socketHt = d.socketHt ∧
    e.made = d.made ∧ e.taskPipe = d.taskPipe := by
  cases a with
  | new => cases h; exact ⟨rfl,rfl,rfl,rfl⟩
  | setWindowAgain i n =>
    obtain ⟨inst,-,h⟩ := Option.bind_eq_some_iff.mp h
    obtain ⟨entry,-,rfl⟩ := Option.map_eq_some_iff.mp h
    exact ⟨rfl,rfl,rfl,rfl⟩
  | destroyUnregistered i =>
    obtain ⟨inst,-,h⟩ := Option.bind_eq_some_iff.mp h
    split at h <;> cases h
    exact ⟨rfl,rfl,rfl,rfl⟩
  | didDestroy i =>
    simp only [act] at h
    split at h <;> cases h
    exact ⟨rfl,rfl,rfl,rfl⟩
  | ptac k =>
    obtain ⟨call,-,rfl⟩ := Option.map_eq_some_iff.mp h
    obtain h | ⟨w,entry,-,-,h⟩ := callHandleEventPtac_cases { d with ptacs := d.ptacs.eraseIdx k }
      call
    all_goals rw [h]; exact ⟨rfl,rfl,rfl,rfl⟩

theorem handleTask_registers {w : Window} {entry : Entry} {rest : List Task}
    (hp : d.taskPipe = ⟨w,.registerWindow⟩::rest) (hw : d.ht.lookup w = some entry) :
    let plug := if entry.isXembed then .own d.made else entry.plugWnd
    x11etHandleTask d = { d with
      taskPipe := rest
      ht := d.ht.insert w { entry with plugWnd := plug }
      socketHt := d.socketHt.insert plug w
      made := if entry.isXembed then d.made+1 else d.made } := by
  simp [x11etHandleTask,hp,hw]

theorem handleTask_unregisters {w : Window} {entry : Entry} {rest : List Task}
    (hp : d.taskPipe = ⟨w,.unregisterWindow⟩::rest) (hw : d.ht.lookup w = some entry) :
    x11etHandleTask d =
      { d with taskPipe := rest, socketHt := d.socketHt.erase entry.plugWnd } := by
  simp [x11etHandleTask,hp,hw]

/-- A call that begins has found its window missing, or there. -/
theorem post_cases {t : Call} (h : post x d t = some e) :
    (∃ i n inst, t = .setWindow i n ∧ d.alive i = some inst ∧ d.ht.lookup (.browser n) = none ∧
      e = { d with
        ht := d.ht.insert (.browser n) ⟨i,true,x,.browser n⟩
        instances := d.instances.insert i { inst with wnd := .browser n }
        taskPipe := d.taskPipe ++ [⟨.browser n,.registerWindow⟩] }) ∨
    ∃ i inst, t = .destroy i ∧ d.alive i = some inst ∧ (d.ht.lookup inst.wnd).isSome = true ∧
      e = { d with
        instances := d.instances.insert i { inst with destroying := true }
        taskPipe := d.taskPipe ++ [⟨inst.wnd,.unregisterWindow⟩] } := by
  cases t with
  | setWindow i n =>
    obtain ⟨inst,hinst,h⟩ := Option.bind_eq_some_iff.mp h
    split at h <;> cases h
    rename_i hn
    exact .inl ⟨i,n,inst,rfl,hinst,hn,rfl⟩
  | destroy i =>
    obtain ⟨inst,hinst,h⟩ := Option.bind_eq_some_iff.mp h
    split at h <;> cases h
    rename_i hw
    exact .inr ⟨i,inst,rfl,hinst,by rw [hw]; rfl,rfl⟩

theorem contract (x : Bool) : Contract Unit (service x) (fun _ _ => True) (fun _ _ => True)
    (Clear x) (Holds x) (Served x) where
  post d t e h _ _ he := by
    obtain ⟨i,n,inst,rfl,-,hn,rfl⟩ | ⟨i,inst,rfl,-,hw,rfl⟩ := post_cases he
    · refine ⟨?_,?_,?_,(h.books.post i n hn).congr rfl rfl rfl⟩
      · simp [h.pipe]
      · simp
      · simp
    · exact ⟨{ inst with destroying := true },AList.lookup_insert _,by simp [h.pipe],hw,
        h.books.congr rfl rfl rfl⟩
  looked _ _ h := by cases h
  notPending d h := by simp [service,h.pipe]
  notPendingAgain d t h := by
    cases t with
    | setWindow i n => simp [service,h.2.2.pipe]
    | destroy i =>
      obtain ⟨inst,-,hp,-⟩ := h
      simp [service,hp]
  serve d t _ h := by
    cases t with
    | setWindow i n =>
      obtain ⟨hp,hsome,hinst,hb⟩ := h
      obtain ⟨entry,hentry⟩ := Option.isSome_iff_exists.mp hsome
      simp only [service,handleTask_registers hp hentry]
      exact ⟨by simp,hinst,rfl,(hb.register hentry).congr rfl rfl rfl⟩
    | destroy i =>
      obtain ⟨inst,hinst,hp,hsome,hb⟩ := h
      obtain ⟨entry,hentry⟩ := Option.isSome_iff_exists.mp hsome
      simp only [service,handleTask_unregisters hp hentry]
      exact ⟨inst,hinst,rfl,(hb.unregister hentry).congr rfl rfl rfl⟩
  finish d t h := by
    cases t with
    | setWindow i n =>
      simp only [service,finish]
      split
      · exact ⟨h.2.2.pipe,h.2.2.books.congr rfl rfl rfl⟩
      · exact h.2.2
    | destroy i =>
      obtain ⟨inst,hinst,hp,hb⟩ := h
      simp only [service,finish,hinst]
      exact ⟨hp,hb.erase⟩
  work d ev := by
    obtain ⟨r,q,heq⟩ := x11etHandleXevent_eq d ev
    simp only [service,heq]
    refine ⟨fun h => ⟨h.pipe,h.books.congr rfl rfl rfl⟩,fun t => ⟨fun h => ?_,fun h => ?_⟩⟩
    · cases t with
      | setWindow i n => exact ⟨h.1,h.2.1,h.2.2.1,h.2.2.2.congr rfl rfl rfl⟩
      | destroy i =>
        obtain ⟨inst,hinst,hp,hs,hb⟩ := h
        exact ⟨inst,hinst,hp,hs,hb.congr rfl rfl rfl⟩
    · cases t with
      | setWindow i n => exact ⟨h.1,h.2.1,h.2.2.pipe,h.2.2.books.congr rfl rfl rfl⟩
      | destroy i =>
        obtain ⟨inst,hinst,hp,hb⟩ := h
        exact ⟨inst,hinst,hp,hb.congr rfl rfl rfl⟩
  act d a e _ h := by
    obtain ⟨hht,hs,hm,hp⟩ := act_keeps h
    exact ⟨fun hd => ⟨hp.trans hd.pipe,hd.books.congr hht hs hm⟩,
      fun hn => absurd hn (not_nontrivial Unit)⟩

theorem created_clear (x : Bool) : Clear x Data.create :=
  ⟨rfl,by simp [Data.create],by simp [Data.create],by simp [Data.create],by simp [Data.create]⟩

theorem stage {x : Bool} {s : State Data Call Unit} (h : (machine x).Reachable s) :
    Stage (service x) (Clear x) (Holds x) (Served x) s :=
  stage_of_reachableVia (contract x) (created_clear x)
    (fun _ ht => ⟨serial_of_step ht,within_true _ _⟩) h

/-- Between calls of the browser nothing is asked of the thread, and the table of plugs is
the table of sockets read backwards. -/
theorem tables_agree {x : Bool} {s : State Data Call Unit} (h : (machine x).Reachable s)
    (hc : s.calls () = none) : s.data.taskPipe = [] ∧ s.worker = .free ∧ s.barrier = none ∧
    ∀ p w, s.data.socketHt.lookup p = some w ↔
      ∃ entry, s.data.ht.lookup w = some entry ∧ entry.plugWnd = p := by
  obtain ⟨hclear,hworker,hbarrier⟩ := (stage h).clear fun _ => hc
  refine ⟨hclear.pipe,hworker,hbarrier,fun p w => ?_⟩
  rw [hclear.books.agree]
  exact and_iff_right nofun

/-- `NPP_SetWindow` returns with the plug of its window in the instance and the events of
that plug on their way to the window; `NPP_Destroy` returns with its window in no table. -/
theorem returned {x : Bool} {s t : State Data Call Unit} {c : Call} (h : (machine x).Reachable s)
    (hc : s.calls () = some (.released c)) (ht : (machine x).step s (.ret ()) = some t) :
    match c with
    | .setWindow i n => ∃ entry inst, t.data.ht.lookup (.browser n) = some entry ∧
        t.data.socketHt.lookup entry.plugWnd = some (.browser n) ∧
        t.data.instances.lookup i = some inst ∧ inst.wnd = entry.plugWnd
    | .destroy i => ∃ inst, t.data.instances.lookup i = some inst ∧
        t.data.ht.lookup inst.wnd = none ∧
        ∀ p, t.data.socketHt.lookup p ≠ some inst.wnd := by
  obtain ⟨hserved,-⟩ := (stage h).served hc
  simp only [Rendezvous.machine,step,hc,service] at ht
  cases ht
  cases c with
  | setWindow i n =>
    obtain ⟨hsome,hthere,hclear⟩ := hserved
    obtain ⟨entry,hentry⟩ := Option.isSome_iff_exists.mp hsome
    obtain ⟨inst,hinst⟩ := Option.isSome_iff_exists.mp hthere
    have hplug := (hclear.books.agree entry.plugWnd (.browser n)).mpr
      ⟨Option.some_ne_none _,entry,hentry,rfl⟩
    simp only [finish,hinst,hentry]
    exact ⟨entry,{ inst with wnd := entry.plugWnd },rfl,hplug,AList.lookup_insert _,rfl⟩
  | destroy i =>
    obtain ⟨inst,hinst,-,hbooks⟩ := hserved
    simp only [finish,hinst]
    exact ⟨inst,rfl,AList.lookup_erase _ _,fun p hp => ((hbooks.agree _ _).mp hp).1 rfl⟩

/-- A window is registered, with the thread at the barrier before or after the browser. -/
def registerOne (i n : ℕ) : List (Label Call Unit XEvent Act Unit) :=
  [.call () (.setWindow i n),.serve (),.workerArrive,.arrive (),.ret ()]

theorem registerOne_agrees : ∃ s : State Data Call Unit,
    (machine true).exec (machine true).start (.act () .new::registerOne 10 5) = some s ∧
    s.data.socketHt.lookup (.own 0) = some (.browser 5) ∧ s.data.taskPipe = [] ∧
    s.worker = .free ∧ s.barrier = none ∧ ∀ p w, s.data.socketHt.lookup p = some w ↔
      ∃ entry, s.data.ht.lookup w = some entry ∧ entry.plugWnd = p := by
  obtain ⟨s,hs,hc,hplug⟩ : ∃ s : State Data Call Unit,
      (machine true).exec (machine true).start (.act () .new::registerOne 10 5) = some s ∧
      s.calls () = none ∧ s.data.socketHt.lookup (.own 0) = some (.browser 5) := ⟨_,rfl,rfl,rfl⟩
  exact ⟨s,hs,hplug,tables_agree (Machine.reachable_of_exec hs) hc⟩

/-- As the last step of that call, the browser returns. -/
theorem registerOne_returns : ∃ s t : State Data Call Unit,
    (machine true).exec (machine true).start (.act () .new::(registerOne 10 5).take 4) = some s ∧
    (machine true).step s (.ret ()) = some t ∧
    ∃ entry inst, t.data.ht.lookup (.browser 5) = some entry ∧
      t.data.socketHt.lookup entry.plugWnd = some (.browser 5) ∧
      t.data.instances.lookup 10 = some inst ∧ inst.wnd = entry.plugWnd := by
  obtain ⟨s,hs,hc,t,ht⟩ : ∃ s : State Data Call Unit, (machine true).exec (machine true).start
      (.act () .new::(registerOne 10 5).take 4) = some s ∧
      s.calls () = some (.released (.setWindow 10 5)) ∧
      ∃ t, (machine true).step s (.ret ()) = some t := ⟨_,rfl,rfl,_,rfl⟩
  exact ⟨s,t,hs,ht,returned (Machine.reachable_of_exec hs) hc ht⟩

/-- The browser names a window that exists. -/
def Named (_ : Data) : Call → Prop
  | .setWindow _ n => n ≠ 0
  | .destroy _ => True

instance (d : Data) (c : Call) : Decidable (Named d c) := by
  apply c.casesOn (motive := fun c => Decidable (Named d c)) <;> intros <;>
    dsimp only [Named] <;> infer_instance

/-- An instance has a plug or no window, but for the one whose window is being registered:
what is registered is no plug. -/
structure Plugged (besides : Option ℕ) (d : Data) : Prop where
  key : ∀ w entry, d.ht.lookup w = some entry → ∃ n, n ≠ 0 ∧ w = .browser n
  wnd : ∀ i inst, d.instances.lookup i = some inst →
    besides = some i ∨ inst.wnd = .none ∨ ∃ k, inst.wnd = .own k

/-- The thread changes the plug of an entry at most. -/
theorem handleTask_frame (d : Data) : (x11etHandleTask d).instances = d.instances ∧
    (x11etHandleTask d).nextInstance = d.nextInstance ∧
    (x11etHandleTask d).delivered = d.delivered ∧
    ∀ w, ((x11etHandleTask d).ht.lookup w).map Entry.instanceId =
      (d.ht.lookup w).map Entry.instanceId := by
  unfold x11etHandleTask
  split
  · exact ⟨rfl,rfl,rfl,fun _ => rfl⟩
  · rename_i task rest _
    dsimp only
    split
    · exact ⟨rfl,rfl,rfl,fun _ => rfl⟩
    · rename_i entry hentry
      split
      · refine ⟨rfl,rfl,rfl,fun w => ?_⟩
        dsimp only
        by_cases hw : w = task.socketWnd
        · subst hw
          rw [AList.lookup_insert,hentry]
          rfl
        · rw [AList.lookup_insert_ne hw]
      · exact ⟨rfl,rfl,rfl,fun _ => rfl⟩

theorem Plugged.congr {b : Option ℕ} (h : Plugged b d) (hi : e.instances = d.instances)
    (hht : ∀ w, (e.ht.lookup w).map Entry.instanceId = (d.ht.lookup w).map Entry.instanceId) :
    Plugged b e := by
  refine ⟨fun w entry hw => ?_,by rw [hi]; exact h.wnd⟩
  have hmap := hht w
  rw [hw] at hmap
  obtain ⟨entry',hw',-⟩ := Option.map_eq_some_iff.mp hmap.symm
  exact h.key w entry' hw'

/-- So `NPP_Destroy` finds nothing to unregister. -/
theorem Plugged.not_registered (h : Plugged none d) {i : ℕ} {inst : Instance}
    (hi : d.alive i = some inst) : d.ht.lookup inst.wnd = none := by
  obtain ⟨hlookup,-⟩ := Option.filter_eq_some_iff.mp hi
  by_contra hsome
  obtain ⟨entry,hentry⟩ := Option.ne_none_iff_exists'.mp hsome
  obtain ⟨n,hn,heq⟩ := h.key _ entry hentry
  obtain hb | hnone | ⟨k,hk⟩ := h.wnd i inst hlookup
  · cases hb
  · rw [hnone,Window.none,Window.browser.injEq] at heq
    exact hn heq.symm
  · rw [hk] at heq
    cases heq

/-- An instance that leaves keeps its window, and one that comes has none. -/
theorem Plugged.insert {b : Option ℕ} (h : Plugged b d) {i : ℕ} {inst : Instance}
    (hi : inst.wnd = .none ∨ (∃ k, inst.wnd = .own k) ∨ ∃ inst', d.instances.lookup i = some inst' ∧
      inst'.wnd = inst.wnd) : Plugged b { d with instances := d.instances.insert i inst } := by
  refine ⟨h.key,fun j inst' hj => ?_⟩
  obtain ⟨rfl,rfl⟩ | ⟨-,hj⟩ := lookup_insert_cases hj
  · obtain hnone | hown | ⟨inst',hlookup,hwnd⟩ := hi
    · exact .inr (.inl hnone)
    · exact .inr (.inr hown)
    · rw [← hwnd]
      exact h.wnd j inst' hlookup
  · exact h.wnd j inst' hj

theorem Plugged.act {a : Act} (h : Plugged none d) (hb : Books true none d)
    (ha : act d a = some e) : Plugged none e := by
  cases a with
  | new =>
    cases ha
    have hnew := @Plugged.insert _ _ h d.nextInstance ⟨.none,false⟩ (.inl rfl)
    exact ⟨hnew.key,hnew.wnd⟩
  | setWindowAgain i n =>
    obtain ⟨inst,-,ha⟩ := Option.bind_eq_some_iff.mp ha
    obtain ⟨entry,hentry,rfl⟩ := Option.map_eq_some_iff.mp ha
    obtain ⟨k,-,hk⟩ := hb.plug rfl _ _ hentry nofun
    exact h.insert (.inr (.inl ⟨k,hk⟩))
  | destroyUnregistered i =>
    obtain ⟨inst,hinst,ha⟩ := Option.bind_eq_some_iff.mp ha
    obtain ⟨hlookup,-⟩ := Option.filter_eq_some_iff.mp hinst
    split at ha <;> cases ha
    exact h.insert (.inr (.inr ⟨inst,hlookup,rfl⟩))
  | didDestroy i =>
    simp only [X11EventThread.act] at ha
    split at ha <;> cases ha
    exact ⟨h.key,fun j inst hj => h.wnd j inst (lookup_erase_cases hj).2⟩
  | ptac k =>
    obtain ⟨call,-,rfl⟩ := Option.map_eq_some_iff.mp ha
    obtain heq | ⟨w,entry,-,-,heq⟩ :=
      callHandleEventPtac_cases { d with ptacs := d.ptacs.eraseIdx k } call
    all_goals rw [heq]; exact ⟨h.key,h.wnd⟩

/-- Where XEmbed is used, calls are those of `NPP_SetWindow`. -/
def Embedding (P : Call → Data → Prop) (c : Call) (d : Data) : Prop :=
  P c d ∧ ∃ i n, c = .setWindow i n ∧ Plugged (some i) d

theorem embedContract : Contract Unit (service true) Named (fun _ _ => True)
    (fun d => Clear true d ∧ Plugged none d) (Embedding (Holds true))
    (Embedding (Served true)) where
  post d t e h hnamed hlook he := by
    refine ⟨(contract true).post d t e h.1 trivial hlook he,?_⟩
    obtain ⟨i,n,inst,rfl,-,hn,rfl⟩ | ⟨i,inst,rfl,hinst,hw,rfl⟩ := post_cases he
    · refine ⟨i,n,rfl,fun w entry hw => ?_,fun j inst' hj => ?_⟩
      · obtain ⟨rfl,-⟩ | ⟨-,hw⟩ := lookup_insert_cases hw
        · exact ⟨n,hnamed,rfl⟩
        · exact h.2.key w entry hw
      · obtain ⟨rfl,-⟩ | ⟨-,hj⟩ := lookup_insert_cases hj
        · exact .inl rfl
        · exact .inr ((h.2.wnd j inst' hj).resolve_left nofun)
    · rw [h.2.not_registered hinst] at hw
      cases hw
  looked _ _ h := by cases h
  notPending d h := (contract true).notPending d h.1
  notPendingAgain d t h := (contract true).notPendingAgain d t h.1
  serve d t w h := by
    obtain ⟨hheld,i,n,rfl,hplug⟩ := h
    obtain ⟨hi,-,-,hht⟩ := handleTask_frame d
    exact ⟨(contract true).serve d _ w hheld,i,n,rfl,hplug.congr hi hht⟩
  finish d t h := by
    obtain ⟨hserved,i,n,rfl,hplug⟩ := h
    refine ⟨(contract true).finish d _ hserved,?_⟩
    obtain ⟨hsome,-,hclear⟩ := hserved
    obtain ⟨entry,hentry⟩ := Option.isSome_iff_exists.mp hsome
    obtain ⟨k,-,hk⟩ := hclear.books.plug rfl _ _ hentry nofun
    simp only [service,finish,hentry]
    split
    · rename_i inst entry' hinst heq
      cases heq
      refine ⟨hplug.key,fun j inst' hj => ?_⟩
      obtain ⟨rfl,rfl⟩ | ⟨hne,hj⟩ := lookup_insert_cases hj
      · exact .inr (.inr ⟨k,hk⟩)
      · exact .inr ((hplug.wnd j inst' hj).resolve_left fun h => hne (Option.some.inj h).symm)
    · rename_i hnone
      refine ⟨hplug.key,fun j inst' hj => .inr ((hplug.wnd j inst' hj).resolve_left ?_)⟩
      rintro ⟨rfl⟩
      exact hnone inst' entry hj rfl
  work d ev := by
    obtain ⟨r,q,heq⟩ := x11etHandleXevent_eq d ev
    obtain ⟨hc,ht⟩ := (contract true).work d ev
    have hkeep : ∀ b, Plugged b d → Plugged b ((service true).work d ev) := fun b h => by
      simp only [service,heq]
      exact ⟨h.key,h.wnd⟩
    refine ⟨fun h => ⟨hc h.1,hkeep _ h.2⟩,fun t => ⟨?_,?_⟩⟩
    · rintro ⟨hheld,i,n,rfl,hplug⟩
      exact ⟨(ht _).1 hheld,i,n,rfl,hkeep _ hplug⟩
    · rintro ⟨hserved,i,n,rfl,hplug⟩
      exact ⟨(ht _).2 hserved,i,n,rfl,hkeep _ hplug⟩
  act d a e _ h :=
    ⟨fun hd => ⟨((contract true).act d a e trivial h).1 hd.1,hd.2.act hd.1.books h⟩,
      fun hn => absurd hn (not_nontrivial Unit)⟩

theorem embedStage {s : State Data Call Unit}
    (h : (machine true).ReachableVia (Within Named fun _ _ => True) s) :
    Stage (service true) (fun d => Clear true d ∧ Plugged none d) (Embedding (Holds true))
      (Embedding (Served true)) s :=
  stage_of_reachableVia embedContract
    ⟨created_clear true,by simp [Data.create],by simp [Data.create]⟩
    (fun hw ht => ⟨serial_of_step ht,hw⟩) h

/-- The instance that gets the events of a socket. -/
def Data.owner (d : Data) (w : Window) : Option ℕ := (d.ht.lookup w).map Entry.instanceId

/-- No window changes hands, and an event found registered goes to the one who has it. -/
structure Kept (d e : Data) : Prop where
  owner : ∀ w i, d.owner w = some i → e.owner w = some i
  delivered : ∀ y ∈ e.delivered, y ∈ d.delivered ∨ d.owner y.socket = some y.instanceId

theorem Kept.of_eq (hht : ∀ w, e.owner w = d.owner w) (hd : e.delivered = d.delivered) :
    Kept d e :=
  ⟨fun w _ hw => (hht w).trans hw,fun _ hy => .inl (hd ▸ hy)⟩

theorem act_kept {a : Act} (h : act d a = some e) : Kept d e := by
  have hht := (act_keeps h).1
  refine ⟨fun w i hw => by rw [Data.owner,hht]; exact hw,fun y hy => ?_⟩
  cases a with
  | new => cases h; exact .inl hy
  | setWindowAgain i n =>
    obtain ⟨inst,-,h⟩ := Option.bind_eq_some_iff.mp h
    obtain ⟨entry,-,rfl⟩ := Option.map_eq_some_iff.mp h
    exact .inl hy
  | destroyUnregistered i =>
    obtain ⟨inst,-,h⟩ := Option.bind_eq_some_iff.mp h
    split at h <;> cases h
    exact .inl hy
  | didDestroy i =>
    simp only [act] at h
    split at h <;> cases h
    exact .inl hy
  | ptac k =>
    obtain ⟨call,-,rfl⟩ := Option.map_eq_some_iff.mp h
    obtain heq | ⟨w,entry,hw,-,heq⟩ :=
      callHandleEventPtac_cases { d with ptacs := d.ptacs.eraseIdx k } call
    · rw [heq] at hy
      exact .inl hy
    · rw [heq] at hy
      obtain hy | hy := List.mem_append.mp hy
      · exact .inl hy
      · rw [List.mem_singleton.mp hy]
        refine .inr ?_
        rw [Data.owner,show d.ht.lookup w = some entry from hw]
        rfl

theorem embed_kept {s t : State Data Call Unit} {l : Label Call Unit XEvent Act Unit}
    (h : Stage (service true) (fun d => Clear true d ∧ Plugged none d) (Embedding (Holds true))
      (Embedding (Served true)) s)
    (ht : step (service true) s l = some t) : Kept s.data t.data := by
  have hd := step_data _ ht
  cases l with
  | call c u =>
    obtain ⟨hc,hpost⟩ := hd
    obtain ⟨i,n,inst,-,-,hn,heq⟩ | ⟨i,inst,-,hinst,hw,-⟩ := post_cases hpost
    · refine ⟨fun w j hw => ?_,fun _ hy => .inl (by rw [heq] at hy; exact hy)⟩
      have hne : w ≠ .browser n := by
        rintro rfl
        simp [Data.owner,hn] at hw
      rw [heq,Data.owner]
      dsimp only
      rw [AList.lookup_insert_ne hne]
      exact hw
    · have hplug := (h.clear fun d => by cases d; exact hc).1.2
      rw [hplug.not_registered hinst] at hw
      cases hw
  | proceed c =>
    obtain ⟨u,-,hlook,-⟩ := hd
    cases hlook
  | arrive c => rw [hd]; exact .of_eq (fun _ => rfl) rfl
  | ret c =>
    obtain ⟨u,hu,hfin⟩ := hd
    obtain ⟨-,i,n,rfl,-⟩ := (h.served hu).1
    rw [hfin]
    simp only [service,finish]
    split
    · exact .of_eq (fun _ => rfl) rfl
    · exact .of_eq (fun _ => rfl) rfl
  | act c a => exact act_kept hd.2
  | serve w =>
    obtain ⟨-,-,hdel,hown⟩ := handleTask_frame s.data
    rw [hd.2]
    exact .of_eq hown hdel
  | workerArrive => rw [hd]; exact .of_eq (fun _ => rfl) rfl
  | work ev =>
    obtain ⟨r,q,heq⟩ := x11etHandleXevent_eq s.data ev
    rw [hd.2]
    simp only [service,heq]
    exact .of_eq (fun _ => rfl) rfl

/-- What was handed over went to the one who has the socket. -/
def Traced (d : Data) : Prop := ∀ y ∈ d.delivered, d.owner y.socket = some y.instanceId

theorem traced_of_reachable {s : State Data Call Unit}
    (h : (machine true).ReachableVia (Within Named fun _ _ => True) s) : Traced s.data := by
  induction h with
  | start => exact nofun
  | step hs _ ht ih =>
    have hkept := embed_kept (embedStage hs) ht
    intro y hy
    obtain hy | hy := hkept.delivered y hy
    · exact hkept.owner _ _ (ih y hy)
    · exact hkept.owner _ _ hy

/-- Where XEmbed is used a window registered once stays with the instance it was registered
for, destroyed or not, and every event of it that is ever handed over goes there. -/
theorem registration_lasts {s t : State Data Call Unit} {ls : List (Label Call Unit XEvent Act Unit)}
    {w : Window} {i : ℕ} (h : (machine true).ReachableVia (Within Named fun _ _ => True) s)
    (hw : s.data.owner w = some i) (hr : (machine true).exec s ls = some t)
    (hg : (machine true).EachFrom (Within Named fun _ _ => True) s ls) :
    t.data.owner w = some i ∧ ∀ y ∈ t.data.delivered, y.socket = w → y.instanceId = i := by
  have ht : t.data.owner w = some i := by
    induction ls generalizing s with
    | nil => exact Option.some.inj hr ▸ hw
    | cons l ls ih =>
      obtain ⟨u,hu,hr⟩ := Option.bind_eq_some_iff.mp hr
      exact ih (.step h hg.1 hu) ((embed_kept (embedStage h) hu).owner w i hw) hr (hg.2 u hu)
  refine ⟨ht,fun y hy hs => ?_⟩
  have htraced := traced_of_reachable (Machine.reachableVia_of_exec ls h hr hg) y hy
  rw [hs,ht] at htraced
  exact (Option.some.inj htraced).symm

/-- Another instance gets the window of one that is gone. -/
def secondOwner : List (Label Call Unit XEvent Act Unit) :=
  [.act () (.destroyUnregistered 10),.act () (.didDestroy 10),.act () .new,
    .act () (.setWindowAgain 11 5),.work ⟨.own 0,.buttonPress⟩]

/-- The events of its window are not for it. -/
theorem secondOwner_deaf : ∃ s t : State Data Call Unit,
    (machine true).exec (machine true).start (.act () .new::registerOne 10 5) = some s ∧
    (machine true).exec s secondOwner = some t ∧
    t.data.instances.lookup 10 = none ∧ t.data.instances.lookup 11 = some ⟨.own 0,false⟩ ∧
    t.data.requested = [.browser 5] ∧ t.data.ptacs = [] ∧
    t.data.owner (.browser 5) = some 10 ∧
    ∀ y ∈ t.data.delivered, y.socket = .browser 5 → y.instanceId = 10 := by
  obtain ⟨s,hs,hown,t,ht,hdata,hg⟩ : ∃ s : State Data Call Unit,
      (machine true).exec (machine true).start (.act () .new::registerOne 10 5) = some s ∧
      s.data.owner (.browser 5) = some 10 ∧ ∃ t, (machine true).exec s secondOwner = some t ∧
      (t.data.instances.lookup 10 = none ∧ t.data.instances.lookup 11 = some ⟨.own 0,false⟩ ∧
        t.data.requested = [.browser 5] ∧ t.data.ptacs = []) ∧
      (machine true).EachFrom (Within Named fun _ _ => True) s secondOwner :=
    ⟨_,rfl,rfl,_,rfl,⟨rfl,rfl,rfl,rfl⟩,by decide⟩
  have hreach : (machine true).ReachableVia (Within Named fun _ _ => True) s :=
    Machine.reachableVia_of_exec _ .start hs (by decide)
  obtain ⟨h₁,h₂,h₃,h₄⟩ := hdata
  exact ⟨s,t,hs,ht,h₁,h₂,h₃,h₄,registration_lasts hreach hown ht hg⟩

end X11EventThread
end FreshPlayer
