import FreshPlayer.InputEvents
import FreshPlayer.MessageLoopChannel

/-! What becomes of input events between the handlers and the plugin. They go through the loop
of the main thread, one task each, so the plugin is told of them in the order they were made
as long as the clock moves on between two posts. -/
namespace FreshPlayer
namespace InputEvents

open MessageLoop

/-- A task that tells the plugin something. -/
def ours (task : Task) : Bool :=
  !task.terminate && (task.ccb.func = some callPppHandleInputEventComt ||
    task.ccb.func = some callPppDidChangeFocusComt)

/-- The plugin heard of the inputs posted, and of the changes of focus but for some. -/
structure Told (posted told : List Posted) : Prop where
  sub : told.Sublist posted
  inputs : told.filterMap Posted.event? = posted.filterMap Posted.event?

/-- The clock reads a normalised time for each of these posts, later than for those before. Of
other posts nothing is asked. -/
def Clocked (s : State) : Action → Prop
  | .post now => now.Normal ∧ ∀ x ∈ s.loop.accepted, ours x = true → x.when.instant < now.instant
  | _ => True

instance (s : State) (a : Action) : Decidable (Clocked s a) := by
  apply a.casesOn (motive := fun a => Decidable (Clocked s a)) <;> intros <;>
    dsimp only [Clocked] <;> infer_instance

/-- Nor is a task lost: the loop takes each of these posts and drops none. -/
def Steady (s : State) : Action → Prop
  | .post now => Clocked s (.post now) ∧ s.loop.alive = true ∧
      (s.loop.running && s.loop.teardown) = false
  | .loop a => LosesNothing s.loop a
  | _ => True

instance (s : State) (a : Action) : Decidable (Steady s a) := by
  apply a.casesOn (motive := fun a => Decidable (Steady s a)) <;> intros <;>
    dsimp only [Steady] <;> infer_instance

variable {c : Config} {s t : State} {params : List InputEvent} {x : Task}

theorem ours_of_content {p : Posted} (h : content params x = some p) : ours x = true := by
  unfold content at h
  unfold ours
  split_ifs at h with ht hi hf
  · simp [ht,hi]
  · simp [ht,hf]

theorem content_eq_none (h : ours x = false) : content params x = none := by
  by_contra hne
  obtain ⟨p,hp⟩ := Option.ne_none_iff_exists'.mp hne
  rw [ours_of_content hp] at h
  cases h

theorem content_terminate (h : x.terminate = true) : content params x = none := by
  simp [content,h]

/-- A block allocated later changes nothing for the tasks there are. -/
theorem content_append (ev : InputEvent) (h : ours x = true → (content params x).isSome) :
    content (params ++ [ev]) x = content params x := by
  cases ho : ours x with
  | false => rw [content_eq_none ho,content_eq_none ho]
  | true =>
    have hsome := h ho
    unfold content at hsome ⊢
    split_ifs with ht hi
    · rfl
    · rw [if_neg ht,if_pos hi,Option.isSome_map] at hsome
      rw [List.getElem?_append_left (by simpa using hsome)]
    · rfl
    · rfl

theorem filterMap_content_append (ev : InputEvent) {l : List Task}
    (h : ∀ x ∈ l, ours x = true → (content params x).isSome) :
    l.filterMap (content (params ++ [ev])) = l.filterMap (content params) :=
  List.filterMap_congr fun x hx => content_append ev (h x hx)

theorem filterMap_ours (l : List Task) :
    (l.filter ours).filterMap (content params) = l.filterMap (content params) := by
  rw [List.filterMap_filter]
  refine List.filterMap_congr fun x _ => ?_
  cases ho : ours x with
  | true => rfl
  | false => exact (content_eq_none ho).symm

theorem filterMap_called (h : s.loop.Books) :
    s.loop.called.filterMap (content params) =
      (s.loop.taken.filter ours).filterMap (content params) := by
  rw [h.calls,filterMap_ours,List.filterMap_filter]
  refine List.filterMap_congr fun x _ => ?_
  cases ht : x.terminate with
  | false => rfl
  | true => exact (content_terminate ht).symm

theorem Told.append {k l k' l' : List Posted} (h : Told k l) (h' : Told k' l') :
    Told (k ++ k') (l ++ l') :=
  ⟨h.sub.append h'.sub,by rw [List.filterMap_append,List.filterMap_append,h.inputs,h'.inputs]⟩

/-- What calls change: what the plugin was told, and the focus events it is not to hear of. -/
structure Calls (s t : State) (tasks : List Task) : Prop where
  loop : t.loop = s.loop
  params : t.params = s.params
  toPost : t.toPost = s.toPost
  made : t.made = s.made
  plugin : t.ppI.pppInputEvent = s.ppI.pppInputEvent
  eventMask : t.ppI.eventMask = s.ppI.eventMask
  filteredEventMask : t.ppI.filteredEventMask = s.ppI.filteredEventMask
  released : t.ppI.lastButtonReleaseTimestamp = s.ppI.lastButtonReleaseTimestamp
  alive : t.ppI.alive = s.ppI.alive
  gone : s.ppI.alive = false → t = s
  told : s.ppI.pppInputEvent = true → s.ppI.alive = true →
    ∃ told, t.told = s.told ++ told ∧ Told (tasks.filterMap (content s.params)) told ∧
      (tasks.filterMap (content s.params)).length + t.ppI.ignoreFocusEventsCnt =
        told.length + s.ppI.ignoreFocusEventsCnt

theorem call_calls (s : State) (x : Task) : Calls s (call s x) [x] := by
  unfold call
  cases hc : content s.params x with
  | none =>
    refine ⟨rfl,rfl,rfl,rfl,rfl,rfl,rfl,rfl,rfl,fun _ => rfl,fun _ _ => ⟨[],by simp,⟨?_,?_⟩,?_⟩⟩ <;>
      simp [hc]
  | some p =>
    cases p with
    | input ev =>
      dsimp only
      split_ifs with hp
      · have hp := Bool.and_eq_true_iff.mp hp
        refine ⟨rfl,rfl,rfl,rfl,rfl,rfl,rfl,rfl,rfl,fun hd => ?_,
          fun _ _ => ⟨[.input ev],rfl,⟨?_,?_⟩,?_⟩⟩
        · rw [hp.1] at hd
          cases hd
        all_goals simp [hc]
      · refine ⟨rfl,rfl,rfl,rfl,rfl,rfl,rfl,rfl,rfl,fun _ => rfl,fun h ha => absurd ?_ hp⟩
        rw [h,ha]
        rfl
    | focus b =>
      dsimp only
      split_ifs with hd hi
      · refine ⟨rfl,rfl,rfl,rfl,rfl,rfl,rfl,rfl,rfl,fun _ => rfl,fun _ ha => ?_⟩
        rw [ha] at hd
        cases hd
      · refine ⟨rfl,rfl,rfl,rfl,rfl,rfl,rfl,rfl,rfl,fun h => absurd (by rw [h]; rfl) hd,
          fun _ _ => ⟨[],by simp,⟨?_,?_⟩,?_⟩⟩
        · simp [hc]
        · simp [hc,Posted.event?]
        · simp only [List.filterMap_cons,hc,List.filterMap_nil,List.length_singleton,List.length_nil]
          omega
      · refine ⟨rfl,rfl,rfl,rfl,rfl,rfl,rfl,rfl,rfl,fun h => absurd (by rw [h]; rfl) hd,
          fun _ _ => ⟨[.focus b],rfl,⟨?_,?_⟩,?_⟩⟩ <;> simp [hc]

theorem foldl_calls (s : State) (tasks : List Task) : Calls s (tasks.foldl call s) tasks := by
  induction tasks generalizing s with
  | nil =>
    exact ⟨rfl,rfl,rfl,rfl,rfl,rfl,rfl,rfl,rfl,fun _ => rfl,fun _ _ => ⟨[],by simp,⟨by simp,rfl⟩,rfl⟩⟩
  | cons x tasks ih =>
    have h := call_calls s x
    have h' := ih (call s x)
    refine ⟨h'.loop.trans h.loop,h'.params.trans h.params,h'.toPost.trans h.toPost,
      h'.made.trans h.made,h'.plugin.trans h.plugin,h'.eventMask.trans h.eventMask,
      h'.filteredEventMask.trans h.filteredEventMask,h'.released.trans h.released,
      h'.alive.trans h.alive,fun hd => (h'.gone (h.alive.trans hd)).trans (h.gone hd),
      fun hp ha => ?_⟩
    obtain ⟨k,hk,htk,hnk⟩ := h.told hp ha
    obtain ⟨l,hl,htl,hnl⟩ := h'.told (h.plugin.trans hp) (h.alive.trans ha)
    rw [h.params] at htl hnl
    refine ⟨k ++ l,by rw [List.foldl_cons,hl,hk,List.append_assoc],?_,?_⟩ <;>
      rw [← List.singleton_append,List.filterMap_append]
    · exact htk.append htl
    · rw [List.length_append,List.length_append,List.foldl_append,List.foldl_cons,List.foldl_nil]
      omega

/-- Others post nothing that tells the plugin of an event. -/
theorem foreign_accepts {a : MessageLoop.Action} {s t : MessageLoop.State} (hf : foreign a = true)
    (ht : MessageLoop.step s a = some t) :
    t.accepted = s.accepted ∨ ∃ x, ours x = false ∧ t.accepted = s.accepted ++ [x] := by
  cases a with
  | postWork b cb ms r d now =>
    cases ht
    have hcb : ¬cb.func = some callPppHandleInputEventComt ∧
        ¬cb.func = some callPppDidChangeFocusComt := by simpa [foreign] using hf
    unfold ppbMessageLoopPostWorkWithResult
    split_ifs
    · exact .inl rfl
    · exact .inl rfl
    · exact .inl rfl
    · exact .inr ⟨_,by simp [ours,hcb.1,hcb.2],rfl⟩
  | postQuitDepth b d now o =>
    cases ht
    unfold ppbMessageLoopPostQuitDepth
    split_ifs
    · exact .inl rfl
    · exact .inr ⟨_,by simp [ours],rfl⟩
  | enter b fl o =>
    obtain ⟨_,rfl⟩ := step_enter ht
    rw [runIntEnter_ledger]
    exact .inl rfl
  | pump =>
    obtain ⟨f,fs,_,_,rfl⟩ := step_pump ht
    rw [runIntPump_ledger]
    exact .inl s.toLedger.move_accepted
  | iterate now =>
    obtain ⟨f,fs,_,_,rfl⟩ := step_iterate ht
    obtain h | ⟨x,_,h⟩ := runIntIterate_ledger s f fs now <;> rw [h] <;> exact .inl rfl
  | pop =>
    obtain ⟨f,fs,_,_,_,rfl⟩ := step_pop ht
    exact .inl s.toLedger.move_accepted
  | callbackReturns =>
    obtain ⟨f,fs,_,_,_,rfl⟩ := step_callbackReturns ht
    exact .inl rfl
  | leave =>
    obtain ⟨f,fs,_,_,rfl⟩ := step_leave ht
    rw [runIntLeave_ledger]
    split_ifs <;> exact .inl rfl

/-- Calls made are made for good. -/
theorem called_append {a : MessageLoop.Action} {s t : MessageLoop.State}
    (ht : MessageLoop.step s a = some t) : ∃ new, t.called = s.called ++ new := by
  have he := step_entry ht
  generalize t.toLedger = L at he ⊢
  cases he with
  | same _ => exact ⟨[],by simp⟩
  | accept _ _ _ => exact ⟨[],(List.append_nil _).symm⟩
  | move _ =>
    refine ⟨[],?_⟩
    unfold Ledger.move
    split <;> simp
  | take _ hx =>
    simp only [Ledger.take]
    split_ifs
    · exact ⟨[],by simp⟩
    · exact ⟨_,rfl⟩
  | discard _ => exact ⟨[],(List.append_nil _).symm⟩

/-- What the loop accepted of what was to be posted. -/
def posted (s : State) : List Posted := s.loop.accepted.filterMap (content s.params)

/-- What it has carried out. -/
def carried (s : State) : List Posted := s.loop.called.filterMap (content s.params)

/-- `l` was carried out while the instance was there, and the plugin heard of it. -/
structure Heard (s : State) (l : List Posted) : Prop where
  carried : l <+: carried s
  told : Told l s.told
  all : s.ppI.alive = true → l = InputEvents.carried s

/-- What holds in every run. -/
structure Channel (s : State) : Prop where
  order : OrderInv s.loop.toLedger
  known : ∀ x ∈ s.loop.accepted, ours x = true → (content s.params x).isSome
  made : (posted s ++ s.toPost).Sublist s.made
  heard : ∃ l, Heard s l
  plugin : s.ppI.pppInputEvent = true

/-- The posts that tell the plugin of events come one later than the other. -/
structure Rising (s : State) : Prop where
  rising : (s.loop.accepted.filter ours).Pairwise fun a b => a.when.instant < b.when.instant
  timed : ∀ x ∈ s.loop.accepted, ours x = true → x.when.Normal ∧ x.depth = 1

/-- One more is posted: the loop takes it as a task of its own, or turns it down. -/
structure Posting (s t : State) (now : Timespec) (p : Posted) (cb : Callback) (r : ℤ) : Prop where
  toPost : s.toPost = p::t.toPost
  made : t.made = s.made
  told : t.told = s.told
  ppI : t.ppI = s.ppI
  params : t.params = s.params ∨ ∃ ev, t.params = s.params ++ [ev]
  loop : MessageLoop.step s.loop (.postWork false cb 0 r 1 now) = some t.loop
  turn : (t.loop.toLedger = s.loop.toLedger ∧
      ¬(s.loop.alive = true ∧ (s.loop.running && s.loop.teardown) = false)) ∨
    ∃ x, t.loop.toLedger = s.loop.toLedger.accept x ∧ x.when = dueTime now 0 ∧ x.depth = 1 ∧
      content t.params x = some p

theorem postWork_cases (s : MessageLoop.State) (cb : Callback) (r : ℤ) (now : Timespec)
    (hf : cb.func ≠ none) :
    ((ppbMessageLoopPostWorkWithResult s false cb 0 r 1 now).2.toLedger = s.toLedger ∧
      ¬(s.alive = true ∧ (s.running && s.teardown) = false)) ∨
    ∃ x : Task, (ppbMessageLoopPostWorkWithResult s false cb 0 r 1 now).2.toLedger =
        s.toLedger.accept x ∧ x.when = dueTime now 0 ∧ x.depth = 1 ∧ x.terminate = false ∧
      x.ccb = cb ∧ x.resultToPass = r := by
  unfold ppbMessageLoopPostWorkWithResult
  rw [if_neg hf]
  split_ifs with ha ht
  · exact .inl ⟨rfl,fun h => by simp [h.1] at ha⟩
  · exact .inl ⟨rfl,fun h => by simp [h.2] at ht⟩
  · exact .inr ⟨_,rfl,rfl,rfl,rfl,rfl,rfl⟩

theorem post_posting {now : Timespec} (h : post s now = some t) :
    ∃ p cb r, Posting s t now p cb r := by
  unfold post at h
  split at h
  · cases h
  · rename_i ev rest hp
    cases h
    let cb : Callback := ⟨some callPppHandleInputEventComt,s.params.length⟩
    refine ⟨.input ev,cb,0,hp,rfl,rfl,rfl,.inr ⟨ev,rfl⟩,rfl,?_⟩
    obtain hs | ⟨x,hx,hw,hd,ht,hcb,hr⟩ := postWork_cases s.loop cb 0 now (by simp [cb])
    · exact .inl hs
    · exact .inr ⟨x,hx,hw,hd,by simp [content,ht,hcb,cb,ppbCoreCallOnMainThread]⟩
  · rename_i b rest hp
    cases h
    let cb : Callback := ⟨some callPppDidChangeFocusComt,0⟩
    refine ⟨.focus b,cb,if b then 1 else 0,hp,rfl,rfl,rfl,.inl rfl,rfl,?_⟩
    obtain hs | ⟨x,hx,hw,hd,ht,hcb,hr⟩ :=
      postWork_cases s.loop cb (if b then 1 else 0) now (by simp [cb])
    · exact .inl hs
    · refine .inr ⟨x,hx,hw,hd,?_⟩
      cases b <;> simp [content,ht,hcb,hr,cb,callPppHandleInputEventComt,callPppDidChangeFocusComt]

/-- What a step does to what goes through the loop. -/
inductive Effect (s : State) : Action → State → Prop
  | ask {a : Action} {t : State} (hl : t.loop = s.loop) (hs : t.params = s.params)
      (hp : t.toPost = s.toPost) (hm : t.made = s.made) (ht : t.told = s.told)
      (hi : t.ppI.pppInputEvent = s.ppI.pppInputEvent)
      (ha : t.ppI.alive = true → s.ppI.alive = true) : Effect s a t
  | handle {a : Action} {t : State} (hq : s.toPost = []) (hl : t.loop = s.loop)
      (hs : t.params = s.params) (hm : t.made = s.made ++ t.toPost) (ht : t.told = s.told)
      (hi : t.ppI.pppInputEvent = s.ppI.pppInputEvent)
      (ha : t.ppI.alive = true → s.ppI.alive = true) : Effect s a t
  | post {now : Timespec} {t : State} {p : Posted} {cb : Callback} {r : ℤ}
      (h : Posting s t now p cb r) : Effect s (.post now) t
  | loop {a : MessageLoop.Action} {loop : MessageLoop.State} (hf : foreign a = true)
      (h : MessageLoop.step s.loop a = some loop) :
      Effect s (.loop a)
        ((loop.called.drop s.loop.called.length).foldl call { s with loop := loop })

theorem nppHandleEvent_plugin (c : Config) (p : Instance) (stop : Bool) (ev : XEvent) :
    (nppHandleEvent c p stop ev).1.pppInputEvent = p.pppInputEvent ∧
      (nppHandleEvent c p stop ev).1.alive = p.alive := by
  unfold nppHandleEvent
  split <;> try exact ⟨rfl,rfl⟩
  unfold handleButtonPressReleaseEvent
  dsimp only
  split_ifs <;> exact ⟨rfl,rfl⟩

theorem step_effect {a : Action} (h : step c s a = some t) : Effect s a t := by
  cases a with
  | requestInputEvents k =>
    cases h
    split_ifs <;> exact .ask rfl rfl rfl rfl rfl rfl id
  | requestFilteringInputEvents k =>
    cases h
    split_ifs <;> exact .ask rfl rfl rfl rfl rfl rfl id
  | clearInputEventRequest k =>
    cases h
    split_ifs <;> exact .ask rfl rfl rfl rfl rfl rfl id
  | showMenu =>
    simp only [step] at h
    split_ifs at h
    cases h
    exact .ask rfl rfl rfl rfl rfl rfl id
  | handleEvent ev stop =>
    simp only [step] at h
    split_ifs at h with hq
    cases h
    obtain ⟨hplugin,halive⟩ := nppHandleEvent_plugin c s.ppI stop ev
    exact .handle hq.2 rfl rfl rfl rfl hplugin fun _ => hq.1
  | imSignal signal =>
    simp only [step] at h
    split_ifs at h with hq
    cases h
    exact .handle hq.2 rfl rfl rfl rfl rfl id
  | post now =>
    obtain ⟨p,cb,r,hp⟩ := post_posting h
    exact .post hp
  | destroy =>
    simp only [step] at h
    split_ifs at h with ha
    cases h
    exact .ask rfl rfl rfl rfl rfl rfl fun _ => ha
  | loop a =>
    simp only [step] at h
    split_ifs at h with hf
    obtain ⟨loop,hl,rfl⟩ := Option.map_eq_some_iff.mp h
    exact .loop hf hl

/-- What the loop does of its own keeps what was posted. -/
theorem accepted_ours_step {a : MessageLoop.Action} {loop : MessageLoop.State} (hf : foreign a = true)
    (h : MessageLoop.step s.loop a = some loop) :
    loop.accepted.filter ours = s.loop.accepted.filter ours := by
  obtain hacc | ⟨x,hx,hacc⟩ := foreign_accepts hf h <;> rw [hacc]
  rw [List.filter_append,List.filter_singleton,hx]
  exact List.append_nil _

/-- A task accepted is the one posted, and the block of its parameter is there. -/
theorem Posting.posted {now : Timespec} {p : Posted} {cb : Callback} {r : ℤ}
    (h : Posting s t now p cb r)
    (hk : ∀ x ∈ s.loop.accepted, ours x = true → (content s.params x).isSome) :
    s.loop.accepted.filterMap (content t.params) = posted s := by
  obtain hp | ⟨ev,hp⟩ := h.params
  · rw [hp]
    rfl
  · rw [hp]
    exact filterMap_content_append ev hk

theorem Posting.content {now : Timespec} {p : Posted} {cb : Callback} {r : ℤ} (h : Channel s)
    (hp : Posting s t now p cb r) :
    ∀ x ∈ s.loop.accepted, content t.params x = content s.params x := fun x hx => by
  obtain hs | ⟨ev,hs⟩ := hp.params
  · rw [hs]
  · rw [hs]
    exact content_append ev (h.known x hx)

theorem Posting.carried {now : Timespec} {p : Posted} {cb : Callback} {r : ℤ} (h : Channel s)
    (hp : Posting s t now p cb r) : carried t = carried s := by
  have hcalled : t.loop.called = s.loop.called := by
    obtain ⟨ht,-⟩ | ⟨x,ht,-⟩ := hp.turn
    · rw [ht]
    · rw [ht]
      rfl
  rw [InputEvents.carried,hcalled]
  refine List.filterMap_congr fun x hx => hp.content h x ?_
  rw [h.order.books.calls] at hx
  exact h.order.books.mem_of_taken (List.mem_filter.mp hx).1

/-- Neither what was carried out nor what the plugin heard changes. -/
theorem Heard.frame {l : List Posted} (h : Heard s l) (hc : InputEvents.carried t = InputEvents.carried s)
    (ht : t.told = s.told) (ha : t.ppI.alive = true → s.ppI.alive = true) : Heard t l := by
  refine ⟨?_,ht ▸ h.told,fun hal => ?_⟩ <;> rw [hc]
  · exact h.carried
  · exact h.all (ha hal)

theorem Channel.post {now : Timespec} {p : Posted} {cb : Callback} {r : ℤ} (h : Channel s)
    (hp : Posting s t now p cb r) : Channel t := by
  have hcontent := hp.content h
  have hheard : ∃ l, Heard t l := by
    obtain ⟨l,hl⟩ := h.heard
    exact ⟨l,hl.frame (hp.carried h) hp.told fun ha => hp.ppI ▸ ha⟩
  have horder := h.order.step hp.loop
  have hmade := h.made
  have hsame := hp.posted h.known
  rw [hp.toPost] at hmade
  obtain ⟨ht,-⟩ | ⟨x,ht,hw,hd,hx⟩ := hp.turn
  · refine ⟨horder,fun x hx => ?_,?_,hheard,hp.ppI ▸ h.plugin⟩
    · rw [ht] at hx
      rw [hcontent x hx]
      exact h.known x hx
    · rw [posted,ht,hsame,hp.made]
      exact (((List.Sublist.refl _).append (List.sublist_cons_self p t.toPost))).trans hmade
  · refine ⟨horder,fun y hy => ?_,?_,hheard,hp.ppI ▸ h.plugin⟩
    · rw [ht] at hy
      obtain hy | hy := List.mem_append.mp hy
      · rw [hcontent y hy]
        exact h.known y hy
      · intro _
        rw [List.mem_singleton.mp hy,hx]
        rfl
    · rw [posted,ht,Ledger.accept,List.filterMap_append,hsame,hp.made]
      simpa [hx] using hmade

theorem Rising.post {now : Timespec} {p : Posted} {cb : Callback} {r : ℤ} (h : Rising s)
    (hp : Posting s t now p cb r) (hg : Clocked s (.post now)) : Rising t := by
  obtain ⟨ht,-⟩ | ⟨x,ht,hw,hd,hx⟩ := hp.turn
  · exact ⟨ht ▸ h.rising,ht ▸ h.timed⟩
  · have hours := ours_of_content hx
    have hinstant : x.when.instant = now.instant := by
      rw [hw,dueTime_instant]
      omega
    have hnormal : x.when.Normal := by
      rw [hw]
      exact dueTime_normal (by simpa [postedNsec] using hg.1.1)
    refine ⟨?_,fun y hy => ?_⟩
    · rw [ht,Ledger.accept,List.filter_append,List.filter_singleton,hours]
      refine List.pairwise_append.mpr ⟨h.rising,List.pairwise_singleton _ _,fun y hy z hz => ?_⟩
      obtain ⟨hy,hoy⟩ := List.mem_filter.mp hy
      rw [List.mem_singleton.mp hz,hinstant]
      exact hg.2 y hy hoy
    · rw [ht] at hy
      obtain hy | hy := List.mem_append.mp hy
      · exact h.timed y hy
      · exact fun _ => List.mem_singleton.mp hy ▸ ⟨hnormal,hd⟩

/-- The calls that a step of the loop makes are carried out. -/
theorem carried_loop {a : MessageLoop.Action} {loop : MessageLoop.State}
    (hl : MessageLoop.step s.loop a = some loop) :
    carried ((loop.called.drop s.loop.called.length).foldl call { s with loop := loop }) =
      carried s ++ (loop.called.drop s.loop.called.length).filterMap (content s.params) := by
  obtain ⟨new,hnew⟩ := called_append hl
  have hcalls := foldl_calls { s with loop := loop } (loop.called.drop s.loop.called.length)
  rw [carried,carried,hcalls.loop,hcalls.params,← List.filterMap_append,hnew,List.drop_left]

/-- The calls tell the plugin of what they carry out, but for changes of focus withheld. -/
theorem Heard.loop {a : MessageLoop.Action} {loop : MessageLoop.State} {l : List Posted}
    (h : Heard s l) (hp : s.ppI.pppInputEvent = true)
    (hl : MessageLoop.step s.loop a = some loop) :
    ∃ l', Heard ((loop.called.drop s.loop.called.length).foldl call { s with loop := loop }) l' ∧
      l'.length + ((loop.called.drop s.loop.called.length).foldl call
        { s with loop := loop }).ppI.ignoreFocusEventsCnt + s.told.length =
      l.length + s.ppI.ignoreFocusEventsCnt + ((loop.called.drop s.loop.called.length).foldl call
        { s with loop := loop }).told.length := by
  have hcalls := foldl_calls { s with loop := loop } (loop.called.drop s.loop.called.length)
  have hcarried := carried_loop hl
  cases ha : s.ppI.alive with
  | true =>
    obtain ⟨told,htold,hnew,hcnt⟩ := hcalls.told hp ha
    have hall := h.all ha
    refine ⟨_,⟨List.prefix_rfl,?_,fun _ => rfl⟩,?_⟩
    · rw [hcarried,htold,← hall]
      exact h.told.append hnew
    · rw [hcarried,htold,← hall,List.length_append,List.length_append]
      dsimp only at hcnt ⊢
      omega
  | false =>
    have hgone := hcalls.gone ha
    rw [hgone] at hcarried
    rw [hgone]
    refine ⟨l,⟨?_,h.told,fun halive => ?_⟩,rfl⟩
    · rw [hcarried]
      exact h.carried.trans (List.prefix_append _ _)
    · rw [show s.ppI.alive = true from halive] at ha
      cases ha

theorem Channel.loop {a : MessageLoop.Action} {loop : MessageLoop.State} (h : Channel s)
    (hf : foreign a = true) (hl : MessageLoop.step s.loop a = some loop) :
    Channel ((loop.called.drop s.loop.called.length).foldl call { s with loop := loop }) := by
  have hcalls := foldl_calls { s with loop := loop } (loop.called.drop s.loop.called.length)
  obtain ⟨l,hheard⟩ := h.heard
  obtain ⟨l',hheard',-⟩ := hheard.loop h.plugin hl
  have hsame := accepted_ours_step hf hl
  refine ⟨?_,?_,?_,⟨l',hheard'⟩,hcalls.plugin.trans h.plugin⟩
  · rw [hcalls.loop]
    exact h.order.step hl
  · rw [hcalls.loop,hcalls.params]
    intro x hx ho
    have hmem := List.mem_filter.mpr ⟨hx,ho⟩
    rw [hsame] at hmem
    exact h.known x (List.mem_filter.mp hmem).1 ho
  · rw [posted,hcalls.loop,hcalls.params,hcalls.toPost,hcalls.made,← filterMap_ours,hsame,
      filterMap_ours]
    exact h.made

theorem Channel.effect {a : Action} (h : Channel s) (he : Effect s a t) : Channel t := by
  obtain ⟨l,hheard⟩ := h.heard
  cases he with
  | ask hl hs hp hm ht hi ha =>
    have hcarried : carried t = carried s := by rw [carried,hl,hs]; rfl
    refine ⟨hl ▸ h.order,?_,?_,⟨l,hheard.frame hcarried ht ha⟩,hi.trans h.plugin⟩
    · rw [hl,hs]
      exact h.known
    · rw [posted,hl,hs,hp,hm]
      exact h.made
  | handle hq hl hs hm ht hi ha =>
    have hmade := h.made
    have hcarried : carried t = carried s := by rw [carried,hl,hs]; rfl
    refine ⟨hl ▸ h.order,?_,?_,⟨l,hheard.frame hcarried ht ha⟩,hi.trans h.plugin⟩
    · rw [hl,hs]
      exact h.known
    · rw [hq,List.append_nil] at hmade
      rw [posted,hl,hs,hm]
      exact hmade.append (List.Sublist.refl t.toPost)
  | post hp => exact h.post hp
  | loop hf hl => exact h.loop hf hl

theorem Rising.effect {a : Action} (h : Rising s) (he : Effect s a t) (hg : Clocked s a) :
    Rising t := by
  cases he with
  | ask hl _ _ _ _ _ _ => exact ⟨hl ▸ h.rising,hl ▸ h.timed⟩
  | handle _ hl _ _ _ _ _ => exact ⟨hl ▸ h.rising,hl ▸ h.timed⟩
  | post hp => exact h.post hp hg
  | loop hf hl =>
    have hsame := accepted_ours_step hf hl
    refine ⟨?_,fun x hx ho => ?_⟩
    · rw [(foldl_calls _ _).loop]
      exact hsame ▸ h.rising
    · rw [(foldl_calls _ _).loop] at hx
      have hmem := List.mem_filter.mpr ⟨hx,ho⟩
      rw [hsame] at hmem
      exact h.timed x (List.mem_filter.mp hmem).1 ho

theorem created_channel (c : Config) (refCnt : ℤ) : Channel (machine c refCnt).start where
  order := .create refCnt
  known _ hx := absurd hx List.not_mem_nil
  made := .slnil
  heard := ⟨[],⟨List.nil_prefix,⟨.slnil,rfl⟩,fun _ => rfl⟩⟩
  plugin := rfl

theorem created_rising (c : Config) (refCnt : ℤ) : Rising (machine c refCnt).start :=
  ⟨.nil,fun _ hx => absurd hx List.not_mem_nil⟩

theorem channel_of_reachable {refCnt : ℤ} (h : (machine c refCnt).Reachable s) : Channel s :=
  h.invariant Channel (created_channel c refCnt) fun _ _ _ hi _ ht => hi.effect (step_effect ht)

theorem rising_of_reachable {refCnt : ℤ} (h : (machine c refCnt).ReachableVia Clocked s) :
    Rising s :=
  h.invariant Rising (created_rising c refCnt) fun _ _ _ hi hg ht => hi.effect (step_effect ht) hg

theorem Rising.pairwise (h : Rising s) : (s.loop.accepted.filter ours).Pairwise Precedes := by
  refine h.rising.imp_of_mem fun {a b} ha hb hlt => ?_
  obtain ⟨ha,hoa⟩ := List.mem_filter.mp ha
  obtain ⟨hb,hob⟩ := List.mem_filter.mp hb
  obtain ⟨hna,hda⟩ := h.timed a ha hoa
  obtain ⟨hnb,hdb⟩ := h.timed b hb hob
  refine ⟨hna,hnb,hlt,.inr ?_⟩
  rw [hda,hdb]
  exact ⟨by decide,le_rfl⟩

theorem Channel.carried_eq (h : Channel s) : carried s =
    (s.loop.taken.filter ours).filterMap (content s.params) := filterMap_called h.order.books

/-- The plugin is told of each event once at most, whatever becomes of the order. -/
theorem Channel.told_subperm (h : Channel s) : s.told.Subperm s.made := by
  obtain ⟨l,hheard⟩ := h.heard
  have htaken : s.loop.taken.Subperm s.loop.accepted :=
    (List.sublist_append_right _ _).subperm.trans h.order.books.sub
  obtain ⟨m,hperm,hsub⟩ := htaken.filter ours
  have hcarried : (carried s).Subperm (posted s) := by
    rw [h.carried_eq,posted,← filterMap_ours (l := s.loop.accepted)]
    exact ⟨_,hperm.filterMap _,hsub.filterMap _⟩
  have htold := (hheard.told.sub.trans hheard.carried.sublist).subperm.trans hcarried
  exact htold.trans ((List.sublist_append_left _ _).trans h.made).subperm

theorem Channel.told_sublist (h : Channel s) (hr : Rising s) : s.told.Sublist s.made := by
  obtain ⟨l,hheard⟩ := h.heard
  have htaken := (h.order.taken_sublist ours hr.pairwise).filterMap (content s.params)
  rw [← h.carried_eq,filterMap_ours] at htaken
  have htold := (hheard.told.sub.trans hheard.carried.sublist).trans htaken
  exact (htold.trans (List.sublist_append_left _ _)).trans h.made

/-- The plugin is told of each event once at most, and in the order in which the handlers made
them, whatever the loop loses or turns down. -/
theorem told_in_order {refCnt : ℤ} (h : (machine c refCnt).ReachableVia Clocked s) :
    s.told.Sublist s.made :=
  (channel_of_reachable h.reachable).told_sublist (rising_of_reachable h)

def ofUser : Config := ⟨400,id⟩

/-- The main thread takes one task and makes its call. -/
def turn (now : Timespec) : List Action :=
  [.loop .pop,.loop (.iterate now),.loop .callbackReturns,.loop (.iterate now)]

/-- The press of a key, its character and a change of focus, with other work that is due in the
instant in which the character is. -/
def lostCharacter : List Action :=
  [.requestInputEvents classKeyboard,.loop (.enter true ⟨false,true,false⟩ .loop),
    .loop (.iterate ⟨0,0⟩),.handleEvent (.key true 1000 0 0x61 [0x61]) false,.post ⟨1,0⟩,
    .loop (.postWork false ⟨some 9,0⟩ 0 0 0 ⟨1,5000⟩),.post ⟨1,5000⟩,.handleEvent (.focus true) false,
    .post ⟨1,9000⟩] ++
  turn ⟨1,0⟩ ++ [.loop .pop,.loop (.iterate ⟨1,0⟩)] ++ turn ⟨2,0⟩ ++ turn ⟨2,0⟩

theorem lostCharacter_in_order : ∃ s : State,
    (machine ofUser 1).exec (machine ofUser 1).start lostCharacter = some s ∧
    s.made.length = 3 ∧ s.told.length = 2 ∧ s.told.Sublist s.made := by
  obtain ⟨s,hs,hm,ht⟩ : ∃ s : State,
      (machine ofUser 1).exec (machine ofUser 1).start lostCharacter = some s ∧
      s.made.length = 3 ∧ s.told.length = 2 := ⟨_,rfl,rfl,rfl⟩
  exact ⟨s,hs,hm,ht,
    told_in_order (Machine.reachableVia_of_exec lostCharacter .start hs (by decide))⟩

structure Full (s : State) : Prop where
  channel : Channel s
  rising : Rising s
  conserved : s.loop.Conserved
  made : posted s ++ s.toPost = s.made

theorem Steady.clocked {a : Action} (h : Steady s a) : Clocked s a := by
  cases a with
  | post now => exact h.1
  | _ => trivial

theorem Full.effect {a : Action} (h : Full s) (he : Effect s a t) (hg : Steady s a) : Full t := by
  have hc := h.channel.effect he
  have hr := h.rising.effect he hg.clocked
  have hmade := h.made
  cases he with
  | ask hl hs hp hm _ _ _ =>
    refine ⟨hc,hr,hl ▸ h.conserved,?_⟩
    rw [posted,hl,hs,hp,hm]
    exact hmade
  | handle hq hl hs hm _ _ _ =>
    refine ⟨hc,hr,hl ▸ h.conserved,?_⟩
    rw [hq,List.append_nil] at hmade
    rw [posted,hl,hs,hm,← hmade]
    rfl
  | post hp =>
    have hbooks := h.channel.order.books
    refine ⟨hc,hr,((step_entry hp.loop).conserved_iff hbooks h.conserved).mpr trivial,?_⟩
    obtain ⟨-,hno⟩ | ⟨x,ht,-,-,hx⟩ := hp.turn
    · exact absurd hg.2 hno
    · rw [posted,ht,Ledger.accept,List.filterMap_append,hp.posted h.channel.known,hp.made,← hmade,
        hp.toPost]
      simp [hx]
  | loop hf hl =>
    rename_i b loop
    have hcalls := foldl_calls { s with loop := loop } (loop.called.drop s.loop.called.length)
    refine ⟨hc,hr,?_,?_⟩
    · rw [hcalls.loop]
      exact ((step_entry hl).conserved_iff h.channel.order.books h.conserved).mpr hg
    · rw [posted,hcalls.loop,hcalls.params,hcalls.toPost,hcalls.made,← filterMap_ours,
        accepted_ours_step hf hl,filterMap_ours]
      exact hmade

theorem full_of_reachable {refCnt : ℤ} (h : (machine c refCnt).ReachableVia Steady s) : Full s :=
  h.invariant Full ⟨created_channel c refCnt,created_rising c refCnt,
    fun _ hx => absurd hx List.not_mem_nil,rfl⟩
    fun _ _ _ hi hg ht => hi.effect (step_effect ht) hg

/-- Where no task is lost, none is passed over either as long as the instance is there: the plugin
heard of all inputs made up to some point, and of all that were made once none of them is on its
way. -/
theorem told_all {refCnt : ℤ} (h : (machine c refCnt).ReachableVia Steady s) :
    ∃ l, l <+: s.made ∧ Told l s.told ∧ (s.ppI.alive = true → s.toPost = [] →
      (∀ x ∈ s.loop.asyncQ ++ s.loop.intQ.keys, ours x = false) → l = s.made) := by
  have hf := full_of_reachable h
  have hc := hf.channel
  obtain ⟨l,hheard⟩ := hc.heard
  refine ⟨l,?_,hheard.told,fun ha hp hq => ?_⟩
  · have htaken := (hc.order.taken_prefix hf.conserved ours hf.rising.pairwise).filterMap
      (content s.params)
    rw [← hc.carried_eq,filterMap_ours] at htaken
    exact hheard.carried.trans (htaken.trans ⟨s.toPost,hf.made⟩)
  · rw [hheard.all ha,hc.carried_eq,hc.order.taken_all hf.conserved ours hf.rising.pairwise hq,
      filterMap_ours,← hf.made,hp,List.append_nil]
    rfl

/-- A key is pressed, the window gets the focus and the right button is released. -/
def keyAndMenu : List Action :=
  [.requestInputEvents (classMouse ||| classKeyboard),.loop (.enter true ⟨false,true,false⟩ .loop),
    .loop (.iterate ⟨0,0⟩),.handleEvent (.key true 1000 0 0x61 [0x61]) false,.post ⟨1,0⟩,
    .post ⟨1,1⟩,.handleEvent (.focus true) false,.post ⟨1,2⟩,
    .handleEvent (.button false 3 1200 0 (5,5)) false,.post ⟨1,3⟩,.post ⟨1,4⟩] ++
  turn ⟨2,0⟩ ++ turn ⟨2,0⟩ ++ turn ⟨2,0⟩ ++ turn ⟨2,0⟩ ++ turn ⟨2,0⟩

theorem keyAndMenu_told : ∃ s : State,
    (machine ofUser 1).exec (machine ofUser 1).start keyAndMenu = some s ∧ s.told.length = 5 ∧
    ∃ l, l <+: s.made ∧ Told l s.told ∧ (s.ppI.alive = true → s.toPost = [] →
      (∀ x ∈ s.loop.asyncQ ++ s.loop.intQ.keys, ours x = false) → l = s.made) := by
  obtain ⟨s,hs,ht⟩ : ∃ s : State,
      (machine ofUser 1).exec (machine ofUser 1).start keyAndMenu = some s ∧ s.told.length = 5 :=
    ⟨_,rfl,rfl⟩
  exact ⟨s,hs,ht,told_all (Machine.reachableVia_of_exec keyAndMenu .start hs (by decide))⟩

end InputEvents
end FreshPlayer
