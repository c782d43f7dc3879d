import FreshPlayer.MessageLoopQuit

/-! How long an activation goes on once its end is in sight. A rank of the queues and of the
position in `run_int` falls with each of its sections, and only posts raise it. -/
namespace FreshPlayer
namespace MessageLoop

namespace Ledger

variable {L : Ledger} {task x : Task}

theorem move_empty (h : L.asyncQ = []) : L.move = L := by
  rw [Ledger.move,h]

/-- Moving the head of `async_q` leaves the rest where it is. -/
theorem mem_move (hm : L.Movable) : (∀ x ∈ L.intQ.keys, x ∈ L.move.intQ.keys) ∧
    (∀ x ∈ L.asyncQ, x ∈ L.move.asyncQ ∨ x ∈ L.move.intQ.keys) ∧ L.move.taken = L.taken := by
  obtain ⟨q,tree,accepted,taken,called⟩ := L
  cases q with
  | nil => exact ⟨fun _ h => h,fun _ h => .inl h,rfl⟩
  | cons y rest =>
    have hperm := KeyTree.insert_perm (hm y rfl)
    refine ⟨fun x hx => hperm.mem_iff.mpr (List.mem_cons_of_mem y hx),fun x hx => ?_,rfl⟩
    obtain rfl | hx := List.mem_cons.mp hx
    · exact .inr (hperm.mem_iff.mpr List.mem_cons_self)
    · exact .inl hx

theorem length_move (hm : L.Movable) (hne : L.asyncQ ≠ []) :
    L.asyncQ.length = L.move.asyncQ.length+1 ∧
    L.move.intQ.keys.length = L.intQ.keys.length+1 := by
  obtain ⟨q,tree,accepted,taken,called⟩ := L
  cases q with
  | nil => exact absurd rfl hne
  | cons y rest => exact ⟨rfl,(KeyTree.insert_perm (hm y rfl)).length_eq⟩

theorem mem_intQ_take (hx : x ∈ L.intQ.keys) (ht : task ∈ L.intQ.keys) :
    task = x ∨ task ∈ (L.take x).intQ.keys :=
  List.mem_cons.mp ((KeyTree.remove_perm hx).mem_iff.mp ht)

theorem length_take (hx : x ∈ L.intQ.keys) :
    L.intQ.keys.length = (L.take x).intQ.keys.length+1 :=
  (KeyTree.remove_perm hx).length_eq

end Ledger

/-- The sections of the innermost activation short of its end. -/
def Action.own : Action → Bool
  | .pump | .iterate _ | .pop | .callbackReturns => true
  | .postWork .. | .postQuitDepth .. | .enter .. | .leave => false

/-- The activation was told to end, or runs until the queue is empty, or a quit that suits
it is queued. -/
def Frame.Ending (f : Frame) (L : Ledger) : Prop :=
  f.teardown = true ∨ f.flags.exitOnEmpty = true ∨
  ∃ task, (task ∈ L.asyncQ ∨ task ∈ L.intQ.keys) ∧ task.terminate = true ∧
    taskTreeTraverseFunc f.depth task = true

/-- Callbacks run no loop of their own, what is found is due, and nothing moved is lost. -/
def Prompt (s : State) : Action → Prop
  | .enter _ _ _ => False
  | .iterate now => ∀ f ∈ s.frames.head?,
      ∀ task ∈ findFirstTaskWithAppropriateDepth s.intQ f.depth, timeoutOf task now ≤ 0
  | .pump | .pop => s.toLedger.Movable
  | _ => True

instance (s : State) (a : Action) : Decidable (Prompt s a) := by
  unfold Prompt
  split <;> infer_instance

/-- The innermost activation is not at its end. -/
def Going (s : State) : Prop := ∀ f ∈ s.frames.head?, f.pc ≠ .leaving

instance : DecidablePred Going := fun s =>
  inferInstanceAs (Decidable (∀ f ∈ s.frames.head?, f.pc ≠ .leaving))

def Pc.rank (L : Ledger) : Pc → ℕ
  | .pumping | .calling _ => 3
  | .looping => 2
  -- a wait for nothing is followed by another look at `int_q`
  | .waiting _ => if L.asyncQ = [] then 3 else 1
  | .leaving => 0

def patience (s : State) : ℕ :=
  4*s.asyncQ.length + 2*s.intQ.keys.length +
    (s.frames.head?.elim 0 fun f => f.pc.rank s.toLedger)

/-- An activation on its way to its end. -/
structure Bound (s : State) (f : Frame) (fs : List Frame) : Prop where
  frames : s.frames = f::fs
  alive : s.alive = true
  ending : f.Ending s.toLedger
  going : f.pc ≠ .leaving

variable {s t : State} {f f' : Frame} {fs : List Frame} {L L' : Ledger}

theorem Bound.patience (h : Bound s f fs) : patience s =
    4*s.asyncQ.length + 2*s.intQ.keys.length + f.pc.rank s.toLedger := by
  rw [MessageLoop.patience,h.frames]
  rfl

theorem Frame.Ending.mono (h : f.Ending L) (hf : f'.teardown = f.teardown)
    (hflags : f'.flags = f.flags) (hd : f'.depth = f.depth)
    (hq : ∀ x, x.terminate = true → x ∈ L.asyncQ ∨ x ∈ L.intQ.keys →
      x ∈ L'.asyncQ ∨ x ∈ L'.intQ.keys) : f'.Ending L' := by
  rw [Frame.Ending,hf,hflags,hd]
  obtain h | h | ⟨task,hmem,ht,hd⟩ := h
  · exact .inl h
  · exact .inr (.inl h)
  · exact .inr (.inr ⟨task,hq task ht hmem,ht,hd⟩)

theorem Ledger.queued_move (hm : L.Movable) {x : Task} (h : x ∈ L.asyncQ ∨ x ∈ L.intQ.keys) :
    x ∈ L.move.asyncQ ∨ x ∈ L.move.intQ.keys := by
  obtain ⟨hint,hasync,-⟩ := L.mem_move hm
  exact h.elim (hasync x) fun h => .inr (hint x h)

/-- A section of the activation that leaves it bound to end, a bit closer. -/
def Nearer (s t : State) (fs : List Frame) : Prop :=
  ∃ f, Bound t f fs ∧ patience t < patience s

theorem Bound.pump (h : Bound s f fs) (hm : s.toLedger.Movable) (hp : f.pc = .pumping) :
    Nearer s (runIntPump s f fs) fs := by
  unfold runIntPump
  split_ifs with hq
  · have hb : Bound { s with frames := { f with pc := .looping }::fs } { f with pc := .looping } fs :=
      ⟨rfl,h.alive,h.ending.mono rfl rfl rfl fun _ _ hx => hx,by simp⟩
    refine ⟨_,hb,?_⟩
    rw [h.patience,hb.patience,hp]
    simp [Pc.rank]
  · have hb : Bound { s with toLedger := s.toLedger.move } f fs :=
      ⟨h.frames,h.alive,h.ending.mono rfl rfl rfl fun _ _ => Ledger.queued_move hm,h.going⟩
    refine ⟨_,hb,?_⟩
    rw [h.patience,hb.patience,hp]
    obtain ⟨ha,hi⟩ := Ledger.length_move hm hq
    simp only [Pc.rank]
    omega

theorem Bound.pop (h : Bound s f fs) (hm : s.toLedger.Movable) {timeout : ℤ}
    (hp : f.pc = .waiting timeout) : Nearer s (runIntPop s f fs) fs := by
  have hb : Bound (runIntPop s f fs) { f with pc := .looping } fs :=
    ⟨rfl,h.alive,h.ending.mono rfl rfl rfl fun _ _ => Ledger.queued_move hm,by simp⟩
  refine ⟨_,hb,?_⟩
  rw [h.patience,hb.patience,hp]
  by_cases hq : s.asyncQ = []
  · simp [runIntPop,Ledger.move_empty hq,hq,Pc.rank]
  · obtain ⟨ha,hi⟩ := Ledger.length_move hm hq
    simp only [runIntPop,Pc.rank,if_neg hq]
    omega

theorem Bound.callbackReturns (h : Bound s f fs) {task : Task} (hp : f.pc = .calling task) :
    Nearer s { s with frames := { f with pc := .looping }::fs } fs := by
  have hb : Bound { s with frames := { f with pc := .looping }::fs } { f with pc := .looping } fs :=
    ⟨rfl,h.alive,h.ending.mono rfl rfl rfl fun _ _ hx => hx,by simp⟩
  refine ⟨_,hb,?_⟩
  rw [h.patience,hb.patience,hp]
  simp [Pc.rank]

/-- A task taken outweighs the call that may follow. -/
theorem Bound.take (h : Bound s f fs) (hp : f.pc = .looping) {x : Task} (hx : x ∈ s.intQ.keys)
    (hb : Bound t f' fs) (hl : t.toLedger = s.toLedger.take x)
    (hpc : f'.pc = .looping ∨ f'.pc = .calling x) : Nearer s t fs := by
  have hlen := Ledger.length_take hx
  have hasync : (s.toLedger.take x).asyncQ.length = s.asyncQ.length := rfl
  refine ⟨f',hb,?_⟩
  rw [h.patience,hb.patience,hl,hp]
  obtain hpc | hpc := hpc <;> rw [hpc] <;> simp only [Pc.rank] <;> omega

/-- A task that is due is taken. The first quit tells the activation to end, if it does not
end it at once; work leaves the quit where it is. -/
theorem Bound.due (h : Bound s f fs) (hp : f.pc = .looping) {x : Task} (hx : x ∈ s.intQ.keys)
    (hgo : Going (runIntDue { s with toLedger := s.toLedger.take x } f fs x)) :
    Nearer s (runIntDue { s with toLedger := s.toLedger.take x } f fs x) fs := by
  have hrest : ¬x.terminate = true → ∀ y : Task, y.terminate = true →
      y ∈ s.asyncQ ∨ y ∈ s.intQ.keys →
      y ∈ (s.toLedger.take x).asyncQ ∨ y ∈ (s.toLedger.take x).intQ.keys := by
    intro hxt y hyt hy
    obtain hy | hy := hy
    · exact .inl hy
    · obtain rfl | hy := Ledger.mem_intQ_take hx hy
      · exact absurd hyt hxt
      · exact .inr hy
  unfold runIntDue at hgo ⊢
  split_ifs at hgo ⊢ with ht hn ha hc
  · exact absurd rfl (hgo _ rfl)
  · have hb : Bound { s with
        toLedger := s.toLedger.take x, teardown := true,
        frames := { f with teardown := true, destroyMl := x.shouldDestroyMl,
                           cause := some x.addressee }::fs }
        { f with teardown := true, destroyMl := x.shouldDestroyMl, cause := some x.addressee } fs :=
      ⟨rfl,h.alive,.inl rfl,h.going⟩
    exact h.take hp hx hb rfl (.inl hp)
  · exact absurd h.alive ha
  · have hb : Bound { s with toLedger := s.toLedger.take x } f fs :=
      ⟨h.frames,h.alive,h.ending.mono rfl rfl rfl (hrest ht),h.going⟩
    exact h.take hp hx hb rfl (.inl hp)
  · have hb : Bound { s with
        toLedger := s.toLedger.take x, frames := { f with pc := .calling x }::fs }
        { f with pc := .calling x } fs :=
      ⟨rfl,h.alive,h.ending.mono rfl rfl rfl (hrest ht),by simp⟩
    exact h.take hp hx hb rfl (.inr rfl)

theorem Bound.iterate (h : Bound s f fs) (hp : f.pc = .looping) {now : Timespec}
    (hdue : Prompt s (.iterate now)) (hgo : Going (runIntIterate s f fs now)) :
    Nearer s (runIntIterate s f fs now) fs := by
  unfold runIntIterate at hgo ⊢
  split at hgo
  · rename_i x hx
    have hle := hdue f (by rw [h.frames]; rfl) x hx
    rw [if_pos hle] at hgo ⊢
    exact h.due hp (KeyTree.first_mem hx) hgo
  · rename_i hnone
    split_ifs at hgo ⊢ with hleave
    · exact absurd rfl (hgo _ rfl)
    · have hb : Bound { s with frames := { f with pc := .waiting (1000*1000) }::fs }
          { f with pc := .waiting (1000*1000) } fs :=
        ⟨rfl,h.alive,h.ending.mono rfl rfl rfl fun _ _ hx => hx,by simp⟩
      -- the quit is still in `async_q`
      have hne : s.asyncQ ≠ [] := by
        simp only [Bool.or_eq_true,not_or] at hleave
        obtain htd | hx | ⟨task,hmem | hmem,-,hsuits⟩ := h.ending
        · exact absurd htd hleave.1
        · exact absurd hx hleave.2
        · exact List.ne_nil_of_mem hmem
        · exact absurd hsuits (List.find?_eq_none.mp hnone task hmem)
      refine ⟨_,hb,?_⟩
      rw [h.patience,hb.patience,hp]
      simp only [Pc.rank,if_neg hne]
      omega

/-- A post from any thread. -/
theorem Bound.post (h : Bound s f fs) (ht : t.toLedger = s.toLedger ∨
      ∃ x, t.toLedger = s.toLedger.accept x)
    (hf : t.frames = s.frames) (hr : t.refCnt = s.refCnt) :
    Bound t f fs ∧ MessageLoop.patience t ≤ MessageLoop.patience s + 4 := by
  have hb : Bound t f fs := by
    refine ⟨hf.trans h.frames,by rw [State.alive,hr]; exact h.alive,
      h.ending.mono rfl rfl rfl fun x _ hx => ?_,h.going⟩
    obtain ht | ⟨y,ht⟩ := ht
    · rw [ht]
      exact hx
    · rw [ht]
      exact hx.imp_left fun hx => List.mem_append_left _ hx
  refine ⟨hb,?_⟩
  rw [h.patience,hb.patience]
  obtain ht | ⟨y,ht⟩ := ht
  · rw [ht]
    omega
  · have hle : f.pc.rank (s.toLedger.accept y) ≤ f.pc.rank s.toLedger := by
      cases f.pc with
      | waiting _ =>
        simp only [Pc.rank,Ledger.accept,List.append_eq_nil_iff,List.cons_ne_nil,and_false,if_false]
        split_ifs <;> omega
      | _ => exact le_rfl
    rw [ht]
    simp only [Ledger.accept,List.length_append,List.length_singleton] at hle ⊢
    omega

theorem Bound.step {a : Action} (h : Bound s f fs) (hg : Prompt s a)
    (hs : MessageLoop.step s a = some t) (hgo : Going t) :
    (∃ f', Bound t f' fs) ∧ (a.own = true → MessageLoop.patience t < MessageLoop.patience s) ∧
      (a.own = false → MessageLoop.patience t ≤ MessageLoop.patience s + 4) := by
  have hframe : ∀ {g gs}, s.frames = g::gs → g = f ∧ gs = fs := by
    intro g gs hf
    rw [h.frames] at hf
    cases hf
    exact ⟨rfl,rfl⟩
  have hown : Nearer s t fs → a.own = true → (∃ f', Bound t f' fs) ∧
      (a.own = true → MessageLoop.patience t < MessageLoop.patience s) ∧
      (a.own = false → MessageLoop.patience t ≤ MessageLoop.patience s + 4) := by
    rintro ⟨f',hb,hlt⟩ ha
    exact ⟨⟨f',hb⟩,fun _ => hlt,fun hn => by rw [ha] at hn; cases hn⟩
  cases a with
  | postWork b cb ms r d now =>
    cases hs
    have hpost := h.post (t := (ppbMessageLoopPostWorkWithResult s b cb ms r d now).2) ?_ ?_ ?_
    · exact ⟨⟨f,hpost.1⟩,fun ha => (by cases ha),fun _ => hpost.2⟩
    · obtain heq | ⟨x,-,-,heq⟩ := postWork_ledger s b cb ms r d now
      · exact .inl heq
      · exact .inr ⟨x,heq⟩
    · unfold ppbMessageLoopPostWorkWithResult
      split_ifs <;> rfl
    · unfold ppbMessageLoopPostWorkWithResult
      split_ifs <;> rfl
  | postQuitDepth b d now o =>
    cases hs
    have hpost := h.post (t := (ppbMessageLoopPostQuitDepth s b d now o).2) ?_ ?_ ?_
    · exact ⟨⟨f,hpost.1⟩,fun ha => (by cases ha),fun _ => hpost.2⟩
    · obtain heq | ⟨x,-,-,heq⟩ := postQuitDepth_ledger s b d now o
      · exact .inl heq
      · exact .inr ⟨x,heq⟩
    · unfold ppbMessageLoopPostQuitDepth
      split_ifs <;> rfl
    · unfold ppbMessageLoopPostQuitDepth
      split_ifs <;> rfl
  | enter b flags o => cases hg
  | pump =>
    obtain ⟨g,gs,hf,hp,rfl⟩ := step_pump hs
    obtain ⟨rfl,rfl⟩ := hframe hf
    exact hown (h.pump hg hp) rfl
  | iterate now =>
    obtain ⟨g,gs,hf,hp,rfl⟩ := step_iterate hs
    obtain ⟨rfl,rfl⟩ := hframe hf
    exact hown (h.iterate hp hg hgo) rfl
  | pop =>
    obtain ⟨g,gs,timeout,hf,hp,rfl⟩ := step_pop hs
    obtain ⟨rfl,rfl⟩ := hframe hf
    exact hown (h.pop hg hp) rfl
  | callbackReturns =>
    obtain ⟨g,gs,task,hf,hp,rfl⟩ := step_callbackReturns hs
    obtain ⟨rfl,rfl⟩ := hframe hf
    exact hown (h.callbackReturns hp) rfl
  | leave =>
    obtain ⟨g,gs,hf,hp,-⟩ := step_leave hs
    obtain ⟨rfl,rfl⟩ := hframe hf
    exact absurd hp h.going

/-- Short of its end, an activation can always go on. -/
theorem own_enabled (hf : s.frames = f::fs) (hp : f.pc ≠ .leaving) :
    ∃ a : Action, a.own = true ∧ (step s a).isSome := by
  cases hpc : f.pc with
  | pumping => exact ⟨.pump,rfl,by simp [step,hf,hpc]⟩
  | looping => exact ⟨.iterate ⟨0,0⟩,rfl,by simp [step,hf,hpc]⟩
  | calling task => exact ⟨.callbackReturns,rfl,by simp [step,hf,hpc]⟩
  | waiting timeout => exact ⟨.pop,rfl,by simp [step,hf,hpc]⟩
  | leaving => exact absurd hpc hp

/-- An activation that is bound to end reaches its end, after a number of sections that the
queues it finds and the tasks posted meanwhile determine. -/
theorem activation_ends {refCnt : ℤ} {ls : List Action} (hf : s.frames = f::fs)
    (ha : s.alive = true) (he : f.Ending s.toLedger)
    (hr : (machine refCnt).exec s ls = some t) (hg : (machine refCnt).EachFrom Prompt s ls)
    (hgo : (machine refCnt).AlwaysFrom Going s ls) :
    ls.countP Action.own ≤ patience s + 4 * (ls.countP fun a => !a.own) ∧
    ∃ a : Action, a.own = true ∧ (step t a).isSome := by
  have hstart : Bound s f fs := ⟨hf,ha,he,hgo.head f (by rw [hf]; rfl)⟩
  obtain ⟨⟨f',hb⟩,hle⟩ := Machine.countP_le_of_rank (fun s => ∃ f, Bound s f fs) Action.own
    patience 4 (fun s a t ⟨f,hb⟩ hg hs hgo => (hb.step hg hs hgo).1)
    (fun s a t ⟨f,hb⟩ hg hs hgo ha => (hb.step hg hs hgo).2.1 ha)
    (fun s a t ⟨f,hb⟩ hg hs hgo ha => (hb.step hg hs hgo).2.2 ha) ⟨f,hstart⟩ hr hg hgo
  exact ⟨by omega,own_enabled hb.frames hb.going⟩

/-- Work and a quit are queued before a loop is run. -/
def quitBehindWork : List Action :=
  [.postWork false ⟨some 1,0⟩ 0 0 0 ⟨0,0⟩,.postQuitDepth true 0 ⟨1,0⟩ .loop,
    .enter true runFlags .loop]

/-- The work is called and the quit taken, with more work posted during the call. -/
def toTheQuit : List Action :=
  [.iterate ⟨2,0⟩,.pop,.iterate ⟨2,0⟩,.postWork false ⟨some 2,0⟩ 5 0 0 ⟨2,0⟩,.callbackReturns,
    .iterate ⟨2,0⟩,.pop,.iterate ⟨2,0⟩]

theorem quitBehindWork_ends : ∃ s t : State,
    (machine 1).exec (machine 1).start quitBehindWork = some s ∧ patience s = 10 ∧
    (machine 1).exec s toTheQuit = some t ∧
    toTheQuit.countP Action.own ≤ patience s + 4 * (toTheQuit.countP fun a => !a.own) ∧
    ∃ a : Action, a.own = true ∧ (step t a).isSome := by
  obtain ⟨s,t,f,hs,hp,ht,hf,hd,ha,⟨task,hmem,hquit⟩,hg,hgo⟩ : ∃ s t : State, ∃ f : Frame,
      (machine 1).exec (machine 1).start quitBehindWork = some s ∧ patience s = 10 ∧
      (machine 1).exec s toTheQuit = some t ∧ s.frames = [f] ∧ f.depth = 1 ∧ s.alive = true ∧
      (∃ task ∈ s.asyncQ, task.terminate = true ∧ taskTreeTraverseFunc 1 task = true) ∧
      (machine 1).EachFrom Prompt s toTheQuit ∧ (machine 1).AlwaysFrom Going s toTheQuit :=
    ⟨_,_,_,rfl,rfl,rfl,rfl,rfl,rfl,by decide,by decide,by decide⟩
  exact ⟨s,t,hs,hp,ht,activation_ends hf ha (.inr (.inr ⟨task,.inl hmem,hd ▸ hquit⟩)) ht hg hgo⟩

end MessageLoop
end FreshPlayer
