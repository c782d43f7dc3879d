import FreshPlayer.MessageLoop
import Mathlib.Data.List.Perm.Subperm
import Mathlib.Data.List.Nodup

/-! Conservation of tasks. The queues and the history of a loop form a ledger;
every section of the code acts on it by one of four operations, and only two of
them can lose a task. -/
namespace FreshPlayer
namespace MessageLoop

namespace Ledger

/-- Everything the ledger still knows the place of. -/
def held (L : Ledger) : List Task := L.asyncQ ++ L.intQ.keys ++ L.taken

/-- Each accepted task is in exactly one of `async_q`, `int_q` and the tasks taken
out of `int_q`, once; a work task taken out was called exactly once. -/
def Conserved (L : Ledger) : Prop :=
  ∀ x ∈ L.accepted, L.asyncQ.count x + L.intQ.keys.count x + L.taken.count x = 1 ∧
    (x.terminate = false → L.called.count x = L.taken.count x)

instance (L : Ledger) : Decidable L.Conserved :=
  inferInstanceAs (Decidable (∀ x ∈ L.accepted, _))

/-- What holds of every ledger, also after a loss. -/
structure Books (L : Ledger) : Prop where
  ids : ∀ (i : ℕ) (x : Task), L.accepted[i]? = some x → x.id = i
  work : ∀ x ∈ L.accepted, x.terminate = false → x.ccb.func ≠ none
  sub : L.held.Subperm L.accepted
  calls : L.called = L.taken.filter fun x => !x.terminate

theorem Books.nodup {L : Ledger} (h : L.Books) : L.accepted.Nodup := by
  refine List.pairwise_iff_getElem.mpr fun i j hi hj hij he => ?_
  have hid := h.ids i _ (List.getElem?_eq_getElem hi)
  have hjd := h.ids j _ (List.getElem?_eq_getElem hj)
  rw [he] at hid
  omega

theorem Books.taken_nodup {L : Ledger} (h : L.Books) : L.taken.Nodup := by
  obtain ⟨l,hperm,hsub⟩ := h.sub
  have hheld : L.held.Nodup := hperm.nodup_iff.mp (h.nodup.sublist hsub)
  exact (List.nodup_append.mp hheld).2.1

theorem Books.mem_of_taken {L : Ledger} (h : L.Books) {x : Task} (hx : x ∈ L.taken) :
    x ∈ L.accepted := h.sub.subset (by simp [held,hx])

theorem Books.mem_of_intQ {L : Ledger} (h : L.Books) {x : Task} (hx : x ∈ L.intQ.keys) :
    x ∈ L.accepted := h.sub.subset (by simp [held,hx])

theorem Books.called_count {L : Ledger} (h : L.Books) {x : Task} (hx : x.terminate = false) :
    L.called.count x = L.taken.count x := by
  rw [h.calls,List.count_filter (by simp [hx])]

/-- Conservation says that the tasks held are the tasks accepted. -/
theorem Books.conserved_iff {L : Ledger} (h : L.Books) :
    L.Conserved ↔ List.Perm L.held L.accepted := by
  have hcount : ∀ x, L.held.count x = L.asyncQ.count x + L.intQ.keys.count x + L.taken.count x := by
    intro x; simp only [held,List.count_append]
  constructor
  · intro hc
    refine List.perm_iff_count.mpr fun x => ?_
    by_cases hx : x ∈ L.accepted
    · rw [hcount,(hc x hx).1,List.count_eq_one_of_mem h.nodup hx]
    · rw [List.count_eq_zero_of_not_mem hx,
        List.count_eq_zero_of_not_mem fun hm => hx (h.sub.subset hm)]
  · intro hp x hx
    refine ⟨?_,h.called_count⟩
    rw [← hcount,hp.count_eq,List.count_eq_one_of_mem h.nodup hx]

theorem accept_held (L : Ledger) (x : Task) : List.Perm (L.accept x).held (x::L.held) := by
  simp [accept,held]

theorem take_held {L : Ledger} {x : Task} (hx : x ∈ L.intQ.keys) :
    List.Perm (L.take x).held L.held := by
  have h := KeyTree.remove_perm hx
  simp only [take,held,List.append_assoc]
  refine List.Perm.append_left _ ?_
  refine (List.Perm.append_left _ (List.perm_append_singleton x L.taken)).trans ?_
  exact List.perm_middle.trans ((h.symm.append_right L.taken))

/-- Moving the head loses nothing exactly if no key of `int_q` compares equal to it. -/
def Movable (L : Ledger) : Prop := ∀ x ∈ L.asyncQ.head?, ¬L.intQ.Clashes x

instance (L : Ledger) : Decidable L.Movable :=
  inferInstanceAs (Decidable (∀ x ∈ L.asyncQ.head?, _))

theorem move_held {L : Ledger} (h : L.Movable) : List.Perm L.move.held L.held := by
  obtain ⟨q,tree,accepted,taken,called⟩ := L
  cases q with
  | nil => exact .refl _
  | cons x rest =>
    have hi := KeyTree.insert_perm (h x rfl)
    simp only [move,held,List.append_assoc,List.cons_append]
    refine (List.Perm.append_left rest (hi.append_right taken)).trans ?_
    exact List.perm_middle

theorem move_held_of_clash {L : Ledger} (h : ¬L.Movable) :
    L.held.length = L.move.held.length+1 ∧ L.move.held.Subperm L.held := by
  obtain ⟨q,tree,accepted,taken,called⟩ := L
  cases q with
  | nil => exact absurd (by simp [Movable]) h
  | cons x rest =>
    have hc : tree.Clashes x := by simpa [Movable] using h
    simp only [move,held,KeyTree.insert_of_clash hc]
    exact ⟨by simp only [List.length_append,List.length_cons]; omega,(List.sublist_cons_self x _).subperm⟩

theorem discard_held (L : Ledger) : L.discard.held = L.taken := by simp [discard,held]

theorem Books.accept {L : Ledger} (h : L.Books) {x : Task} (hid : x.id = L.accepted.length)
    (hf : x.terminate = false → x.ccb.func ≠ none) : (L.accept x).Books where
  ids i y hy := by
    simp only [Ledger.accept,List.getElem?_append] at hy
    split at hy
    · exact h.ids i y hy
    · rw [List.getElem?_singleton] at hy
      split at hy
      · cases hy
        omega
      · simp at hy
  work y hy ht := by
    rcases List.mem_append.mp hy with hy | hy
    · exact h.work y hy ht
    · cases List.mem_singleton.mp hy; exact hf ht
  sub := (L.accept_held x).subperm.trans
    (((List.subperm_cons x).mpr h.sub).trans (List.perm_append_singleton x L.accepted).symm.subperm)
  calls := h.calls

theorem Books.take {L : Ledger} (h : L.Books) {x : Task} (hx : x ∈ L.intQ.keys) :
    (L.take x).Books where
  ids := h.ids
  work := h.work
  sub := (take_held hx).subperm.trans h.sub
  calls := by
    have hw := h.work x (h.mem_of_intQ hx)
    simp only [Ledger.take,h.calls,List.filter_append]
    cases ht : x.terminate with
    | true => simp [ht]
    | false => simp [ht,hw ht]

theorem Books.move {L : Ledger} (h : L.Books) : L.move.Books := by
  have hsub : L.move.held.Subperm L.accepted := by
    by_cases hm : L.Movable
    · exact (move_held hm).subperm.trans h.sub
    · exact (move_held_of_clash hm).2.trans h.sub
  obtain ⟨q,tree,accepted,taken,called⟩ := L
  cases q with
  | nil => exact h
  | cons x rest => exact ⟨h.ids,h.work,hsub,h.calls⟩

theorem Books.discard {L : Ledger} (h : L.Books) : L.discard.Books where
  ids := h.ids
  work := h.work
  sub := by
    rw [discard_held]
    exact ((List.sublist_append_right _ L.taken).subperm).trans h.sub
  calls := h.calls

theorem move_accepted (L : Ledger) : L.move.accepted = L.accepted := by
  unfold move; split <;> rfl

theorem Books.move_conserved_iff {L : Ledger} (h : L.Books) (hc : L.Conserved) :
    L.move.Conserved ↔ L.Movable := by
  have hp := h.conserved_iff.mp hc
  rw [h.move.conserved_iff,move_accepted]
  constructor
  · intro hq
    by_contra hm
    have hl := (move_held_of_clash hm).1
    have := hp.length_eq
    have := hq.length_eq
    omega
  · exact fun hm => (move_held hm).trans hp

theorem Books.discard_conserved_iff {L : Ledger} (h : L.Books) (hc : L.Conserved) :
    L.discard.Conserved ↔ L.asyncQ = [] ∧ L.intQ.keys = [] := by
  have hp := h.conserved_iff.mp hc
  rw [h.discard.conserved_iff,discard_held]
  constructor
  · intro hq
    have h1 := hp.length_eq
    have h2 : L.taken.length = L.accepted.length := hq.length_eq
    simp only [held,List.length_append] at h1
    exact ⟨List.length_eq_zero_iff.mp (by omega),List.length_eq_zero_iff.mp (by omega)⟩
  · rintro ⟨ha,hi⟩
    have hp' : List.Perm L.taken L.accepted := by simpa [held,ha,hi] using hp
    exact hp'

end Ledger

/-! What each section of the code does to the ledger. -/

theorem postWork_ledger (s : State) (b : Bool) (cb : Callback) (ms r d : ℤ) (now : Timespec) :
    (ppbMessageLoopPostWorkWithResult s b cb ms r d now).2.toLedger = s.toLedger ∨
    ∃ x : Task, x.id = s.accepted.length ∧ x.ccb.func ≠ none ∧
      (ppbMessageLoopPostWorkWithResult s b cb ms r d now).2.toLedger = s.toLedger.accept x := by
  unfold ppbMessageLoopPostWorkWithResult
  split_ifs with hf
  · exact Or.inl rfl
  · exact Or.inl rfl
  · exact Or.inl rfl
  · exact Or.inr ⟨_,rfl,hf,rfl⟩

theorem postQuitDepth_ledger (s : State) (b : Bool) (d : ℤ) (now : Timespec) (o : Owner) :
    (ppbMessageLoopPostQuitDepth s b d now o).2.toLedger = s.toLedger ∨
    ∃ x : Task, x.id = s.accepted.length ∧ x.terminate = true ∧
      (ppbMessageLoopPostQuitDepth s b d now o).2.toLedger = s.toLedger.accept x := by
  unfold ppbMessageLoopPostQuitDepth
  split_ifs
  · exact Or.inl rfl
  · exact Or.inr ⟨_,rfl,rfl,rfl⟩

@[simp] theorem runIntEnter_ledger (s : State) (b : Bool) (fl : Flags) (o : Owner) :
    (runIntEnter s b fl o).2.toLedger = s.toLedger := by
  unfold runIntEnter; split_ifs <;> rfl

/-- What an accepted entry finds and leaves: it saves the flags, adds the activation `f`
and takes a reference. -/
structure Entered (s t : State) (flags : Flags) (o : Owner) (f : Frame) : Prop where
  alive : s.alive = true
  frames : t.frames = f::s.frames
  flags_eq : f.flags = flags
  owner : f.owner = o
  savedRunning : f.savedRunning = s.running
  savedTeardown : f.savedTeardown = s.teardown
  teardown : f.teardown = false
  pc : f.pc ≠ .leaving
  frameDepth : f.depth = if flags.increaseDepth then s.depth+1 else s.depth
  depth : t.depth = f.depth
  refCnt : t.refCnt = s.refCnt+1

/-- A refused entry changes nothing. -/
theorem runIntEnter_spec (s : State) (b : Bool) (flags : Flags) (o : Owner) :
    ((runIntEnter s b flags o).1 ≠ .ok ∧ (runIntEnter s b flags o).2 = s) ∨
    ((runIntEnter s b flags o).1 = .ok ∧
      ∃ f : Frame, Entered s (runIntEnter s b flags o).2 flags o f) := by
  unfold runIntEnter
  by_cases h1 : (!b) = true
  · exact .inl (by simp [h1])
  by_cases h2 : (!s.alive) = true
  · exact .inl (by simp [h1,h2])
  by_cases h3 : (!flags.nested && s.running) = true
  · exact .inl (by simp [h1,h2,h3])
  · rw [if_neg h1,if_neg h2,if_neg h3]
    refine .inr ⟨rfl,_,by simpa using h2,rfl,rfl,rfl,rfl,rfl,rfl,?_,rfl,rfl,rfl⟩
    dsimp only
    split_ifs <;> simp

@[simp] theorem runIntPump_ledger (s : State) (f : Frame) (fs : List Frame) :
    (runIntPump s f fs).toLedger = s.toLedger.move := by
  unfold runIntPump
  split_ifs with h
  · simp [Ledger.move,h]
  · rfl

@[simp] theorem runIntDue_ledger (s : State) (f : Frame) (fs : List Frame) (x : Task) :
    (runIntDue s f fs x).toLedger = s.toLedger := by
  unfold runIntDue; split_ifs <;> rfl

theorem runIntIterate_ledger (s : State) (f : Frame) (fs : List Frame) (now : Timespec) :
    (runIntIterate s f fs now).toLedger = s.toLedger ∨
    ∃ x ∈ s.intQ.keys, (runIntIterate s f fs now).toLedger = s.toLedger.take x := by
  unfold runIntIterate
  split
  · rename_i x hx
    split_ifs
    · exact Or.inr ⟨x,KeyTree.first_mem hx,runIntDue_ledger _ f fs x⟩
    · exact Or.inl rfl
  · split_ifs <;> exact Or.inl rfl

/-- The activation being left gives back the last reference on the loop. -/
def DropsLastReference (s : State) (f : Frame) : Prop :=
  s.alive = true ∧ s.refCnt ≤ if f.destroyMl then 2 else 1

instance (s : State) (f : Frame) : Decidable (DropsLastReference s f) :=
  inferInstanceAs (Decidable (_ ∧ _))

theorem ppResourceUnref_ledger (s : State) : (ppResourceUnref s).toLedger =
    if s.alive = true ∧ s.refCnt ≤ 1 then s.toLedger.discard else s.toLedger := by
  unfold ppResourceUnref State.alive
  by_cases h : 0 < s.refCnt
  · by_cases h1 : s.refCnt ≤ 1
    · simp [h,h1,not_lt.mpr h1,ppbMessageLoopDestroy]
    · simp [h,h1,not_le.mp h1]
  · simp [h]

theorem ppResourceUnref_refCnt (s : State) : (ppResourceUnref s).refCnt =
    if s.alive = true then s.refCnt-1 else s.refCnt := by
  unfold ppResourceUnref
  cases ha : s.alive with
  | false => simp
  | true =>
    simp only [Bool.not_true,Bool.false_eq_true,if_false,if_true]
    split_ifs <;> rfl

@[simp] theorem runIntRestore_ledger (s : State) (f : Frame) :
    (runIntRestore s f).toLedger = s.toLedger := by
  unfold runIntRestore; split_ifs <;> rfl

@[simp] theorem runIntRestore_refCnt (s : State) (f : Frame) :
    (runIntRestore s f).refCnt = s.refCnt := by
  unfold runIntRestore; split_ifs <;> rfl

theorem ppResourceUnref_twice_ledger (s : State) : (ppResourceUnref (ppResourceUnref s)).toLedger =
    if s.alive = true ∧ s.refCnt ≤ 2 then s.toLedger.discard else s.toLedger := by
  rw [ppResourceUnref_ledger,ppResourceUnref_ledger,State.alive,ppResourceUnref_refCnt,State.alive]
  simp only [decide_eq_true_eq]
  split_ifs <;> first | rfl | omega

theorem runIntLeave_ledger (s : State) (f : Frame) (fs : List Frame) :
    (runIntLeave s f fs).toLedger =
      if DropsLastReference s f then s.toLedger.discard else s.toLedger := by
  have h1 := ppResourceUnref_ledger (runIntRestore s f)
  have h2 := ppResourceUnref_twice_ledger (runIntRestore s f)
  simp only [State.alive,runIntRestore_refCnt,runIntRestore_ledger] at h1 h2
  rcases Bool.eq_false_or_eq_true f.destroyMl with hf | hf
  · have hd : DropsLastReference s f ↔ decide (0 < s.refCnt) = true ∧ s.refCnt ≤ 2 := by
      simp only [DropsLastReference,State.alive,hf,if_true]
    simp only [runIntLeave,hf,if_true,h2,hd]
  · have hd : DropsLastReference s f ↔ decide (0 < s.refCnt) = true ∧ s.refCnt ≤ 1 := by
      simp only [DropsLastReference,State.alive,hf,Bool.false_eq_true,if_false]
    simp only [runIntLeave,hf,Bool.false_eq_true,if_false,h1,hd]

/-- The condition under which a section loses no task. -/
def LosesNothing (s : State) : Action → Prop
  | .pump | .pop => s.toLedger.Movable
  | .leave => ∀ f ∈ s.frames.head?, DropsLastReference s f → s.asyncQ = [] ∧ s.intQ.keys = []
  | _ => True

instance (s : State) (a : Action) : Decidable (LosesNothing s a) := by
  apply a.casesOn (motive := fun a => Decidable (LosesNothing s a)) <;> intros <;>
    dsimp only [LosesNothing] <;> infer_instance

theorem Ledger.Books.discard_or {L : Ledger} {p : Prop} [Decidable p] (h : L.Books) :
    (if p then L.discard else L).Books := by
  split_ifs
  · exact h.discard
  · exact h

/-- What one step does to the ledger: nothing, or one of its four operations. -/
inductive Entry (s : State) : Action → Ledger → Prop
  | same {a : Action} (h : LosesNothing s a) : Entry s a s.toLedger
  | accept {a : Action} {x : Task} (h : LosesNothing s a) (hid : x.id = s.accepted.length)
      (hw : x.terminate = false → x.ccb.func ≠ none) : Entry s a (s.toLedger.accept x)
  | move {a : Action} (h : LosesNothing s a ↔ s.toLedger.Movable) : Entry s a s.toLedger.move
  | take {a : Action} {x : Task} (h : LosesNothing s a) (hx : x ∈ s.intQ.keys) :
      Entry s a (s.toLedger.take x)
  | discard {a : Action} (h : LosesNothing s a ↔ s.asyncQ = [] ∧ s.intQ.keys = []) :
      Entry s a s.toLedger.discard

theorem step_entry {s t : State} {a : Action} (ht : step s a = some t) :
    Entry s a t.toLedger := by
  cases a with
  | postWork b cb ms r d now =>
    cases ht
    rcases postWork_ledger s b cb ms r d now with h | ⟨x,hid,hf,h⟩
    · rw [h]; exact .same trivial
    · rw [h]; exact .accept trivial hid fun _ => hf
  | postQuitDepth b d now o =>
    cases ht
    rcases postQuitDepth_ledger s b d now o with h | ⟨x,hid,hf,h⟩
    · rw [h]; exact .same trivial
    · rw [h]; exact .accept trivial hid (by simp [hf])
  | enter b fl o =>
    obtain ⟨_,rfl⟩ := step_enter ht
    rw [runIntEnter_ledger]
    exact .same trivial
  | pump =>
    obtain ⟨f,fs,_,_,rfl⟩ := step_pump ht
    rw [runIntPump_ledger]
    exact .move Iff.rfl
  | iterate now =>
    obtain ⟨f,fs,_,_,rfl⟩ := step_iterate ht
    rcases runIntIterate_ledger s f fs now with h | ⟨x,hx,h⟩
    · rw [h]; exact .same trivial
    · rw [h]; exact .take trivial hx
  | pop =>
    obtain ⟨f,fs,_,_,_,rfl⟩ := step_pop ht
    exact .move Iff.rfl
  | callbackReturns =>
    obtain ⟨f,fs,_,_,_,rfl⟩ := step_callbackReturns ht
    exact .same trivial
  | leave =>
    obtain ⟨f,fs,hfs,_,rfl⟩ := step_leave ht
    rw [runIntLeave_ledger]
    split_ifs with hd
    · exact .discard (by simp [LosesNothing,hfs,hd])
    · exact .same (by simp [LosesNothing,hfs,hd])

theorem Entry.books {s : State} {a : Action} {L : Ledger} (he : Entry s a L)
    (h : s.toLedger.Books) : L.Books := by
  cases he with
  | same _ => exact h
  | accept _ hid hw => exact h.accept hid hw
  | move _ => exact h.move
  | take _ hx => exact h.take hx
  | discard _ => exact h.discard

/-- A section keeps conservation exactly if it meets its condition. -/
theorem Entry.conserved_iff {s : State} {a : Action} {L : Ledger} (he : Entry s a L)
    (h : s.toLedger.Books) (hc : s.toLedger.Conserved) : L.Conserved ↔ LosesNothing s a := by
  have hp := h.conserved_iff.mp hc
  cases he with
  | same hl => exact ⟨fun _ => hl,fun _ => hc⟩
  | accept hl hid hw =>
    refine ⟨fun _ => hl,fun _ => (h.accept hid hw).conserved_iff.mpr ?_⟩
    exact (s.toLedger.accept_held _).trans
      ((hp.cons _).trans (List.perm_append_singleton _ _).symm)
  | move hl => rw [hl]; exact h.move_conserved_iff hc
  | take hl hx =>
    exact ⟨fun _ => hl,fun _ => (h.take hx).conserved_iff.mpr ((Ledger.take_held hx).trans hp)⟩
  | discard hl => rw [hl]; exact h.discard_conserved_iff hc

theorem create_books (n : ℤ) : (State.create n).toLedger.Books where
  ids i x h := by simp [State.create] at h
  work x h := by simp [State.create] at h
  sub := by simp [State.create,Ledger.held]
  calls := rfl

/-- In every run of a loop, no accepted task is lost or run twice in any state
visited exactly if every section meets its condition: a task moved into `int_q`
has a due time no task there has, and the last reference on the loop is not given
back while tasks are queued. -/
theorem accepted_tasks_conserved_iff (refCnt : ℤ) {ls : List Action} {u : State}
    (hr : (machine refCnt).exec (machine refCnt).start ls = some u) :
    (machine refCnt).AlwaysFrom (fun s => s.toLedger.Conserved) (machine refCnt).start ls ↔
      (machine refCnt).EachFrom LosesNothing (machine refCnt).start ls := by
  refine Machine.always_iff_each (fun s => s.toLedger.Books) ?_ ?_ (create_books refCnt) ?_ hr
  · exact fun s a t h ht => (step_entry ht).books h
  · exact fun s a t h hc ht => (step_entry ht).conserved_iff h hc
  · intro x hx; simp [machine,State.create] at hx

/-- Two callbacks posted one second apart, the first with a delay of one second:
both are due at the same instant. -/
def sameInstant : List Action :=
  [.postWork false ⟨some 0,0⟩ 1000 0 0 ⟨0,0⟩,.postWork false ⟨some 1,0⟩ 0 0 0 ⟨1,0⟩,
    .enter true ⟨false,true,false⟩ .loop,.iterate ⟨0,0⟩,.pop,.iterate ⟨0,0⟩,.pop]

theorem sameInstant_loses_a_task :
    ¬∀ (ls : List Action) (u : State), (machine 1).exec (machine 1).start ls = some u →
      u.toLedger.Conserved := by
  intro h
  exact absurd (h sameInstant _ rfl) (by decide)

/-- With the second post one second later the run meets the condition. -/
theorem accepted_tasks_conserved_distinct :
    (machine 1).AlwaysFrom (fun s => s.toLedger.Conserved) (machine 1).start
      [.postWork false ⟨some 0,0⟩ 1000 0 0 ⟨0,0⟩,.postWork false ⟨some 1,0⟩ 0 0 0 ⟨2,0⟩,
        .enter true ⟨false,true,false⟩ .loop,.iterate ⟨0,0⟩,.pop,.iterate ⟨0,0⟩,.pop,
        .iterate ⟨2,0⟩,.callbackReturns,.iterate ⟨2,0⟩] :=
  (accepted_tasks_conserved_iff 1 rfl).mpr (by decide)

end MessageLoop
end FreshPlayer
