import FreshPlayer.MessageLoopConservation

/-! The order in which tasks are started. A task leaves `int_q` as the least
appropriate key, so an earlier key that may be run whenever it may is not in `int_q`
behind it, nor still in `async_q` if it was accepted first. Keys order instants only
when they are normalised. -/
namespace FreshPlayer
namespace MessageLoop

/-- Nanoseconds of a time, whatever its representation. -/
def Timespec.instant (t : Timespec) : ℤ := t.tvSec*(1000*1000*1000) + t.tvNsec

/-- What `clock_gettime` fills in. -/
def Timespec.Normal (t : Timespec) : Prop := 0 ≤ t.tvNsec ∧ t.tvNsec < 1000*1000*1000

instance (t : Timespec) : Decidable t.Normal := inferInstanceAs (Decidable (_ ∧ _))

@[simp] theorem carry_instant (n : ℕ) (t : Timespec) : (carry n t).instant = t.instant := by
  induction n generalizing t with
  | zero => rfl
  | succ n ih =>
    simp only [carry]
    split_ifs
    · rw [ih]
      simp only [Timespec.instant]
      omega
    · rfl

theorem carry_normal (n : ℕ) (t : Timespec) (h0 : 0 ≤ t.tvNsec)
    (hn : t.tvNsec < (n+1)*(1000*1000*1000)) : (carry n t).Normal := by
  induction n generalizing t with
  | zero => exact ⟨h0,by simpa [carry] using hn⟩
  | succ n ih =>
    simp only [carry]
    split_ifs with h
    · refine ih _ (by dsimp only; omega) ?_
      push_cast at hn
      dsimp only
      omega
    · exact ⟨h0,not_le.mp h⟩

/-- A callback is due its delay after it was posted. -/
theorem dueTime_instant (now : Timespec) (delayMs : ℤ) :
    (dueTime now delayMs).instant = now.instant + delayMs*(1000*1000) := by
  have hdiv := Int.mul_tdiv_add_tmod delayMs 1000
  simp only [dueTime,carry_instant]
  simp only [Timespec.instant]
  omega

/-- The nanoseconds of a post before the carry loop. -/
def postedNsec (now : Timespec) (delayMs : ℤ) : ℤ := now.tvNsec + delayMs.tmod 1000*1000*1000

/-- The carry loop normalises what is not negative. -/
theorem dueTime_normal {now : Timespec} {delayMs : ℤ} (h : 0 ≤ postedNsec now delayMs) :
    (dueTime now delayMs).Normal := by
  unfold dueTime
  refine carry_normal _ _ h ?_
  have hdiv : 0 ≤ postedNsec now delayMs/(1000*1000*1000) := Int.ediv_nonneg h (by decide)
  change postedNsec now delayMs <
    (((postedNsec now delayMs/(1000*1000*1000)).toNat : ℤ)+1)*(1000*1000*1000)
  rw [Int.toNat_of_nonneg hdiv]
  omega

/-- Between normalised keys the tree orders instants. -/
theorem compare_of_instant_lt {a b : Task} (ha : a.when.Normal) (hb : b.when.Normal)
    (h : a.when.instant < b.when.instant) : taskTreeCompareFunc a b = .lt := by
  obtain ⟨ha0,ha1⟩ := ha
  obtain ⟨hb0,hb1⟩ := hb
  simp only [Timespec.instant] at h
  unfold taskTreeCompareFunc
  split_ifs <;> first | rfl | omega

/-- Whenever `b` may be run, so may `a`. -/
def RunsWhenever (a b : Task) : Prop := a.depth = 0 ∨ 0 < b.depth ∧ b.depth ≤ a.depth

theorem RunsWhenever.appropriate {a b : Task} (h : RunsWhenever a b) {depth : ℤ}
    (hb : taskTreeTraverseFunc depth b = true) : taskTreeTraverseFunc depth a = true := by
  simp only [taskTreeTraverseFunc,Bool.or_eq_true,decide_eq_true_eq] at hb ⊢
  rcases h with h | ⟨hpos,hle⟩
  · exact Or.inl h
  · omega

/-- Tasks accepted in order of their due times and both started were started in that
order. -/
def StartedInOrder (L : Ledger) : Prop :=
  ∀ a b : Task, List.Sublist [a,b] L.accepted → a.when.instant < b.when.instant →
    RunsWhenever a b → a ∈ L.taken → b ∈ L.taken → List.Sublist [a,b] L.taken

/-- Clocks read normalised times, and no accepted post is left with negative nanoseconds. -/
def LeavesNsecNonneg (s : State) : Action → Prop
  | .postWork b callback delayMs result depth now => now.Normal ∧
      ((ppbMessageLoopPostWorkWithResult s b callback delayMs result depth now).1 = .ok →
        0 ≤ postedNsec now delayMs)
  | .postQuitDepth _ _ now _ => now.Normal
  | _ => True

instance (s : State) (a : Action) : Decidable (LeavesNsecNonneg s a) := by
  apply a.casesOn (motive := fun a => Decidable (LeavesNsecNonneg s a)) <;> intros <;>
    dsimp only [LeavesNsecNonneg] <;> infer_instance

/-! The step lemma: what each section does to the ledger. -/

/-- What a section that meets the guard does to the ledger, with what becomes of the task it
accepts or takes. -/
inductive Turn (s : State) (guard : Prop) : Ledger → Prop
  | same : Turn s guard s.toLedger
  | accept (x : Task) (hx : guard → x.when.Normal) : Turn s guard (s.toLedger.accept x)
  | move : Turn s guard s.toLedger.move
  | take (x : Task) (depth : ℤ) (hx : findFirstTaskWithAppropriateDepth s.intQ depth = some x) :
      Turn s guard (s.toLedger.take x)
  | discard : Turn s guard s.toLedger.discard

theorem postWork_turn (s : State) (b : Bool) (cb : Callback) (ms r d : ℤ) (now : Timespec) :
    Turn s (LeavesNsecNonneg s (.postWork b cb ms r d now))
      (ppbMessageLoopPostWorkWithResult s b cb ms r d now).2.toLedger := by
  have hnsec : LeavesNsecNonneg s (.postWork b cb ms r d now) →
      (ppbMessageLoopPostWorkWithResult s b cb ms r d now).1 = .ok → 0 ≤ postedNsec now ms :=
    And.right
  generalize LeavesNsecNonneg s (.postWork b cb ms r d now) = guard at hnsec ⊢
  unfold ppbMessageLoopPostWorkWithResult at hnsec ⊢
  split_ifs at hnsec ⊢
  · exact .same
  · exact .same
  · exact .same
  · exact .accept _ fun hg => dueTime_normal (hnsec hg rfl)

theorem postQuitDepth_turn (s : State) (b : Bool) (d : ℤ) (now : Timespec) (o : Owner) :
    Turn s (LeavesNsecNonneg s (.postQuitDepth b d now o))
      (ppbMessageLoopPostQuitDepth s b d now o).2.toLedger := by
  unfold ppbMessageLoopPostQuitDepth
  split_ifs
  · exact .same
  · exact .accept _ id

theorem runIntIterate_turn (s : State) (guard : Prop) (f : Frame) (fs : List Frame)
    (now : Timespec) : Turn s guard (runIntIterate s f fs now).toLedger := by
  unfold runIntIterate
  split
  · rename_i x hx
    split_ifs
    · rw [runIntDue_ledger]
      exact .take x f.depth hx
    · exact .same
  · split_ifs <;> exact .same

theorem step_turn {s t : State} {a : Action} (ht : step s a = some t) :
    Turn s (LeavesNsecNonneg s a) t.toLedger := by
  cases a with
  | postWork b cb ms r d now =>
    cases ht
    exact postWork_turn s b cb ms r d now
  | postQuitDepth b d now o =>
    cases ht
    exact postQuitDepth_turn s b d now o
  | enter b fl o =>
    obtain ⟨_,rfl⟩ := step_enter ht
    rw [runIntEnter_ledger]
    exact .same
  | pump =>
    obtain ⟨f,fs,_,_,rfl⟩ := step_pump ht
    rw [runIntPump_ledger]
    exact .move
  | iterate now =>
    obtain ⟨f,fs,_,_,rfl⟩ := step_iterate ht
    exact runIntIterate_turn s _ f fs now
  | pop =>
    obtain ⟨f,fs,_,_,_,rfl⟩ := step_pop ht
    exact .move
  | callbackReturns =>
    obtain ⟨f,fs,_,_,_,rfl⟩ := step_callbackReturns ht
    exact .same
  | leave =>
    obtain ⟨f,fs,_,_,rfl⟩ := step_leave ht
    rw [runIntLeave_ledger]
    split_ifs
    · exact .discard
    · exact .same

/-- `a` may no longer be started after `b`. -/
def Settled (L : Ledger) (a b : Task) : Prop :=
  a ∉ L.intQ.keys ∧ (a ∈ L.taken → List.Sublist [a,b] L.taken)

/-- `a` is due before `b`, and may be run whenever `b` may. Their keys are normalised. -/
structure Precedes (a b : Task) : Prop where
  first : a.when.Normal
  second : b.when.Normal
  lt : a.when.instant < b.when.instant
  runs : RunsWhenever a b

/-- What holds whatever is posted. `moved` are the tasks that have left `async_q`, which is first
in, first out. -/
structure OrderInv (L : Ledger) : Prop where
  books : L.Books
  moved : ∃ moved, L.accepted = moved ++ L.asyncQ ∧ ∀ x ∈ L.intQ.keys ++ L.taken, x ∈ moved
  settled : ∀ a b : Task, List.Sublist [a,b] L.accepted → Precedes a b → b ∈ L.taken → Settled L a b

/-- Of two tasks of a list without repetition the second is in the front part only
together with the first. -/
theorem sublist_front {a b : Task} {l k : List Task} (hn : (l ++ k).Nodup)
    (h : List.Sublist [a,b] (l ++ k)) (hb : b ∈ l) : List.Sublist [a,b] l := by
  obtain ⟨l₁,l₂,he,h₁,h₂⟩ := List.sublist_append_iff.mp h
  cases l₂ with
  | nil => rw [he,List.append_nil]; exact h₁
  | cons c l₂ =>
    have hbl : b ∈ c::l₂ := by
      have hlast : (l₁ ++ c::l₂).getLast? = some b := by rw [← he]; rfl
      rw [List.getLast?_append_of_ne_nil _ (List.cons_ne_nil c l₂)] at hlast
      exact List.mem_of_getLast? hlast
    exact absurd (h₂.subset hbl) (List.disjoint_of_nodup_append hn hb)

theorem OrderInv.accept {L : Ledger} {x : Task} (h : OrderInv L) (hb : (L.accept x).Books) :
    OrderInv (L.accept x) where
  books := hb
  moved := by
    obtain ⟨moved,hacc,hin⟩ := h.moved
    refine ⟨moved,?_,hin⟩
    simp only [Ledger.accept,hacc,List.append_assoc]
  settled a b hab := by
    intro hpre hbt
    -- a task just accepted has not been taken
    have hab' := sublist_front hb.nodup hab (h.books.mem_of_taken hbt)
    exact h.settled a b hab' hpre hbt

theorem OrderInv.move {L : Ledger} (h : OrderInv L) : OrderInv L.move := by
  obtain ⟨q,tree,accepted,taken,called⟩ := L
  cases q with
  | nil => exact h
  | cons z rest =>
    obtain ⟨moved,hacc,hin⟩ := h.moved
    have hinsert : ∀ y ∈ (tree.insert z).keys, y = z ∨ y ∈ tree.keys :=
      fun y hy => mem_of_mem_insertKey hy
    refine ⟨h.books.move,⟨moved ++ [z],?_,fun x hx => ?_⟩,fun a b hab hpre hbt => ?_⟩
    · simpa [Ledger.move] using hacc
    · rcases List.mem_append.mp hx with hx | hx
      · rcases hinsert x hx with rfl | hx
        · exact List.mem_append_right _ (List.mem_singleton_self x)
        · exact List.mem_append_left _ (hin x (List.mem_append_left _ hx))
      · exact List.mem_append_left _ (hin x (List.mem_append_right _ hx))
    · obtain ⟨hni,htk⟩ := h.settled a b hab hpre hbt
      refine ⟨fun hi => ?_,htk⟩
      rcases hinsert a hi with rfl | hi
      · -- `a` is moved only now, so `b` accepted behind it cannot have been taken
        have hnodup := h.books.nodup
        have hbm := hin b (List.mem_append_right _ hbt)
        have hab' : List.Sublist [a,b] (moved ++ a::rest) := hacc ▸ hab
        have ham := (sublist_front (hacc ▸ hnodup) hab' hbm).subset List.mem_cons_self
        exact List.disjoint_of_nodup_append (hacc ▸ hnodup) ham List.mem_cons_self
      · exact hni hi

theorem OrderInv.take {L : Ledger} {x : Task} {depth : ℤ} (h : OrderInv L)
    (hx : findFirstTaskWithAppropriateDepth L.intQ depth = some x) : OrderInv (L.take x) := by
  have hmem := KeyTree.first_mem hx
  have hkeys : ∀ y ∈ (L.intQ.remove x).keys, y ∈ L.intQ.keys :=
    fun y hy => (KeyTree.remove_perm hmem).mem_iff.mpr (List.mem_cons_of_mem x hy)
  obtain ⟨moved,hacc,hin⟩ := h.moved
  refine ⟨h.books.take hmem,⟨moved,hacc,fun y hy => ?_⟩,fun a b hab hpre hbt => ?_⟩
  · refine hin y ?_
    rcases List.mem_append.mp hy with hy | hy
    · exact List.mem_append_left _ (hkeys y hy)
    · rcases List.mem_append.mp hy with hy | hy
      · exact List.mem_append_right _ hy
      · rw [List.mem_singleton.mp hy]
        exact List.mem_append_left _ hmem
  · have hlift : List.Sublist L.taken (L.take x).taken := List.sublist_append_left _ _
    rcases List.mem_append.mp hbt with hbt | hbx
    · obtain ⟨hni,htk⟩ := h.settled a b hab hpre hbt
      refine ⟨fun hi => hni (hkeys a hi),fun hat => ?_⟩
      rcases List.mem_append.mp hat with hat | hax
      · exact (htk hat).trans hlift
      · rw [List.mem_singleton.mp hax] at hni
        exact absurd hmem hni
    · rw [List.mem_singleton.mp hbx] at hab hpre ⊢
      have hne : a ≠ x := by
        rintro rfl
        exact absurd hpre.lt (lt_irrefl _)
      refine ⟨fun hi => ?_,fun hat => ?_⟩
      · -- `a` was appropriate as well and its key is less
        have hap := hpre.runs.appropriate (KeyTree.first_holds hx)
        have hcmp := compare_of_instant_lt hpre.first hpre.second hpre.lt
        rcases KeyTree.first_least hx (hkeys a hi) hap with he | hgt
        · exact hne he
        · exact absurd (Std.OrientedCmp.gt_of_lt hgt) (by rw [hcmp]; nofun)
      · rcases List.mem_append.mp hat with hat | hax
        · exact (List.singleton_sublist.mpr hat).append (List.Sublist.refl [x])
        · exact absurd (List.mem_singleton.mp hax) hne

theorem OrderInv.discard {L : Ledger} (h : OrderInv L) : OrderInv L.discard where
  books := h.books.discard
  moved := ⟨L.accepted,(List.append_nil _).symm,fun _ hx => h.books.mem_of_taken hx⟩
  settled a b hab hpre hbt := ⟨List.not_mem_nil,(h.settled a b hab hpre hbt).2⟩

theorem OrderInv.step {s t : State} {a : Action} (h : OrderInv s.toLedger)
    (ht : step s a = some t) : OrderInv t.toLedger := by
  have hb := (step_entry ht).books h.books
  have hturn := step_turn ht
  generalize t.toLedger = L at hb hturn
  cases hturn with
  | same => exact h
  | accept x _ => exact h.accept hb
  | move => exact h.move
  | take x depth hx => exact h.take hx
  | discard => exact h.discard

theorem OrderInv.create (n : ℤ) : OrderInv (State.create n).toLedger where
  books := create_books n
  moved := ⟨[],rfl,fun x hx => by simp [State.create] at hx⟩
  settled a b hab := by simp [State.create] at hab

theorem normal_step {s t : State} {a : Action} (h : ∀ x ∈ s.accepted, x.when.Normal)
    (hg : LeavesNsecNonneg s a) (ht : step s a = some t) : ∀ x ∈ t.accepted, x.when.Normal := by
  have hturn := step_turn ht
  generalize t.toLedger = L at hturn ⊢
  cases hturn with
  | same => exact h
  | accept x hx =>
    intro y hy
    obtain hy | hy := List.mem_append.mp hy
    · exact h y hy
    · exact List.mem_singleton.mp hy ▸ hx hg
  | move => exact Ledger.move_accepted s.toLedger ▸ h
  | take x depth hx => exact h
  | discard => exact h

/-- In every run in which no accepted post leaves negative nanoseconds, tasks accepted
in the order of their due times are started in that order, whatever the nesting. -/
theorem tasks_started_in_order (refCnt : ℤ) {s : State}
    (h : (machine refCnt).ReachableVia LeavesNsecNonneg s) : StartedInOrder s.toLedger := by
  obtain ⟨hinv,hnormal⟩ : OrderInv s.toLedger ∧ ∀ x ∈ s.accepted, x.when.Normal :=
    h.invariant (fun s => OrderInv s.toLedger ∧ ∀ x ∈ s.accepted, x.when.Normal)
      ⟨.create refCnt,fun _ hx => absurd hx List.not_mem_nil⟩
      fun s a t hi hg ht => ⟨hi.1.step ht,normal_step hi.2 hg ht⟩
  intro a b hab hlt hrun hat hbt
  have hpre : Precedes a b :=
    ⟨hnormal a (hab.subset (by simp)),hnormal b (hab.subset (by simp)),hlt,hrun⟩
  exact (hinv.settled a b hab hpre hbt).2 hat

/-- At 10.0 s a callback is posted with a delay of −500 ms and at 10.95 s one with
−1050 ms. The first is due at 9.5 s and the second at 9.9 s, but the key of the first
holds the later second. -/
def negativeDelays : List Action :=
  [.postWork false ⟨some 0,0⟩ (-500) 0 0 ⟨10,0⟩,
    .postWork false ⟨some 1,0⟩ (-1050) 0 0 ⟨10,950000000⟩,.enter true ⟨true,true,true⟩ .loop,
    .pump,.pump,.pump,.iterate ⟨11,0⟩,.callbackReturns,.iterate ⟨11,0⟩]

theorem negativeDelays_out_of_order :
    ¬∀ (ls : List Action) (u : State), (machine 1).exec (machine 1).start ls = some u →
      StartedInOrder u.toLedger := by
  intro h
  have hord := h negativeDelays _ rfl
  exact absurd (hord _ _ (List.Sublist.refl _) (by decide) (Or.inl rfl) (by decide) (by decide))
    (by decide)

/-- Posted at 10.7 s and 11.1 s, with delays of −500 ms and −50 ms. -/
def carriedDelays : List Action :=
  [.postWork false ⟨some 0,0⟩ (-500) 0 0 ⟨10,700000000⟩,
    .postWork false ⟨some 1,0⟩ (-50) 0 0 ⟨11,100000000⟩,.enter true ⟨true,true,true⟩ .loop,
    .pump,.pump,.pump,.iterate ⟨12,0⟩,.callbackReturns,.iterate ⟨12,0⟩]

theorem carriedDelays_in_order : ∃ u : State,
    (machine 1).exec (machine 1).start carriedDelays = some u ∧ u.taken = u.accepted ∧
    u.taken.length = 2 ∧ StartedInOrder u.toLedger :=
  ⟨_,rfl,by decide,by decide,tasks_started_in_order 1
    (Machine.reachableVia_of_exec carriedDelays .start rfl (by decide))⟩

end MessageLoop
end FreshPlayer
