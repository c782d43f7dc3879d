import FreshPlayer.VideoCapture

/-! Who has a buffer: the thread from the moment it has cleared the flag, then the plugin until
it answers. A notification outlives the session it is of, and the index in it does not tell. -/
namespace FreshPlayer
namespace VideoCapture

def Thread.ready? : Thread → Option Ready
  | .looping => none
  | .writing ready => some ready

def writing (s : State) : List Ready := (s.thread.bind Thread.ready?).toList

/-- From the post of a notification to the answer of the plugin. -/
def outstanding (s : State) : List Ready := s.posted ++ s.given

def busy (s : State) : List Ready := writing s ++ outstanding s

def flag (s : State) (k : ℕ) : Option Bool := (s.bufferIsFree.getD [])[k]?

/-- The thread does not write into a buffer of the session that the plugin has. -/
def Exclusive (s : State) : Prop :=
  ∀ k, s.thread = some (.writing (s.session,k)) → (s.session,k) ∉ outstanding s

/-- The plugin gives back what it has. -/
def Answers : Action → Prop
  | .reuseBuffer none _ => False
  | _ => True

/-- What it gives back is of this session, or the buffer of that index is free. -/
def Timely (s : State) : Action → Prop
  | .reuseBuffer (some n) buffer => n = s.session ∨ flag s buffer ≠ some false
  | .reuseBuffer none _ => False
  | _ => True

instance (a : Action) : Decidable (Answers a) := by
  unfold Answers
  split <;> infer_instance

instance (s : State) (a : Action) : Decidable (Timely s a) := by
  unfold Timely
  split <;> infer_instance

/-- A buffer of this session has one holder at most, and its flag is cleared while it has one. -/
structure Guarded (s : State) : Prop where
  session : ∀ r ∈ busy s, r.1 ≤ s.session
  once : ∀ k, (busy s).count (s.session,k) ≤ 1
  cleared : ∀ k, (s.session,k) ∈ busy s → flag s k ≠ some true

variable {s t : State}

theorem Guarded.exclusive (h : Guarded s) : Exclusive s := by
  intro k hw hm
  have honce := h.once k
  have hpos := List.count_pos_iff.mpr hm
  have hwriting : writing s = [(s.session,k)] := by rw [writing,hw]; rfl
  rw [busy,hwriting,List.count_append,List.count_singleton_self] at honce
  omega

theorem created_guarded : Guarded created := ⟨nofun,fun _ => Nat.zero_le _,nofun⟩

/-- No new holders, and no flags set. -/
theorem Guarded.shrink (h : Guarded s) (hs : t.session = s.session)
    (hb : List.Subperm (busy t) (busy s)) (hf : ∀ k, flag t k = some true → flag s k = some true) :
    Guarded t := by
  refine ⟨fun r hr => ?_,fun k => ?_,fun k hk hset => ?_⟩
  · rw [hs]
    exact h.session r (hb.subset hr)
  · rw [hs]
    exact Nat.le_trans (hb.count_le _) (h.once k)
  · rw [hs] at hk
    exact h.cleared k (hb.subset hk) (hf k hset)

/-- A new session has no holders. -/
theorem Guarded.renew (h : Guarded s) (hs : t.session = s.session+1) (hb : busy t = busy s) :
    Guarded t := by
  have hnew : ∀ k, (t.session,k) ∉ busy t := by
    intro k hk
    rw [hb,hs] at hk
    exact absurd (h.session _ hk) (by simp)
  refine ⟨fun r hr => ?_,fun k => ?_,fun k hk => absurd hk (hnew k)⟩
  · rw [hb] at hr
    have := h.session r hr
    omega
  · rw [List.count_eq_zero.mpr (hnew k)]
    exact Nat.zero_le _

theorem Guarded.openCapture {requested : ℕ} {outcome : Outcome} (h : Guarded s) :
    Guarded (ppbVideoCaptureOpen requested outcome s) := by
  cases outcome with
  | noAccess => exact h.shrink rfl (.refl _) fun _ hk => hk
  | failed => exact h.shrink rfl (.refl _) fun _ hk => hk
  | noBuffers => exact h.renew rfl rfl
  | noFlags => exact h.renew rfl rfl
  | made n =>
    unfold ppbVideoCaptureOpen
    dsimp only
    split
    · exact h.renew rfl rfl
    · exact h.renew rfl rfl

/-- ReuseBuffer sets one flag. -/
theorem reuse_flags {buffer : ℕ} (h : ppbVideoCaptureReuseBuffer buffer s = some t) :
    t.session = s.session ∧ busy t = busy s ∧ t.given = s.given ∧
      (∀ k, k ≠ buffer → flag t k = flag s k) ∧ (flag t buffer = some true →
        (flag s buffer).isSome = true) := by
  unfold ppbVideoCaptureReuseBuffer at h
  split at h
  · split at h
    · rename_i flags hflags
      split at h
      · rename_i hlt
        cases h
        refine ⟨rfl,rfl,rfl,fun k hk => ?_,fun _ => ?_⟩
        · simp only [flag,hflags,Option.getD_some]
          exact List.getElem?_set_ne (Ne.symm hk)
        · simp [flag,hflags,hlt]
      · cases h
    · cases h
  · cases h
    exact ⟨rfl,rfl,rfl,fun _ _ => rfl,fun hf => by rw [hf]; rfl⟩

/-- The answer to a notification of this session is the last of the holder. -/
theorem Guarded.reuse {n buffer : ℕ} (h : Guarded s) (hg : (n,buffer) ∈ s.given)
    (ht : ppbVideoCaptureReuseBuffer buffer s = some t)
    (hn : n = s.session ∨ flag s buffer ≠ some false) :
    Guarded { t with given := t.given.erase (n,buffer) } := by
  obtain ⟨hs,hb,hgiven,hother,hself⟩ := reuse_flags ht
  have hbusy : busy { t with given := t.given.erase (n,buffer) } =
      writing t ++ (t.posted ++ t.given.erase (n,buffer)) := rfl
  have hperm : List.Perm (busy s)
      ((n,buffer)::busy { t with given := t.given.erase (n,buffer) }) := by
    rw [hbusy,← hb,busy,outstanding]
    have hsplit := List.perm_cons_erase (hgiven ▸ hg)
    refine ((hsplit.append_left t.posted).append_left (writing t)).trans ?_
    exact (List.perm_middle.append_left (writing t)).trans List.perm_middle
  have hsub : List.Subperm (busy { t with given := t.given.erase (n,buffer) }) (busy s) :=
    (List.sublist_cons_self _ _).subperm.trans hperm.symm.subperm
  by_cases hnow : n = s.session
  · refine ⟨fun r hr => ?_,fun k => ?_,fun k hk hset => ?_⟩
    · exact hs.symm ▸ h.session r (hsub.subset hr)
    · exact hs.symm ▸ Nat.le_trans (hsub.count_le _) (h.once k)
    · have hk' : (s.session,k) ∈ busy { t with given := t.given.erase (n,buffer) } := hs ▸ hk
      by_cases he : k = buffer
      · have honce := h.once k
        rw [hperm.count_eq,he,hnow,List.count_cons_self] at honce
        have hpos := List.count_pos_iff.mpr hk'
        rw [he] at hpos
        subst hnow
        omega
      · exact h.cleared k (hsub.subset hk') ((hother k he).symm.trans hset)
  · refine h.shrink hs hsub fun k hset => ?_
    by_cases he : k = buffer
    · subst he
      have hsome := hself hset
      have hne := hn.resolve_left hnow
      cases hf : flag s k with
      | none => simp [hf] at hsome
      | some b => cases b with
        | true => rfl
        | false => exact absurd hf hne
    · exact (hother k he).symm.trans hset

theorem findFree_some {flags : List Bool} {n k j : ℕ}
    (h : findFree flags n k = some (some j)) : flags[j]? = some true := by
  induction n generalizing k with
  | zero => cases h
  | succ n ih =>
    rw [findFree] at h
    split at h
    · cases h
    · rename_i hk
      cases h
      exact hk
    · exact ih h

/-- The thread takes a buffer that nobody has. -/
theorem Guarded.threadPick (h : Guarded s) (hl : s.thread = some .looping)
    (ht : threadPick s = some t) : Guarded t := by
  obtain ⟨found,hfound,ht⟩ := Option.bind_eq_some_iff.mp ht
  split at ht
  · cases ht
    exact h
  · rename_i k
    split at ht
    · cases ht
      have hfree : flag s k = some true := findFree_some hfound
      have hidle : (s.session,k) ∉ busy s := fun hm => h.cleared k hm hfree
      have hnone : writing s = [] := by rw [writing,hl]; rfl
      have hset : ∀ j, ((s.bufferIsFree.map (·.set k false)).getD [])[j]? = some true →
          j ≠ k ∧ flag s j = some true := by
        intro j hj
        cases hf : s.bufferIsFree with
        | none => simp [hf] at hj
        | some flags =>
          simp only [hf,Option.map_some,Option.getD_some,List.getElem?_set] at hj
          split_ifs at hj with he hlt
          · cases hj
          · exact ⟨Ne.symm he,by simpa [flag,hf] using hj⟩
      have hbusy : busy s = outstanding s := by rw [busy,hnone,List.nil_append]
      refine ⟨fun r hr => ?_,fun j => ?_,fun j hj hfl => ?_⟩
      · rcases List.mem_cons.mp hr with rfl | hr
        · exact Nat.le_refl _
        · exact h.session r (hbusy ▸ hr)
      · have hcount : List.count (s.session,j) ((s.session,k)::outstanding s) ≤ 1 := by
          rw [← hbusy]
          by_cases he : k = j
          · exact Nat.le_of_eq (by rw [← he,List.count_cons_self,List.count_eq_zero.mpr hidle])
          · rw [List.count_cons_of_ne (fun h => he (Prod.mk.inj h).2)]
            exact h.once j
        exact hcount
      · obtain ⟨hne,hold⟩ := hset j hfl
        rcases List.mem_cons.mp hj with he | hj
        · exact hne (Prod.mk.inj he).2
        · exact h.cleared j (hbusy ▸ hj) hold
    · cases ht

theorem Guarded.step {a : Action} (h : Guarded s) (ha : Timely s a) (ht : step s a = some t) :
    Guarded t := by
  cases a with
  | openCapture requested outcome =>
    obtain ⟨_,ht⟩ := Option.ite_none_right_eq_some.mp ht
    cases ht
    exact h.openCapture
  | startCapture =>
    obtain ⟨_,ht⟩ := Option.ite_none_right_eq_some.mp ht
    cases ht
    unfold ppbVideoCaptureStartCapture
    split
    · exact h
    · refine h.shrink rfl ?_ fun _ hk => hk
      exact (List.sublist_append_right (writing s) (outstanding s)).subperm
  | reuseBuffer session buffer =>
    cases session with
    | none => exact ha.elim
    | some n =>
      obtain ⟨_,ht⟩ := Option.ite_none_right_eq_some.mp ht
      obtain ⟨hg,ht⟩ := Option.ite_none_right_eq_some.mp ht
      obtain ⟨u,hu,rfl⟩ := Option.map_eq_some_iff.mp ht
      exact h.reuse hg hu ha
  | stopCapture =>
    obtain ⟨_,ht⟩ := Option.ite_none_right_eq_some.mp ht
    cases ht
    unfold ppbVideoCaptureStopCapture
    split
    · exact h.shrink rfl (.refl _) fun _ hk => hk
    · exact h
  | close =>
    obtain ⟨_,ht⟩ := Option.ite_none_right_eq_some.mp ht
    cases ht
    unfold ppbVideoCaptureClose
    split <;> exact h.shrink rfl (.refl _) fun _ hk => hk
  | join =>
    obtain ⟨_,ht⟩ := Option.ite_none_right_eq_some.mp ht
    split at ht <;> cases ht <;> exact h.shrink rfl (.refl _) fun _ hk => hk
  | destroy =>
    obtain ⟨_,ht⟩ := Option.ite_none_right_eq_some.mp ht
    cases ht
    exact h.shrink rfl (.refl _) fun _ hk => nomatch hk
  | lastRelease =>
    obtain ⟨_,ht⟩ := Option.ite_none_right_eq_some.mp ht
    cases ht
    exact h.shrink rfl (.refl _) fun _ hk => nomatch hk
  | threadPick =>
    obtain ⟨hl,ht⟩ := Option.ite_none_right_eq_some.mp ht
    exact h.threadPick hl.1 ht
  | threadPost =>
    obtain ⟨ready,hw,rfl⟩ := threadPost_some ht
    refine h.shrink rfl ?_ fun _ hk => hk
    have hbusy : busy s = ready::(s.posted ++ s.given) := by rw [busy,writing,hw]; rfl
    rw [hbusy]
    refine List.Perm.subperm ?_
    change List.Perm ((s.posted ++ [ready]) ++ s.given) (ready::(s.posted ++ s.given))
    rw [List.append_assoc]
    exact List.perm_middle
  | threadExit =>
    obtain ⟨_,ht⟩ := Option.ite_none_right_eq_some.mp ht
    cases ht
    refine h.shrink rfl ?_ fun _ hk => hk
    exact (List.sublist_append_right (writing s) (outstanding s)).subperm
  | onBufferReady ready =>
    obtain ⟨hm,ht⟩ := Option.ite_none_right_eq_some.mp ht
    cases ht
    refine h.shrink rfl (List.Perm.subperm ?_) fun _ hk => hk
    refine List.Perm.append_left (writing s) ?_
    refine List.perm_middle.trans ?_
    exact ((List.perm_cons_erase hm).append_right s.given).symm

/-- In a run where the plugin gives back only buffers of the session, or such as are free, the
thread never writes into a buffer that the plugin has. -/
theorem buffers_exclusive (h : machine.ReachableVia Timely s) : Exclusive s :=
  (h.invariant Guarded created_guarded fun _ _ _ hi ha ht => hi.step ha ht).exclusive

/-- A buffer is filled, given back and filled again, across a stop and an Open. -/
def filledAgain : List Action :=
  [.openCapture 5 (.made 5),.startCapture,.threadPick,.threadPost,.onBufferReady (1,0),
    .stopCapture,.threadExit,.join,.reuseBuffer (some 1) 0,.startCapture,.threadPick]

theorem filledAgain_exclusive : ∃ s, machine.exec created filledAgain = some s ∧
    s.thread = some (.writing (1,0)) ∧ Exclusive s := by
  obtain ⟨s,hr,hw⟩ : ∃ s, machine.exec created filledAgain = some s ∧
    s.thread = some (.writing (1,0)) := ⟨_,rfl,rfl⟩
  exact ⟨s,hr,hw,buffers_exclusive (Machine.reachableVia_of_exec _ .start hr (by decide))⟩

/-- The plugin has the first buffer, the capture is closed and opened again, and the answer that
was due frees the first buffer of the new session. -/
def answeredLate : List Action :=
  [.openCapture 5 (.made 5),.startCapture,.threadPick,.threadPost,.onBufferReady (1,0),.close,
    .threadExit,.join,.destroy,.openCapture 5 (.made 5),.startCapture,.threadPick,.threadPost,
    .reuseBuffer (some 1) 0,.threadPick]

theorem answeredLate_written : ¬∀ s, machine.ReachableVia (fun _ a => Answers a) s →
    Exclusive s := by
  intro h
  obtain ⟨s,hr,hw,hm⟩ : ∃ s, machine.exec created answeredLate = some s ∧
    s.thread = some (.writing (s.session,0)) ∧ (s.session,0) ∈ outstanding s :=
    ⟨_,rfl,rfl,by decide⟩
  exact h s (Machine.reachableVia_of_exec _ .start hr (by decide)) 0 hw hm

end VideoCapture
end FreshPlayer
