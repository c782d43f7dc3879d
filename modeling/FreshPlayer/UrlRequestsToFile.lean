import FreshPlayer.UrlRequestsIsolation

/-! One load streamed to a file. `NPP_DestroyStream` posts the callback it finds when it has
served the queued reads, and FinishStreamingToFile does not look whether that is over. A
callback is owed from the call to that point; what is posted and what is owed together
change by nothing but the call. -/
namespace FreshPlayer
namespace UrlRequests

def Completion.posts (func : ℕ) (c : Completion) : Bool := c.ccb = .file func

def Call.posts (func : ℕ) : Call → Bool
  | .post c => c.posts func
  | .destroyPost c => c.posts func
  | _ => false

/-- `NPP_DestroyStream` has not come to its check of `stream_to_file`. -/
def State.streaming (s : State) : Bool := !s.finishedLoading || s.pending.any Call.isDestroy

/-- The posts made of a callback of FinishStreamingToFile. -/
def State.filePosts (s : State) (func : ℕ) : ℕ := s.posted.countP fun p => p.1.posts func

/-- The posts made, those about to be and the one that is to come at the end of the stream. -/
def State.owed (s : State) (func : ℕ) : ℕ :=
  s.filePosts func + s.pending.countP (Call.posts func) +
    if s.streaming = true ∧ s.streamToFileCcb = some func then 1 else 0

/-- The callback is given before that check is reached. -/
def CalledInTime (s : State) : Action → Prop
  | .finishStreamingToFile _ _ => s.streaming = true
  | _ => True

instance (s : State) (a : Action) : Decidable (CalledInTime s a) := by
  apply a.casesOn (motive := fun a => Decidable (CalledInTime s a)) <;> intros <;>
    dsimp only [CalledInTime] <;> infer_instance

/-- What happens to a load besides FinishStreamingToFile. -/
def Action.Loads : Action → Prop
  | .newStream _ _ => True
  | .write _ _ => True
  | .destroyStream _ => True
  | .urlNotify _ => True
  | .readResponseBody _ _ _ _ => True
  | .close => True
  | .resume _ => True
  | _ => False

instance (a : Action) : Decidable a.Loads := by
  apply a.casesOn (motive := fun a => Decidable a.Loads) <;> intros <;>
    dsimp only [Action.Loads] <;> infer_instance

/-- The stream has been destroyed and all calls have returned. -/
def State.Done (s : State) : Prop := s.latestDestroyed = true ∧ s.pending = []

instance (s : State) : Decidable s.Done := inferInstanceAs (Decidable (_ ∧ _))

/-- Of each stream, whether it is linked and whether it is destroyed. -/
def State.summary (s : State) : List (Bool × Bool) :=
  s.streams.map fun x => (x.all NPStream.pdata,x.any NPStream.destroyed)

/-- The loader has one request, of a linked stream, and no redirect. -/
structure Loading (func : ℕ) (s : State) : Prop where
  toFile : s.streamToFile = true
  noRedirect : s.redirectUrl = none
  stream : s.summary = [(true,s.finishedLoading)]
  ccb : s.ccb ≠ some (.file func)
  once : s.pending.countP Call.isDestroy ≤ if s.finishedLoading then 1 else 0

/-! Steps that neither end the stream nor touch the callback. -/

structure Adds (func : ℕ) (s t : State) : Prop where
  toFile : t.streamToFile = s.streamToFile
  redirectUrl : t.redirectUrl = s.redirectUrl
  streamToFileCcb : t.streamToFileCcb = s.streamToFileCcb
  finished : t.finishedLoading = s.finishedLoading
  summary : t.summary = s.summary
  ccb : t.ccb = s.ccb ∨ t.ccb = none
  posted : t.posted = s.posted
  pending : ∃ new, t.pending = s.pending ++ new ∧
    ∀ c ∈ new, c.isDestroy = false ∧ c.posts func = false

variable {func : ℕ}

theorem Adds.of_pending {s t : State} (h : Adds func s { t with pending := s.pending })
    {new : List Call} (hp : t.pending = s.pending ++ new)
    (hn : ∀ c ∈ new, c.isDestroy = false ∧ c.posts func = false) : Adds func s t :=
  ⟨h.toFile,h.redirectUrl,h.streamToFileCcb,h.finished,h.summary,h.ccb,h.posted,new,hp,hn⟩

theorem Adds.refl (s : State) : Adds func s s :=
  ⟨rfl,rfl,rfl,rfl,rfl,Or.inl rfl,rfl,[],(List.append_nil _).symm,nofun⟩

theorem Adds.trans {s t u : State} (h : Adds func s t) (k : Adds func t u) : Adds func s u := by
  obtain ⟨new,hp,hn⟩ := h.pending
  obtain ⟨new',hp',hn'⟩ := k.pending
  refine ⟨k.toFile.trans h.toFile,k.redirectUrl.trans h.redirectUrl,
    k.streamToFileCcb.trans h.streamToFileCcb,k.finished.trans h.finished,
    k.summary.trans h.summary,?_,k.posted.trans h.posted,new ++ new',?_,?_⟩
  · rcases k.ccb with hc | hc
    · rw [hc]
      exact h.ccb
    · exact Or.inr hc
  · rw [hp',hp,List.append_assoc]
  · intro c hc
    rcases List.mem_append.mp hc with hc | hc
    · exact hn c hc
    · exact hn' c hc

theorem Adds.streaming {s t : State} (h : Adds func s t) : t.streaming = s.streaming := by
  obtain ⟨new,hp,hn⟩ := h.pending
  have hnone : new.any Call.isDestroy = false := by
    rw [List.any_eq_false]
    intro c hc
    simp [(hn c hc).1]
  unfold State.streaming
  rw [h.finished,hp,List.any_append,hnone,Bool.or_false]

theorem Adds.owed {s t : State} (h : Adds func s t) : t.owed func = s.owed func := by
  have hstreaming := h.streaming
  obtain ⟨new,hp,hn⟩ := h.pending
  have hnone : new.countP (Call.posts func) = 0 := by
    rw [List.countP_eq_zero]
    intro c hc
    simp [(hn c hc).2]
  unfold State.owed State.filePosts
  rw [hstreaming,h.posted,h.streamToFileCcb,hp,List.countP_append,hnone,Nat.add_zero]

theorem Loading.adds {s t : State} (h : Loading func s) (ha : Adds func s t) :
    Loading func t := by
  obtain ⟨new,hp,hn⟩ := ha.pending
  have hnone : new.countP Call.isDestroy = 0 := by
    rw [List.countP_eq_zero]
    intro c hc
    simp [(hn c hc).1]
  refine ⟨ha.toFile.trans h.toFile,ha.redirectUrl.trans h.noRedirect,?_,?_,?_⟩
  · rw [ha.summary,ha.finished]
    exact h.stream
  · rcases ha.ccb with hc | hc
    · rw [hc]
      exact h.ccb
    · rw [hc]
      nofun
  · rw [ha.finished,hp,List.countP_append,hnone,Nat.add_zero]
    exact h.once

theorem Adds.of_serves {s t : State} {ended : Prop} (h : Serves ended s t) : Adds func s t := by
  obtain ⟨new,hp,hn⟩ := h.pending
  have hframe := h.frame
  refine ⟨?_,?_,?_,?_,?_,Or.inl ?_,?_,new,hp,?_⟩
  · rw [hframe]
  · rw [hframe]
  · rw [hframe]
  · rw [hframe]
  · rw [hframe]
    rfl
  · rw [hframe]
  · rw [hframe]
  · intro c hc
    obtain ⟨f,ccbMl,result,rfl⟩ := hn c hc
    exact ⟨rfl,rfl⟩

theorem adds_write {s : State} {stream : ℕ} {st : NPStream} (buffer : List UInt8)
    (hst : s.streams[stream]? = some (some st)) : Adds func s (nppWrite s stream st buffer) := by
  have hset : ∀ file, Adds func s { s with
      streams := s.streams.set stream (some { st with delivered := st.delivered+buffer.length })
      file := file } :=
    fun _ => ⟨rfl,rfl,rfl,rfl,map_set_of_eq hst rfl,Or.inl rfl,rfl,[],
      (List.append_nil _).symm,nofun⟩
  rcases write_cases s stream st buffer with ⟨he,_⟩ | ⟨content,_,_,_,he⟩
  · rw [he]
    exact hset s.file
  · rw [he]
    exact (hset _).trans (.of_serves (serves_serveFirst _))

/-- The callback in the loader is taken. -/
theorem adds_callPost {s t : State} (ccbMl : ℕ) (result : ℤ)
    (h : Adds func s { t with pending := s.pending }) (hp : t.pending = s.pending)
    (hc : s.ccb ≠ some (.file func)) : Adds func s (t.callPost s.ccb ccbMl result) := by
  unfold State.callPost
  split
  · exact h.of_pending (hp.trans (List.append_nil _).symm) fun c hcm => (by cases hcm)
  · rename_i ccb hccb
    refine Adds.of_pending (t := t.call (.post ⟨ccb,ccbMl,result⟩)) h
      (congrArg (fun l => l ++ [_]) hp) fun c hcm => ?_
    cases List.mem_singleton.mp hcm
    refine ⟨rfl,?_⟩
    rw [hccb] at hc
    exact decide_eq_false fun he => hc (congrArg some he)

theorem adds_newStream {s : State} {stream : ℕ} (ph : ParsedHeaders) (h : Loading func s)
    (hs : s.streams[stream]? = some none) : Adds func s (nppNewStream s stream ph) := by
  have hno : ¬Redirects s ph := by
    rintro ⟨_,_,hurl,_⟩
    simp [h.noRedirect] at hurl
  unfold nppNewStream
  dsimp only
  rw [if_neg hno]
  refine adds_callPost s.ccbMl ppOk ?_ rfl h.ccb
  exact ⟨rfl,rfl,rfl,rfl,map_set_of_eq hs rfl,Or.inr rfl,rfl,[],(List.append_nil _).symm,nofun⟩

theorem adds_urlNotify {s : State} (reason : NPReason) (h : Loading func s) :
    Adds func s (nppUrlNotify s reason) := by
  unfold nppUrlNotify
  split_ifs
  · refine adds_callPost s.ccbMl ppErrorFailed ?_ rfl h.ccb
    exact ⟨rfl,rfl,rfl,rfl,rfl,Or.inr rfl,rfl,[],(List.append_nil _).symm,nofun⟩
  · exact .refl s

/-! The end of the stream. -/

theorem streaming_call (s : State) (c : Call) :
    (s.call c).streaming = (s.streaming || c.isDestroy) := by
  simp [State.streaming,State.call,Bool.or_assoc]

theorem owed_call (s : State) (c : Call) : (s.call c).owed func =
    s.filePosts func + s.pending.countP (Call.posts func) + (if c.posts func then 1 else 0) +
      if (s.streaming || c.isDestroy) = true ∧ s.streamToFileCcb = some func then 1 else 0 := by
  unfold State.owed
  rw [streaming_call]
  change s.filePosts func + (s.pending ++ [c]).countP _ + _ = _
  rw [List.countP_append,List.countP_singleton,← Nat.add_assoc]
  rfl

/-- The check posts the callback it finds. -/
theorem checkStreamToFile_owed {s : State} (h : Loading func s) (hover : s.streaming = false) :
    Loading func (checkStreamToFile s) ∧
      (checkStreamToFile s).streamToFileCcb = s.streamToFileCcb ∧
      (checkStreamToFile s).owed func = s.filePosts func + s.pending.countP (Call.posts func) +
        if s.streamToFileCcb = some func then 1 else 0 := by
  unfold checkStreamToFile
  rw [if_pos h.toFile]
  cases hc : s.streamToFileCcb with
  | none =>
    refine ⟨h,hc,?_⟩
    change s.owed func = _
    unfold State.owed
    rw [hover,hc]
    simp
  | some f =>
    let c : Call := .post ⟨.file f,s.streamToFileCcbMl,ppOk⟩
    refine ⟨⟨h.toFile,h.noRedirect,h.stream,h.ccb,?_⟩,hc,?_⟩
    · change (s.pending ++ [c]).countP Call.isDestroy ≤ _
      rw [List.countP_append]
      exact h.once
    · change (s.call c).owed func = _
      rw [owed_call,hover]
      simp [c,Call.posts,Completion.posts,Call.isDestroy]

/-- `NPP_DestroyStream` goes on: it still serves a read, or posts the callback. -/
theorem destroyLoop_owed {s : State} (h : Loading func s) (hfin : s.finishedLoading = true)
    (hno : s.pending.countP Call.isDestroy = 0) : Loading func (destroyLoop s) ∧
      (destroyLoop s).streamToFileCcb = s.streamToFileCcb ∧
      (destroyLoop s).owed func = s.filePosts func + s.pending.countP (Call.posts func) +
        if s.streamToFileCcb = some func then 1 else 0 := by
  rcases destroyLoop_cases s with he | ⟨t,f,ccbMl,result,hs,hp,he⟩
  · rw [he]
    refine checkStreamToFile_owed h ?_
    unfold State.streaming
    rw [hfin]
    simpa using hno
  · rw [he]
    let c : Completion := ⟨.read f,ccbMl,result⟩
    have ha : Adds func s t := .of_serves hs
    have ht := h.adds ha
    have hposted : t.filePosts func = s.filePosts func := by
      unfold State.filePosts
      rw [ha.posted]
    refine ⟨⟨ht.toFile,ht.noRedirect,ht.stream,ht.ccb,?_⟩,ha.streamToFileCcb,?_⟩
    · change (t.pending ++ [Call.destroyPost c]).countP _ ≤ if t.finishedLoading then 1 else 0
      rw [ha.finished,hfin,hp,List.countP_append,hno]
      exact Nat.le_refl 1
    · rw [owed_call,hposted,hp,ha.streamToFileCcb]
      simp [Call.posts,Call.isDestroy,Completion.posts]

/-- The one stream of the load, while the browser has it. -/
theorem Loading.running {s : State} {stream : ℕ} {st : NPStream} (h : Loading func s)
    (hst : s.running stream = some st) :
    s.streams = [some st] ∧ stream = 0 ∧ st.pdata = true ∧ s.finishedLoading = false := by
  obtain ⟨hget,hd⟩ := running_iff.mp hst
  have hsum := h.stream
  unfold State.summary at hsum
  obtain ⟨x,hx,hsx⟩ := List.map_eq_singleton_iff.mp hsum
  rw [hx,List.getElem?_singleton] at hget
  split_ifs at hget with h0
  cases hget
  rw [Option.all_some,Option.any_some,hd] at hsx
  exact ⟨hx,h0,(Prod.mk.inj hsx).1,(Prod.mk.inj hsx).2.symm⟩

theorem destroyStream_owed {s : State} {stream : ℕ} {st : NPStream} (h : Loading func s)
    (hst : s.running stream = some st) : Loading func (nppDestroyStream s stream st) ∧
      (nppDestroyStream s stream st).streamToFileCcb = s.streamToFileCcb ∧
      (nppDestroyStream s stream st).owed func = s.owed func := by
  obtain ⟨hx,rfl,hp,hfin⟩ := h.running hst
  have hno : s.pending.countP Call.isDestroy = 0 := by
    have honce := h.once
    rw [hfin] at honce
    exact Nat.le_zero.mp honce
  let u : State := { s with
    streams := s.streams.set 0 (some { st with destroyed := true })
    npStream := none, finishedLoading := true }
  have hu : Loading func u := by
    refine ⟨h.toFile,h.noRedirect,?_,h.ccb,?_⟩
    · change (s.streams.set 0 _).map _ = _
      rw [hx]
      simp [hp,u]
    · exact le_of_eq_of_le hno (Nat.zero_le _)
  have hnppDestroyStream : nppDestroyStream s 0 st = destroyLoop u := by
    rcases destroyStream_cases s 0 st with ⟨_,_,hurl⟩ | ⟨_,_,he⟩
    · exact absurd h.noRedirect (hurl hp)
    · exact he
  obtain ⟨hl,hc,ho⟩ := destroyLoop_owed hu rfl hno
  rw [hnppDestroyStream]
  refine ⟨hl,hc,ho.trans ?_⟩
  have hstreaming : s.streaming = true := by
    unfold State.streaming
    rw [hfin]
    rfl
  unfold State.owed
  rw [hstreaming]
  simp [u,State.filePosts]

theorem countP_pending {s : State} {i : ℕ} {c : Call} (h : s.pending[i]? = some c)
    (p : Call → Bool) : s.pending.countP p =
      (s.withoutCall i).pending.countP p + if p c then 1 else 0 := by
  rw [(perm_withoutCall h).countP_eq p,List.countP_cons]

theorem streaming_eq (s : State) : s.streaming =
    (!s.finishedLoading || decide (0 < s.pending.countP Call.isDestroy)) := by
  unfold State.streaming
  congr 1
  rw [Bool.eq_iff_iff,List.any_eq_true,decide_eq_true_iff,List.countP_pos_iff]

theorem filePosts_post (s : State) (i : ℕ) (k : Completion) :
    ((s.withoutCall i).post k).filePosts func = s.filePosts func + if k.posts func then 1 else 0 := by
  change (s.posted ++ [(k,s.response)]).countP _ = _
  rw [List.countP_append,List.countP_singleton]
  rfl

/-- A post moves from the calls to the posts made. -/
theorem post_owed {s : State} {i : ℕ} {k : Completion} (h : Loading func s)
    (hc : s.pending[i]? = some (.post k)) : Loading func ((s.withoutCall i).post k) ∧
      ((s.withoutCall i).post k).owed func = s.owed func := by
  have hposts := countP_pending hc (Call.posts func)
  have hdestroys := countP_pending hc Call.isDestroy
  have hstreaming : ((s.withoutCall i).post k).streaming = s.streaming := by
    rw [streaming_eq,streaming_eq,hdestroys]
    rfl
  refine ⟨⟨h.toFile,h.noRedirect,h.stream,h.ccb,?_⟩,?_⟩
  · have honce := h.once
    rw [hdestroys] at honce
    exact honce
  · unfold State.owed
    rw [filePosts_post,hstreaming,hposts]
    change _ + (s.withoutCall i).pending.countP _ + _ = _
    simp only [Call.posts]
    rw [Nat.add_right_comm (s.filePosts func),← Nat.add_assoc]
    rfl

/-- `NPP_DestroyStream` posts a read, and takes the lock again. -/
theorem destroyPost_owed {s : State} {i : ℕ} {k : Completion} (h : Loading func s)
    (hc : s.pending[i]? = some (.destroyPost k)) :
    Loading func (((s.withoutCall i).post k).call .destroyNext) ∧
      (((s.withoutCall i).post k).call .destroyNext).owed func = s.owed func := by
  have hposts := countP_pending hc (Call.posts func)
  have hdestroys := countP_pending hc Call.isDestroy
  have honce := h.once
  rw [hdestroys] at honce
  have hstreaming : s.streaming = true := by
    rw [streaming_eq,hdestroys]
    simp [Call.isDestroy]
  refine ⟨⟨h.toFile,h.noRedirect,h.stream,h.ccb,?_⟩,?_⟩
  · change ((s.withoutCall i).pending ++ [Call.destroyNext]).countP _ ≤ _
    rw [List.countP_append]
    exact honce
  · rw [owed_call,filePosts_post]
    unfold State.owed
    rw [hstreaming,hposts]
    change _ + (s.withoutCall i).pending.countP _ + _ + _ = _
    simp only [Call.posts,Call.isDestroy,Bool.or_true]
    rw [Nat.add_right_comm (s.filePosts func),← Nat.add_assoc]
    rfl

/-- `NPP_DestroyStream` has the lock again. -/
theorem destroyNext_owed {s : State} {i : ℕ} (h : Loading func s)
    (hc : s.pending[i]? = some .destroyNext) : Loading func (destroyLoop (s.withoutCall i)) ∧
      (destroyLoop (s.withoutCall i)).streamToFileCcb = s.streamToFileCcb ∧
      (destroyLoop (s.withoutCall i)).owed func = s.owed func := by
  have hposts := countP_pending hc (Call.posts func)
  have hdestroys := countP_pending hc Call.isDestroy
  have honce := h.once
  rw [hdestroys] at honce
  have hfin : s.finishedLoading = true := by
    by_contra hno
    simp [hno,Call.isDestroy] at honce
  have hno : (s.withoutCall i).pending.countP Call.isDestroy = 0 := by
    simpa [hfin,Call.isDestroy] using honce
  have hw : Loading func (s.withoutCall i) :=
    ⟨h.toFile,h.noRedirect,h.stream,h.ccb,le_of_eq_of_le hno (Nat.zero_le _)⟩
  have hstreaming : s.streaming = true := by
    rw [streaming_eq,hdestroys]
    simp [Call.isDestroy]
  obtain ⟨hl,hcb,ho⟩ := destroyLoop_owed hw hfin hno
  refine ⟨hl,hcb,ho.trans ?_⟩
  unfold State.owed
  rw [hstreaming,hposts]
  simp only [Call.posts,Bool.false_eq_true,if_false,Nat.add_zero,true_and]
  rfl

theorem resume_owed {s t : State} {i : ℕ} {c : Call} (h : Loading func s)
    (hc : s.pending[i]? = some c) (ht : resume (s.withoutCall i) c = some t) :
    Loading func t ∧ t.streamToFileCcb = s.streamToFileCcb ∧ t.owed func = s.owed func := by
  cases c with
  | post k =>
    cases ht
    obtain ⟨hl,ho⟩ := post_owed h hc
    exact ⟨hl,rfl,ho⟩
  | destroyPost k =>
    cases ht
    obtain ⟨hl,ho⟩ := destroyPost_owed h hc
    exact ⟨hl,rfl,ho⟩
  | destroyNext =>
    cases ht
    exact destroyNext_owed h hc
  | followRedirect ccb ccbMl => cases ht

/-! Runs. -/

/-- A step that is no call of FinishStreamingToFile neither adds nor loses a post. -/
theorem step_owed {s t : State} {a : Action} (h : Loading func s) (ha : a.Loads)
    (ht : step s a = some t) :
    Loading func t ∧ t.streamToFileCcb = s.streamToFileCcb ∧ t.owed func = s.owed func := by
  have hadds : ∀ {u : State}, Adds func s u → Loading func u ∧
      u.streamToFileCcb = s.streamToFileCcb ∧ u.owed func = s.owed func :=
    fun hu => ⟨h.adds hu,hu.streamToFileCcb,hu.owed⟩
  cases a with
  | newStream stream ph =>
    simp only [step] at ht
    split_ifs at ht with hs
    cases ht
    exact hadds (adds_newStream ph h hs)
  | write stream buffer =>
    obtain ⟨st,hst,rfl⟩ := Option.map_eq_some_iff.mp ht
    exact hadds (adds_write buffer (running_iff.mp hst).1)
  | destroyStream stream =>
    obtain ⟨st,hst,rfl⟩ := Option.map_eq_some_iff.mp ht
    exact destroyStream_owed h hst
  | urlNotify reason =>
    cases ht
    exact hadds (adds_urlNotify reason h)
  | readResponseBody bytesToRead optional f ml =>
    cases ht
    exact hadds (.of_serves (serves_readResponseBody s bytesToRead optional f ml))
  | close =>
    cases ht
    refine hadds ⟨rfl,rfl,rfl,rfl,rfl,Or.inl rfl,rfl,[],(List.append_nil _).symm,fun d hd => ?_⟩
    cases hd
  | resume i =>
    obtain ⟨c,hc,ht⟩ := Option.bind_eq_some_iff.mp ht
    exact resume_owed h hc ht
  | _ => exact ha.elim

theorem exec_owed {s t : State} {ls : List Action} (h : Loading func s) (hl : ∀ a ∈ ls, a.Loads)
    (hr : machine.exec s ls = some t) :
    Loading func t ∧ t.streamToFileCcb = s.streamToFileCcb ∧ t.owed func = s.owed func := by
  induction ls generalizing s with
  | nil =>
    cases hr
    exact ⟨h,rfl,rfl⟩
  | cons a ls ih =>
    obtain ⟨u,hu,ht⟩ := Option.bind_eq_some_iff.mp hr
    obtain ⟨hlu,hcu,hou⟩ := step_owed h (hl a List.mem_cons_self) hu
    obtain ⟨hlt,hct,hot⟩ := ih hlu (fun b hb => hl b (List.mem_cons_of_mem a hb)) ht
    exact ⟨hlt,hct.trans hcu,hot.trans hou⟩

/-- The call puts its callback where the check finds it, if that is still to come. -/
theorem finishStreamingToFile_owed {s : State} (ml : ℕ) (h : Loading func s)
    (hc : s.streamToFileCcb = none) :
    Loading func (ppbUrlLoaderFinishStreamingToFile s func ml) ∧
      (ppbUrlLoaderFinishStreamingToFile s func ml).owed func =
        s.owed func + if s.streaming = true then 1 else 0 := by
  unfold ppbUrlLoaderFinishStreamingToFile
  rw [if_pos h.toFile]
  refine ⟨⟨h.toFile,h.noRedirect,h.stream,h.ccb,h.once⟩,?_⟩
  unfold State.owed
  rw [hc]
  change s.filePosts func + s.pending.countP _ +
    (if s.streaming = true ∧ some func = some func then 1 else 0) = _
  simp

/-- Nothing is owed when the stream is destroyed and all calls have returned. -/
theorem owed_of_done {s : State} (h : Loading func s) (hdone : s.Done) :
    s.owed func = s.filePosts func := by
  obtain ⟨hlatest,hpending⟩ := hdone
  have hsum := h.stream
  unfold State.summary at hsum
  obtain ⟨x,hx,hsx⟩ := List.map_eq_singleton_iff.mp hsum
  have hfin : s.finishedLoading = true := by
    unfold State.latestDestroyed at hlatest
    rw [hx] at hlatest
    rcases x with _ | st
    · cases hlatest
    · exact (Prod.mk.inj hsx).2.symm.trans hlatest
  have hstreaming : s.streaming = false := by
    unfold State.streaming
    rw [hfin,hpending]
    rfl
  unfold State.owed
  rw [hstreaming,hpending]
  simp

theorem loading_open (followRedirects callback fileOpened : Bool) (ml : ℕ) :
    Loading func (ppbUrlLoaderOpenTarget .create followRedirects true callback ml fileOpened) := by
  refine ⟨rfl,rfl,rfl,?_,Nat.le_refl _⟩
  cases callback
  · exact fun h => (by cases h)
  · exact fun h => (by cases h)

/-- In a load streamed to a file, with one call of FinishStreamingToFile, the callback has
been posted exactly once when the stream is destroyed and all calls have returned, exactly
if the call came before `NPP_DestroyStream` had served the last queued read. -/
theorem file_posted_once_iff {followRedirects callback fileOpened : Bool} {ml ml' func : ℕ}
    {before after : List Action} {u : State} (hb : ∀ a ∈ before, a.Loads)
    (ha : ∀ a ∈ after, a.Loads)
    (hr : machine.exec machine.start
      (.open followRedirects true callback ml fileOpened::
        (before ++ .finishStreamingToFile func ml'::after)) = some u) (hdone : u.Done) :
    u.filePosts func = 1 ↔ machine.EachFrom CalledInTime machine.start
      (.open followRedirects true callback ml fileOpened::
        (before ++ .finishStreamingToFile func ml'::after)) := by
  have hloads : ∀ ls : List Action, (∀ a ∈ ls, a.Loads) → ∀ a ∈ ls, ∀ s, CalledInTime s a := by
    intro ls hl a ham s
    have hla := hl a ham
    cases a <;> trivial
  rw [Machine.exec_cons] at hr
  obtain ⟨s₀,hs₀,hr⟩ := Option.bind_eq_some_iff.mp hr
  cases hs₀
  rw [Machine.exec_append] at hr
  obtain ⟨s,hs,hr⟩ := Option.bind_eq_some_iff.mp hr
  obtain ⟨hl,hc,ho⟩ := exec_owed (loading_open _ _ _ _) hb hs
  obtain ⟨t,ht,hr⟩ := Option.bind_eq_some_iff.mp hr
  cases ht
  obtain ⟨hlt,hot⟩ := finishStreamingToFile_owed ml' hl hc
  obtain ⟨hlu,_,hou⟩ := exec_owed hlt ha hr
  have hcount : u.filePosts func = if s.streaming = true then 1 else 0 := by
    rw [← owed_of_done hlu hdone,hou,hot,ho]
    exact Nat.zero_add _
  constructor
  · intro hone
    refine ⟨trivial,fun s' hs' => ?_⟩
    cases hs'
    refine Machine.eachFrom_append.mpr ⟨Machine.eachFrom_of_forall (hloads before hb) _,?_⟩
    intro s'' hs''
    cases hs.symm.trans hs''
    refine ⟨?_,fun t' _ => Machine.eachFrom_of_forall (hloads after ha) t'⟩
    by_contra hno
    have hover : ¬s.streaming = true := hno
    rw [hcount,if_neg hover] at hone
    cases hone
  · rintro ⟨_,hrest⟩
    have hstreaming : s.streaming = true :=
      ((Machine.eachFrom_append.mp (hrest _ rfl)).2 s hs).1
    rw [hcount,if_pos hstreaming]

/-- The stream is over before FinishStreamingToFile is called. -/
theorem finishedLate_unposted : ¬∀ (before after : List Action) (u : State),
    (∀ a ∈ before, a.Loads) → (∀ a ∈ after, a.Loads) → machine.exec machine.start
      (.open true true true 0 true::(before ++ .finishStreamingToFile 5 0::after)) = some u →
    u.Done → u.filePosts 5 = 1 := by
  intro h
  have hone := h [.newStream 0 ⟨[],none,200⟩,.resume 0,.write 0 [1],.destroyStream 0] [] _
    (by decide) (by decide) rfl (by decide)
  exact absurd hone (by decide)

/-- A read is queued when the stream ends, and served. -/
def servedAtEnd : List Action :=
  [.newStream 0 ⟨[],none,200⟩,.resume 0,.readResponseBody 9 false 6 0,.destroyStream 0,.resume 0]

/-- The call comes between the post of that read and the check. -/
theorem finishedInTime_posted : ∃ u, machine.exec machine.start (.open true true true 0 true::
    (servedAtEnd ++ .finishStreamingToFile 5 0::[.resume 0,.resume 0])) = some u ∧
      u.filePosts 5 = 1 := by
  have hb : ∀ a ∈ servedAtEnd, a.Loads := by decide
  have ha : ∀ a ∈ [Action.resume 0,.resume 0], a.Loads := by decide
  have hr : (machine.exec machine.start (.open true true true 0 true::
    (servedAtEnd ++ .finishStreamingToFile 5 0::[.resume 0,.resume 0]))).isSome = true := by decide
  have hu := (Option.some_get hr).symm
  exact ⟨_,hu,(file_posted_once_iff hb ha hu ⟨rfl,rfl⟩).mpr (by decide)⟩

end UrlRequests
end FreshPlayer
