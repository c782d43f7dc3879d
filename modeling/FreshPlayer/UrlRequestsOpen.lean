import FreshPlayer.UrlRequestsServing
import Mathlib.Data.List.Nodup

/-! The callbacks of Open and FollowRedirect. `NPP_NewStream` takes the callback it finds
in the loader, whichever request that is of, and posts it with `PP_OK` even where it
follows a redirect and leaves the loader without a response. -/
namespace FreshPlayer
namespace UrlRequests

/-- The response that a stream came with. -/
def State.responseOf (s : State) (stream : ℕ) : Option Response :=
  match s.streams[stream]? with
  | some (some st) => some st.headers.response
  | _ => none

def Callback.request : Callback → Option ℕ
  | .url r => some r
  | _ => none

/-- What a pending call posts next. -/
def Call.completion : Call → Option Completion
  | .post c => some c
  | .destroyPost c => some c
  | _ => none

/-- The callback of a request that a pending call still posts. -/
def Call.request : Call → Option ℕ
  | .post c => c.ccb.request
  | .destroyPost c => c.ccb.request
  | .followRedirect ccb _ => ccb.bind Callback.request
  | .destroyNext => none

/-- The request that a post answers with `PP_OK`. -/
def Completion.answers (c : Completion) : Option ℕ :=
  if c.result = ppOk then c.ccb.request else none

def Call.answers (c : Call) : Option ℕ := c.completion.bind Completion.answers

/-- The callback of a request is posted at most once, and it is posted with `PP_OK` only
while the loader has the response of that request; this includes the posts about to be
made. -/
structure OpenAnswered (s : State) : Prop where
  once : ∀ r, (s.posted.filterMap fun p => p.1.ccb.request).count r ≤ 1
  posted : ∀ p ∈ s.posted, ∀ r ∈ p.1.answers, s.responseOf r = some p.2
  pending : ∀ c ∈ s.pending, ∀ r ∈ c.answers, s.responseOf r = some s.response
  redirects : ∀ ccb ccbMl, .followRedirect ccb ccbMl ∈ s.pending → ccb.bind Callback.request = none

/-- The requests about to be answered with `PP_OK`. -/
def State.answering (s : State) : List ℕ := s.pending.filterMap Call.answers

/-- A stream that finds a callback in the loader is the one of its request and follows no
redirect. While an answer is about to be posted, nothing else happens to the response. -/
def ResponseComes (s : State) : Action → Prop
  | .newStream stream ph =>
    (∀ r ∈ s.ccb.bind Callback.request, r = stream ∧ ¬Redirects s ph) ∧
      (Redirects s ph ∨ ∀ r ∈ s.answering, s.responseOf r = some ph.response)
  | .close => s.answering = []
  | .followRedirect _ _ _ => s.answering = []
  | .resumeRedirect _ _ _ => s.answering = []
  | _ => True

instance (s : State) (a : Action) : Decidable (ResponseComes s a) := by
  apply a.casesOn (motive := fun a => Decidable (ResponseComes s a)) <;> intros <;>
    dsimp only [ResponseComes] <;> infer_instance

/-! What the streams came with. -/

/-- The headers of all streams. -/
def State.heads (s : State) : List (Option ParsedHeaders) :=
  s.streams.map (Option.map NPStream.headers)

theorem responseOf_eq (s : State) (r : ℕ) :
    s.responseOf r = (s.heads[r]?.bind id).map ParsedHeaders.response := by
  unfold State.responseOf State.heads
  rw [List.getElem?_map]
  rcases s.streams[r]? with _ | _ | st <;> rfl

theorem awaited_iff (s : State) (r : ℕ) : s.streams[r]? = some none ↔ s.heads[r]? = some none := by
  unfold State.heads
  rw [List.getElem?_map]
  rcases s.streams[r]? with _ | _ | st <;> simp

theorem length_heads (s : State) : s.heads.length = s.streams.length := List.length_map _

/-- The response of a stream has headers. -/
theorem headers_of_responseOf {s : State} {r : ℕ} {response : Response}
    (h : s.responseOf r = some response) : response.headers.isSome = true := by
  unfold State.responseOf at h
  split at h
  · cases h
    rfl
  · cases h

/-- A stream that changes in all but its headers. -/
theorem heads_set {streams : List (Option NPStream)} {stream : ℕ} {st st' : NPStream}
    (h : streams[stream]? = some (some st)) (he : st'.headers = st.headers) :
    (streams.set stream (some st')).map (Option.map NPStream.headers) =
      streams.map (Option.map NPStream.headers) :=
  map_set_of_eq h (congrArg some he)

theorem heads_abortStream (s : State) :
    (abortStream s).map (Option.map NPStream.headers) = s.heads := by
  unfold abortStream State.heads
  split
  · rfl
  · apply List.ext_getElem?
    intro r
    rw [List.getElem?_map,List.getElem?_map,List.getElem?_modify]
    rcases s.streams[r]? with _ | _ | st <;> split_ifs <;> rfl

/-! The callbacks of requests. -/

/-- The requests whose callback was posted, is about to be or is stored. -/
def State.requests (s : State) : List ℕ :=
  s.posted.filterMap (fun p => p.1.ccb.request) ++ s.pending.filterMap Call.request ++
    (s.ccb.bind Callback.request).toList

/-- Each callback is in one place, and the stored one belongs to a request whose stream
has not come. -/
structure Inv (s : State) : Prop where
  nodup : s.requests.Nodup
  known : ∀ r ∈ s.requests, r < s.heads.length
  stored : ∀ r ∈ s.ccb.bind Callback.request, s.heads[r]? = some none

theorem request_of_answers {c : Call} {r : ℕ} (h : r ∈ c.answers) : c.request = some r := by
  have hc : ∀ {k : Completion}, r ∈ k.answers → k.ccb.request = some r := by
    intro k hk
    unfold Completion.answers at hk
    split_ifs at hk
    · exact hk
    · cases hk
  cases c with
  | post k => exact hc h
  | destroyPost k => exact hc h
  | followRedirect ccb ccbMl => cases h
  | destroyNext => cases h

theorem mem_answering {s : State} {r : ℕ} :
    r ∈ s.answering ↔ ∃ c ∈ s.pending, r ∈ c.answers := List.mem_filterMap

/-- A request with an answer about to be posted has a callback in the pending calls. -/
theorem Inv.once {s : State} (h : Inv s) (r : ℕ) :
    (s.posted.filterMap fun p => p.1.ccb.request).count r ≤ 1 :=
  List.nodup_iff_count_le_one.mp (List.nodup_append.mp (List.nodup_append.mp h.nodup).1).1 r

/-- Calls are added, and all answers about to be posted fit the response. -/
theorem OpenAnswered.extend {s t : State} {new : List Call} (h : OpenAnswered s)
    (hp : t.posted = s.posted) (hq : t.pending = s.pending ++ new)
    (hof : ∀ r response, s.responseOf r = some response → t.responseOf r = some response)
    (hold : ∀ r ∈ s.answering, t.responseOf r = some t.response)
    (hnew : ∀ c ∈ new, ∀ r ∈ c.answers, t.responseOf r = some t.response)
    (hred : ∀ ccb ccbMl, .followRedirect ccb ccbMl ∈ new → ccb.bind Callback.request = none) :
    OpenAnswered t := by
  refine ⟨?_,?_,?_,?_⟩
  · rw [hp]
    exact h.once
  · intro p hpm r hr
    rw [hp] at hpm
    exact hof r p.2 (h.posted p hpm r hr)
  · intro c hc r hr
    rw [hq] at hc
    rcases List.mem_append.mp hc with hc | hc
    · exact hold r (mem_answering.mpr ⟨c,hc,hr⟩)
    · exact hnew c hc r hr
  · intro ccb ccbMl hc
    rw [hq] at hc
    rcases List.mem_append.mp hc with hc | hc
    · exact h.redirects ccb ccbMl hc
    · exact hred ccb ccbMl hc

theorem OpenAnswered.answering {s : State} (h : OpenAnswered s) {r : ℕ} (hr : r ∈ s.answering) :
    s.responseOf r = some s.response := by
  obtain ⟨c,hc,hrm⟩ := mem_answering.mp hr
  exact h.pending c hc r hrm

/-- Steps that only add calls which post other callbacks. -/
structure Quiet (s t : State) : Prop where
  heads : t.heads = s.heads
  response : t.response = s.response
  ccb : t.ccb = s.ccb
  posted : t.posted = s.posted
  pending : ∃ new, t.pending = s.pending ++ new ∧ ∀ c ∈ new, c.request = none

theorem Quiet.of_eq {s t : State} (hh : t.heads = s.heads) (hr : t.response = s.response)
    (hc : t.ccb = s.ccb) (hp : t.posted = s.posted) (hq : t.pending = s.pending) : Quiet s t :=
  ⟨hh,hr,hc,hp,[],by rw [hq,List.append_nil],by simp⟩

theorem Quiet.refl (s : State) : Quiet s s := .of_eq rfl rfl rfl rfl rfl

theorem Quiet.trans {s t u : State} (h : Quiet s t) (k : Quiet t u) : Quiet s u := by
  obtain ⟨new,hp,hn⟩ := h.pending
  obtain ⟨new',hp',hn'⟩ := k.pending
  refine ⟨k.heads.trans h.heads,k.response.trans h.response,k.ccb.trans h.ccb,
    k.posted.trans h.posted,new ++ new',?_,?_⟩
  · rw [hp',hp,List.append_assoc]
  · intro c hc
    rcases List.mem_append.mp hc with hc | hc
    · exact hn c hc
    · exact hn' c hc

theorem Quiet.responseOf {s t : State} (h : Quiet s t) (r : ℕ) :
    t.responseOf r = s.responseOf r := by
  rw [responseOf_eq,responseOf_eq,h.heads]

theorem Quiet.requests {s t : State} (h : Quiet s t) : t.requests = s.requests := by
  obtain ⟨new,hp,hn⟩ := h.pending
  have hnew : new.filterMap Call.request = [] := List.filterMap_eq_nil_iff.mpr hn
  unfold State.requests
  rw [h.posted,h.ccb,hp,List.filterMap_append,hnew,List.append_nil]

theorem Inv.quiet {s t : State} (h : Inv s) (hq : Quiet s t) : Inv t := by
  refine ⟨?_,?_,?_⟩
  · rw [hq.requests]
    exact h.nodup
  · rw [hq.requests,hq.heads]
    exact h.known
  · rw [hq.ccb,hq.heads]
    exact h.stored

theorem OpenAnswered.quiet {s t : State} (h : OpenAnswered s) (hq : Quiet s t) :
    OpenAnswered t := by
  obtain ⟨new,hp,hn⟩ := hq.pending
  refine h.extend hq.posted hp ?_ ?_ ?_ ?_
  · intro r response hr
    exact (hq.responseOf r).trans hr
  · intro r hr
    rw [hq.responseOf,hq.response]
    exact h.answering hr
  · intro c hc r hr
    have hnone := hn c hc
    rw [request_of_answers hr] at hnone
    cases hnone
  · intro ccb ccbMl hc
    exact hn _ hc

theorem quiet_call (s : State) {c : Call} (hc : c.request = none) : Quiet s (s.call c) :=
  ⟨rfl,rfl,rfl,rfl,[c],rfl,by simpa using hc⟩

theorem Quiet.of_serves {s t : State} {ended : Prop} (h : Serves ended s t) : Quiet s t := by
  obtain ⟨new,hp,hn⟩ := h.pending
  have hframe := h.frame
  refine ⟨?_,?_,?_,?_,new,hp,?_⟩
  · rw [hframe]
    rfl
  · rw [hframe]
  · rw [hframe]
  · rw [hframe]
  · intro c hc
    obtain ⟨func,ccbMl,result,rfl⟩ := hn c hc
    rfl

theorem quiet_write {s : State} {stream : ℕ} {st : NPStream} (buffer : List UInt8)
    (hst : s.streams[stream]? = some (some st)) : Quiet s (nppWrite s stream st buffer) := by
  rcases write_cases s stream st buffer with ⟨he,_⟩ | ⟨content,_,_,_,he⟩
  · rw [he]
    exact .of_eq (heads_set hst rfl) rfl rfl rfl rfl
  · rw [he]
    refine Quiet.trans ?_ (.of_serves (serves_serveFirst _))
    exact .of_eq (heads_set hst rfl) rfl rfl rfl rfl

theorem quiet_checkStreamToFile (s : State) : Quiet s (checkStreamToFile s) := by
  unfold checkStreamToFile State.callPost
  split_ifs
  · cases s.streamToFileCcb with
    | none => exact .refl s
    | some func => exact quiet_call s rfl
  · exact .refl s

theorem quiet_destroyLoop (s : State) : Quiet s (destroyLoop s) := by
  rcases destroyLoop_cases s with he | ⟨t,func,ccbMl,result,hs,_,he⟩
  · rw [he]
    exact quiet_checkStreamToFile s
  · rw [he]
    exact (Quiet.of_serves hs).trans (quiet_call t rfl)

theorem quiet_destroyStream {s : State} {stream : ℕ} {st : NPStream}
    (hst : s.streams[stream]? = some (some st)) : Quiet s (nppDestroyStream s stream st) := by
  rcases destroyStream_cases s stream st with ⟨npStream,he,_⟩ | ⟨_,_,he⟩
  · rw [he]
    exact .of_eq (heads_set hst rfl) rfl rfl rfl rfl
  · rw [he]
    refine Quiet.trans ?_ (quiet_destroyLoop _)
    exact .of_eq (heads_set hst rfl) rfl rfl rfl rfl

/-! Posts. -/

theorem mem_of_pending {s : State} {i : ℕ} {c d : Call} (h : s.pending[i]? = some c) :
    d ∈ s.pending ↔ d = c ∨ d ∈ (s.withoutCall i).pending :=
  (perm_withoutCall h).mem_iff.trans List.mem_cons

theorem requests_of_pending {s : State} {i : ℕ} {c : Call} (h : s.pending[i]? = some c) :
    (s.pending.filterMap Call.request).Perm
      (c.request.toList ++ (s.withoutCall i).pending.filterMap Call.request) := by
  have hp := (perm_withoutCall h).filterMap Call.request
  rw [List.filterMap_cons] at hp
  cases hr : c.request with
  | none => simpa [hr] using hp
  | some r => simpa [hr] using hp

theorem request_of_completion {c : Call} {k : Completion} (h : c.completion = some k) :
    c.request = k.ccb.request ∧ c.answers = k.answers := by
  cases c with
  | post k' => cases h; exact ⟨rfl,rfl⟩
  | destroyPost k' => cases h; exact ⟨rfl,rfl⟩
  | followRedirect ccb ccbMl => cases h
  | destroyNext => cases h

/-- A post moves its callback from the pending calls to the posted ones. -/
theorem Inv.post {s : State} {i : ℕ} {c : Call} {k : Completion} (h : Inv s)
    (hc : s.pending[i]? = some c) (hk : c.completion = some k) :
    Inv ((s.withoutCall i).post k) := by
  have hperm : s.requests.Perm ((s.withoutCall i).post k).requests := by
    have hp := requests_of_pending hc
    rw [(request_of_completion hk).1] at hp
    have hposted : ((s.withoutCall i).post k).posted.filterMap (fun p => p.1.ccb.request) =
        s.posted.filterMap (fun p => p.1.ccb.request) ++ k.ccb.request.toList := by
      change (s.posted ++ [(k,s.response)]).filterMap _ = _
      rw [List.filterMap_append]
      cases hr : k.ccb.request <;> simp [hr]
    unfold State.requests
    rw [hposted,List.append_assoc (s.posted.filterMap _) k.ccb.request.toList]
    exact (hp.append_left _).append_right _
  exact ⟨hperm.nodup_iff.mp h.nodup,fun r hr => h.known r (hperm.mem_iff.mpr hr),h.stored⟩

theorem OpenAnswered.post {s : State} {i : ℕ} {c : Call} {k : Completion} (h : OpenAnswered s)
    (hi : Inv s) (hc : s.pending[i]? = some c) (hk : c.completion = some k) :
    OpenAnswered ((s.withoutCall i).post k) := by
  refine ⟨(hi.post hc hk).once,?_,?_,?_⟩
  · intro p hp r hr
    rcases List.mem_append.mp hp with hp | hp
    · exact h.posted p hp r hr
    · cases List.mem_singleton.mp hp
      have hr' : r ∈ c.answers := (request_of_completion hk).2 ▸ hr
      exact h.pending c (List.mem_of_getElem? hc) r hr'
  · intro d hd
    exact h.pending d ((mem_of_pending hc).mpr (Or.inr hd))
  · intro ccb ccbMl hd
    exact h.redirects ccb ccbMl ((mem_of_pending hc).mpr (Or.inr hd))

/-- A pending call that posts nothing goes on. -/
theorem Inv.withoutCall {s : State} (h : Inv s) (i : ℕ) : Inv (s.withoutCall i) := by
  have hsub : (s.withoutCall i).requests.Sublist s.requests :=
    (((List.eraseIdx_sublist _ i).filterMap _).append_left _).append_right _
  exact ⟨hsub.nodup h.nodup,fun r hr => h.known r (hsub.subset hr),h.stored⟩

theorem OpenAnswered.withoutCall {s : State} (h : OpenAnswered s) (i : ℕ) :
    OpenAnswered (s.withoutCall i) :=
  ⟨h.once,h.posted,fun d hd => h.pending d (List.mem_of_mem_eraseIdx hd),
    fun ccb ccbMl hd => h.redirects ccb ccbMl (List.mem_of_mem_eraseIdx hd)⟩

/-! Requests. -/

/-- A request is numbered after all others, and its stream has not come. -/
theorem Inv.newRequest {s t : State} (h : Inv s) (hp : t.posted = s.posted)
    (hq : t.pending = s.pending) (hh : t.heads = s.heads ++ [none])
    (hc : ∀ r ∈ t.ccb.bind Callback.request, r = s.heads.length) : Inv t := by
  have hold : (s.posted.filterMap (fun p => p.1.ccb.request) ++
      s.pending.filterMap Call.request).Nodup := (List.nodup_append.mp h.nodup).1
  have hnew : ∀ r ∈ t.requests, r ∈ s.requests ∨ r = s.heads.length := by
    intro r hr
    unfold State.requests at hr ⊢
    rw [hp,hq] at hr
    rcases List.mem_append.mp hr with hr | hr
    · exact Or.inl (List.mem_append_left _ hr)
    · exact Or.inr (hc r (Option.mem_toList.mp hr))
  refine ⟨?_,?_,?_⟩
  · unfold State.requests
    rw [hp,hq]
    refine List.nodup_append.mpr ⟨hold,?_,?_⟩
    · cases t.ccb.bind Callback.request <;> simp
    · intro r hr r' hr' he
      have hlt := h.known r (List.mem_append_left _ hr)
      rw [he,hc r' (Option.mem_toList.mp hr')] at hlt
      exact Nat.lt_irrefl _ hlt
  · intro r hr
    rw [hh,List.length_append,List.length_singleton]
    rcases hnew r hr with hr | hr
    · exact Nat.lt_succ_of_lt (h.known r hr)
    · exact hr ▸ Nat.lt_succ_self _
  · intro r hr
    rw [hc r hr,hh]
    simp

theorem responseOf_append {s t : State} (hh : t.heads = s.heads ++ [none]) (r : ℕ) :
    t.responseOf r = s.responseOf r := by
  rw [responseOf_eq,responseOf_eq,hh]
  by_cases hr : r < s.heads.length
  · rw [List.getElem?_append_left hr]
  · rw [List.getElem?_append_right (Nat.le_of_not_lt hr),
      List.getElem?_eq_none (Nat.le_of_not_lt hr)]
    rcases r-s.heads.length with _ | n <;> rfl

/-- A change of the loader that leaves its response, or takes it where no answer is to be
posted. -/
theorem OpenAnswered.keep {s t : State} (h : OpenAnswered s) (hp : t.posted = s.posted)
    (hq : t.pending = s.pending) (hr : ∀ r, t.responseOf r = s.responseOf r)
    (hresponse : t.response = s.response ∨ s.answering = []) : OpenAnswered t := by
  refine h.extend hp (hq.trans (List.append_nil _).symm) ?_ ?_ nofun nofun
  · intro r response hsome
    exact (hr r).trans hsome
  · intro r hmem
    rcases hresponse with he | he
    · rw [hr,he]
      exact h.answering hmem
    · rw [he] at hmem
      cases hmem

/-- The headers are freed: no answer may be about to be posted. -/
theorem answering_of_freed {t : State} (h : OpenAnswered t) (hf : t.response.headers = none) :
    t.answering = [] := by
  apply List.eq_nil_iff_forall_not_mem.mpr
  intro r hr
  obtain ⟨c,hc,hrm⟩ := mem_answering.mp hr
  have hsome := headers_of_responseOf (h.pending c hc r hrm)
  rw [hf] at hsome
  cases hsome

theorem heads_followRedirect (s : State) (callback : Option Callback) (ml : ℕ) (b : Bool) :
    (ppbUrlLoaderFollowRedirect s callback ml b).heads = s.heads ++ [none] := by
  have h := heads_abortStream s
  unfold State.heads at h ⊢
  rw [← h]
  exact List.map_append

/-! Steps that take the stored callback. -/

/-- The post of a callback, if there is one. -/
def postsOf (ccb : Option Callback) (ccbMl : ℕ) (result : ℤ) : List Call :=
  (ccb.map fun ccb => Call.post ⟨ccb,ccbMl,result⟩).toList

theorem callPost_eq (s : State) (ccb : Option Callback) (ccbMl : ℕ) (result : ℤ) :
    s.callPost ccb ccbMl result = { s with pending := s.pending ++ postsOf ccb ccbMl result } := by
  cases ccb with
  | none => exact congrArg (fun l => { s with pending := l }) (List.append_nil _).symm
  | some ccb => rfl

theorem requests_postsOf (ccb : Option Callback) (ccbMl : ℕ) (result : ℤ) :
    (postsOf ccb ccbMl result).filterMap Call.request = (ccb.bind Callback.request).toList := by
  cases ccb with
  | none => rfl
  | some ccb => cases ccb <;> rfl

theorem callPost_quiet (s : State) {ccb : Option Callback} (ccbMl : ℕ) (result : ℤ)
    (h : ccb.bind Callback.request = none) : Quiet s (s.callPost ccb ccbMl result) := by
  cases ccb with
  | none => exact .refl s
  | some ccb => exact quiet_call s h

theorem mem_answers_postsOf {ccb : Option Callback} {ccbMl : ℕ} {result : ℤ} {r : ℕ} :
    (∃ c ∈ postsOf ccb ccbMl result, r ∈ c.answers) ↔
      result = ppOk ∧ r ∈ ccb.bind Callback.request := by
  cases ccb with
  | none => simp [postsOf]
  | some ccb => simp [postsOf,Call.answers,Call.completion,Completion.answers]

theorem followRedirect_not_mem_postsOf (ccb ccb' : Option Callback) (ccbMl ml : ℕ) (result : ℤ) :
    Call.followRedirect ccb ml ∉ postsOf ccb' ccbMl result := by
  unfold postsOf
  cases ccb' <;> simp

theorem Inv.take {s t : State} {new : List Call} (h : Inv s) (hp : t.posted = s.posted)
    (hq : t.pending = s.pending ++ new)
    (hn : new.filterMap Call.request = (s.ccb.bind Callback.request).toList) (hc : t.ccb = none)
    (hl : t.heads.length = s.heads.length) : Inv t := by
  have he : t.requests = s.requests := by
    unfold State.requests
    rw [hp,hq,hc,List.filterMap_append,hn,← List.append_assoc]
    exact List.append_nil _
  refine ⟨?_,?_,?_⟩
  · rw [he]
    exact h.nodup
  · rw [he,hl]
    exact h.known
  · intro r hr
    rw [hc] at hr
    cases hr

theorem heads_newStream (s : State) (stream : ℕ) (ph : ParsedHeaders) :
    (nppNewStream s stream ph).heads = s.heads.set stream (some ph) := by
  unfold nppNewStream
  dsimp only
  split_ifs
  · exact List.map_set
  · rw [callPost_eq]
    exact List.map_set

theorem newStream_fields (s : State) (stream : ℕ) (ph : ParsedHeaders) :
    (nppNewStream s stream ph).posted = s.posted ∧ (nppNewStream s stream ph).ccb = none ∧
      (nppNewStream s stream ph).pending = s.pending ++
        (if Redirects s ph then [.followRedirect s.ccb s.ccbMl] else postsOf s.ccb s.ccbMl ppOk) ∧
      (nppNewStream s stream ph).response =
        if Redirects s ph then s.response else ph.response := by
  unfold nppNewStream
  dsimp only
  split_ifs
  · exact ⟨rfl,rfl,rfl,rfl⟩
  · rw [callPost_eq]
    exact ⟨rfl,rfl,rfl,rfl⟩

theorem Inv.newStream {s : State} (h : Inv s) (stream : ℕ) (ph : ParsedHeaders) :
    Inv (nppNewStream s stream ph) := by
  obtain ⟨hp,hc,hq,_⟩ := newStream_fields s stream ph
  refine h.take hp hq ?_ hc ?_
  · split_ifs
    · have he : (Call.followRedirect s.ccb s.ccbMl).request = s.ccb.bind Callback.request := rfl
      rw [List.filterMap_cons,he]
      cases s.ccb.bind Callback.request <;> rfl
    · exact requests_postsOf _ _ _
  · rw [heads_newStream,List.length_set]

theorem responseOf_newStream {s : State} {stream : ℕ} (ph : ParsedHeaders)
    (hs : s.streams[stream]? = some none) (r : ℕ) :
    (nppNewStream s stream ph).responseOf r =
      if r = stream then some ph.response else s.responseOf r := by
  have hlt : stream < s.heads.length :=
    (List.getElem?_eq_some_iff.mp ((awaited_iff s stream).mp hs)).1
  rw [responseOf_eq,responseOf_eq,heads_newStream,List.getElem?_set]
  by_cases hr : r = stream
  · subst hr
    simp [hlt]
  · simp [hr,Ne.symm hr]

theorem responseOf_awaited {s : State} {stream : ℕ} (hs : s.streams[stream]? = some none) :
    s.responseOf stream = none := by
  unfold State.responseOf
  rw [hs]

theorem ne_of_responseOf {s : State} {stream r : ℕ} {response : Response}
    (hs : s.streams[stream]? = some none) (hr : s.responseOf r = some response) : r ≠ stream := by
  rintro rfl
  rw [responseOf_awaited hs] at hr
  cases hr

theorem responseOf_newStream_some {s : State} {stream r : ℕ} {response : Response}
    (ph : ParsedHeaders) (hs : s.streams[stream]? = some none)
    (hr : s.responseOf r = some response) :
    (nppNewStream s stream ph).responseOf r = some response := by
  rw [responseOf_newStream ph hs,if_neg (ne_of_responseOf hs hr)]
  exact hr

/-- A redirect is followed: the callback that was taken must not be the plugin's. -/
theorem newStream_redirects_iff {s : State} {stream : ℕ} {ph : ParsedHeaders}
    (h : OpenAnswered s) (hs : s.streams[stream]? = some none) (hred : Redirects s ph) :
    OpenAnswered (nppNewStream s stream ph) ↔ ∀ r ∈ s.ccb.bind Callback.request, False := by
  obtain ⟨hp,_,hq,hresponse⟩ := newStream_fields s stream ph
  rw [if_pos hred] at hq hresponse
  constructor
  · intro ht r hr
    have hnone := ht.redirects s.ccb s.ccbMl (by rw [hq]; simp)
    rw [hnone] at hr
    cases hr
  · intro hno
    refine h.extend hp hq (fun r _ => responseOf_newStream_some ph hs) ?_ ?_ ?_
    · intro r hr
      rw [hresponse]
      exact responseOf_newStream_some ph hs (h.answering hr)
    · intro c hc r hr
      cases List.mem_singleton.mp hc
      cases hr
    · intro ccb ccbMl hc
      cases List.mem_singleton.mp hc
      exact Option.eq_none_iff_forall_not_mem.mpr hno

/-- The response is filled in: the callback that was taken must be of its request, and the
answers about to be posted of the same response. -/
theorem newStream_fills_iff {s : State} {stream : ℕ} {ph : ParsedHeaders} (h : OpenAnswered s)
    (hi : Inv s) (hs : s.streams[stream]? = some none) (hred : ¬Redirects s ph) :
    OpenAnswered (nppNewStream s stream ph) ↔
      (∀ r ∈ s.ccb.bind Callback.request, r = stream) ∧
        ∀ r ∈ s.answering, s.responseOf r = some ph.response := by
  obtain ⟨hp,_,hq,hresponse⟩ := newStream_fields s stream ph
  rw [if_neg hred] at hq hresponse
  have hnew := responseOf_newStream ph hs
  constructor
  · intro ht
    refine ⟨fun r hr => ?_,fun r hr => ?_⟩
    · obtain ⟨c,hc,hrm⟩ : ∃ c ∈ postsOf s.ccb s.ccbMl ppOk, r ∈ c.answers :=
        mem_answers_postsOf.mpr ⟨rfl,hr⟩
      have hsome := ht.pending c (by rw [hq]; exact List.mem_append_right _ hc) r hrm
      by_contra hno
      rw [hnew,if_neg hno,responseOf_awaited ((awaited_iff s r).mpr (hi.stored r hr))] at hsome
      cases hsome
    · obtain ⟨c,hc,hrm⟩ := mem_answering.mp hr
      have hsome := ht.pending c (by rw [hq]; exact List.mem_append_left _ hc) r hrm
      rw [hnew,if_neg (ne_of_responseOf hs (h.answering hr)),hresponse] at hsome
      exact hsome
  · rintro ⟨hstored,hanswering⟩
    refine h.extend hp hq (fun r _ => responseOf_newStream_some ph hs) ?_ ?_ ?_
    · intro r hr
      rw [hresponse]
      exact responseOf_newStream_some ph hs (hanswering r hr)
    · intro c hc r hr
      have hstoredr := (mem_answers_postsOf.mp ⟨c,hc,hr⟩).2
      rw [hnew,hresponse,if_pos (hstored r hstoredr)]
    · intro ccb ccbMl hc
      exact absurd hc (followRedirect_not_mem_postsOf _ _ _ _ _)

/-- The stream of a request comes: exactly under the condition on it do the callbacks in
hand fit the response the loader then has. -/
theorem newStream_answered_iff {s : State} {stream : ℕ} {ph : ParsedHeaders} (h : OpenAnswered s)
    (hi : Inv s) (hs : s.streams[stream]? = some none) :
    OpenAnswered (nppNewStream s stream ph) ↔ ResponseComes s (.newStream stream ph) := by
  by_cases hred : Redirects s ph
  · rw [newStream_redirects_iff h hs hred]
    exact ⟨fun hno => ⟨fun r hr => (hno r hr).elim,Or.inl hred⟩,
      fun hc r hr => (hc.1 r hr).2 hred⟩
  · rw [newStream_fills_iff h hi hs hred]
    exact ⟨fun hc => ⟨fun r hr => ⟨hc.1 r hr,hred⟩,Or.inr hc.2⟩,
      fun hc => ⟨fun r hr => (hc.1 r hr).1,hc.2.resolve_left hred⟩⟩

theorem urlNotify_answered {s : State} (reason : NPReason) (hi : Inv s) :
    Inv (nppUrlNotify s reason) ∧ (OpenAnswered s → OpenAnswered (nppUrlNotify s reason)) := by
  unfold nppUrlNotify
  split_ifs
  · rw [callPost_eq]
    have ht : Inv { s with
        ccb := none, pending := s.pending ++ postsOf s.ccb s.ccbMl ppErrorFailed } :=
      hi.take rfl rfl (requests_postsOf _ _ _) rfl rfl
    refine ⟨ht,fun h => h.extend rfl rfl (fun _ _ hr => hr) (fun r hr => h.answering hr) ?_ ?_⟩
    · intro c hc r hr
      have hok := (mem_answers_postsOf.mp ⟨c,hc,hr⟩).1
      exact absurd hok (by decide)
    · intro ccb ccbMl hc
      exact absurd hc (followRedirect_not_mem_postsOf _ _ _ _ _)
  · exact ⟨hi,id⟩

theorem followRedirect_answered {s : State} {callback : Option Callback} (ml : ℕ) (b : Bool)
    (hi : Inv s) (hc : ∀ r ∈ callback.bind Callback.request, r = s.heads.length) :
    Inv (ppbUrlLoaderFollowRedirect s callback ml b) ∧ (OpenAnswered s →
      (OpenAnswered (ppbUrlLoaderFollowRedirect s callback ml b) ↔ s.answering = [])) := by
  have hheads := heads_followRedirect s callback ml b
  have ht : Inv (ppbUrlLoaderFollowRedirect s callback ml b) := hi.newRequest rfl rfl hheads hc
  refine ⟨ht,fun h => ⟨fun hft => ?_,fun hn => ?_⟩⟩
  · have hnil := answering_of_freed hft rfl
    exact hnil
  · exact h.keep rfl rfl (responseOf_append hheads) (Or.inr hn)

/-- The rest of `NPP_NewStream` where it follows a redirect. -/
theorem resumeRedirect_answered {s t : State} {i ml : ℕ} {b : Bool} {c : Call} (hi : Inv s)
    (hc : s.pending[i]? = some c) (ht : resumeRedirect (s.withoutCall i) ml b c = some t) :
    Inv t ∧ (OpenAnswered s → (OpenAnswered t ↔ s.answering = [])) := by
  cases c with
  | followRedirect ccb ccbMl =>
    cases ht
    let u := ppbUrlLoaderFollowRedirect (s.withoutCall i) (some .doNothing) ml b
    have hheads : u.heads = s.heads ++ [none] := heads_followRedirect _ _ _ _
    have hu : Inv u := (followRedirect_answered ml b (hi.withoutCall i)
      fun r hr => (by cases hr)).1
    have hperm : (u.callPost ccb ccbMl ppOk).requests.Perm
        (s.posted.filterMap (fun p => p.1.ccb.request) ++ s.pending.filterMap Call.request) := by
      have hp := (requests_of_pending hc).symm
      rw [callPost_eq]
      unfold State.requests
      dsimp only
      rw [List.filterMap_append,requests_postsOf]
      exact (List.append_nil _).symm ▸ (List.perm_append_comm.trans hp).append_left _
    have ht : Inv (u.callPost ccb ccbMl ppOk) := by
      have hold := List.sublist_append_left (s.posted.filterMap (fun p => p.1.ccb.request) ++
        s.pending.filterMap Call.request) (s.ccb.bind Callback.request).toList
      rw [callPost_eq] at hperm ⊢
      refine ⟨hperm.nodup_iff.mpr (hold.nodup hi.nodup),fun r hr => ?_,hu.stored⟩
      have hlt := hi.known r (hold.subset (hperm.mem_iff.mp hr))
      have hl : u.heads.length = s.heads.length+1 := by rw [hheads]; simp
      exact hl ▸ Nat.lt_succ_of_lt hlt
    refine ⟨ht,fun h => ?_⟩
    have hnone := h.redirects ccb ccbMl (List.mem_of_getElem? hc)
    constructor
    · intro hft
      have hnil : (u.callPost ccb ccbMl ppOk).answering = [] := by
        apply answering_of_freed hft
        rw [callPost_eq]
        rfl
      refine List.eq_nil_iff_forall_not_mem.mpr fun r hr => ?_
      obtain ⟨d,hd,hrd⟩ := mem_answering.mp hr
      rcases (mem_of_pending hc).mp hd with rfl | hd
      · cases hrd
      · have hmem : r ∈ (u.callPost ccb ccbMl ppOk).answering := by
          refine mem_answering.mpr ⟨d,?_,hrd⟩
          rw [callPost_eq]
          exact List.mem_append_left _ hd
        rw [hnil] at hmem
        cases hmem
    · intro hn
      have hn' : (s.withoutCall i).answering = [] :=
        List.sublist_nil.mp (hn ▸ (List.eraseIdx_sublist _ i).filterMap _)
      have hu' : OpenAnswered u := (h.withoutCall i).keep rfl rfl
        (responseOf_append hheads) (Or.inr hn')
      exact hu'.quiet (callPost_quiet u ccbMl ppOk hnone)
  | post k => cases ht
  | destroyPost k => cases ht
  | destroyNext => cases ht

theorem resume_answered {s t : State} {i : ℕ} {c : Call} (hi : Inv s)
    (hc : s.pending[i]? = some c) (ht : resume (s.withoutCall i) c = some t) :
    Inv t ∧ (OpenAnswered s → OpenAnswered t) := by
  cases c with
  | post k =>
    cases ht
    exact ⟨hi.post hc rfl,fun h => h.post hi hc rfl⟩
  | destroyPost k =>
    cases ht
    have hq := quiet_call ((s.withoutCall i).post k) (c := .destroyNext) rfl
    exact ⟨(hi.post hc rfl).quiet hq,fun h => (h.post hi hc rfl).quiet hq⟩
  | destroyNext =>
    cases ht
    have hq := quiet_destroyLoop (s.withoutCall i)
    exact ⟨(hi.withoutCall i).quiet hq,fun h => (h.withoutCall i).quiet hq⟩
  | followRedirect ccb ccbMl => cases ht

/-- What a step does to the callbacks of requests and the response. -/
theorem step_answered {s t : State} {a : Action} (hi : Inv s) (ht : step s a = some t) :
    Inv t ∧ (OpenAnswered s → (OpenAnswered t ↔ ResponseComes s a)) := by
  have hkeeps : ∀ {u : State} {b : Action}, ResponseComes s b →
      Inv u ∧ (OpenAnswered s → OpenAnswered u) →
      Inv u ∧ (OpenAnswered s → (OpenAnswered u ↔ ResponseComes s b)) :=
    fun hr h => ⟨h.1,fun hs => ⟨fun _ => hr,fun _ => h.2 hs⟩⟩
  have hquiet : ∀ {u : State}, Quiet s u → Inv u ∧ (OpenAnswered s → OpenAnswered u) :=
    fun hq => ⟨hi.quiet hq,fun h => h.quiet hq⟩
  cases a with
  | «open» followRedirects streamToFile callback ml b =>
    cases ht
    have hheads : (ppbUrlLoaderOpenTarget s followRedirects streamToFile callback ml b).heads =
        s.heads ++ [none] := List.map_append
    refine hkeeps trivial ?_
    have hu : Inv (ppbUrlLoaderOpenTarget s followRedirects streamToFile callback ml b) := by
      refine hi.newRequest rfl rfl hheads fun r hr => ?_
      cases callback <;> cases hr
      exact (length_heads s).symm
    exact ⟨hu,fun h => h.keep rfl rfl (responseOf_append hheads) (Or.inl rfl)⟩
  | followRedirect callback ml b =>
    cases ht
    refine followRedirect_answered ml b hi fun r hr => ?_
    cases callback <;> cases hr
    exact (length_heads s).symm
  | close =>
    cases ht
    have hu : Inv (ppbUrlLoaderClose s) := ⟨hi.nodup,hi.known,hi.stored⟩
    refine ⟨hu,fun h => ⟨fun hft => ?_,fun hn => ?_⟩⟩
    · have hnil := answering_of_freed hft rfl
      exact hnil
    · exact h.keep rfl rfl (fun _ => rfl) (Or.inr hn)
  | readResponseBody bytesToRead optional func ml =>
    cases ht
    exact hkeeps trivial (hquiet (.of_serves (serves_readResponseBody s bytesToRead optional func ml)))
  | finishStreamingToFile func ml =>
    cases ht
    refine hkeeps trivial (hquiet ?_)
    unfold ppbUrlLoaderFinishStreamingToFile
    split_ifs
    · exact .of_eq rfl rfl rfl rfl rfl
    · exact .refl s
  | newStream stream ph =>
    simp only [step] at ht
    split_ifs at ht with hs
    cases ht
    exact ⟨hi.newStream stream ph,fun h => newStream_answered_iff h hi hs⟩
  | write stream buffer =>
    obtain ⟨st,hst,rfl⟩ := Option.map_eq_some_iff.mp ht
    exact hkeeps trivial (hquiet (quiet_write buffer (running_iff.mp hst).1))
  | destroyStream stream =>
    obtain ⟨st,hst,rfl⟩ := Option.map_eq_some_iff.mp ht
    exact hkeeps trivial (hquiet (quiet_destroyStream (running_iff.mp hst).1))
  | urlNotify reason =>
    cases ht
    exact hkeeps trivial (urlNotify_answered reason hi)
  | urlRedirectNotify url =>
    cases ht
    exact hkeeps trivial (hquiet (.of_eq rfl rfl rfl rfl rfl))
  | resume i =>
    obtain ⟨c,hc,ht⟩ := Option.bind_eq_some_iff.mp ht
    exact hkeeps trivial (resume_answered hi hc ht)
  | resumeRedirect i ml b =>
    obtain ⟨c,hc,ht⟩ := Option.bind_eq_some_iff.mp ht
    exact resumeRedirect_answered hi hc ht

theorem Inv.create : Inv .create := ⟨.nil,nofun,nofun⟩

theorem OpenAnswered.create : OpenAnswered .create := ⟨fun _ => Nat.zero_le _,nofun,nofun,nofun⟩

/-- In every run the callbacks of Open and FollowRedirect are posted at most once, with
`PP_OK` only while the loader has the response of their request, exactly if every stream
that finds one in the loader is the one of its request and follows no redirect, and the
response stays until the post is made. -/
theorem open_answered_iff {ls : List Action} {u : State}
    (hr : machine.exec machine.start ls = some u) :
    machine.AlwaysFrom OpenAnswered machine.start ls ↔
      machine.EachFrom ResponseComes machine.start ls :=
  Machine.always_iff_each Inv (fun _ _ _ hi ht => (step_answered hi ht).1)
    (fun _ _ _ hi h ht => (step_answered hi ht).2 h) .create .create hr

/-- A redirect is followed automatically, and then Open is completed. -/
def redirectedOpen : List Action :=
  [.open true false true 0 true,.urlRedirectNotify [47],.newStream 0 ⟨[],none,302⟩,
    .resumeRedirect 0 0 true,.resume 0]

theorem redirectedOpen_unanswered : ¬∀ (ls : List Action) (u : State),
    machine.exec machine.start ls = some u → OpenAnswered u := by
  intro h
  have hposted := (h redirectedOpen _ rfl).posted
  exact absurd (hposted (⟨.url 0,0,ppOk⟩,⟨none,none,0⟩) (by decide) 0 (by decide)) (by decide)

/-- The plugin follows a redirect, and reads the second response. -/
theorem redirectedByPlugin_answered : machine.AlwaysFrom OpenAnswered machine.start
    [.open false false true 0 true,.urlRedirectNotify [47],.newStream 0 ⟨[],none,302⟩,.resume 0,
      .followRedirect true 0 true,.destroyStream 0,.readResponseBody 9 false 5 0,
      .newStream 1 ⟨[([65],[66])],some [72],200⟩,.resume 0,.write 1 [1,2],.resume 0,
      .destroyStream 1,.urlNotify .done,.close] :=
  (open_answered_iff rfl).mpr (by decide)

end UrlRequests
end FreshPlayer
