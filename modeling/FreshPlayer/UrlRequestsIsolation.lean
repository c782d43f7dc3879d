import FreshPlayer.UrlRequestsServing

/-! What is read from a loader that makes several requests. The stream of an earlier
request stays linked to the loader when Open starts another one, and the mark of a
finished load is never taken back. -/
namespace FreshPlayer
namespace UrlRequests

/-- Written by the stream of the last of `n` requests. -/
def FileByte.Latest (n : ℕ) (b : FileByte) : Prop := ∃ r ∈ b.writer, r+1 = n

instance (n : ℕ) (b : FileByte) : Decidable (b.Latest n) :=
  inferInstanceAs (Decidable (∃ r ∈ b.writer, r+1 = n))

/-- Reads were given bytes of the latest request, and none only after its stream was
destroyed. So the file has only such bytes, and a load is marked as finished only then. -/
structure Isolated (s : State) : Prop where
  bytes : ∀ d ∈ s.reads, ∀ b ∈ d.bytes, b.Latest d.requests
  ends : ∀ d ∈ s.reads, d.bytes = [] → d.destroyed = true
  file : ∀ content ∈ s.file, ∀ b ∈ content, b.Latest s.streams.length
  finished : s.finishedLoading = true → s.latestDestroyed = true

/-- No request is made of a loader marked as finished, and no stream of an earlier request
that is linked to it writes to its file or ends its load. -/
def OnlyLatest (s : State) : Action → Prop
  | .open _ _ _ _ _ => s.finishedLoading = false
  | .followRedirect _ _ _ => s.finishedLoading = false
  | .resumeRedirect _ _ _ => s.finishedLoading = false
  | .write stream buffer => ∀ st ∈ s.running stream, st.pdata = true → s.file.isSome = true →
      buffer ≠ [] → stream+1 = s.streams.length
  | .destroyStream stream => ∀ st ∈ s.running stream, st.pdata = true → s.redirectUrl = none →
      stream+1 = s.streams.length ∨ s.latestDestroyed = true
  | _ => True

instance (s : State) (a : Action) : Decidable (OnlyLatest s a) := by
  apply a.casesOn (motive := fun a => Decidable (OnlyLatest s a)) <;> intros <;>
    dsimp only [OnlyLatest] <;> infer_instance

/-- `NPP_DestroyStream` has not left its loop. -/
def Call.isDestroy : Call → Bool
  | .destroyPost _ => true
  | .destroyNext => true
  | _ => false

/-- The latest stream wrote its bytes one after the other, and a stream is in the loop of
`NPP_DestroyStream` only once the load is marked as finished. -/
structure StreamInv (s : State) : Prop where
  delivered : ∀ content ∈ s.file, ∀ st, s.streams.getLast? = some (some st) → st.pdata = true →
    st.delivered ≤ content.length
  destroying : ∀ c ∈ s.pending, c.isDestroy = true → s.finishedLoading = true

/-! The latest stream. -/

theorem getLast?_set {streams : List (Option NPStream)} {stream : ℕ} (x : Option NPStream)
    (h : stream < streams.length) : (streams.set stream x).getLast? =
      if stream+1 = streams.length then some x else streams.getLast? := by
  rw [List.getLast?_eq_getElem?,List.getLast?_eq_getElem?,List.length_set,List.getElem?_set]
  split_ifs <;> first | rfl | omega

theorem lt_of_stream {s : State} {stream : ℕ} {x : Option NPStream}
    (h : s.streams[stream]? = some x) : stream < s.streams.length :=
  (List.getElem?_eq_some_iff.mp h).1

theorem latest_of_stream {s : State} {stream : ℕ} (h : stream+1 = s.streams.length) :
    s.streams.getLast? = s.streams[stream]? := by
  rw [List.getLast?_eq_getElem?]
  congr 1
  omega

/-- A stream that comes, or goes on, is not destroyed by that. -/
theorem latestDestroyed_set {s t : State} {stream : ℕ} {x y : Option NPStream}
    (hx : s.streams[stream]? = some x) (ht : t.streams = s.streams.set stream y)
    (hxy : y.any NPStream.destroyed = x.any NPStream.destroyed) :
    t.latestDestroyed = s.latestDestroyed := by
  have hmatch : ∀ u : State, u.latestDestroyed =
      (u.streams.getLast?.bind id).any NPStream.destroyed := by
    intro u
    unfold State.latestDestroyed
    rcases u.streams.getLast? with _ | _ | st <;> rfl
  rw [hmatch,hmatch,ht,getLast?_set y (lt_of_stream hx)]
  split_ifs with hl
  · rw [latest_of_stream hl,hx]
    exact hxy
  · rfl

theorem latestDestroyed_congr {s t : State} (h : t.streams = s.streams) :
    t.latestDestroyed = s.latestDestroyed := by
  unfold State.latestDestroyed
  rw [h]

/-! Frames. -/

theorem Isolated.of_eq {s t : State} (h : Isolated s) (hr : t.reads = s.reads)
    (hf : t.file = s.file) (hl : t.streams.length = s.streams.length)
    (hd : t.latestDestroyed = s.latestDestroyed)
    (hfin : t.finishedLoading = s.finishedLoading) : Isolated t where
  bytes := by rw [hr]; exact h.bytes
  ends := by rw [hr]; exact h.ends
  file := by rw [hf,hl]; exact h.file
  finished := by rw [hfin,hd]; exact h.finished

theorem Isolated.call {s : State} (h : Isolated s) (c : Call) : Isolated (s.call c) :=
  h.of_eq rfl rfl rfl rfl rfl

theorem StreamInv.call {s : State} (h : StreamInv s) {c : Call}
    (hc : c.isDestroy = true → s.finishedLoading = true) : StreamInv (s.call c) where
  delivered := h.delivered
  destroying d hd hdc := by
    rcases List.mem_append.mp hd with hd | hd
    · exact h.destroying d hd hdc
    · exact hc (List.mem_singleton.mp hd ▸ hdc)

/-! What the functions keep. -/

/-- Reads are served from the file, and no bytes are given only where a load is marked. -/
theorem serves_isolated {s t : State} {ended : Prop} (hi : StreamInv s) (h : Serves ended s t)
    (hend : ended → s.finishedLoading = true) :
    StreamInv t ∧ (Isolated s → Isolated t) := by
  obtain ⟨calls,hp,hcalls⟩ := h.pending
  obtain ⟨new,hr,hnew⟩ := h.reads
  have hframe := h.frame
  have hfile : t.file = s.file := by rw [hframe]
  have hstreams : t.streams = s.streams := by rw [hframe]
  have hfin : t.finishedLoading = s.finishedLoading := by rw [hframe]
  refine ⟨⟨?_,fun c hc hd => ?_⟩,fun hiso => ⟨fun d hd b hb => ?_,fun d hd hnil => ?_,?_,?_⟩⟩
  · rw [hfile,hstreams]
    exact hi.delivered
  · rw [hp] at hc
    rw [hfin]
    rcases List.mem_append.mp hc with hc | hc
    · exact hi.destroying c hc hd
    · obtain ⟨func,ccbMl,result,rfl⟩ := hcalls c hc
      cases hd
  · rw [hr] at hd
    rcases List.mem_append.mp hd with hd | hd
    · exact hiso.bytes d hd b hb
    · obtain ⟨hrequests,_,hbytes,_⟩ := hnew d hd
      obtain ⟨content,hc,hbc⟩ := hbytes b hb
      rw [hrequests]
      exact hiso.file content hc b hbc
  · rw [hr] at hd
    rcases List.mem_append.mp hd with hd | hd
    · exact hiso.ends d hd hnil
    · obtain ⟨_,hdestroyed,_,hempty⟩ := hnew d hd
      rw [hdestroyed]
      exact hiso.finished (hend (hempty hnil))
  · rw [hfile,hstreams]
    exact hiso.file
  · rw [hfin,latestDestroyed_congr hstreams]
    exact hiso.finished

theorem checkStreamToFile_isolated {s : State} (hi : StreamInv s) :
    StreamInv (checkStreamToFile s) ∧ (Isolated s → Isolated (checkStreamToFile s)) := by
  unfold checkStreamToFile State.callPost
  split_ifs
  · cases s.streamToFileCcb with
    | none => exact ⟨hi,id⟩
    | some func => exact ⟨hi.call nofun,fun h => h.call _⟩
  · exact ⟨hi,id⟩

/-- The loop of `NPP_DestroyStream` serves reads of a load that is marked as finished. -/
theorem destroyLoop_isolated {s : State} (hi : StreamInv s) (hfin : s.finishedLoading = true) :
    StreamInv (destroyLoop s) ∧ (Isolated s → Isolated (destroyLoop s)) := by
  rcases destroyLoop_cases s with he | ⟨t,func,ccbMl,result,hs,_,he⟩
  · rw [he]
    exact checkStreamToFile_isolated hi
  · rw [he]
    obtain ⟨ht,hk⟩ := serves_isolated hi hs fun _ => hfin
    have htfin : t.finishedLoading = true := by
      rw [hs.frame]
      exact hfin
    exact ⟨ht.call fun _ => htfin,fun h => (hk h).call _⟩

theorem le_length_writeAt (content buffer : List FileByte) (offset : ℕ) :
    offset+buffer.length ≤ (writeAt content offset buffer).length ∧
      content.length ≤ (writeAt content offset buffer).length := by
  unfold writeAt
  simp only [List.length_append,List.length_take,List.length_replicate,List.length_drop]
  omega

theorem mem_writeAt_of_mem {content buffer : List FileByte} {offset : ℕ} {b : FileByte}
    (h : b ∈ buffer) : b ∈ writeAt content offset buffer := by
  unfold writeAt
  exact List.mem_append_left _ (List.mem_append_right _ h)

/-- Bytes written where those before end leave no hole. -/
theorem mem_writeAt_of_le {content buffer : List FileByte} {offset : ℕ} {b : FileByte}
    (h : offset ≤ content.length) (hb : b ∈ writeAt content offset buffer) :
    b ∈ content ∨ b ∈ buffer := by
  have hno : content.take offset ++ List.replicate (offset-content.length) ⟨0,none⟩ =
      content.take offset := by
    rw [Nat.sub_eq_zero_of_le h,List.replicate_zero,List.append_nil]
  unfold writeAt at hb
  rw [hno] at hb
  rcases List.mem_append.mp hb with hb | hb
  · rcases List.mem_append.mp hb with hb | hb
    · exact Or.inl (List.mem_of_mem_take hb)
    · exact Or.inr hb
  · exact Or.inl (List.mem_of_mem_drop hb)

theorem destroyLoop_fields (s : State) : (destroyLoop s).streams = s.streams ∧
    (destroyLoop s).finishedLoading = s.finishedLoading := by
  rcases destroyLoop_cases s with he | ⟨t,func,ccbMl,result,hs,_,he⟩
  · rw [he]
    unfold checkStreamToFile State.callPost
    split
    · split <;> exact ⟨rfl,rfl⟩
    · exact ⟨rfl,rfl⟩
  · rw [he,hs.frame]
    exact ⟨rfl,rfl⟩

/-- A stream writes: the file stays one of the latest request exactly if that stream is
the one of the latest request, or nothing is written. -/
theorem write_isolated {s : State} {stream : ℕ} {st : NPStream} (hi : StreamInv s)
    (hst : s.streams[stream]? = some (some st)) (buffer : List UInt8) :
    StreamInv (nppWrite s stream st buffer) ∧ (Isolated s →
      (Isolated (nppWrite s stream st buffer) ↔ (st.pdata = true → s.file.isSome = true →
        buffer ≠ [] → stream+1 = s.streams.length))) := by
  let st' : NPStream := { st with delivered := st.delivered+buffer.length }
  have hlt := lt_of_stream hst
  have hlatest : ∀ file, State.latestDestroyed { s with
      streams := s.streams.set stream (some st'), file := file } = s.latestDestroyed :=
    fun file => latestDestroyed_set hst rfl rfl
  rcases write_cases s stream st buffer with ⟨he,hno⟩ | ⟨content,hc,hp,hne,he⟩
  · rw [he]
    refine ⟨⟨fun content hc x hx hp => ?_,hi.destroying⟩,
      fun h => ⟨fun _ hp hf hne => ?_,fun _ => ?_⟩⟩
    · rw [getLast?_set _ hlt] at hx
      split_ifs at hx with hl
      · cases hx
        have hd := hi.delivered content hc st ((latest_of_stream hl).trans hst) hp
        have hnil := hno hp (Option.isSome_iff_exists.mpr ⟨content,hc⟩)
        simpa [hnil] using hd
      · exact hi.delivered content hc x hx hp
    · exact absurd (hno hp hf) hne
    · exact h.of_eq rfl rfl (List.length_set ..) (hlatest s.file) rfl
  · rw [he]
    let new := buffer.map fun b => FileByte.mk b (some stream)
    let u : State := { s with
      streams := s.streams.set stream (some st')
      file := some (writeAt content st.delivered new) }
    have hlen : new.length = buffer.length := List.length_map _
    have hlength : u.streams.length = s.streams.length := List.length_set ..
    have hu : StreamInv u := by
      refine ⟨fun content' hc' x hx hpx => ?_,hi.destroying⟩
      cases hc'
      obtain ⟨hwritten,hold⟩ := le_length_writeAt content new st.delivered
      rw [getLast?_set _ hlt] at hx
      split_ifs at hx with hl
      · cases hx
        rw [hlen] at hwritten
        exact hwritten
      · exact (hi.delivered content hc x hx hpx).trans hold
    have hserves := serves_serveFirst u
    obtain ⟨ht,hk⟩ := serves_isolated hu hserves False.elim
    refine ⟨ht,fun h => ⟨fun hiso _ _ _ => ?_,fun hl => hk ?_⟩⟩
    · obtain ⟨b,rest,rfl⟩ := List.exists_cons_of_ne_nil hne
      have hmem : ⟨b,some stream⟩ ∈ writeAt content st.delivered new :=
        mem_writeAt_of_mem List.mem_cons_self
      have hfile : (serveFirst u).file = some (writeAt content st.delivered new) := by
        rw [hserves.frame]
      have hstreams : (serveFirst u).streams = u.streams := by rw [hserves.frame]
      obtain ⟨r,hr,hrl⟩ := hiso.file _ hfile _ hmem
      cases hr
      rw [hrl,hstreams,hlength]
    · have hlast := hl hp (Option.isSome_iff_exists.mpr ⟨content,hc⟩) hne
      have hd := hi.delivered content hc st ((latest_of_stream hlast).trans hst) hp
      refine ⟨h.bytes,h.ends,fun content' hc' b hb => ?_,fun hfin => ?_⟩
      · cases hc'
        rw [hlength]
        rcases mem_writeAt_of_le hd hb with hb | hb
        · exact h.file content hc b hb
        · obtain ⟨x,_,rfl⟩ := List.mem_map.mp hb
          exact ⟨stream,rfl,hlast⟩
      · exact (hlatest _).trans (h.finished hfin)

/-- The browser is done with a stream. -/
theorem latestDestroyed_destroy {s t : State} {stream : ℕ} {st : NPStream}
    (hst : s.streams[stream]? = some (some st))
    (ht : t.streams = s.streams.set stream (some { st with destroyed := true })) :
    t.latestDestroyed = true ↔ stream+1 = s.streams.length ∨ s.latestDestroyed = true := by
  unfold State.latestDestroyed
  rw [ht,getLast?_set _ (lt_of_stream hst)]
  split_ifs with hl
  · simp [hl]
  · simp [hl]

/-- A stream is destroyed: the mark stays one of the latest request exactly if that
request has no stream left to come, or the loader is not marked. -/
theorem destroyStream_isolated {s : State} {stream : ℕ} {st : NPStream} (hi : StreamInv s)
    (hst : s.streams[stream]? = some (some st)) :
    StreamInv (nppDestroyStream s stream st) ∧ (Isolated s →
      (Isolated (nppDestroyStream s stream st) ↔ (st.pdata = true → s.redirectUrl = none →
        stream+1 = s.streams.length ∨ s.latestDestroyed = true))) := by
  let streams := s.streams.set stream (some { st with destroyed := true })
  have hlt := lt_of_stream hst
  have hdelivered : ∀ content ∈ s.file, ∀ x, streams.getLast? = some (some x) → x.pdata = true →
      x.delivered ≤ content.length := by
    intro content hc x hx hp
    rw [getLast?_set _ hlt] at hx
    split_ifs at hx with hl
    · cases hx
      exact hi.delivered content hc st ((latest_of_stream hl).trans hst) hp
    · exact hi.delivered content hc x hx hp
  have hunmarked : ∀ npStream, StreamInv { s with streams := streams, npStream := npStream } ∧
      (Isolated s → Isolated { s with streams := streams, npStream := npStream }) := by
    intro npStream
    refine ⟨⟨hdelivered,hi.destroying⟩,fun h => ⟨h.bytes,h.ends,?_,fun hfin => ?_⟩⟩
    · rw [List.length_set]
      exact h.file
    · exact (latestDestroyed_destroy hst rfl).mpr (Or.inr (h.finished hfin))
  rcases destroyStream_cases s stream st with ⟨npStream,he,hno⟩ | ⟨hp,hurl,he⟩
  · rw [he]
    exact ⟨(hunmarked npStream).1,fun h => ⟨fun _ hp hnone => absurd hnone (hno hp),
      fun _ => (hunmarked npStream).2 h⟩⟩
  · rw [he]
    let u : State := { s with streams := streams, npStream := none, finishedLoading := true }
    have hu : StreamInv u := ⟨hdelivered,fun _ _ _ => rfl⟩
    obtain ⟨ht,hk⟩ := destroyLoop_isolated hu rfl
    obtain ⟨hstreams,hfin⟩ := destroyLoop_fields u
    have hlatest := latestDestroyed_destroy (t := u) hst rfl
    refine ⟨ht,fun h => ⟨fun hiso _ _ => ?_,fun hl => hk ?_⟩⟩
    · have hdone := hiso.finished hfin
      rw [latestDestroyed_congr hstreams] at hdone
      exact hlatest.mp hdone
    · refine ⟨h.bytes,h.ends,?_,fun _ => hlatest.mpr (hl hp hurl)⟩
      rw [List.length_set]
      exact h.file

/-- A request starts with an empty file, but the mark is left as it is. -/
theorem newRequest_isolated {s t : State} {streams : List (Option NPStream)} {b : Bool}
    (hi : StreamInv s) (hs : t.streams = streams ++ [none]) (hf : t.file = openTemporaryFile b)
    (hr : t.reads = s.reads) (hfin : t.finishedLoading = s.finishedLoading)
    (hp : ∀ c ∈ t.pending, c.isDestroy = true → c ∈ s.pending) :
    StreamInv t ∧ (Isolated s → (Isolated t ↔ s.finishedLoading = false)) := by
  have hlast : t.streams.getLast? = some none := by rw [hs]; simp
  have hempty : ∀ content ∈ t.file, content = [] := by
    intro content hc
    rw [hf] at hc
    unfold openTemporaryFile at hc
    split_ifs at hc <;> cases hc
    rfl
  have hlatest : t.latestDestroyed = false := by
    unfold State.latestDestroyed
    rw [hlast]
  refine ⟨⟨fun content _ st hst => ?_,fun c hc hd => ?_⟩,fun h => ⟨fun ht => ?_,fun hno => ?_⟩⟩
  · rw [hlast] at hst
    cases hst
  · rw [hfin]
    exact hi.destroying c (hp c hc hd) hd
  · by_contra hyes
    have hdone := ht.finished (hfin.trans (by simpa using hyes))
    rw [hlatest] at hdone
    cases hdone
  · refine ⟨hr ▸ h.bytes,hr ▸ h.ends,fun content hc b hb => ?_,fun hyes => ?_⟩
    · rw [hempty content hc] at hb
      cases hb
    · rw [hfin,hno] at hyes
      cases hyes

theorem newStream_isolated {s : State} {stream : ℕ} (ph : ParsedHeaders) (hi : StreamInv s)
    (hs : s.streams[stream]? = some none) : StreamInv (nppNewStream s stream ph) ∧
      (Isolated s → Isolated (nppNewStream s stream ph)) := by
  have hnew : ∀ response, StreamInv { s with
        ccb := none, npStream := some stream, response := response
        streams := s.streams.set stream (some ⟨ph,true,0,false⟩) } ∧
      (Isolated s → Isolated { s with
        ccb := none, npStream := some stream, response := response
        streams := s.streams.set stream (some ⟨ph,true,0,false⟩) }) := by
    intro response
    refine ⟨⟨fun content hc x hx hp => ?_,hi.destroying⟩,fun h => ?_⟩
    · rw [getLast?_set _ (lt_of_stream hs)] at hx
      split_ifs at hx
      · cases hx
        exact Nat.zero_le _
      · exact hi.delivered content hc x hx hp
    · exact h.of_eq rfl rfl (List.length_set ..) (latestDestroyed_set hs rfl rfl) rfl
  unfold nppNewStream State.callPost
  dsimp only
  split
  · obtain ⟨ht,hk⟩ := hnew s.response
    exact ⟨ht.call nofun,fun h => (hk h).call _⟩
  · obtain ⟨ht,hk⟩ := hnew ph.response
    split
    · exact ⟨ht,hk⟩
    · exact ⟨ht.call nofun,fun h => (hk h).call _⟩

theorem StreamInv.withoutCall {s : State} (h : StreamInv s) (i : ℕ) :
    StreamInv (s.withoutCall i) :=
  ⟨h.delivered,fun c hc => h.destroying c (List.mem_of_mem_eraseIdx hc)⟩

theorem resume_isolated {s t : State} {i : ℕ} {c : Call} (hi : StreamInv s)
    (hc : s.pending[i]? = some c) (ht : resume (s.withoutCall i) c = some t) :
    StreamInv t ∧ (Isolated s → Isolated t) := by
  have hw := hi.withoutCall i
  have hmem := List.mem_of_getElem? hc
  cases c with
  | post k =>
    cases ht
    exact ⟨⟨hw.delivered,hw.destroying⟩,fun h => h.of_eq rfl rfl rfl rfl rfl⟩
  | destroyPost k =>
    cases ht
    have hp : StreamInv ((s.withoutCall i).post k) := ⟨hw.delivered,hw.destroying⟩
    have hfin := hi.destroying _ hmem rfl
    exact ⟨hp.call fun _ => hfin,fun h => h.of_eq rfl rfl rfl rfl rfl⟩
  | destroyNext =>
    cases ht
    obtain ⟨hd,hk⟩ := destroyLoop_isolated hw (hi.destroying _ hmem rfl)
    exact ⟨hd,fun h => hk (h.of_eq rfl rfl rfl rfl rfl)⟩
  | followRedirect ccb ccbMl => cases ht

theorem resumeRedirect_isolated {s t : State} {i ml : ℕ} {b : Bool} {c : Call} (hi : StreamInv s)
    (ht : resumeRedirect (s.withoutCall i) ml b c = some t) :
    StreamInv t ∧ (Isolated s → (Isolated t ↔ s.finishedLoading = false)) := by
  cases c with
  | followRedirect ccb ccbMl =>
    cases ht
    unfold State.callPost
    split
    · exact newRequest_isolated hi rfl rfl rfl rfl fun c hc _ => List.mem_of_mem_eraseIdx hc
    · refine newRequest_isolated hi rfl rfl rfl rfl fun c hc hd => ?_
      rcases List.mem_append.mp hc with hc | hc
      · exact List.mem_of_mem_eraseIdx hc
      · cases List.mem_singleton.mp hc
        cases hd
  | post k => cases ht
  | destroyPost k => cases ht
  | destroyNext => cases ht

/-- What a step does to the file, the mark and the reads. -/
theorem step_isolated {s t : State} {a : Action} (hi : StreamInv s) (ht : step s a = some t) :
    StreamInv t ∧ (Isolated s → (Isolated t ↔ OnlyLatest s a)) := by
  have hkeeps : ∀ {u : State} {b : Action}, OnlyLatest s b →
      StreamInv u ∧ (Isolated s → Isolated u) →
      StreamInv u ∧ (Isolated s → (Isolated u ↔ OnlyLatest s b)) :=
    fun hr h => ⟨h.1,fun hs => ⟨fun _ => hr,fun _ => h.2 hs⟩⟩
  cases a with
  | «open» followRedirects streamToFile callback ml b =>
    cases ht
    exact newRequest_isolated hi rfl rfl rfl rfl fun c hc _ => hc
  | followRedirect callback ml b =>
    cases ht
    exact newRequest_isolated hi rfl rfl rfl rfl fun c hc _ => hc
  | close =>
    cases ht
    exact hkeeps trivial ⟨⟨nofun,hi.destroying⟩,fun h => ⟨h.bytes,h.ends,nofun,h.finished⟩⟩
  | readResponseBody bytesToRead optional func ml =>
    cases ht
    exact hkeeps trivial (serves_isolated hi (serves_readResponseBody s _ optional func ml) id)
  | finishStreamingToFile func ml =>
    cases ht
    refine hkeeps trivial ?_
    unfold ppbUrlLoaderFinishStreamingToFile
    split_ifs
    · exact ⟨⟨hi.delivered,hi.destroying⟩,fun h => h.of_eq rfl rfl rfl rfl rfl⟩
    · exact ⟨hi,id⟩
  | newStream stream ph =>
    simp only [step] at ht
    split_ifs at ht with hs
    cases ht
    exact hkeeps trivial (newStream_isolated ph hi hs)
  | write stream buffer =>
    obtain ⟨st,hst,rfl⟩ := Option.map_eq_some_iff.mp ht
    obtain ⟨hw,hk⟩ := write_isolated hi (running_iff.mp hst).1 buffer
    refine ⟨hw,fun h => (hk h).trans ⟨fun hl st' hst' => ?_,fun hl => hl st hst⟩⟩
    cases hst.symm.trans hst'
    exact hl
  | destroyStream stream =>
    obtain ⟨st,hst,rfl⟩ := Option.map_eq_some_iff.mp ht
    obtain ⟨hw,hk⟩ := destroyStream_isolated hi (running_iff.mp hst).1
    refine ⟨hw,fun h => (hk h).trans ⟨fun hl st' hst' => ?_,fun hl => hl st hst⟩⟩
    cases hst.symm.trans hst'
    exact hl
  | urlNotify reason =>
    cases ht
    refine hkeeps trivial ?_
    unfold nppUrlNotify State.callPost
    have hnone : StreamInv { s with ccb := none } := ⟨hi.delivered,hi.destroying⟩
    have hk : Isolated s → Isolated { s with ccb := none } :=
      fun h => h.of_eq rfl rfl rfl rfl rfl
    split
    · split
      · exact ⟨hnone,hk⟩
      · exact ⟨hnone.call nofun,fun h => (hk h).call _⟩
    · exact ⟨hi,id⟩
  | urlRedirectNotify url =>
    cases ht
    exact hkeeps trivial ⟨⟨hi.delivered,hi.destroying⟩,fun h => h.of_eq rfl rfl rfl rfl rfl⟩
  | resume i =>
    obtain ⟨c,hc,ht⟩ := Option.bind_eq_some_iff.mp ht
    exact hkeeps trivial (resume_isolated hi hc ht)
  | resumeRedirect i ml b =>
    obtain ⟨c,_,ht⟩ := Option.bind_eq_some_iff.mp ht
    exact resumeRedirect_isolated hi ht

theorem StreamInv.create : StreamInv .create := ⟨nofun,nofun⟩

theorem Isolated.create : Isolated .create := ⟨nofun,nofun,nofun,nofun⟩

/-- In every run all reads are given bytes of the stream of the latest request, and the
end of data only after its end, and so it stays, exactly if no linked stream of an earlier
request writes or ends a load and no finished loader is used again. -/
theorem isolated_iff {ls : List Action} {u : State}
    (hr : machine.exec machine.start ls = some u) :
    machine.AlwaysFrom Isolated machine.start ls ↔ machine.EachFrom OnlyLatest machine.start ls :=
  Machine.always_iff_each StreamInv (fun _ _ _ hi ht => (step_isolated hi ht).1)
    (fun _ _ _ hi h ht => (step_isolated hi ht).2 h) .create .create hr

/-- A stream still writes after its loader was closed and opened again. -/
def reopenedEarly : List Action :=
  [.open true false true 0 true,.newStream 0 ⟨[],none,200⟩,.close,.open true false true 0 true,
    .write 0 [1],.readResponseBody 9 true 5 0]

theorem reopenedEarly_mixed : ¬∀ (ls : List Action) (u : State),
    machine.exec machine.start ls = some u → Isolated u := by
  intro h
  have hbytes := (h reopenedEarly _ rfl).bytes
  exact absurd (hbytes ⟨[⟨1,some 0⟩],2,false⟩ (by decide) ⟨1,some 0⟩ (by decide)) (by decide)

/-- A redirect is followed by the plugin while its stream goes on, and the second response
is read to its end. -/
theorem redirectedByPlugin_isolated : machine.AlwaysFrom Isolated machine.start
    [.open false false true 0 true,.urlRedirectNotify [47],.newStream 0 ⟨[],none,302⟩,.resume 0,
      .write 0 [9],.followRedirect true 0 true,.write 0 [9,9],.newStream 1 ⟨[],none,200⟩,
      .readResponseBody 2 true 5 0,.write 1 [1,2],.resume 0,.destroyStream 0,
      .readResponseBody 2 true 6 0,.destroyStream 1,.resume 0,.resume 0,.close] :=
  (isolated_iff rfl).mpr (by decide)

end UrlRequests
end FreshPlayer
