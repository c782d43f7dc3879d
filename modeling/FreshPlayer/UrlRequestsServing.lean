import FreshPlayer.UrlRequests

/-! What the functions of a loader do, said once for each of them. Serving reads moves the
read position and the queue, hands out bytes of the file and adds calls that post the
result; all else in the state stays. -/
namespace FreshPlayer
namespace UrlRequests

/-- `ended` holds where a read is given no bytes. -/
structure Serves (ended : Prop) (s t : State) : Prop where
  frame : t = { s with
    readPos := t.readPos, readTasks := t.readTasks, reads := t.reads, pending := t.pending }
  pending : ∃ new, t.pending = s.pending ++ new ∧
    ∀ c ∈ new, ∃ func ccbMl result, c = .post ⟨.read func,ccbMl,result⟩
  reads : ∃ new, t.reads = s.reads ++ new ∧ ∀ d ∈ new,
    d.requests = s.streams.length ∧ d.destroyed = s.latestDestroyed ∧
    (∀ b ∈ d.bytes, ∃ content ∈ s.file, b ∈ content) ∧ (d.bytes = [] → ended)

variable {ended : Prop}

theorem Serves.refl (s : State) : Serves ended s s :=
  ⟨rfl,⟨[],(List.append_nil _).symm,nofun⟩,[],(List.append_nil _).symm,nofun⟩

theorem serves_queue (s : State) (tasks : List UrlLoaderReadTask) :
    Serves ended s { s with readTasks := tasks } :=
  ⟨rfl,⟨[],(List.append_nil _).symm,nofun⟩,[],(List.append_nil _).symm,nofun⟩

/-- The result of a read is posted. -/
theorem Serves.call {s t : State} (h : Serves ended s t) (func ccbMl : ℕ) (result : ℤ) :
    Serves ended s (t.call (.post ⟨.read func,ccbMl,result⟩)) := by
  obtain ⟨new,hp,hn⟩ := h.pending
  refine ⟨?_,⟨new ++ [.post ⟨.read func,ccbMl,result⟩],?_,?_⟩,h.reads⟩
  · rw [h.frame]
    rfl
  · rw [← List.append_assoc,← hp]
    rfl
  · intro c hc
    rcases List.mem_append.mp hc with hc | hc
    · exact hn c hc
    · exact ⟨func,ccbMl,result,List.mem_singleton.mp hc⟩

theorem mem_of_readFile {s : State} {bytesToRead : ℤ} {bytes : List FileByte}
    (h : readFile s bytesToRead = some bytes) : ∀ b ∈ bytes, ∃ content ∈ s.file, b ∈ content := by
  unfold readFile at h
  split_ifs at h
  obtain ⟨content,hc,rfl⟩ := Option.map_eq_some_iff.mp h
  exact fun b hb => ⟨content,hc,List.mem_of_mem_drop (List.mem_of_mem_take hb)⟩

theorem serves_handOut {s : State} {bytesToRead : ℤ} {bytes : List FileByte}
    (hb : readFile s bytesToRead = some bytes) (hend : bytes = [] → ended)
    (rest : List UrlLoaderReadTask) : Serves ended s (handOut { s with readTasks := rest } bytes) := by
  refine ⟨rfl,⟨[],(List.append_nil _).symm,nofun⟩,[_],rfl,fun d hd => ?_⟩
  cases List.mem_singleton.mp hd
  exact ⟨rfl,rfl,mem_of_readFile hb,hend⟩

theorem Serves.complete {s t : State} (h : Serves ended s t) (optional : Bool) (func ml : ℕ)
    (result : ℤ) : Serves ended s (complete t optional ⟨.read func,ml,result⟩) := by
  unfold UrlRequests.complete
  split_ifs
  · exact h
  · exact h.call func ml result

theorem serves_readResponseBody (s : State) (bytesToRead : ℤ) (optional : Bool) (func ml : ℕ) :
    Serves (s.finishedLoading = true) s
      (ppbUrlLoaderReadResponseBody s bytesToRead optional func ml) := by
  unfold ppbUrlLoaderReadResponseBody
  split_ifs
  · exact .refl s
  · exact serves_queue s _
  · split
    · exact (Serves.refl s).complete optional func ml _
    · rename_i bytes hb
      split_ifs with hempty
      · exact serves_queue s _
      · have hend : bytes = [] → s.finishedLoading = true := by
          intro hnil
          simpa [hnil] using hempty
        exact (serves_handOut hb hend s.readTasks).complete optional func ml _

theorem serves_serveFirst (s : State) : Serves False s (serveFirst s) := by
  unfold serveFirst
  split
  · exact .refl s
  · rename_i rest _
    split
    · rename_i b bytes hb
      exact (serves_handOut hb nofun rest).call _ _ _
    · exact .refl s

/-- Only the count of the bytes delivered changes, or the bytes come into the file. -/
theorem write_cases (s : State) (stream : ℕ) (st : NPStream) (buffer : List UInt8) :
    (nppWrite s stream st buffer = { s with
        streams := s.streams.set stream
          (some { st with delivered := st.delivered+buffer.length }) } ∧
      (st.pdata = true → s.file.isSome = true → buffer = [])) ∨
    ∃ content ∈ s.file, st.pdata = true ∧ buffer ≠ [] ∧
      nppWrite s stream st buffer = serveFirst { s with
        streams := s.streams.set stream (some { st with delivered := st.delivered+buffer.length })
        file := some (writeAt content st.delivered (buffer.map fun b => ⟨b,some stream⟩)) } := by
  unfold nppWrite
  dsimp only
  split
  · rename_i hp
    split
    · rename_i hnone
      exact Or.inl ⟨rfl,fun _ hf => by simp [hnone] at hf⟩
    · rename_i content hc
      split
      · rename_i hnil
        exact Or.inl ⟨rfl,fun _ _ => hnil⟩
      · rename_i hne
        exact Or.inr ⟨content,hc,hp,hne,rfl⟩
  · rename_i hp
    exact Or.inl ⟨rfl,fun hp' => absurd hp' hp⟩

/-- The loop of `NPP_DestroyStream` is at its end, or serves a read that it then posts. -/
theorem destroyLoop_cases (s : State) : destroyLoop s = checkStreamToFile s ∨
    ∃ t func ccbMl result, Serves True s t ∧ t.pending = s.pending ∧
      destroyLoop s = t.call (.destroyPost ⟨.read func,ccbMl,result⟩) := by
  unfold destroyLoop
  split
  · exact Or.inl rfl
  · rename_i rt rest _
    split
    · rename_i bytes hb
      exact Or.inr ⟨_,rt.ccb,rt.ccbMl,_,serves_handOut hb (fun _ => trivial) rest,rfl,rfl⟩
    · exact Or.inr ⟨_,rt.ccb,rt.ccbMl,_,serves_queue s rest,rfl,rfl⟩

/-- A stream that the loader does not heed, or one that ends its load. -/
theorem destroyStream_cases (s : State) (stream : ℕ) (st : NPStream) :
    (∃ npStream, nppDestroyStream s stream st = { s with
        streams := s.streams.set stream (some { st with destroyed := true })
        npStream := npStream } ∧ (st.pdata = true → s.redirectUrl ≠ none)) ∨
    st.pdata = true ∧ s.redirectUrl = none ∧ nppDestroyStream s stream st = destroyLoop { s with
      streams := s.streams.set stream (some { st with destroyed := true })
      npStream := none, finishedLoading := true } := by
  unfold nppDestroyStream
  dsimp only
  split
  · rename_i hp
    split
    · rename_i hurl
      exact Or.inl ⟨none,rfl,fun _ hnone => by simp [hnone] at hurl⟩
    · rename_i hurl
      exact Or.inr ⟨hp,by simpa using hurl,rfl⟩
  · rename_i hp
    exact Or.inl ⟨s.npStream,rfl,fun hp' => absurd hp' hp⟩

end UrlRequests
end FreshPlayer
