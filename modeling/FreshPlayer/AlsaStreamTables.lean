import FreshPlayer.AlsaStreams

/-! The tables of the ALSA thread hold the streams that are allocated, whoever calls and
however the calls overlap: no stream is used once freed, and no device closed twice. -/
namespace FreshPlayer
namespace AlsaStreams

open Rendezvous

variable {d e : Data} {as : ℕ} {stream : Stream}

/-- Both tables hold the streams that are allocated, and the others are closed. -/
structure Tables (d : Data) : Prop where
  active : ∀ as, as ∈ d.activeStreamsHt ↔ (d.streams.lookup as).isSome = true
  nodup : d.activeStreamsHt.Nodup
  byFd : ∀ fd as, d.streamByFdHt.lookup fd = some as ↔
    ∃ stream, d.streams.lookup as = some stream ∧ fd ∈ stream.fds
  closed : ∀ as, as ∈ d.closed ↔ as < d.made ∧ d.streams.lookup as = none
  once : d.closed.Nodup
  made : ∀ as stream, d.streams.lookup as = some stream → as < d.made
  stale : d.stale = 0

/-- What clients have, and what they gave back, is allocated. -/
structure Sound (d : Data) : Prop extends Tables d where
  ownedNodup : d.owned.Nodup
  owned : ∀ as ∈ d.owned, (d.streams.lookup as).isSome = true
  deleteNodup : d.streamsToDelete.Nodup
  toDelete : ∀ as ∈ d.streamsToDelete, (d.streams.lookup as).isSome = true ∧ as ∉ d.owned

theorem lookup_eraseAll (fds : List ℕ) (t : AList fun _ : ℕ => ℕ) (fd : ℕ) :
    (fds.foldl (fun t fd => t.erase fd) t).lookup fd = if fd ∈ fds then none else t.lookup fd := by
  induction fds generalizing t with
  | nil => simp
  | cons f fds ih =>
    rw [List.foldl_cons,ih]
    by_cases hf : fd = f
    · subst hf
      simp
    · simp [hf,AList.lookup_erase_ne hf]

theorem lookup_insertAll (fds : List ℕ) (t : AList fun _ : ℕ => ℕ) (as fd : ℕ) :
    (fds.foldl (fun t fd => t.insert fd as) t).lookup fd =
      if fd ∈ fds then some as else t.lookup fd := by
  induction fds generalizing t with
  | nil => simp
  | cons f fds ih =>
    rw [List.foldl_cons,ih]
    by_cases hf : fd = f
    · subst hf
      simp
    · simp [hf,AList.lookup_insert_ne hf]

/-- Files belong to one stream. -/
theorem Tables.owner {b : ℕ} {other : Stream} {fd : ℕ} (h : Tables d)
    (hs : d.streams.lookup as = some stream) (hb : d.streams.lookup b = some other)
    (hfd : fd ∈ stream.fds) (hfd' : fd ∈ other.fds) : as = b := by
  have hone := (h.byFd fd as).mpr ⟨stream,hs,hfd⟩
  have hother := (h.byFd fd b).mpr ⟨other,hb,hfd'⟩
  exact Option.some.inj (hone.symm.trans hother)

/-- The other streams stay as they are. -/
structure Deletes (gone : List ℕ) (d e : Data) : Prop where
  streams : ∀ b, e.streams.lookup b = if b ∈ gone then none else d.streams.lookup b
  made : e.made = d.made
  owned : e.owned = d.owned
  heard : e.heard = d.heard

theorem Tables.delete (h : Tables d) (hs : (d.streams.lookup as).isSome = true) :
    Tables (deleteStream d as) ∧ Deletes [as] d (deleteStream d as) := by
  obtain ⟨stream,hs⟩ := Option.isSome_iff_exists.mp hs
  have hlookup : ∀ b, (d.streams.erase as).lookup b =
      if b ∈ [as] then none else d.streams.lookup b := by
    intro b
    by_cases hb : b = as
    · subst hb
      simp
    · simp [hb,AList.lookup_erase_ne hb]
  simp only [deleteStream,hs]
  refine ⟨⟨fun b => ?_,h.nodup.erase as,fun fd b => ?_,fun b => ?_,?_,fun b st hb => ?_,h.stale⟩,
    hlookup,rfl,rfl,rfl⟩
  · dsimp only
    rw [h.nodup.mem_erase_iff,h.active,hlookup]
    by_cases hb : b = as <;> simp [hb]
  · dsimp only
    rw [lookup_eraseAll,hlookup]
    by_cases hfd : fd ∈ stream.fds
    · rw [if_pos hfd]
      refine ⟨nofun,?_⟩
      rintro ⟨other,hb,hfd'⟩
      split_ifs at hb with hne
      have hsame := h.owner hs hb hfd hfd'
      exact absurd (List.mem_singleton.mpr hsame.symm) hne
    · rw [if_neg hfd,h.byFd]
      by_cases hb : b = as
      · subst hb
        simp [hs,hfd]
      · simp [hb]
  · dsimp only
    rw [List.mem_append,List.mem_singleton,h.closed,hlookup]
    by_cases hb : b = as
    · subst hb
      simpa using h.made _ stream hs
    · simp [hb]
  · refine List.nodup_append.mpr ⟨h.once,List.nodup_singleton as,?_⟩
    rintro b hb c hc rfl
    rw [List.mem_singleton.mp hc] at hb
    rw [((h.closed as).mp hb).2] at hs
    cases hs
  · rw [hlookup] at hb
    split_ifs at hb
    exact h.made b st hb

theorem Deletes.trans {e₁ e₂ : Data} {l₁ l₂ : List ℕ} (h₁ : Deletes l₁ d e₁)
    (h₂ : Deletes l₂ e₁ e₂) : Deletes (l₁ ++ l₂) d e₂ := by
  refine ⟨fun b => ?_,h₂.made.trans h₁.made,h₂.owned.trans h₁.owned,h₂.heard.trans h₁.heard⟩
  rw [h₂.streams,h₁.streams]
  by_cases hl : b ∈ l₁ <;> by_cases hr : b ∈ l₂ <;> simp [hl,hr]

theorem Tables.deleteAll {l : List ℕ} (h : Tables d) (hl : l.Nodup)
    (hs : ∀ as ∈ l, (d.streams.lookup as).isSome = true) :
    Tables (l.foldl deleteStream d) ∧ Deletes l d (l.foldl deleteStream d) := by
  induction l generalizing d with
  | nil => exact ⟨h,by simp,rfl,rfl,rfl⟩
  | cons as l ih =>
    obtain ⟨hnew,hl⟩ := List.nodup_cons.mp hl
    obtain ⟨htables,hdel⟩ := h.delete (hs as List.mem_cons_self)
    have hrest : ∀ b ∈ l, ((deleteStream d as).streams.lookup b).isSome = true := by
      intro b hb
      have hne : b ≠ as := fun he => hnew (he ▸ hb)
      rw [hdel.streams,if_neg (by simpa using hne)]
      exact hs b (List.mem_cons_of_mem as hb)
    obtain ⟨hall,hdelall⟩ := ih htables hl hrest
    exact ⟨hall,hdel.trans hdelall⟩

/-- The thread frees what clients gave back and polls the files of the rest. -/
theorem Sound.rebuild (h : Sound d) : Sound (doRebuildFds d) ∧
    Deletes d.streamsToDelete d (doRebuildFds d) ∧ (doRebuildFds d).streamsToDelete = [] ∧
    (doRebuildFds d).fds = (doRebuildFds d).activeStreamsHt.flatMap (doRebuildFds d).fdsOf := by
  obtain ⟨htables,hdel⟩ := h.toTables.deleteAll h.deleteNodup fun as has => (h.toDelete as has).1
  have hcount : (d.streamsToDelete.foldl deleteStream d).activeStreamsHt.countP
      (fun as => ((d.streamsToDelete.foldl deleteStream d).streams.lookup as).isNone) = 0 := by
    refine List.countP_eq_zero.mpr fun as has => ?_
    have hsome := (htables.active as).mp has
    simpa [Option.isNone_iff_eq_none,Option.isSome_iff_ne_none] using hsome
  refine ⟨⟨⟨htables.active,htables.nodup,htables.byFd,htables.closed,htables.once,htables.made,?_⟩,
    ?_,fun as has => ?_,List.nodup_nil,nofun⟩,
    ⟨hdel.streams,hdel.made,hdel.owned,hdel.heard⟩,rfl,rfl⟩
  · exact Nat.add_eq_zero_iff.mpr ⟨htables.stale,hcount⟩
  · exact hdel.owned ▸ h.ownedNodup
  · have hown : as ∈ d.owned := hdel.owned ▸ has
    have hkeep := hdel.streams as
    rw [if_neg fun hgone => (h.toDelete as hgone).2 hown] at hkeep
    exact (congrArg Option.isSome hkeep).trans (h.owned as hown)

theorem isSome_insert {t : AList fun _ : ℕ => Stream} {b : ℕ}
    (h : (t.lookup b).isSome = true) : ((t.insert as stream).lookup b).isSome = true := by
  by_cases hb : b = as
  · subst hb
    simp
  · rwa [AList.lookup_insert_ne hb]

/-- A new stream, with files that were not open. -/
theorem Sound.create {fds : List ℕ} (h : Sound d) (hfds : d.Unused fds) :
    Sound { d with
      streams := d.streams.insert d.made ⟨fds,true,false⟩
      activeStreamsHt := d.made::d.activeStreamsHt
      streamByFdHt := fds.foldl (fun t fd => t.insert fd d.made) d.streamByFdHt
      made := d.made+1
      rebuildFds := true } := by
  have hnew : d.streams.lookup d.made = none := by
    by_contra hsome
    obtain ⟨stream,hstream⟩ := Option.ne_none_iff_exists'.mp hsome
    exact Nat.lt_irrefl _ (h.made _ stream hstream)
  have hinactive : d.made ∉ d.activeStreamsHt := by simp [h.active,hnew]
  refine ⟨⟨fun b => ?_,List.nodup_cons.mpr ⟨hinactive,h.nodup⟩,fun fd b => ?_,fun b => ?_,h.once,
    fun b st hb => ?_,h.stale⟩,h.ownedNodup,fun b hb => isSome_insert (h.owned b hb),h.deleteNodup,
    fun b hb => ⟨isSome_insert (h.toDelete b hb).1,(h.toDelete b hb).2⟩⟩
  · dsimp only
    rw [List.mem_cons,h.active]
    by_cases hb : b = d.made
    · subst hb
      simp
    · rw [AList.lookup_insert_ne hb]
      simp [hb]
  · dsimp only
    rw [lookup_insertAll]
    by_cases hfd : fd ∈ fds
    · rw [if_pos hfd]
      have hfree := (hfds.2 fd hfd).2
      constructor
      · rintro ⟨⟩
        exact ⟨_,AList.lookup_insert _,hfd⟩
      · rintro ⟨st,hst,hmem⟩
        obtain ⟨rfl,-⟩ | ⟨-,hst⟩ := lookup_insert_cases hst
        · rfl
        · exact absurd (mem_holdings.mpr ⟨b,st,hst,hmem⟩) hfree
    · rw [if_neg hfd,h.byFd]
      by_cases hb : b = d.made
      · subst hb
        rw [AList.lookup_insert,hnew]
        simp [hfd]
      · rw [AList.lookup_insert_ne hb]
  · dsimp only
    rw [h.closed]
    by_cases hb : b = d.made
    · subst hb
      simp
    · rw [AList.lookup_insert_ne hb]
      refine and_congr_left fun _ => ?_
      omega
  · dsimp only at hb ⊢
    obtain ⟨rfl,-⟩ | ⟨-,hb⟩ := lookup_insert_cases hb
    · exact Nat.lt_succ_self _
    · exact Nat.lt_succ_of_lt (h.made b st hb)

/-- A client gives a stream back. -/
theorem Sound.destroy (h : Sound d) (has : as ∈ d.owned) : Sound { d with
    owned := d.owned.erase as
    streamsToDelete := as::d.streamsToDelete
    rebuildFds := true } := by
  refine ⟨⟨h.active,h.nodup,h.byFd,h.closed,h.once,h.made,h.stale⟩,h.ownedNodup.erase as,
    fun b hb => h.owned b (List.mem_of_mem_erase hb),?_,fun b hb => ?_⟩
  · exact List.nodup_cons.mpr ⟨fun hdel => (h.toDelete as hdel).2 has,h.deleteNodup⟩
  · dsimp only
    rw [h.ownedNodup.mem_erase_iff]
    obtain rfl | hb := List.mem_cons.mp hb
    · exact ⟨h.owned b has,fun hne => hne.1 rfl⟩
    · exact ⟨(h.toDelete b hb).1,fun hmem => (h.toDelete b hb).2 hmem.2⟩

/-- A stream keeps its files. -/
theorem Sound.modify {stream' : Stream} (h : Sound d) (hs : d.streams.lookup as = some stream)
    (hfds : stream'.fds = stream.fds) :
    Sound { d with streams := d.streams.insert as stream' } := by
  have hsome : ∀ b, ((d.streams.insert as stream').lookup b).isSome =
      (d.streams.lookup b).isSome := fun b => isSome_lookup_insert hs
  refine ⟨⟨fun b => ?_,h.nodup,fun fd b => ?_,fun b => ?_,h.once,fun b st hb => ?_,h.stale⟩,
    h.ownedNodup,fun b hb => (hsome b).trans (h.owned b hb),h.deleteNodup,
    fun b hb => ⟨(hsome b).trans (h.toDelete b hb).1,(h.toDelete b hb).2⟩⟩
  · exact (h.active b).trans (by rw [hsome])
  · dsimp only
    rw [h.byFd]
    by_cases hb : b = as
    · subst hb
      simp [hs,hfds]
    · rw [AList.lookup_insert_ne hb]
  · dsimp only
    rw [h.closed]
    refine and_congr_right fun _ => ?_
    rw [← Option.isNone_iff_eq_none,← Option.isNone_iff_eq_none,← Option.not_isSome,
      ← Option.not_isSome,hsome]
  · obtain ⟨rfl,-⟩ | ⟨-,hb⟩ := lookup_insert_cases hb
    · exact h.made b stream hs
    · exact h.made b st hb

/-- A client has the stream it made, and the stream its callback. -/
theorem Sound.finishCreate (h : Sound d) (hs : d.streams.lookup as = some stream) (hown : as ∉ d.owned)
    (hdel : as ∉ d.streamsToDelete) : Sound { d with
      streams := d.streams.insert as { stream with hasCallback := true }
      owned := as::d.owned } := by
  have hmod : Sound { d with streams := d.streams.insert as { stream with hasCallback := true } } :=
    h.modify hs rfl
  refine ⟨⟨hmod.active,hmod.nodup,hmod.byFd,hmod.closed,hmod.once,hmod.made,hmod.stale⟩,
    List.nodup_cons.mpr ⟨hown,h.ownedNodup⟩,fun b hb => ?_,hmod.deleteNodup,fun b hb => ?_⟩
  · obtain rfl | hb := List.mem_cons.mp hb
    · simp
    · exact hmod.owned b hb
  · refine ⟨(hmod.toDelete b hb).1,fun hmem => ?_⟩
    obtain rfl | hmem := List.mem_cons.mp hmem
    · exact hdel hb
    · exact (h.toDelete b hb).2 hmem

/-- The thread hears streams that are allocated, not paused, and have a callback. -/
theorem processFd_cases (h : Tables d) (r : Ready) : processFd d r = d ∨
    ∃ as stream, d.streams.lookup as = some stream ∧ stream.paused = false ∧
      stream.hasCallback = true ∧
      processFd d r = { d with heard := d.heard ++ List.replicate r.segments as } := by
  unfold processFd
  split
  · exact .inl rfl
  · rename_i as has
    obtain ⟨fd,-,hfd⟩ := Option.bind_eq_some_iff.mp has
    obtain ⟨stream,hs,-⟩ := (h.byFd fd as).mp hfd
    rw [hs]
    dsimp only
    split
    · exact .inl rfl
    · rename_i hquiet
      rw [Bool.or_eq_true,not_or,Bool.not_eq_true,Bool.not_eq_true,Bool.not_eq_false'] at hquiet
      exact .inr ⟨as,stream,hs,hquiet.1,hquiet.2,rfl⟩

variable {κ : Type} [DecidableEq κ]

/-- A stream is nobody's until its client is told. -/
structure Making (s : State Data Call κ) : Prop where
  allocated : ∀ c as fds, s.task c = some (.create as fds) →
    (s.data.streams.lookup as).isSome = true ∧ as ∉ s.data.owned ∧ as ∉ s.data.streamsToDelete
  apart : ∀ c c' as fds fds', s.task c = some (.create as fds) →
    s.task c' = some (.create as fds') → c = c'

omit [DecidableEq κ] in
/-- The same calls, and what they make is where it was. -/
theorem Making.frame {s t : State Data Call κ} (h : Making s) (ht : t.task = s.task)
    (hd : ∀ as, (s.data.streams.lookup as).isSome = true → as ∉ s.data.owned →
      as ∉ s.data.streamsToDelete → (t.data.streams.lookup as).isSome = true ∧
        as ∉ t.data.owned ∧ as ∉ t.data.streamsToDelete) : Making t := by
  refine ⟨fun c as fds hc => ?_,fun c c' as fds fds' hc hc' => ?_⟩
  · rw [ht] at hc
    obtain ⟨hsome,hown,hdel⟩ := h.allocated c as fds hc
    exact hd as hsome hown hdel
  · rw [ht] at hc hc'
    exact h.apart c c' as fds fds' hc hc'

/-- A call begins. If it makes a stream, nobody else does. -/
theorem Making.call {s t : State Data Call κ} {c : κ} {u : Call} (h : Making s)
    (ht : t.task = Function.update s.task c (some u))
    (hd : ∀ as, (s.data.streams.lookup as).isSome = true → as ∉ s.data.owned →
      as ∉ s.data.streamsToDelete → (t.data.streams.lookup as).isSome = true ∧
        as ∉ t.data.owned ∧ as ∉ t.data.streamsToDelete)
    (hu : ∀ as fds, u = .create as fds → (t.data.streams.lookup as).isSome = true ∧
      as ∉ t.data.owned ∧ as ∉ t.data.streamsToDelete ∧ s.data.streams.lookup as = none) :
    Making t := by
  have hold : ∀ b as fds, b ≠ c → t.task b = some (.create as fds) →
      s.task b = some (.create as fds) := by
    intro b as fds hb htask
    rwa [ht,Function.update_of_ne hb] at htask
  have hnew : ∀ as fds, t.task c = some (.create as fds) → u = .create as fds := by
    intro as fds htask
    rw [ht,Function.update_self] at htask
    exact Option.some.inj htask
  have hclash : ∀ b as fds fds', b ≠ c → t.task b = some (.create as fds) →
      t.task c ≠ some (.create as fds') := by
    intro b as fds fds' hb htask htask'
    obtain ⟨-,-,-,hnone⟩ := hu as fds' (hnew as fds' htask')
    have hsome := (h.allocated b as fds (hold b as fds hb htask)).1
    rw [hnone] at hsome
    cases hsome
  refine ⟨fun b as fds htask => ?_,fun b b' as fds fds' htask htask' => ?_⟩
  · by_cases hb : b = c
    · subst hb
      obtain ⟨hsome,hown,hdel,-⟩ := hu as fds (hnew as fds htask)
      exact ⟨hsome,hown,hdel⟩
    · obtain ⟨hsome,hown,hdel⟩ := h.allocated b as fds (hold b as fds hb htask)
      exact hd as hsome hown hdel
  · by_cases hb : b = c <;> by_cases hb' : b' = c
    · exact hb.trans hb'.symm
    · subst hb
      exact absurd htask (hclash b' as fds' fds hb' htask')
    · subst hb'
      exact absurd htask' (hclash b as fds fds' hb htask)
    · exact h.apart b b' as fds fds' (hold b as fds hb htask) (hold b' as fds' hb' htask')

/-- A call ends. What it made is of no other call. -/
theorem Making.ret {s t : State Data Call κ} {c : κ} (h : Making s)
    (ht : t.task = Function.update s.task c none)
    (hd : ∀ b as fds, b ≠ c → s.task b = some (.create as fds) →
      (t.data.streams.lookup as).isSome = true ∧ as ∉ t.data.owned ∧
        as ∉ t.data.streamsToDelete) : Making t := by
  have hold : ∀ b as fds, t.task b = some (.create as fds) →
      b ≠ c ∧ s.task b = some (.create as fds) := by
    intro b as fds htask
    rw [ht] at htask
    by_cases hb : b = c
    · subst hb
      simp at htask
    · rw [Function.update_of_ne hb] at htask
      exact ⟨hb,htask⟩
  refine ⟨fun b as fds htask => ?_,fun b b' as fds fds' htask htask' => ?_⟩
  · obtain ⟨hb,htask⟩ := hold b as fds htask
    exact hd b as fds hb htask
  · exact h.apart b b' as fds fds' (hold b as fds htask).2 (hold b' as fds' htask').2

/-- A call that begins with a look changes nothing yet. -/
theorem call_data {s t : State Data Call κ} {c : κ} {u : Call}
    (h : step service s (.call c u) = some t) :
    u = .start ∧ s.data.thread = .notStarted ∧ t.data = s.data ∨
      u ≠ .start ∧ post s.data u = some t.data := by
  have hdata := (step_data _ h).2
  cases u with
  | start => exact .inl ⟨rfl,of_decide_eq_true hdata.1,hdata.2⟩
  | create as fds => exact .inr ⟨nofun,hdata⟩
  | destroy as => exact .inr ⟨nofun,hdata⟩

theorem proceed_data {s t : State Data Call κ} {c : κ}
    (h : step service s (.proceed c) = some t) :
    s.calls c = some (.looked .start) ∧ post s.data .start = some t.data := by
  obtain ⟨u,hu,hlook,hpost⟩ := step_data _ h
  cases u with
  | start => exact ⟨hu,hpost⟩
  | create as fds => cases hlook
  | destroy as => cases hlook

theorem safe_call {s t : State Data Call κ} {c : κ} {u : Call} (h : Sound s.data ∧ Making s)
    (ht : t.task = Function.update s.task c (some u)) (hp : post s.data u = some t.data) :
    Sound t.data ∧ Making t := by
  obtain ⟨hsound,hmaking⟩ := h
  cases u with
  | start =>
    have hdata := (Option.some.inj hp).symm
    refine ⟨?_,hmaking.call ht (fun as hs ho hdel => ?_) nofun⟩
    · rw [hdata]
      exact ⟨⟨hsound.active,hsound.nodup,hsound.byFd,hsound.closed,hsound.once,hsound.made,
        hsound.stale⟩,hsound.ownedNodup,hsound.owned,hsound.deleteNodup,hsound.toDelete⟩
    · rw [hdata]
      exact ⟨hs,ho,hdel⟩
  | create as fds =>
    simp only [post] at hp
    split_ifs at hp with hok
    obtain ⟨-,rfl,hfds⟩ := hok
    have hdata := (Option.some.inj hp).symm
    have hfresh : s.data.streams.lookup s.data.made = none := by
      by_contra hsome
      obtain ⟨stream,hstream⟩ := Option.ne_none_iff_exists'.mp hsome
      exact Nat.lt_irrefl _ (hsound.made _ stream hstream)
    have habsent : ∀ l : List ℕ, (∀ b ∈ l, (s.data.streams.lookup b).isSome = true) →
        s.data.made ∉ l := by
      intro l hl hmem
      have hsome := hl _ hmem
      rw [hfresh] at hsome
      cases hsome
    refine ⟨?_,hmaking.call ht (fun b hs ho hdel => ?_) fun b fds' hb => ?_⟩
    · rw [hdata]
      exact hsound.create hfds
    · rw [hdata]
      exact ⟨isSome_insert hs,ho,hdel⟩
    · cases hb
      rw [hdata]
      exact ⟨by simp,habsent _ hsound.owned,habsent _ fun b hb => (hsound.toDelete b hb).1,hfresh⟩
  | destroy as =>
    simp only [post] at hp
    split_ifs at hp with hown
    have hdata := (Option.some.inj hp).symm
    refine ⟨?_,hmaking.call ht (fun b hs ho hdel => ?_) nofun⟩
    · rw [hdata]
      exact hsound.destroy hown
    · rw [hdata]
      refine ⟨hs,fun hb => ho (List.mem_of_mem_erase hb),fun hb => ?_⟩
      obtain rfl | hb := List.mem_cons.mp hb
      · exact ho hown
      · exact hdel hb

theorem safe_ret {s t : State Data Call κ} {c : κ} {u : Call} (h : Sound s.data ∧ Making s)
    (hc : s.task c = some u) (ht : t.task = Function.update s.task c none)
    (hd : t.data = finish s.data u) : Sound t.data ∧ Making t := by
  obtain ⟨hsound,hmaking⟩ := h
  cases u with
  | start =>
    have hsame : t.data = s.data := hd
    exact ⟨hsame ▸ hsound,hmaking.ret ht fun b as fds _ hb => hsame ▸ hmaking.allocated b as fds hb⟩
  | create as fds =>
    obtain ⟨hsome,hown,hdel⟩ := hmaking.allocated c as fds hc
    obtain ⟨stream,hs⟩ := Option.isSome_iff_exists.mp hsome
    simp only [finish,hs] at hd
    refine ⟨hd ▸ hsound.finishCreate hs hown hdel,hmaking.ret ht fun b as' fds' hb htask => ?_⟩
    obtain ⟨hsome',hown',hdel'⟩ := hmaking.allocated b as' fds' htask
    rw [hd]
    refine ⟨isSome_insert hsome',fun hmem => ?_,hdel'⟩
    obtain rfl | hmem := List.mem_cons.mp hmem
    · exact hb (hmaking.apart b c as' fds' fds htask hc)
    · exact hown' hmem
  | destroy as =>
    have hsame : t.data = s.data := hd
    exact ⟨hsame ▸ hsound,hmaking.ret ht fun b as fds _ hb => hsame ▸ hmaking.allocated b as fds hb⟩

theorem Sound.act {a : Act} (h : Sound d) (ha : act d a = some e) : Sound e ∧
    (∀ b, (e.streams.lookup b).isSome = (d.streams.lookup b).isSome) ∧ e.owned = d.owned ∧
    e.streamsToDelete = d.streamsToDelete ∧ e.made = d.made ∧ e.heard = d.heard := by
  cases a with
  | pause as enabled =>
    simp only [AlsaStreams.act] at ha
    split_ifs at ha
    obtain ⟨stream,hs,rfl⟩ := Option.map_eq_some_iff.mp ha
    exact ⟨h.modify hs rfl,fun b => isSome_lookup_insert hs,rfl,rfl,rfl,rfl⟩
  | createFails fds =>
    simp only [AlsaStreams.act] at ha
    split_ifs at ha
    cases ha
    exact ⟨⟨⟨h.active,h.nodup,h.byFd,h.closed,h.once,h.made,h.stale⟩,h.ownedNodup,h.owned,
      h.deleteNodup,h.toDelete⟩,fun _ => rfl,rfl,rfl,rfl,rfl⟩

theorem Sound.work (h : Sound d) (r : Ready) : Sound (processFd d r) ∧
    (processFd d r).streams = d.streams ∧ (processFd d r).owned = d.owned ∧
    (processFd d r).streamsToDelete = d.streamsToDelete ∧ (processFd d r).made = d.made := by
  obtain heq | ⟨as,stream,-,-,-,heq⟩ := processFd_cases h.toTables r
  · rw [heq]
    exact ⟨h,rfl,rfl,rfl,rfl⟩
  · rw [heq]
    exact ⟨⟨⟨h.active,h.nodup,h.byFd,h.closed,h.once,h.made,h.stale⟩,h.ownedNodup,h.owned,
      h.deleteNodup,h.toDelete⟩,rfl,rfl,rfl,rfl⟩

theorem safe_step {s t : State Data Call κ} {l : Label Call Unit Ready Act κ}
    (h : Sound s.data ∧ Making s) (hs : step service s l = some t) :
    Sound t.data ∧ Making t := by
  have hdata := step_data _ hs
  have htask := step_task _ hs
  cases l with
  | call c u =>
    obtain ⟨rfl,-,hsame⟩ | ⟨-,hpost⟩ := call_data hs
    · refine ⟨hsame ▸ h.1,h.2.call htask.2 (fun as hs ho hd => ?_) nofun⟩
      rw [hsame]
      exact ⟨hs,ho,hd⟩
    · exact safe_call h htask.2 hpost
  | proceed c =>
    obtain ⟨hc,hpost⟩ := proceed_data hs
    refine safe_call (c := c) h ?_ hpost
    rw [htask]
    exact (Function.update_eq_self_iff.mpr (by rw [State.task,hc]; rfl)).symm
  | ret c =>
    obtain ⟨u,hu,hd⟩ := hdata
    exact safe_ret h (by rw [State.task,hu]; rfl) htask hd
  | arrive c => exact ⟨hdata ▸ h.1,h.2.frame htask fun as hs ho hd => hdata ▸ ⟨hs,ho,hd⟩⟩
  | workerArrive => exact ⟨hdata ▸ h.1,h.2.frame htask fun as hs ho hd => hdata ▸ ⟨hs,ho,hd⟩⟩
  | act c a =>
    obtain ⟨hsound,hsome,hown,hdel,-⟩ := h.1.act hdata.2
    refine ⟨hsound,h.2.frame htask fun as hs ho hd => ?_⟩
    rw [hsome,hown,hdel]
    exact ⟨hs,ho,hd⟩
  | work r =>
    obtain ⟨hsound,hstreams,hown,hdel,-⟩ := h.1.work r
    refine ⟨hdata.2 ▸ hsound,h.2.frame htask fun as hs ho hd => ?_⟩
    rw [hdata.2,show service.work = processFd from rfl,hstreams,hown,hdel]
    exact ⟨hs,ho,hd⟩
  | serve w =>
    obtain ⟨hsound,hdeletes,hnone,-⟩ := h.1.rebuild
    refine ⟨hdata.2 ▸ hsound,h.2.frame htask fun as hs ho hd => ?_⟩
    have hserve : t.data = doRebuildFds s.data := hdata.2
    have hkeep : (doRebuildFds s.data).streams.lookup as = s.data.streams.lookup as := by
      have := hdeletes.streams as
      rwa [if_neg hd] at this
    rw [hserve,hkeep,hnone]
    exact ⟨hs,hdeletes.owned ▸ ho,List.not_mem_nil⟩

theorem created_sound : Sound Data.create :=
  ⟨⟨by simp [Data.create],List.nodup_nil,by simp [Data.create],by simp [Data.create],
    List.nodup_nil,by simp [Data.create],rfl⟩,List.nodup_nil,nofun,List.nodup_nil,nofun⟩

theorem safe {s : State Data Call κ} (h : (machine κ).Reachable s) : Sound s.data ∧ Making s :=
  h.invariant (fun s => Sound s.data ∧ Making s) ⟨created_sound,nofun,nofun⟩
    fun _ _ _ hi _ ht => safe_step hi ht

/-- No client looks whether the thread was started while another one is about to start it. -/
def StartsAlone (s : State Data Call κ) : Label Call Unit Ready Act κ → Prop
  | .call _ .start => ∀ c, s.calls c ≠ some (.looked .start)
  | _ => True

instance [Fintype κ] (s : State Data Call κ) (l : Label Call Unit Ready Act κ) :
    Decidable (StartsAlone s l) := by
  unfold StartsAlone
  split <;> infer_instance

/-- The thread was started, and nobody is about to start it again. -/
structure Started (s : State Data Call κ) : Prop where
  thread : s.data.thread ≠ .notStarted
  threads : s.data.threads = 1
  looked : ∀ c, s.calls c ≠ some (.looked .start)

/-- The thread was not started, and one client at most is about to. -/
structure Unstarted (s : State Data Call κ) : Prop where
  thread : s.data.thread = .notStarted
  threads : s.data.threads = 0
  alone : ∀ c c', s.calls c = some (.looked .start) → s.calls c' = some (.looked .start) → c = c'

@[simp] theorem processFd_thread (d : Data) (r : Ready) :
    (processFd d r).thread = d.thread ∧ (processFd d r).threads = d.threads := by
  unfold processFd
  split
  · exact ⟨rfl,rfl⟩
  · split
    · exact ⟨rfl,rfl⟩
    · split <;> exact ⟨rfl,rfl⟩

theorem deleteStream_threads (d : Data) (as : ℕ) : (deleteStream d as).threads = d.threads := by
  unfold deleteStream
  split <;> rfl

theorem doRebuildFds_threads (d : Data) : (doRebuildFds d).threads = d.threads := by
  have hfold : ∀ l : List ℕ, ∀ e : Data, (l.foldl deleteStream e).threads = e.threads := by
    intro l
    induction l with
    | nil => exact fun _ => rfl
    | cons as l ih => exact fun e => (ih _).trans (deleteStream_threads e as)
  exact hfold d.streamsToDelete d

/-- Only the client that is to start the thread touches that. The thread runs when it serves. -/
theorem threads_step {s t : State Data Call κ} {l : Label Call Unit Ready Act κ}
    (ht : step service s l = some t) (hl : ∀ c, l ≠ .proceed c) :
    t.data.threads = s.data.threads ∧
    (t.data.thread = s.data.thread ∨ s.data.thread ≠ .notStarted ∧ t.data.thread = .running) := by
  have hdata := step_data _ ht
  cases l with
  | proceed c => exact absurd rfl (hl c)
  | call c u =>
    obtain ⟨-,-,hsame⟩ | ⟨hne,hpost⟩ := call_data ht
    · rw [hsame]
      exact ⟨rfl,.inl rfl⟩
    · cases u with
      | start => exact absurd rfl hne
      | create as fds =>
        simp only [post] at hpost
        split_ifs at hpost
        rw [← Option.some.inj hpost]
        exact ⟨rfl,.inl rfl⟩
      | destroy as =>
        simp only [post] at hpost
        split_ifs at hpost
        rw [← Option.some.inj hpost]
        exact ⟨rfl,.inl rfl⟩
  | arrive c => rw [hdata]; exact ⟨rfl,.inl rfl⟩
  | workerArrive => rw [hdata]; exact ⟨rfl,.inl rfl⟩
  | ret c =>
    obtain ⟨u,-,hd⟩ := hdata
    rw [hd]
    cases u with
    | create as fds =>
      simp only [service,finish]
      split <;> exact ⟨rfl,.inl rfl⟩
    | start => exact ⟨rfl,.inl rfl⟩
    | destroy as => exact ⟨rfl,.inl rfl⟩
  | act c a =>
    obtain ⟨-,hact⟩ := hdata
    cases a with
    | pause as enabled =>
      simp only [service,act] at hact
      split_ifs at hact
      obtain ⟨stream,-,heq⟩ := Option.map_eq_some_iff.mp hact
      rw [← heq]
      exact ⟨rfl,.inl rfl⟩
    | createFails fds =>
      simp only [service,act] at hact
      split_ifs at hact
      rw [← Option.some.inj hact]
      exact ⟨rfl,.inl rfl⟩
  | serve w =>
    have hthread : s.data.thread ≠ .notStarted := by
      intro hnot
      have hpending := hdata.1
      simp [service,hnot] at hpending
    rw [hdata.2]
    exact ⟨doRebuildFds_threads s.data,.inr ⟨hthread,rfl⟩⟩
  | work r =>
    rw [hdata.2]
    exact ⟨(processFd_thread s.data r).2,.inl (processFd_thread s.data r).1⟩

/-- Whatever calls overlap later, the thread that was started stays the only one. -/
theorem Started.step {s t : State Data Call κ} {l : Label Call Unit Ready Act κ} (h : Started s)
    (ht : step service s l = some t) : Started t := by
  have hl : ∀ c, l ≠ .proceed c := by
    rintro c rfl
    exact h.looked c (proceed_data ht).1
  obtain ⟨hthreads,hthread⟩ := threads_step ht hl
  refine ⟨?_,hthreads.trans h.threads,fun c hc => ?_⟩
  · obtain hsame | ⟨-,hrun⟩ := hthread
    · exact hsame ▸ h.thread
    · rw [hrun]
      exact nofun
  · obtain ⟨hs,-⟩ | ⟨rfl,-⟩ := step_looked _ ht hc
    · exact h.looked c hs
    · obtain ⟨-,hnot,-⟩ | ⟨hne,-⟩ := call_data ht
      · exact h.thread hnot
      · exact hne rfl

theorem Unstarted.step {s t : State Data Call κ} {l : Label Call Unit Ready Act κ}
    (h : Unstarted s) (hg : StartsAlone s l) (ht : step service s l = some t) :
    Unstarted t ∨ Started t := by
  by_cases hl : ∃ c, l = .proceed c
  · obtain ⟨c,rfl⟩ := hl
    obtain ⟨hc,hpost⟩ := proceed_data ht
    rw [post,if_pos h.thread] at hpost
    have hdata := (Option.some.inj hpost).symm
    refine .inr ⟨by rw [hdata]; exact nofun,by rw [hdata]; exact congrArg (· + 1) h.threads,?_⟩
    intro c' hc'
    obtain ⟨hs,hne⟩ | ⟨hcall,-⟩ := step_looked _ ht hc'
    · exact hne (congrArg _ (h.alone c c' hc hs))
    · cases hcall
  · have hl : ∀ c, l ≠ .proceed c := fun c hc => hl ⟨c,hc⟩
    obtain ⟨hthreads,hthread⟩ := threads_step ht hl
    refine .inl ⟨?_,hthreads.trans h.threads,fun c c' hc hc' => ?_⟩
    · exact (hthread.resolve_right fun hrun => hrun.1 h.thread).trans h.thread
    · obtain ⟨hs,-⟩ | ⟨rfl,-⟩ := step_looked _ ht hc <;>
        obtain ⟨hs',-⟩ | ⟨hcall,-⟩ := step_looked _ ht hc'
      · exact h.alone c c' hs hs'
      · subst hcall
        exact absurd hs (hg c)
      · exact absurd hs' (hg c')
      · cases hcall
        rfl

theorem started_or_not {guard : State Data Call κ → Label Call Unit Ready Act κ → Prop}
    (hguard : ∀ s l, guard s l → StartsAlone s l) {s : State Data Call κ}
    (h : (machine κ).ReachableVia guard s) : Unstarted s ∨ Started s :=
  h.invariant (fun s => Unstarted s ∨ Started s) (.inl ⟨rfl,rfl,nofun⟩) fun _ _ _ hi hg ht =>
    hi.elim (fun hi => hi.step (hguard _ _ hg) ht) fun hi => .inr (hi.step ht)

/-- The thread serves one client at a time. -/
def serve {κ : Type} (c : κ) (u : Call) : List (Label Call Unit Ready Act κ) :=
  [.call c u,.serve (),.workerArrive,.arrive c,.ret c]

/-- The first client starts the thread. -/
def startThread {κ : Type} (c : κ) : List (Label Call Unit Ready Act κ) :=
  [.call c .start,.proceed c,.serve (),.workerArrive,.arrive c,.ret c]

/-- Two clients make streams, and destroy them at the same time. -/
def twoClients : List (Label Call Unit Ready Act Bool) :=
  startThread false ++ serve false (.create 0 [7,8]) ++ serve true (.create 1 [9]) ++
    [.act false (.pause 0 false),.work ⟨0,2⟩,.call false (.destroy 0),.call true (.destroy 1),
      .arrive false,.arrive true,.ret false]

/-- Both clients have looked before one of them starts the thread. -/
def twoStarts : List (Label Call Unit Ready Act Bool) :=
  [.call false .start,.call true .start,.proceed false,.proceed true]

-- Without the condition a second thread is created.
example : ((machine Bool).exec (machine Bool).start twoStarts).map (·.data.threads) = some 2 := by
  rfl

end AlsaStreams
end FreshPlayer
