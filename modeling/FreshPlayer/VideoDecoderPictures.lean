import FreshPlayer.VideoDecoder

/-! Who has a picture buffer. The plugin has it from PictureReady until it gives it back, or
until its buffers are replaced or dismissed, and the flag of its entry should tell as much. -/
namespace FreshPlayer
namespace VideoDecoder

/-- The entry at `k`, of that id, was given to the plugin and is still there. -/
def handedOut (k : ℕ) (id : ℤ) : List Event → Bool
  | [] => false
  | .pictureReady j _ _::log => j = k || handedOut k id log
  | .reusePictureBuffer i::log => i ≠ id && handedOut k id log
  | .assignPictureBuffers::_ => false
  | .dismissPictureBuffer i::log => i ≠ id && handedOut k id log

/-- An entry with its id and its handles set, and a flag that tells who has it. -/
def Tells (log : List Event) (k : ℕ) (e : Entry) : Prop :=
  ∃ id pixmap glxPixmap, e.id = some id ∧ e.pixmap = some pixmap ∧
    e.glxPixmap = some glxPixmap ∧ e.used = some (handedOut k id log)

def Accounted (s : State) : Prop :=
  ∀ k < s.bufferCount, ∃ buffers e, s.buffers = some buffers ∧ buffers[k]? = some e ∧
    Tells s.log k e

/-- If there is a free entry, so is the graphics context. -/
def Finds (found : Bool) (s : State) : Prop :=
  (∃ l, s.entries = some l ∧ ∃ e ∈ l, e.used = some false) → s.graphics3d = true ∧ found = true

/-- A frame is issued with the graphics context at hand. AssignPictureBuffers gets its array, or
there were no buffers, and gets all its pixmaps, up to the last one. -/
def Orderly (s : State) : Action → Prop
  | .round r => 0 < r.outbufSz → (∃ pktPts, r.decoded = .frame pktPts) →
      s.buffersWereRequested = true → Finds r.found s
  | .callbackReturn position found =>
      (∃ c, s.waiting[position]? = some (.providePictureBuffers,c)) → Finds found s
  | .assignPictureBuffers found allocated buffers => s.graphics3d = true → found = true →
      if allocated = true then ∀ b ∈ buffers.dropLast, b.2.glxPixmap ≠ 0 else s.bufferCount = 0
  | _ => True

variable {s t : State}

theorem accounted_congr (hcount : t.bufferCount = s.bufferCount) (hbuffers : t.buffers = s.buffers)
    (hlog : t.log = s.log) : Accounted t ↔ Accounted s := by
  unfold Accounted
  rw [hcount,hbuffers,hlog]

theorem accounted_of_none (h : s.bufferCount = 0) : Accounted s := fun k hk => by
  rw [h] at hk
  exact absurd hk (Nat.not_lt_zero k)

/-- The same of the list that the loops go through. -/
theorem accounted_iff :
    Accounted s ↔ ∃ l, s.entries = some l ∧ ∀ k e, l[k]? = some e → Tells s.log k e := by
  unfold State.entries
  constructor
  · intro h
    rcases Nat.eq_zero_or_pos s.bufferCount with hzero | hpos
    · refine ⟨[],?_,fun k e he => nomatch he⟩
      cases s.buffers with
      | none => exact if_pos hzero
      | some buffers => simp [hzero]
    · obtain ⟨buffers,_,hb,hlast,_⟩ := h (s.bufferCount-1) (by omega)
      have hle : s.bufferCount ≤ buffers.length := by
        have := (List.getElem?_eq_some_iff.mp hlast).1
        omega
      refine ⟨buffers.take s.bufferCount,by rw [hb]; exact if_pos hle,fun k e he => ?_⟩
      have hk : k < s.bufferCount := by
        have := (List.getElem?_eq_some_iff.mp he).1
        rw [List.length_take] at this
        omega
      obtain ⟨buffers',e',hb',he',ht⟩ := h k hk
      cases Option.some.inj (hb.symm.trans hb')
      rw [List.getElem?_take_of_lt hk,he'] at he
      exact Option.some.inj he ▸ ht
  · rintro ⟨l,hl,ht⟩ k hk
    cases hb : s.buffers with
    | none =>
      rw [hb] at hl
      obtain ⟨hzero,_⟩ := Option.ite_none_right_eq_some.mp hl
      omega
    | some buffers =>
      rw [hb] at hl
      obtain ⟨hle,hl⟩ := Option.ite_none_right_eq_some.mp hl
      cases hl
      have hlt : k < buffers.length := by omega
      refine ⟨buffers,buffers[k],rfl,List.getElem?_eq_getElem hlt,ht k _ ?_⟩
      rw [List.getElem?_take_of_lt hk,List.getElem?_eq_getElem hlt]

theorem length_entries {l : List Entry} (h : s.entries = some l) : l.length = s.bufferCount := by
  unfold State.entries at h
  split at h
  · obtain ⟨hle,h⟩ := Option.ite_none_right_eq_some.mp h
    cases h
    exact List.length_take_of_le hle
  · obtain ⟨hzero,h⟩ := Option.ite_none_right_eq_some.mp h
    cases h
    exact hzero.symm

/-- What a loop writes is what the next one reads. -/
theorem entries_setEntries {l l' : List Entry} (h : s.entries = some l)
    (hlen : l'.length = l.length) : (s.setEntries l').entries = some l' := by
  have hcount := hlen.trans (length_entries h)
  unfold State.entries at h
  cases hb : s.buffers with
  | none =>
    rw [hb] at h
    obtain ⟨hzero,h⟩ := Option.ite_none_right_eq_some.mp h
    cases h
    simp only [State.setEntries,State.entries,hb,Option.map_none,hzero,if_true]
    rw [List.length_eq_zero_iff.mp hlen]
  | some buffers =>
    rw [hb] at h
    simp only [State.setEntries,State.entries,hb,Option.map_some]
    rw [if_pos (by rw [List.length_append]; omega),List.take_append_of_le_length (Nat.le_of_eq hcount.symm),
      ← hcount,List.take_length]

/-- The search stops at the first entry that is free. -/
theorem findFreeBuffer_some {l : List Entry} {k : ℕ} (h : findFreeBuffer l = some (some k)) :
    ∃ e, l[k]? = some e ∧ e.used = some false := by
  induction l generalizing k with
  | nil => cases h
  | cons e l ih =>
    obtain ⟨used,hused,h⟩ := Option.bind_eq_some_iff.mp h
    cases used with
    | false =>
      cases h
      exact ⟨e,rfl,hused⟩
    | true =>
      obtain ⟨found,hfound,h⟩ := Option.map_eq_some_iff.mp h
      obtain ⟨j,rfl,rfl⟩ := Option.map_eq_some_iff.mp h
      exact ih hfound

theorem findFreeBuffer_none {l : List Entry} (h : findFreeBuffer l = some none) :
    ∀ e ∈ l, e.used = some true := by
  induction l with
  | nil => exact fun e he => nomatch he
  | cons e l ih =>
    obtain ⟨used,hused,h⟩ := Option.bind_eq_some_iff.mp h
    cases used with
    | false => cases h
    | true =>
      obtain ⟨found,hfound,h⟩ := Option.map_eq_some_iff.mp h
      rw [Option.map_eq_none_iff.mp h] at hfound
      exact List.forall_mem_cons.mpr ⟨hused,ih hfound⟩

/-- A frame finds no free entry, is shown in one, or loses one. -/
theorem issueFrame_cases {found : Bool} {c : Call} (h : issueFrame found c s = some t) :
    ∃ l, s.entries = some l ∧
      ((∀ e ∈ l, e.used = some true) ∧ t = { s with running := some c } ∨
       ∃ k e, l[k]? = some e ∧ e.used = some false ∧
        ((s.graphics3d = true ∧ found = true) ∧ (∃ id pts, t = { s.setEntries (l.modify k claim) with
            running := none, waiting := s.waiting ++ [(.pictureReady,c)]
            log := .pictureReady k id pts::s.log }) ∨
         ¬(s.graphics3d = true ∧ found = true) ∧
          t = { s.setEntries (l.modify k claim) with running := some c })) := by
  obtain ⟨pts,_,h⟩ := Option.bind_eq_some_iff.mp h
  obtain ⟨l,hl,h⟩ := Option.bind_eq_some_iff.mp h
  obtain ⟨r,hr,h⟩ := Option.bind_eq_some_iff.mp h
  refine ⟨l,hl,?_⟩
  cases r with
  | none =>
    cases h
    exact Or.inl ⟨findFreeBuffer_none hr,rfl⟩
  | some k =>
    obtain ⟨e,he,hfree⟩ := findFreeBuffer_some hr
    refine Or.inr ⟨k,e,he,hfree,?_⟩
    dsimp only at h
    split at h
    · rename_i hg
      obtain ⟨id,_,h⟩ := Option.bind_eq_some_iff.mp h
      cases h
      exact Or.inl ⟨Bool.and_eq_true_iff.mp hg,id,_,rfl⟩
    · rename_i hg
      cases h
      exact Or.inr ⟨fun hf => hg (Bool.and_eq_true_iff.mpr hf),rfl⟩

/-- A picture in one entry says nothing of the others. -/
theorem tells_pictureReady {log : List Event} {j k : ℕ} {i pts : ℤ} {e : Entry} (h : j ≠ k) :
    Tells (.pictureReady j i pts::log) k e ↔ Tells log k e := by
  simp [Tells,handedOut,h]

theorem tells_claim {log : List Event} {k : ℕ} {i pts : ℤ} {e : Entry} (h : Tells log k e) :
    Tells (.pictureReady k i pts::log) k (claim e) := by
  obtain ⟨id,pixmap,glxPixmap,hid,hpixmap,hglx,_⟩ := h
  exact ⟨id,pixmap,glxPixmap,hid,hpixmap,hglx,by simp [claim,handedOut]⟩

/-- A free entry that is claimed, and not given to the plugin. -/
theorem not_tells_claim {log : List Event} {k : ℕ} {e : Entry} (h : Tells log k e)
    (hfree : e.used = some false) : ¬Tells log k (claim e) := by
  obtain ⟨id,_,_,hid,_,_,hused⟩ := h
  rintro ⟨id',_,_,hid',_,_,hused'⟩
  cases Option.some.inj (hid.symm.trans hid')
  have := Option.some.inj (hused.symm.trans hfree)
  rw [this] at hused'
  cases hused'

/-- An entry the search finds is lost when the graphics context is not found after it. -/
theorem accounted_issueFrame {found : Bool} {c : Call} (h : Accounted s)
    (hstep : issueFrame found c s = some t) : Accounted t ↔ Finds found s := by
  obtain ⟨l,hl,htells⟩ := accounted_iff.mp h
  obtain ⟨l',hl',hcases⟩ := issueFrame_cases hstep
  cases Option.some.inj (hl.symm.trans hl')
  rcases hcases with ⟨hall,rfl⟩ | ⟨k,e,he,hfree,hcases⟩
  · refine iff_of_true ((accounted_congr rfl rfl rfl).mpr h) fun ⟨l',hl',e,he,hfree⟩ => ?_
    cases Option.some.inj (hl.symm.trans hl')
    cases hfree.symm.trans (hall e he)
  have hset := entries_setEntries hl (List.length_modify claim l k)
  have hclaimed : (l.modify k claim)[k]? = some (claim e) := by
    rw [List.getElem?_modify_eq,he]
    rfl
  rcases hcases with ⟨hg,id,pts,rfl⟩ | ⟨hg,rfl⟩
  · refine iff_of_true (accounted_iff.mpr ⟨_,hset,fun j e' he' => ?_⟩) fun _ => hg
    by_cases hj : k = j
    · cases hj
      cases Option.some.inj (hclaimed.symm.trans he')
      exact tells_claim (htells k e he)
    · rw [List.getElem?_modify_ne claim l hj] at he'
      exact (tells_pictureReady hj).mpr (htells j e' he')
  · refine iff_of_false (fun hacc => ?_) fun hf => hg (hf ⟨l,hl,e,List.mem_of_getElem? he,hfree⟩)
    obtain ⟨l',hl',ht⟩ := accounted_iff.mp hacc
    cases Option.some.inj (hset.symm.trans hl')
    exact not_tells_claim (htells k e he) hfree (ht k _ hclaimed)

theorem accounted_deinitializeDecoder (h : deinitializeDecoder s = some t) : Accounted t := by
  obtain ⟨l,_,h⟩ := Option.bind_eq_some_iff.mp h
  obtain ⟨ids,_,h⟩ := Option.bind_eq_some_iff.mp h
  cases h
  exact accounted_of_none rfl

theorem accounted_initializeDecoder {i : Initialization} (h : Accounted s)
    (hstep : initializeDecoder i s = some t) : Accounted t := by
  cases i with
  | noGraphics => exact accounted_deinitializeDecoder hstep
  | failed => exact accounted_deinitializeDecoder hstep
  | done =>
    cases hstep
    exact (accounted_congr rfl rfl rfl).mpr h

theorem accounted_decode {size : ℕ} {bitstream : ℤ} {i : Initialization} {mapped : Bool}
    (h : Accounted s) (hstep : ppbVideoDecoderDecode size bitstream i mapped s = some t) :
    Accounted t := by
  unfold ppbVideoDecoderDecode at hstep
  split at hstep
  · cases hstep
    exact h
  obtain ⟨u,hu,rfl⟩ := Option.map_eq_some_iff.mp hstep
  have hacc : Accounted u := by
    split at hu
    · cases hu
      exact h
    · exact accounted_initializeDecoder h hu
  split
  · exact (accounted_congr rfl rfl rfl).mpr hacc
  split
  · exact (accounted_congr rfl rfl rfl).mpr hacc
  · exact hacc

theorem getFormat_eq (f : Option Format) (s : State) : ∃ api failed,
    getFormat f s = { s with hwdecApi := api, failedState := failed } := by
  rcases f with _ | (_ | _) | (_ | _) | _ <;> exact ⟨_,_,rfl⟩

/-- Only a frame, once the buffers have been requested, looks for an entry. -/
theorem accounted_parse {r : Round} {c : Call} (h : Accounted s) (hstep : parse r c s = some t) :
    Accounted t ↔ Orderly s (.round r) := by
  obtain ⟨_,hstep⟩ := Option.ite_none_right_eq_some.mp hstep
  split at hstep
  · rename_i hout
    obtain ⟨api,failed,hformat⟩ := getFormat_eq r.format s
    unfold decodeFrame at hstep
    rw [hformat] at hstep
    dsimp only at hstep
    cases hd : r.decoded with
    | error =>
      rw [hd] at hstep
      cases hstep
      refine iff_of_true ((accounted_congr rfl rfl rfl).mpr h) fun _ ⟨_,he⟩ => ?_
      cases hd.symm.trans he
    | noFrame =>
      rw [hd] at hstep
      cases hstep
      refine iff_of_true ((accounted_congr rfl rfl rfl).mpr h) fun _ ⟨_,he⟩ => ?_
      cases hd.symm.trans he
    | frame pktPts =>
      rw [hd] at hstep
      dsimp only at hstep
      split at hstep
      · rename_i hrequested
        rw [accounted_issueFrame (by exact (accounted_congr rfl rfl rfl).mpr h) hstep]
        exact ⟨fun hf _ _ _ => hf,fun hf => hf hout ⟨pktPts,hd⟩ hrequested⟩
      · rename_i hrequested
        cases hstep
        exact iff_of_true ((accounted_congr rfl rfl rfl).mpr h) fun _ _ hr =>
          absurd hr hrequested
  · rename_i hout
    cases hstep
    exact iff_of_true ((accounted_congr rfl rfl rfl).mpr h) fun hpos => absurd hpos hout

/-- An entry the loop has filled. -/
def Fresh (e : Entry) : Prop :=
  ∃ id pixmap glxPixmap, e.id = some id ∧ e.pixmap = some pixmap ∧
    e.glxPixmap = some glxPixmap ∧ e.used = some false

theorem fresh_fill (api : Api) (buffers : List (PictureBuffer × Made)) :
    (∀ e ∈ fill api buffers, Fresh e) ↔ ∀ b ∈ buffers.dropLast, b.2.glxPixmap ≠ 0 := by
  induction buffers with
  | nil => exact iff_of_true (fun e he => nomatch he) fun b hb => nomatch hb
  | cons head rest ih =>
    obtain ⟨b,m⟩ := head
    have hentry : Fresh (entryOf b m) := ⟨b.id,m.pixmap,m.glxPixmap,rfl,rfl,rfl,rfl⟩
    cases rest with
    | nil =>
      refine iff_of_true (fun e he => ?_) fun b hb => nomatch hb
      unfold fill at he
      split at he
      · exact List.mem_singleton.mp he ▸ hentry
      · split at he
        · exact List.mem_singleton.mp he ▸ ⟨b.id,m.pixmap,m.glxPixmap,rfl,rfl,rfl,rfl⟩
        · exact List.mem_singleton.mp he ▸ hentry
    | cons next rest =>
      rw [List.dropLast_cons_cons,List.forall_mem_cons,← ih,fill]
      by_cases hzero : m.glxPixmap = 0
      · rw [if_pos hzero]
        refine iff_of_false (fun h => ?_) fun h => h.1 hzero
        obtain ⟨id,_,_,hid,_⟩ := h blank (List.mem_cons_of_mem _ List.mem_cons_self)
        cases hid
      · rw [if_neg hzero]
        split
        · rw [List.forall_mem_cons]
          exact and_congr_left' (iff_of_true ⟨b.id,m.pixmap,m.glxPixmap,rfl,rfl,rfl,rfl⟩ hzero)
        · rw [List.forall_mem_cons]
          exact and_congr_left' (iff_of_true hentry hzero)

theorem length_fill (api : Api) (buffers : List (PictureBuffer × Made)) :
    (fill api buffers).length = buffers.length := by
  induction buffers with
  | nil => rfl
  | cons head rest ih =>
    obtain ⟨b,m⟩ := head
    unfold fill
    split
    · rw [List.length_cons,List.length_map,List.length_cons]
    · split <;> rw [List.length_cons,List.length_cons,ih]

theorem accounted_filled {api : Api} {buffers : List (PictureBuffer × Made)}
    (hbuffers : t.buffers = some (fill api buffers)) (hcount : t.bufferCount = buffers.length)
    (hlog : t.log = .assignPictureBuffers::s.log) :
    Accounted t ↔ ∀ b ∈ buffers.dropLast, b.2.glxPixmap ≠ 0 := by
  rw [← fresh_fill api,accounted_iff]
  have hentries : t.entries = some (fill api buffers) := by
    unfold State.entries
    rw [hbuffers,hcount]
    dsimp only
    rw [if_pos (Nat.le_of_eq (length_fill api buffers).symm),← length_fill api buffers,
      List.take_length]
  have htells (k : ℕ) (e : Entry) : Tells t.log k e ↔ Fresh e := by
    rw [hlog]
    exact Iff.rfl
  constructor
  · rintro ⟨l,hl,ht⟩ e he
    cases Option.some.inj (hentries.symm.trans hl)
    obtain ⟨k,hk⟩ := List.getElem?_of_mem he
    exact (htells k e).mp (ht k e hk)
  · exact fun hf => ⟨_,hentries,fun k e he => (htells k e).mpr (hf e (List.mem_of_getElem? he))⟩

theorem accounted_assign {found allocated : Bool} {buffers : List (PictureBuffer × Made)}
    (h : Accounted s) :
    Accounted (ppbVideoDecoderAssignPictureBuffers found allocated buffers s) ↔
      Orderly s (.assignPictureBuffers found allocated buffers) := by
  change _ ↔ (s.graphics3d = true → found = true → _)
  unfold ppbVideoDecoderAssignPictureBuffers
  split
  · rename_i hg
    obtain ⟨hgraphics,hfound⟩ := Bool.and_eq_true_iff.mp hg
    rw [forall_prop_of_true hgraphics,forall_prop_of_true hfound]
    split
    · exact accounted_filled rfl rfl rfl
    · refine ⟨fun hacc => ?_,fun hcount => accounted_of_none hcount⟩
      -- no entry below a count that is not zero
      by_contra hcount
      obtain ⟨_,_,hb,_⟩ := hacc 0 (Nat.pos_of_ne_zero hcount)
      cases hb
  · rename_i hg
    exact iff_of_true h fun hgraphics hfound =>
      absurd (Bool.and_eq_true_iff.mpr ⟨hgraphics,hfound⟩) hg

theorem getElem?_mapM {α β : Type*} {f : α → Option β} {l : List α} {l' : List β}
    (h : l.mapM f = some l') (k : ℕ) : l'[k]? = l[k]?.bind f := by
  induction l generalizing l' k with
  | nil =>
    cases h
    rfl
  | cons a l ih =>
    rw [List.mapM_cons] at h
    obtain ⟨b,hb,h⟩ := Option.bind_eq_some_iff.mp h
    obtain ⟨m,hm,h⟩ := Option.bind_eq_some_iff.mp h
    cases h
    cases k with
    | zero => exact hb.symm
    | succ k => exact ih hm k

theorem length_mapM {α β : Type*} {f : α → Option β} {l : List α} {l' : List β}
    (h : l.mapM f = some l') : l'.length = l.length := by
  induction l generalizing l' with
  | nil =>
    cases h
    rfl
  | cons a l ih =>
    rw [List.mapM_cons] at h
    obtain ⟨b,_,h⟩ := Option.bind_eq_some_iff.mp h
    obtain ⟨m,hm,h⟩ := Option.bind_eq_some_iff.mp h
    cases h
    exact congrArg (·+1) (ih hm)

theorem reuse_eq {i id : ℤ} {e : Entry} {used : Bool} (hid : e.id = some id)
    (hused : e.used = some used) :
    reuse i e = some (if id = i then { e with used := some false } else e) := by
  obtain ⟨eid,width,height,textureId,eused,pixmap,glxPixmap,target,queue⟩ := e
  cases hid
  cases hused
  unfold reuse
  by_cases hi : id = i
  · cases used <;> simp [hi]
  · simp [hi]

/-- Buffers of that id are free, the others stay as they are. -/
theorem tells_reuse {log : List Event} {k : ℕ} {i : ℤ} {e e' : Entry} (h : Tells log k e)
    (hreuse : reuse i e = some e') : Tells (.reusePictureBuffer i::log) k e' := by
  obtain ⟨id,pixmap,glxPixmap,hid,hpixmap,hglx,hused⟩ := h
  rw [reuse_eq hid hused] at hreuse
  cases hreuse
  by_cases hi : id = i
  · rw [if_pos hi]
    exact ⟨id,pixmap,glxPixmap,hid,hpixmap,hglx,by simp [handedOut,hi]⟩
  · rw [if_neg hi]
    exact ⟨id,pixmap,glxPixmap,hid,hpixmap,hglx,by simp [handedOut,hused,Ne.symm hi]⟩

theorem accounted_reuse {i : ℤ} (h : Accounted s)
    (hstep : ppbVideoDecoderReusePictureBuffer i s = some t) : Accounted t := by
  obtain ⟨l,hl,hstep⟩ := Option.bind_eq_some_iff.mp hstep
  obtain ⟨l',hl',hstep⟩ := Option.bind_eq_some_iff.mp hstep
  cases hstep
  obtain ⟨l'',hl'',htells⟩ := accounted_iff.mp h
  cases Option.some.inj (hl.symm.trans hl'')
  refine accounted_iff.mpr ⟨l',entries_setEntries hl (length_mapM hl'),fun k e' he' => ?_⟩
  rw [getElem?_mapM hl'] at he'
  obtain ⟨e,he,hreuse⟩ := Option.bind_eq_some_iff.mp he'
  exact tells_reuse (htells k e he) hreuse

/-- A step keeps the account exactly if it is orderly. -/
theorem accounted_step {a : Action} (h : Accounted s) (hstep : step s a = some t) :
    Accounted t ↔ Orderly s a := by
  cases a with
  | decode size bitstream initialization mapped =>
    obtain ⟨_,hstep⟩ := Option.ite_none_right_eq_some.mp hstep
    exact iff_of_true (accounted_decode h hstep) trivial
  | round r =>
    unfold step at hstep
    dsimp only at hstep
    split at hstep
    · obtain ⟨_,hstep⟩ := Option.ite_none_right_eq_some.mp hstep
      exact accounted_parse h hstep
    · cases hstep
  | decodeReturn =>
    unfold step at hstep
    dsimp only at hstep
    split at hstep
    · obtain ⟨_,hstep⟩ := Option.ite_none_right_eq_some.mp hstep
      cases hstep
      exact iff_of_true ((accounted_congr rfl rfl rfl).mpr h) trivial
    · cases hstep
  | callbackReturn position found =>
    obtain ⟨_,hstep⟩ := Option.ite_none_right_eq_some.mp hstep
    obtain ⟨⟨callback,c⟩,hw,hstep⟩ := Option.bind_eq_some_iff.mp hstep
    cases callback with
    | providePictureBuffers =>
      rw [accounted_issueFrame (by exact (accounted_congr rfl rfl rfl).mpr h) hstep]
      exact ⟨fun hf _ => hf,fun hf => hf ⟨c,hw⟩⟩
    | pictureReady =>
      cases hstep
      refine iff_of_true ((accounted_congr rfl rfl rfl).mpr h) fun ⟨_,hw'⟩ => ?_
      cases hw.symm.trans hw'
  | assignPictureBuffers found allocated buffers =>
    obtain ⟨_,hstep⟩ := Option.ite_none_right_eq_some.mp hstep
    cases hstep
    exact accounted_assign h
  | reusePictureBuffer i =>
    obtain ⟨_,hstep⟩ := Option.ite_none_right_eq_some.mp hstep
    exact iff_of_true (accounted_reuse h hstep) trivial
  | flush =>
    obtain ⟨_,hstep⟩ := Option.ite_none_right_eq_some.mp hstep
    obtain ⟨_,hstep⟩ := Option.ite_none_right_eq_some.mp hstep
    cases hstep
    exact iff_of_true h trivial
  | reset =>
    obtain ⟨_,hstep⟩ := Option.ite_none_right_eq_some.mp hstep
    exact iff_of_true (accounted_deinitializeDecoder hstep) trivial

/-- The account is right throughout a run exactly if its steps are orderly. -/
theorem pictures_accounted (ls : List Action) (u : State)
    (hr : machine.exec created ls = some u) :
    machine.AlwaysFrom Accounted created ls ↔ machine.EachFrom Orderly created ls :=
  Machine.always_iff_each (fun _ => True) (fun _ _ _ _ _ => trivial)
    (fun _ _ _ _ hp ht => accounted_step hp ht) trivial (accounted_of_none rfl) hr

/-- A first frame, and what the plugin answers to the request for buffers. -/
def firstFrame (buffers : List (PictureBuffer × Made)) : List Action :=
  [.decode 10 1 .done true,.round ⟨10,10,some (.vaapi true),.frame 1,true⟩,
    .assignPictureBuffers true true buffers]

theorem pictures_accounted_shown :
    machine.AlwaysFrom Accounted created
      (firstFrame [(⟨5,8,8,1⟩,⟨100,200,0,0⟩)] ++ [.callbackReturn 0 true]) :=
  (pictures_accounted _ _ rfl).mpr (by
    refine ⟨trivial,fun s hs => ⟨fun _ _ hr => ?_,fun t ht => ⟨fun _ _ => ?_,fun u hu =>
      ⟨fun _ _ => ?_,fun _ _ => trivial⟩⟩⟩⟩
    · cases hs
      cases hr
    · exact fun _ hb => nomatch hb
    · cases hs
      cases ht
      cases hu
      exact ⟨rfl,rfl⟩)

/-- A frame whose graphics context is gone keeps the only entry, which the plugin never hears
of. A pixmap that is not made leaves the entries after its own as the allocator gave them. -/
theorem pictures_lost :
    (∃ s, machine.exec created
      (firstFrame [(⟨5,8,8,1⟩,⟨100,200,0,0⟩)] ++ [.callbackReturn 0 false]) = some s ∧
      (∃ e, s.buffers = some [e] ∧ e.used = some true) ∧ handedOut 0 5 s.log = false ∧
      ¬Accounted s) ∧
    ∃ s, machine.exec created
      (firstFrame [(⟨5,8,8,1⟩,⟨100,0,0,0⟩),(⟨6,8,8,2⟩,⟨101,201,0,0⟩)]) = some s ∧
      s.bufferCount = 2 ∧ (∃ e, s.buffers = some [e,blank]) ∧ ¬Accounted s := by
  refine ⟨⟨_,rfl,⟨_,rfl,rfl⟩,rfl,fun h => ?_⟩,⟨_,rfl,rfl,⟨_,rfl⟩,fun h => ?_⟩⟩
  · obtain ⟨_,_,hb,he,id,_,_,hid,_,_,hused⟩ := h 0 (by decide)
    cases hb
    cases he
    cases hid
    cases hused
  · obtain ⟨_,_,hb,he,_,_,_,hid,_⟩ := h 1 (by decide)
    cases hb
    cases he
    cases hid

end VideoDecoder
end FreshPlayer
