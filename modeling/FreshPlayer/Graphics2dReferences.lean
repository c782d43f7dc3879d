import FreshPlayer.Graphics2d
import Mathlib.Data.List.Nodup

/-! The references of paint tasks. Queueing a task takes one if the resource exists, and
consuming it drops one if the resource is an image by then, which the counts of the resources
show. A task is known by its number, so a reference dropped twice or never shows as well. -/
namespace FreshPlayer
namespace Graphics2d

variable {σ : Type*} {P : Scaling σ}

/-- The tasks a context still has. -/
def State.queued (s : State σ) : List ℕ :=
  match s.g2d with
  | some g => g.taskList.map PaintTask.number
  | none => []

/-- No reference of a queued task was dropped; that of any other task was dropped once if
it was taken, and no reference was dropped otherwise. -/
def DroppedOnce (s : State σ) : Prop :=
  ∀ n < s.taken.length, s.dropped.count n =
    if n ∈ s.queued then 0 else if s.taken[n]? = some true then 1 else 0

/-- The count of every resource fits an `int`. -/
def CountsFit (s : State σ) : Prop := ∀ e ∈ s.resources.entries, e.2.refCnt < 2^31

def Balanced (s : State σ) : Prop := DroppedOnce s ∧ CountsFit s

instance (s : State σ) : Decidable (Balanced s) :=
  inferInstanceAs (Decidable ((∀ n < s.taken.length, _) ∧ ∀ e ∈ s.resources.entries, _))

/-- Flush finds an image exactly where queueing the task took a reference, a context is not
destroyed with references in its queue, and no count passes the largest `int`. -/
def ReferencesFound (s : State σ) : Action σ → Prop
  | .ref x => s.refCnt x < 2^31-1
  | .paintImageData x => s.refCnt x < 2^31-1
  | .replaceContents x => s.refCnt x < 2^31-1
  | .flushTask => ∀ g ∈ s.g2d, ∀ task ∈ g.taskList.head?,
      (s.taken[task.number]? = some true ↔ (acquireImageData s task.imageData).isSome = true)
  | .destroy => ∀ n ∈ s.queued, s.taken[n]? ≠ some true
  | _ => True

instance (s : State σ) (a : Action σ) : Decidable (ReferencesFound s a) := by
  apply a.casesOn (motive := fun a => Decidable (ReferencesFound s a)) <;> intros <;>
    dsimp only [ReferencesFound] <;> infer_instance

/-- Every resource has a reference. -/
def Counted (s : State σ) : Prop := ∀ x r, s.resources.lookup x = some r → 0 < r.refCnt

/-- Tasks have different numbers, and no reference of a queued one was dropped. -/
structure Numbered (s : State σ) : Prop where
  nodup : (s.queued ++ s.dropped).Nodup
  known : ∀ n ∈ s.queued ++ s.dropped, n < s.taken.length
  counted : Counted s

theorem Numbered.create : Numbered (.create : State σ) :=
  ⟨.nil,nofun,fun _ _ h => (by simp [State.create] at h)⟩

theorem Balanced.create : Balanced (.create : State σ) :=
  ⟨nofun,fun _ h => absurd h List.not_mem_nil⟩

theorem Numbered.not_dropped {s : State σ} (h : Numbered s) {n : ℕ} (hn : n ∈ s.queued) :
    s.dropped.count n = 0 :=
  List.count_eq_zero.mpr (List.disjoint_of_nodup_append h.nodup hn)

/-! Counts. -/

theorem refCnt_of_lookup {s : State σ} {x : ℤ} {r : Resource} (h : s.resources.lookup x = some r) :
    s.refCnt x = r.refCnt := by
  rw [State.refCnt,h]
  rfl

theorem refCnt_of_none {s : State σ} {x : ℤ} (h : s.resources.lookup x = none) :
    s.refCnt x = 0 := by
  rw [State.refCnt,h]
  rfl

theorem countsFit_iff {s : State σ} : CountsFit s ↔ ∀ x, s.refCnt x < 2^31 := by
  constructor
  · intro h x
    cases hl : s.resources.lookup x with
    | none =>
      rw [refCnt_of_none hl]
      decide
    | some r =>
      rw [refCnt_of_lookup hl]
      exact h ⟨x,r⟩ (AList.mem_lookup_iff.mp hl)
  · rintro h ⟨x,r⟩ he
    have hx := h x
    rw [refCnt_of_lookup (AList.mem_lookup_iff.mpr he)] at hx
    exact hx

/-- Resources that count no more than before, or are new. -/
theorem CountsFit.of_le {s t : State σ} (h : CountsFit s)
    (hle : ∀ x, t.refCnt x ≤ s.refCnt x ∨ t.refCnt x = 1) : CountsFit t := by
  rw [countsFit_iff] at h ⊢
  intro x
  have hx := h x
  rcases hle x with hx' | hx' <;> omega

theorem refCnt_insert (s : State σ) (x : ℤ) (r : Resource) (y : ℤ) :
    { s with resources := s.resources.insert x r }.refCnt y =
      if y = x then r.refCnt else s.refCnt y := by
  by_cases hy : y = x
  · rw [if_pos hy,hy]
    exact refCnt_of_lookup (AList.lookup_insert _)
  · rw [if_neg hy,State.refCnt,State.refCnt,AList.lookup_insert_ne hy]

theorem refCnt_erase (s : State σ) (x y : ℤ) :
    { s with resources := s.resources.erase x }.refCnt y = if y = x then 0 else s.refCnt y := by
  by_cases hy : y = x
  · rw [if_pos hy,hy]
    exact refCnt_of_none (AList.lookup_erase _ _)
  · rw [if_neg hy,State.refCnt,State.refCnt,AList.lookup_erase_ne hy]

theorem refCnt_ref (s : State σ) (x y : ℤ) : (ppResourceRef s x).refCnt y =
    if y = x ∧ (s.resources.lookup x).isSome then s.refCnt y+1 else s.refCnt y := by
  unfold ppResourceRef
  cases hl : s.resources.lookup x with
  | none => simp
  | some r =>
    rw [refCnt_insert]
    by_cases hy : y = x
    · rw [if_pos hy,if_pos ⟨hy,rfl⟩,hy,refCnt_of_lookup hl]
    · rw [if_neg hy,if_neg (fun h => hy h.1)]

/-- The last reference leaves no count. -/
theorem Counted.refCnt_unref {s : State σ} (h : Counted s) (x y : ℤ) :
    (ppResourceUnref s x).refCnt y =
      if y = x ∧ (s.resources.lookup x).isSome then s.refCnt y-1 else s.refCnt y := by
  unfold ppResourceUnref
  cases hl : s.resources.lookup x with
  | none => simp
  | some r =>
    have hpos := h x r hl
    dsimp only
    split_ifs with hlast hy hy
    · rw [refCnt_erase,if_pos hy.1,hy.1,refCnt_of_lookup hl]
      omega
    · rw [refCnt_erase,if_neg (fun he => hy ⟨he,rfl⟩)]
    · rw [refCnt_insert,if_pos hy.1,hy.1,refCnt_of_lookup hl]
    · rw [refCnt_insert,if_neg (fun he => hy ⟨he,rfl⟩)]

/-- A further reference fits exactly if the count is not the largest `int`. -/
theorem countsFit_ref {s : State σ} (h : CountsFit s) (x : ℤ) :
    CountsFit (ppResourceRef s x) ↔ s.refCnt x < 2^31-1 := by
  rw [countsFit_iff] at h ⊢
  constructor
  · intro ht
    have hx := ht x
    rw [refCnt_ref] at hx
    split_ifs at hx with hs
    · omega
    · rw [refCnt_of_none (by simpa using hs)]
      decide
  · intro hx y
    have hy := h y
    rw [refCnt_ref]
    split_ifs with he
    · rw [he.1]
      omega
    · exact hy

theorem Counted.insert {s : State σ} (h : Counted s) {x : ℤ} {r : Resource} (hr : 0 < r.refCnt) :
    Counted { s with resources := s.resources.insert x r } := by
  intro y r' hl
  rcases lookup_insert_cases hl with ⟨_,rfl⟩ | ⟨_,hl⟩
  · exact hr
  · exact h y r' hl

theorem Counted.ref {s : State σ} (h : Counted s) (x : ℤ) : Counted (ppResourceRef s x) := by
  unfold ppResourceRef
  cases hx : s.resources.lookup x with
  | none => exact h
  | some r =>
    have hpos := h x r hx
    exact h.insert (by dsimp only; omega)

theorem Counted.unref {s : State σ} (h : Counted s) (x : ℤ) : Counted (ppResourceUnref s x) := by
  unfold ppResourceUnref
  cases hx : s.resources.lookup x with
  | none => exact h
  | some r =>
    dsimp only
    split_ifs with hlast
    · exact fun y r' hl => h y r' (lookup_erase_cases hl).2
    · exact h.insert (by dsimp only; omega)

/-! Tasks. -/

/-- Steps that neither queue nor consume tasks. -/
theorem Numbered.frame {s t : State σ} (h : Numbered s) (hq : t.queued = s.queued)
    (hk : t.taken = s.taken) (hd : t.dropped = s.dropped)
    (hc : Counted t) : Numbered t := by
  refine ⟨?_,?_,hc⟩
  · rw [hq,hd]
    exact h.nodup
  · rw [hq,hd,hk]
    exact h.known

theorem droppedOnce_frame {s t : State σ} (hq : t.queued = s.queued) (hk : t.taken = s.taken)
    (hd : t.dropped = s.dropped) : DroppedOnce t ↔ DroppedOnce s := by
  unfold DroppedOnce
  rw [hq,hk,hd]

/-- A step that queues one task. -/
theorem queue_balanced {s t : State σ} {b : Bool} (h : Numbered s)
    (hq : t.queued = s.queued ++ [s.taken.length]) (hk : t.taken = s.taken ++ [b])
    (hd : t.dropped = s.dropped) (hc : Counted t) :
    Numbered t ∧ (DroppedOnce s → DroppedOnce t) := by
  have hnew : s.taken.length ∉ s.queued ++ s.dropped :=
    fun hm => absurd (h.known _ hm) (Nat.lt_irrefl _)
  refine ⟨⟨?_,?_,hc⟩,fun hb n hn => ?_⟩
  · rw [hq,hd]
    have hp : List.Perm (s.queued ++ [s.taken.length] ++ s.dropped)
        (s.taken.length::(s.queued ++ s.dropped)) := by
      rw [List.append_assoc]
      exact List.perm_middle
    exact hp.nodup_iff.mpr (List.nodup_cons.mpr ⟨hnew,h.nodup⟩)
  · rw [hq,hd,hk]
    intro n hn
    rw [List.length_append,List.length_singleton]
    have hn' : n ∈ s.queued ++ s.dropped ∨ n = s.taken.length := by
      simp only [List.mem_append,List.mem_singleton] at hn ⊢
      tauto
    rcases hn' with hn' | rfl
    · have := h.known n hn'
      omega
    · omega
  · rw [hk,List.length_append,List.length_singleton] at hn
    rw [hd,hq,hk]
    by_cases he : n = s.taken.length
    · have hz : s.dropped.count n = 0 := by
        rw [List.count_eq_zero,he]
        exact fun hm => hnew (List.mem_append_right _ hm)
      rw [hz,if_pos (by simp [he])]
    · have hlt : n < s.taken.length := by omega
      rw [hb n hlt,List.getElem?_append_left hlt]
      simp [he]

theorem count_dropped (dropped : List ℕ) (k n : ℕ) (found : Bool) :
    (if found then dropped ++ [k] else dropped).count n =
      dropped.count n + if n = k ∧ found then 1 else 0 := by
  cases found with
  | false => simp
  | true =>
    by_cases hnk : n = k
    · simp [hnk]
    · simp [hnk,List.count_append,Ne.symm hnk]

/-- A step that consumes the first task, whose reference it drops or leaves. -/
theorem consume_balanced {s t : State σ} {k : ℕ} {rest : List ℕ} {found : Bool} (h : Numbered s)
    (hs : s.queued = k::rest) (hq : t.queued = rest) (hk : t.taken = s.taken)
    (hd : t.dropped = if found then s.dropped ++ [k] else s.dropped)
    (hc : Counted t) : Numbered t ∧
      (DroppedOnce s → (DroppedOnce t ↔ (s.taken[k]? = some true ↔ found = true))) := by
  have hnodup := h.nodup
  rw [hs] at hnodup
  obtain ⟨hkn,hrest⟩ := List.nodup_cons.mp hnodup
  have hkd := h.not_dropped (n := k) (by rw [hs]; simp)
  have hkk : k < s.taken.length := h.known k (by rw [hs]; simp)
  have hkr : k ∉ rest := fun hm => hkn (List.mem_append_left _ hm)
  have hcount : ∀ n, t.dropped.count n = s.dropped.count n + if n = k ∧ found then 1 else 0 :=
    fun n => hd ▸ count_dropped s.dropped k n found
  refine ⟨⟨?_,?_,hc⟩,fun hb => ⟨fun ht => ?_,fun hf n hn => ?_⟩⟩
  · rw [hq,hd]
    cases found with
    | false => exact hrest
    | true =>
      have hp : List.Perm (rest ++ (s.dropped ++ [k])) (k::(rest ++ s.dropped)) := by
        rw [← List.append_assoc]
        exact List.perm_append_singleton _ _
      exact hp.nodup_iff.mpr hnodup
  · rw [hq,hd,hk]
    intro n hn
    refine h.known n ?_
    rw [hs]
    cases found with
    | false => simpa using Or.inr (List.mem_append.mp hn)
    | true =>
      simp only [if_true,List.mem_append,List.mem_cons] at hn ⊢
      tauto
  · have htk := ht k (hk ▸ hkk)
    rw [hcount,hkd,hq,if_neg hkr,hk] at htk
    constructor
    · intro hkt
      rw [if_pos hkt] at htk
      by_contra hf
      simp [hf] at htk
    · intro hf
      by_contra hkt
      simp [hf,hkt] at htk
  · rw [hk] at hn ⊢
    rw [hcount,hq]
    by_cases hnk : n = k
    · rw [hnk,hkd,if_neg hkr]
      cases found with
      | false => simp [show s.taken[k]? ≠ some true from fun he => by simpa using hf.mp he]
      | true => simp [hf.mpr rfl]
    · rw [hb n hn,hs]
      simp [hnk]

/-! Steps and runs. -/

theorem ref_ghosts (s : State σ) (x : ℤ) : (ppResourceRef s x).queued = s.queued ∧
    (ppResourceRef s x).taken = s.taken ∧ (ppResourceRef s x).dropped = s.dropped := by
  unfold ppResourceRef
  split <;> exact ⟨rfl,rfl,rfl⟩

theorem unref_ghosts (s : State σ) (x : ℤ) : (ppResourceUnref s x).queued = s.queued ∧
    (ppResourceUnref s x).taken = s.taken ∧ (ppResourceUnref s x).dropped = s.dropped := by
  unfold ppResourceUnref
  split
  · exact ⟨rfl,rfl,rfl⟩
  · split_ifs <;> exact ⟨rfl,rfl,rfl⟩

/-- A call that queues a task, as it shows in the ghosts. -/
theorem queueing_balanced {s : State σ} {g : Context σ} (h : Numbered s) (hg : s.g2d = some g)
    (type : PaintTaskType) (x : ℤ) : Numbered (s.queueing (queueTask s g type x) x) ∧
      (Balanced s → (Balanced (s.queueing (queueTask s g type x) x) ↔ s.refCnt x < 2^31-1)) := by
  have hq : (s.queueing (queueTask s g type x) x).queued = s.queued ++ [s.taken.length] := by
    simp [State.queued,State.queueing,queueTask,hg]
  obtain ⟨hn,hb⟩ := queue_balanced h hq rfl (ref_ghosts s x).2.2 (h.counted.ref x)
  exact ⟨hn,fun hs => (and_iff_right (hb hs.1)).trans (countsFit_ref hs.2 x)⟩

/-- A round of Flush that finds an image does nothing to the counts before the reference of
the task is dropped. -/
theorem flushTask_found {s : State σ} (g : Context σ) {task : PaintTask} {p : ImageData × ℤ}
    (hid : acquireImageData s task.imageData = some p) :
    ∃ v, flushTask s g task = ppResourceUnref v task.imageData ∧
      v.queued = g.taskList.map PaintTask.number ∧ v.taken = s.taken ∧ v.dropped = s.dropped ∧
      v.refCnt = s.refCnt ∧ (v.resources.lookup task.imageData).isSome = true ∧
      (Counted s → Counted v) := by
  obtain ⟨id,c⟩ := p
  obtain ⟨type,x,n⟩ := task
  have hl := lookup_of_acquire hid
  have hx : (s.resources.lookup x).isSome = true := by rw [hl]; rfl
  have hacq : acquireImageData { s with g2d := some g } x = some (id,c) := hid
  simp only [flushTask,hacq,finishTask]
  cases type with
  | paintId => exact ⟨_,rfl,rfl,rfl,rfl,rfl,hx,fun h => h⟩
  | replaceContents =>
    refine ⟨_,rfl,?_⟩
    unfold replaceContents
    split_ifs
    · refine ⟨rfl,rfl,rfl,?_,by simp,fun h => ?_⟩
      · funext y
        refine (refCnt_insert _ x _ y).trans ?_
        split_ifs with hy
        · rw [hy,refCnt_of_lookup hl]
        · rfl
      · have hpos := h x _ hl
        exact Counted.insert h hpos
    · exact ⟨rfl,rfl,rfl,rfl,hx,fun h => h⟩

theorem flushTask_missing {s : State σ} (g : Context σ) {task : PaintTask}
    (hid : acquireImageData s task.imageData = none) :
    flushTask s g task = { s with g2d := some g } := by
  have hacq : acquireImageData { s with g2d := some g } task.imageData = none := hid
  simp only [flushTask,hacq]

/-- The resource of a consumed task counts one less exactly if it is an image. -/
theorem Counted.flushTask_refCnt {s : State σ} (h : Counted s) (g : Context σ)
    (task : PaintTask) (y : ℤ) : (flushTask s g task).refCnt y =
      if y = task.imageData ∧ (acquireImageData s task.imageData).isSome then s.refCnt y-1
      else s.refCnt y := by
  cases hid : acquireImageData s task.imageData with
  | none =>
    rw [flushTask_missing g hid]
    simp [State.refCnt]
  | some p =>
    obtain ⟨v,hv,_,_,_,hc,hx,hk⟩ := flushTask_found g hid
    rw [hv,(hk h).refCnt_unref,hc,hx]
    rfl

theorem consuming_balanced {s : State σ} {g : Context σ} {task : PaintTask} (h : Numbered s)
    (hs : s.queued = task.number::g.taskList.map PaintTask.number) :
    Numbered (s.consuming (flushTask s g task) task) ∧
      (Balanced s → (Balanced (s.consuming (flushTask s g task) task) ↔
        (s.taken[task.number]? = some true ↔ (acquireImageData s task.imageData).isSome = true))) := by
  have hcount := h.counted.flushTask_refCnt g task
  have hdrop : (flushTask s g task).refCnt task.imageData = s.refCnt task.imageData-1 ↔
      (acquireImageData s task.imageData).isSome = true := by
    rw [hcount]
    split_ifs with hid
    · exact iff_of_true rfl hid.2
    · exact iff_of_false (by omega) fun hi => hid ⟨rfl,hi⟩
  have hghosts : (flushTask s g task).queued = g.taskList.map PaintTask.number ∧
      (flushTask s g task).taken = s.taken ∧ Counted (flushTask s g task) := by
    cases hid : acquireImageData s task.imageData with
    | none =>
      rw [flushTask_missing g hid]
      exact ⟨rfl,rfl,h.counted⟩
    | some p =>
      obtain ⟨v,hv,hq,hk,_,_,_,hc⟩ := flushTask_found g hid
      rw [hv]
      exact ⟨(unref_ghosts v _).1.trans hq,(unref_ghosts v _).2.1.trans hk,
        (hc h.counted).unref _⟩
  have hd : (s.consuming (flushTask s g task) task).dropped =
      if (acquireImageData s task.imageData).isSome then s.dropped ++ [task.number]
      else s.dropped := by
    unfold State.consuming
    simp only [hdrop]
  obtain ⟨hn,hb⟩ := consume_balanced (t := s.consuming (flushTask s g task) task) h hs
    hghosts.1 hghosts.2.1 hd hghosts.2.2
  have hfit : CountsFit s → CountsFit (s.consuming (flushTask s g task) task) := by
    refine fun hf => hf.of_le fun y => Or.inl ?_
    have hy : (s.consuming (flushTask s g task) task).refCnt y = (flushTask s g task).refCnt y := rfl
    rw [hy,hcount]
    split_ifs <;> omega
  exact ⟨hn,fun hbs => (and_iff_left (hfit hbs.2)).trans (hb hbs.1)⟩

theorem destroy_balanced {s : State σ} (h : Numbered s) :
    Numbered (ppbGraphics2dDestroy s) ∧ (Balanced s →
      (Balanced (ppbGraphics2dDestroy s) ↔ ∀ n ∈ s.queued, s.taken[n]? ≠ some true)) := by
  have hq : (ppbGraphics2dDestroy s).queued = [] := rfl
  have hk : (ppbGraphics2dDestroy s).taken = s.taken := rfl
  have hd : (ppbGraphics2dDestroy s).dropped = s.dropped := rfl
  refine ⟨⟨(List.nodup_append.mp h.nodup).2.1,fun n hn => h.known n (List.mem_append_right _ hn),
    h.counted⟩,fun hb => ⟨fun ht n hn htk => ?_,fun hno => ⟨fun n hn => ?_,hb.2⟩⟩⟩
  · have htn := ht.1 n (h.known n (List.mem_append_left _ hn))
    rw [hd,h.not_dropped hn,hq,hk] at htn
    simp [htk] at htn
  · have hbn := hb.1 n hn
    rw [hd,hq,hk,hbn]
    by_cases hmem : n ∈ s.queued
    · simp [hmem,hno n hmem]
    · simp [hmem]

theorem step_references {s t : State σ} {a : Action σ} (h : Numbered s)
    (ht : step P s a = some t) :
    Numbered t ∧ (Balanced s → (Balanced t ↔ ReferencesFound s a)) := by
  have hframe : ∀ {u : State σ} {b : Action σ},
      (CountsFit s → (CountsFit u ↔ ReferencesFound s b)) → Counted u → u.queued = s.queued →
      u.taken = s.taken → u.dropped = s.dropped →
      Numbered u ∧ (Balanced s → (Balanced u ↔ ReferencesFound s b)) :=
    fun hf hc hq hk hd => ⟨h.frame hq hk hd hc,fun hb =>
      (and_iff_right ((droppedOnce_frame hq hk hd).mpr hb.1)).trans (hf hb.2)⟩
  -- a resource that is new
  have hnew : ∀ (x : ℤ) (r : Resource), r.refCnt = 1 →
      Counted { s with resources := s.resources.insert x r } ∧
      (CountsFit s → CountsFit { s with resources := s.resources.insert x r }) := by
    refine fun x r hr => ⟨h.counted.insert (by omega),fun hf => hf.of_le fun y => ?_⟩
    rw [refCnt_insert]
    split_ifs
    · exact Or.inr hr
    · exact Or.inl le_rfl
  cases a with
  | createImageData x w ht' b =>
    simp only [step] at ht
    split_ifs at ht
    cases ht
    unfold ppbImageDataCreate
    dsimp only
    split
    · exact hframe (fun hf => iff_of_true hf trivial) h.counted rfl rfl rfl
    · exact hframe (fun hf => iff_of_true ((hnew x _ rfl).2 hf) trivial) (hnew x _ rfl).1 rfl rfl
        rfl
  | createOther x =>
    simp only [step] at ht
    split_ifs at ht
    cases ht
    exact hframe (fun hf => iff_of_true ((hnew x _ rfl).2 hf) trivial) (hnew x _ rfl).1 rfl rfl rfl
  | ref x =>
    cases ht
    exact hframe (fun hf => countsFit_ref hf x) (h.counted.ref x) (ref_ghosts s x).1
      (ref_ghosts s x).2.1 (ref_ghosts s x).2.2
  | unref x =>
    cases ht
    refine hframe (fun hf => iff_of_true (hf.of_le fun y => Or.inl ?_) trivial)
      (h.counted.unref x) (unref_ghosts s x).1 (unref_ghosts s x).2.1 (unref_ghosts s x).2.2
    rw [h.counted.refCnt_unref]
    split_ifs <;> omega
  | create w ht' b₁ b₂ =>
    simp only [step] at ht
    split_ifs at ht with hnone
    cases ht
    have hq : s.queued = [] := by
      rw [State.queued,Option.isNone_iff_eq_none.mp hnone]
    unfold ppbGraphics2dCreate
    dsimp only
    split
    · exact hframe (fun hf => iff_of_true hf trivial) h.counted hq.symm rfl rfl
    · exact hframe (fun hf => iff_of_true hf trivial) h.counted rfl rfl rfl
  | paintImageData x =>
    obtain ⟨g,hg,rfl⟩ := Option.map_eq_some_iff.mp ht
    exact queueing_balanced h (g2d_of_idle hg) .paintId x
  | replaceContents x =>
    obtain ⟨g,hg,rfl⟩ := Option.map_eq_some_iff.mp ht
    exact queueing_balanced h (g2d_of_idle hg) .replaceContents x
  | setScale scale b =>
    obtain ⟨g,hg,rfl⟩ := Option.map_eq_some_iff.mp ht
    refine hframe (fun hf => iff_of_true hf trivial) h.counted ?_ rfl rfl
    rw [State.queued,State.queued,g2d_of_idle hg]
    rfl
  | flush =>
    obtain ⟨g,hg,rfl⟩ := Option.map_eq_some_iff.mp ht
    exact hframe (fun hf => iff_of_true hf trivial) h.counted rfl rfl rfl
  | flushTask =>
    simp only [step] at ht
    (repeat' split at ht) <;> cases ht
    rename_i g _ hg _ task rest htasks
    have hs : s.queued = task.number::rest.map PaintTask.number := by
      rw [State.queued,hg]
      simp [htasks]
    obtain ⟨hn,hb⟩ := consuming_balanced (g := { g with taskList := rest }) h hs
    refine ⟨hn,fun hbs => (hb hbs).trans ⟨fun hf g' hg' task' ht' => ?_,fun hf =>
      hf g hg task (by simp [htasks])⟩⟩
    cases hg.symm.trans hg'
    have htask : task = task' := by simpa [htasks] using ht'
    rw [← htask]
    exact hf
  | flushCopy =>
    simp only [step] at ht
    (repeat' split at ht) <;> cases ht
    exact hframe (fun hf => iff_of_true hf trivial) h.counted rfl rfl rfl
  | destroy =>
    obtain ⟨g,hg,rfl⟩ := Option.map_eq_some_iff.mp ht
    exact destroy_balanced h

/-- In every run the references of all paint tasks are balanced in all states visited,
exactly if every task consumed finds an image just where queueing it took a reference,
no context is destroyed while a queued task holds one, and no count overflows. -/
theorem references_balanced_iff (P : Scaling σ) {ls : List (Action σ)} {u : State σ}
    (hr : (machine P).exec (machine P).start ls = some u) :
    (machine P).AlwaysFrom Balanced (machine P).start ls ↔
      (machine P).EachFrom ReferencesFound (machine P).start ls :=
  Machine.always_iff_each Numbered (fun _ _ _ h ht => (step_references h ht).1)
    (fun _ _ _ h hb ht => (step_references h ht).2 hb) .create .create hr

/-- The context is destroyed before its image is painted. -/
def destroyedUnpainted : List (Action Unit) :=
  [.create 4 4 true true,.createImageData 1 4 4 true,.paintImageData 1,.destroy]

/-- Lengths are left as they are. -/
def unitScaling : Scaling Unit := ⟨(),fun _ _ => (),fun n _ => n⟩

theorem destroyedUnpainted_leaks : ¬∀ (ls : List (Action Unit)) (u : State Unit),
    (machine unitScaling).exec (machine unitScaling).start ls = some u → Balanced u := by
  intro h
  exact absurd (h destroyedUnpainted _ rfl) (by decide)

/-- The plugin gives its images up while they are queued; a task names no resource. -/
theorem paintedLater_balanced : (machine unitScaling).AlwaysFrom Balanced
    (machine unitScaling).start
    [.create 4 4 true true,.createImageData 1 4 4 true,.createImageData 2 4 4 true,
      .paintImageData 1,.replaceContents 2,.paintImageData 9,.unref 1,.unref 2,.flush,.flushTask,
      .flushTask,.flushTask,.flushCopy,.destroy] :=
  (references_balanced_iff unitScaling rfl).mpr (by decide)

end Graphics2d
end FreshPlayer
