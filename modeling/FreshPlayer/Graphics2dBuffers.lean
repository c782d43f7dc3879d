import FreshPlayer.Graphics2d

/-! The buffers of a context and of the images painted on it. Surfaces always fit their
buffers. The sizes a copy relies on are those of the geometry, and these are kept by
every step but an exchange of buffers and a change of scale. -/
namespace FreshPlayer
namespace Graphics2d

variable {σ : Type*} {P : Scaling σ}

/-- The buffer is there and has at least `n` bytes. -/
def Holds (b : Buffer) (n : ℤ) : Prop := ∃ m ∈ b, n ≤ m

instance (b : Buffer) (n : ℤ) : Decidable (Holds b n) :=
  inferInstanceAs (Decidable (∃ m ∈ b, n ≤ m))

def Context.bytes (g : Context σ) : ℤ := mul32 g.stride g.height

def Context.scaledBytes (g : Context σ) : ℤ := mul32 g.scaledStride g.scaledHeight

def ImageData.bytes (id : ImageData) : ℤ := mul32 id.stride id.height

/-- The buffers have the bytes of their geometry, and Flush stays inside of them. -/
structure BuffersHold (s : State σ) : Prop where
  context : ∀ g, s.g2d = some g → Holds g.data g.bytes ∧ Holds g.secondBuffer g.scaledBytes
  images : ∀ r id c, s.resources.lookup r = some ⟨.imageData id,c⟩ → Holds id.data id.bytes
  copies : ∀ a ∈ s.accesses, Holds a.buffer a.bytes

/-- A new scale finds memory for the second buffer. In an exchange the buffer of the
image is large enough for the context, and that of the context for the image, unless
the reference of the task is the last one on it. -/
def ExchangesFit (P : Scaling σ) (s : State σ) : Action σ → Prop
  | .setScale scale succeeds => ∀ g ∈ s.g2d, (calloc (mul32
      (mul32 4 (P.scaled g.width (P.mul scale P.deviceScale)))
      (P.scaled g.height (P.mul scale P.deviceScale))) succeeds).isSome = true
  | .flushTask => ∀ g ∈ s.g2d, ∀ task ∈ g.taskList.head?, task.type = .replaceContents →
      ∀ x ∈ acquireImageData s task.imageData, x.1.width = g.width ∨ x.1.height = g.height →
        Holds x.1.data g.bytes ∧ (1 < x.2 → Holds g.data x.1.bytes)
  | _ => True

instance (P : Scaling σ) (s : State σ) (a : Action σ) : Decidable (ExchangesFit P s a) := by
  apply a.casesOn (motive := fun a => Decidable (ExchangesFit P s a)) <;> intros <;>
    dsimp only [ExchangesFit] <;> infer_instance

/-! Surfaces. -/

theorem mul32_stride {w : ℤ} (h0 : 0 ≤ w) (h1 : w ≤ 32767) : mul32 4 w = 4*w := by
  unfold mul32
  rw [Int.bmod_eq_of_le] <;> omega

/-- Within the sizes cairo draws, a product that is not negative has not wrapped. -/
theorem drawable_fits {w h : ℤ} (hw0 : 0 ≤ w) (hw1 : w ≤ 32767) (hh0 : 0 ≤ h) (hh1 : h ≤ 32767)
    (hn : 0 ≤ mul32 (mul32 4 w) h) : mul32 4 w*h ≤ mul32 (mul32 4 w) h := by
  have hs := mul32_stride hw0 hw1
  have hle : w*h ≤ 32767*32767 := mul_le_mul hw1 hh1 hh0 (by decide)
  have h0 : 0 ≤ w*h := mul_nonneg hw0 hh0
  have hx : 4*w*h = 4*(w*h) := mul_assoc 4 w h
  rw [hs] at hn ⊢
  unfold mul32 at hn ⊢
  rw [hx] at hn ⊢
  rw [Int.bmod_def] at hn ⊢
  split_ifs at hn ⊢ <;> omega

/-- A buffer with a surface over the whole of it. -/
structure Backed (data : Buffer) (f : Surface) : Prop where
  data_eq : f.data = data
  size : ∃ n, data = some n ∧ 0 ≤ n
  fits : f.Drawable → Holds data (f.stride*f.height)

theorem Backed.accesses {data : Buffer} {f : Surface} (h : Backed data f) :
    ∀ a ∈ f.accesses, Holds a.buffer a.bytes := by
  intro a ha
  unfold Surface.accesses at ha
  split_ifs at ha with hd
  · rw [List.mem_singleton.mp ha]
    simp only [h.data_eq]
    exact h.fits hd
  · cases ha

theorem calloc_eq_some {size n : ℤ} {b : Bool} (h : calloc size b = some n) : n = size ∧ 0 ≤ n := by
  unfold calloc at h
  split_ifs at h with hc
  cases h
  exact ⟨rfl,hc.2⟩

theorem backed_new {w h n : ℤ} {b : Bool} (hc : calloc (mul32 (mul32 4 w) h) b = some n) :
    Backed (some n) ⟨w,h,mul32 4 w,some n⟩ := by
  obtain ⟨rfl,hn⟩ := calloc_eq_some hc
  refine ⟨rfl,⟨_,rfl,hn⟩,?_⟩
  rintro ⟨hw0,hw1,hh0,hh1⟩
  exact ⟨_,rfl,drawable_fits hw0 hw1 hh0 hh1 hn⟩

/-- What holds of the buffers in every state, also after an exchange that does not fit. -/
structure Inv (s : State σ) : Prop where
  backed : ∀ g, s.g2d = some g → Backed g.data g.cairoSurf
  stride : ∀ g, s.g2d = some g → g.stride = mul32 4 g.width ∧ 0 ≤ g.bytes
  scaled : ∀ g, s.g2d = some g → g.scaledStride = mul32 4 g.scaledWidth ∧
    ∀ m ∈ g.secondBuffer, m = g.scaledBytes ∧ 0 ≤ m
  images : ∀ r id c, s.resources.lookup r = some ⟨.imageData id,c⟩ → Backed id.data id.cairoSurf

/-- Every image of the second table is in the first, up to its references. -/
def ImagesFrom (u t : AList fun _ : ℤ => Resource) : Prop :=
  ∀ r id c, t.lookup r = some ⟨.imageData id,c⟩ → ∃ c', u.lookup r = some ⟨.imageData id,c'⟩

theorem ImagesFrom.refl (t : AList fun _ : ℤ => Resource) : ImagesFrom t t :=
  fun _ _ c h => ⟨c,h⟩

theorem ref_images (s : State σ) (x : ℤ) :
    ImagesFrom s.resources (ppResourceRef s x).resources := by
  unfold ppResourceRef
  split
  · exact .refl _
  · rename_i v hl
    intro r id c h
    rcases lookup_insert_cases h with ⟨rfl,hv⟩ | ⟨_,h⟩
    · have hc : v.content = .imageData id := (congrArg Resource.content hv).symm
      exact ⟨v.refCnt,by rw [hl,← hc]⟩
    · exact ⟨c,h⟩

theorem unref_images (s : State σ) (x : ℤ) :
    ImagesFrom s.resources (ppResourceUnref s x).resources := by
  unfold ppResourceUnref
  split
  · exact .refl _
  · rename_i v hl
    split_ifs
    · intro r id c h
      exact ⟨c,(lookup_erase_cases h).2⟩
    · intro r id c h
      rcases lookup_insert_cases h with ⟨rfl,hv⟩ | ⟨_,h⟩
      · have hc : v.content = .imageData id := (congrArg Resource.content hv).symm
        exact ⟨v.refCnt,by rw [hl,← hc]⟩
      · exact ⟨c,h⟩

theorem ppResourceRef_fields (s : State σ) (x : ℤ) : (ppResourceRef s x).g2d = s.g2d ∧
    (ppResourceRef s x).accesses = s.accesses ∧ (ppResourceRef s x).taken = s.taken ∧
    (ppResourceRef s x).dropped = s.dropped := by
  unfold ppResourceRef
  split <;> exact ⟨rfl,rfl,rfl,rfl⟩

theorem ppResourceUnref_fields (s : State σ) (x : ℤ) : (ppResourceUnref s x).g2d = s.g2d ∧
    (ppResourceUnref s x).accesses = s.accesses ∧ (ppResourceUnref s x).taken = s.taken ∧
    (ppResourceUnref s x).dropped = s.dropped := by
  unfold ppResourceUnref
  split
  · exact ⟨rfl,rfl,rfl,rfl⟩
  · split_ifs <;> exact ⟨rfl,rfl,rfl,rfl⟩

/-- A step that moves no buffer. -/
structure Keeps (s t : State σ) : Prop where
  context : ∀ g, t.g2d = some g → ∃ g', s.g2d = some g' ∧ g = { g' with taskList := g.taskList }
  images : ImagesFrom s.resources t.resources

theorem Keeps.of_eq {s t : State σ} (hg : t.g2d = s.g2d)
    (hi : ImagesFrom s.resources t.resources) : Keeps s t :=
  ⟨fun g h => ⟨g,by rw [← hg,h],rfl⟩,hi⟩

theorem Inv.keeps {s t : State σ} (h : Inv s) (hk : Keeps s t) : Inv t := by
  refine ⟨fun g hg => ?_,fun g hg => ?_,fun g hg => ?_,fun r id c hl => ?_⟩
  · obtain ⟨g',hg',he⟩ := hk.context g hg
    rw [he]
    exact h.backed g' hg'
  · obtain ⟨g',hg',he⟩ := hk.context g hg
    rw [he]
    exact h.stride g' hg'
  · obtain ⟨g',hg',he⟩ := hk.context g hg
    rw [he]
    exact h.scaled g' hg'
  · obtain ⟨c',hl'⟩ := hk.images r id c hl
    exact h.images r id c' hl'

theorem BuffersHold.keeps {s t : State σ} (h : BuffersHold s) (hk : Keeps s t)
    (ha : ∀ a ∈ t.accesses, a ∈ s.accesses ∨ Holds a.buffer a.bytes) : BuffersHold t := by
  refine ⟨fun g hg => ?_,fun r id c hl => ?_,fun a hat => ?_⟩
  · obtain ⟨g',hg',he⟩ := hk.context g hg
    rw [he]
    exact h.context g' hg'
  · obtain ⟨c',hl'⟩ := hk.images r id c hl
    exact h.images r id c' hl'
  · rcases ha a hat with hold | hnew
    · exact h.copies a hold
    · exact hnew

theorem keeps_ref (s : State σ) (x : ℤ) : Keeps s (ppResourceRef s x) :=
  .of_eq (ppResourceRef_fields s x).1 (ref_images s x)

theorem keeps_unref (s : State σ) (x : ℤ) : Keeps s (ppResourceUnref s x) :=
  .of_eq (ppResourceUnref_fields s x).1 (unref_images s x)

theorem keeps_queueTask {s : State σ} {g : Context σ} (hg : s.g2d = some g)
    (type : PaintTaskType) (x : ℤ) : Keeps s (queueTask s g type x) := by
  refine ⟨fun g' hg' => ⟨g,hg,?_⟩,ref_images s x⟩
  cases hg'
  rfl

theorem keeps_finishTask (s : State σ) (task : PaintTask) : Keeps s (finishTask s task) :=
  .of_eq (ppResourceUnref_fields s task.imageData).1 (unref_images s task.imageData)

/-- Neither what a queued nor what a consumed task leaves in the ghosts moves a buffer. -/
theorem keeps_ghosts (s : State σ) (taken : List Bool) (dropped : List ℕ) :
    Keeps s { s with taken := taken, dropped := dropped } := .of_eq rfl (.refl _)

theorem Keeps.trans {s t u : State σ} (h : Keeps s t) (k : Keeps t u) : Keeps s u := by
  refine ⟨fun g hg => ?_,fun r id c hl => ?_⟩
  · obtain ⟨g₁,hg₁,he₁⟩ := k.context g hg
    obtain ⟨g₂,hg₂,he₂⟩ := h.context g₁ hg₁
    refine ⟨g₂,hg₂,?_⟩
    rw [he₁,he₂]
  · obtain ⟨c₁,hl₁⟩ := k.images r id c hl
    exact h.images r id c₁ hl₁

/-! New images, contexts and scales. -/

theorem mul32_comm (a b : ℤ) : mul32 a b = mul32 b a := by
  unfold mul32
  rw [mul_comm]

/-- A new image is the only one that was not there. -/
theorem imageDataCreate_cases (s : State σ) (x w h : ℤ) (b : Bool) :
    ppbImageDataCreate s x w h b = s ∨
    ∃ id : ImageData, Backed id.data id.cairoSurf ∧ Holds id.data id.bytes ∧
      ppbImageDataCreate s x w h b =
        { s with resources := s.resources.insert x ⟨.imageData id,1⟩ } := by
  unfold ppbImageDataCreate
  dsimp only
  split
  · exact Or.inl rfl
  · rename_i n hc
    rw [mul32_comm w 4] at hc ⊢
    refine Or.inr ⟨_,backed_new hc,?_,rfl⟩
    exact ⟨n,rfl,le_of_eq (calloc_eq_some hc).1.symm⟩

theorem Inv.createImageData {s : State σ} (h : Inv s) (x w ht : ℤ) (b : Bool) :
    Inv (ppbImageDataCreate s x w ht b) := by
  rcases imageDataCreate_cases s x w ht b with he | ⟨id,hb,_,he⟩
  · rw [he]
    exact h
  · rw [he]
    refine ⟨h.backed,h.stride,h.scaled,fun r id' c hl => ?_⟩
    rcases lookup_insert_cases hl with ⟨_,hv⟩ | ⟨_,hl⟩
    · cases hv
      exact hb
    · exact h.images r id' c hl

theorem BuffersHold.createImageData {s : State σ} (h : BuffersHold s) (x w ht : ℤ) (b : Bool) :
    BuffersHold (ppbImageDataCreate s x w ht b) := by
  rcases imageDataCreate_cases s x w ht b with he | ⟨id,_,hn,he⟩
  · rw [he]
    exact h
  · rw [he]
    refine ⟨h.context,fun r id' c hl => ?_,h.copies⟩
    rcases lookup_insert_cases hl with ⟨_,hv⟩ | ⟨_,hl⟩
    · cases hv
      exact hn
    · exact h.images r id' c hl

theorem keeps_createOther (s : State σ) (x : ℤ) :
    Keeps s { s with resources := s.resources.insert x ⟨.other,1⟩ } := by
  refine .of_eq rfl fun r id c hl => ?_
  rcases lookup_insert_cases hl with ⟨_,hv⟩ | ⟨_,hl⟩
  · cases hv
  · exact ⟨c,hl⟩

theorem Inv.createContext {s : State σ} (h : Inv s) (w ht : ℤ) (b₁ b₂ : Bool) :
    Inv (ppbGraphics2dCreate P s w ht b₁ b₂) := by
  unfold ppbGraphics2dCreate
  dsimp only
  split
  · rename_i n m hn hm
    obtain ⟨hn',hn0⟩ := calloc_eq_some hn
    refine ⟨?_,?_,?_,h.images⟩
    · rintro g ⟨⟩
      exact backed_new hn
    · rintro g ⟨⟩
      exact ⟨rfl,hn' ▸ hn0⟩
    · rintro g ⟨⟩
      refine ⟨rfl,fun k hk => ?_⟩
      cases hk
      exact calloc_eq_some hm
  · exact h

theorem BuffersHold.createContext {s : State σ} (h : BuffersHold s) (w ht : ℤ) (b₁ b₂ : Bool) :
    BuffersHold (ppbGraphics2dCreate P s w ht b₁ b₂) := by
  unfold ppbGraphics2dCreate
  dsimp only
  split
  · rename_i n m hn hm
    refine ⟨?_,h.images,h.copies⟩
    rintro g ⟨⟩
    exact ⟨⟨n,rfl,le_of_eq (calloc_eq_some hn).1.symm⟩,⟨m,rfl,le_of_eq (calloc_eq_some hm).1.symm⟩⟩
  · exact h

theorem Inv.setScale {s : State σ} {g : Context σ} (h : Inv s) (hg : s.g2d = some g) (scale : σ)
    (b : Bool) : Inv (ppbGraphics2dSetScale P s g scale b) := by
  refine ⟨?_,?_,?_,h.images⟩
  · rintro g' ⟨⟩
    exact h.backed g hg
  · rintro g' ⟨⟩
    exact h.stride g hg
  · rintro g' ⟨⟩
    exact ⟨rfl,fun m hm => calloc_eq_some hm⟩

theorem setScale_holds_iff {s : State σ} {g : Context σ} (h : BuffersHold s)
    (hg : s.g2d = some g) (scale : σ) (b : Bool) :
    BuffersHold (ppbGraphics2dSetScale P s g scale b) ↔ ExchangesFit P s (.setScale scale b) := by
  constructor
  · intro ht g' hg'
    cases hg.symm.trans hg'
    obtain ⟨n,hn,_⟩ := (ht.context _ rfl).2
    exact Option.isSome_iff_exists.mpr ⟨n,hn⟩
  · intro hfit
    obtain ⟨n,hn⟩ := Option.isSome_iff_exists.mp (hfit g hg)
    refine ⟨?_,h.images,h.copies⟩
    rintro g' ⟨⟩
    exact ⟨(h.context g hg).1,⟨n,hn,le_of_eq (calloc_eq_some hn).1.symm⟩⟩

/-! Flush. -/

theorem sizeT_of_nonneg {n : ℤ} (h : 0 ≤ n) (hn : n < 2^64) : sizeT n = n :=
  Int.emod_eq_of_lt h hn

theorem mul32_lt (a b : ℤ) : mul32 a b < 2^64 := by
  have h := Int.bmod_lt (x := a*b) (m := 2^32) (by decide)
  unfold mul32
  omega

theorem BuffersHold.flushCopy {s : State σ} {g : Context σ} (h : BuffersHold s) (hi : Inv s)
    (hg : s.g2d = some g) : BuffersHold (flushCopy s g) := by
  refine h.keeps (.of_eq rfl (.refl _)) fun a ha => ?_
  rcases List.mem_append.mp ha with ha | ha
  · exact Or.inl ha
  refine Or.inr ?_
  obtain ⟨hdata,hsecond⟩ := h.context g hg
  obtain ⟨hstride,hbytes⟩ := hi.stride g hg
  obtain ⟨hscaled,hexact⟩ := hi.scaled g hg
  split_ifs at ha with hfast
  · -- the plain copy: both buffers have the bytes of the same geometry
    have hsame : g.scaledBytes = g.bytes := by
      rw [Context.scaledBytes,Context.bytes,hscaled,hstride,hfast.1,hfast.2]
    have hsize : sizeT (mul32 g.stride g.height) = g.bytes := sizeT_of_nonneg hbytes (mul32_lt _ _)
    rw [hsame] at hsecond
    rw [hsize] at ha
    rcases List.mem_cons.mp ha with rfl | ha
    · exact hsecond
    · rw [List.mem_singleton.mp ha]
      exact hdata
  · rcases List.mem_append.mp ha with ha | ha
    · obtain ⟨m,hm,_⟩ := hsecond
      obtain ⟨hm',hm0⟩ := hexact m hm
      have hback : Backed g.secondBuffer
          ⟨g.scaledWidth,g.scaledHeight,g.scaledStride,g.secondBuffer⟩ := by
        refine ⟨rfl,⟨m,hm,hm0⟩,?_⟩
        rintro ⟨hw0,hw1,hh0,hh1⟩
        refine ⟨m,hm,?_⟩
        dsimp only
        rw [hm',Context.scaledBytes] at hm0 ⊢
        rw [hscaled] at hm0 ⊢
        exact drawable_fits hw0 hw1 hh0 hh1 hm0
      exact hback.accesses a ha
    · exact (hi.backed g hg).accesses a ha

/-- The context loses its first task. -/
def popTask (s : State σ) (g : Context σ) (rest : List PaintTask) : State σ :=
  { s with g2d := some { g with taskList := rest } }

theorem keeps_popTask {s : State σ} {g : Context σ} (hg : s.g2d = some g) (rest : List PaintTask) :
    Keeps s (popTask s g rest) :=
  ⟨fun g' hg' => ⟨g,hg,by cases hg'; rfl⟩,.refl _⟩

theorem keeps_paintId (s : State σ) (g : Context σ) (id : ImageData) : Keeps s (paintId s g id) :=
  .of_eq rfl (.refl _)

/-- The exchange of buffers between a context and an image. -/
def exchange (s : State σ) (g : Context σ) (x : ℤ) (id : ImageData) (c : ℤ) : State σ :=
  { s with
    g2d := some { g with data := id.data, cairoSurf := id.cairoSurf }
    resources := s.resources.insert x
      ⟨.imageData { id with data := g.data, cairoSurf := g.cairoSurf },c⟩ }

/-- One round of the loop: nothing is exchanged, or the buffers of two objects whose
sizes were found to agree are. -/
theorem flushTask_cases {s : State σ} {g : Context σ} (task : PaintTask) (rest : List PaintTask)
    (hg : s.g2d = some g) (hi : Inv s) :
    (Keeps s (flushTask s { g with taskList := rest } task) ∧
      (∀ a ∈ (flushTask s { g with taskList := rest } task).accesses,
        a ∈ s.accesses ∨ Holds a.buffer a.bytes) ∧
      ∀ x ∈ acquireImageData s task.imageData, task.type = .replaceContents →
        ¬(x.1.width = g.width ∨ x.1.height = g.height)) ∨
    ∃ id c, acquireImageData s task.imageData = some (id,c) ∧ task.type = .replaceContents ∧
      (id.width = g.width ∨ id.height = g.height) ∧
      flushTask s { g with taskList := rest } task =
        finishTask (exchange s { g with taskList := rest } task.imageData id c) task := by
  have hpop := keeps_popTask hg rest
  cases hacq : acquireImageData s task.imageData with
  | none =>
    have he : flushTask s { g with taskList := rest } task = popTask s g rest := by
      have hacq' : acquireImageData { s with g2d := some { g with taskList := rest } }
          task.imageData = none := hacq
      simp only [flushTask,hacq']
      rfl
    rw [he]
    exact Or.inl ⟨hpop,fun a ha => Or.inl ha,fun x hx => (by cases hx)⟩
  | some p =>
    obtain ⟨id,c⟩ := p
    have hacq' : acquireImageData { s with g2d := some { g with taskList := rest } }
        task.imageData = some (id,c) := hacq
    have hback := hi.images _ _ _ (lookup_of_acquire hacq)
    cases hty : task.type with
    | paintId =>
      have he : flushTask s { g with taskList := rest } task =
          finishTask (paintId (popTask s g rest) { g with taskList := rest } id) task := by
        simp only [flushTask,hacq',hty]
        rfl
      rw [he]
      refine Or.inl ⟨hpop.trans ((keeps_paintId _ _ _).trans (keeps_finishTask _ _)),?_,
        fun x _ hr => (by cases hr)⟩
      intro a ha
      have ha' : a ∈ s.accesses ++ id.cairoSurf.accesses ++ g.cairoSurf.accesses := by
        rw [finishTask,(ppResourceUnref_fields _ task.imageData).2.1] at ha
        exact ha
      rcases List.mem_append.mp ha' with ha' | ha'
      · rcases List.mem_append.mp ha' with ha' | ha'
        · exact Or.inl ha'
        · exact Or.inr (hback.accesses a ha')
      · exact Or.inr ((hi.backed g hg).accesses a ha')
    | replaceContents =>
      by_cases hfit : id.width = g.width ∨ id.height = g.height
      · refine Or.inr ⟨id,c,rfl,rfl,hfit,?_⟩
        simp only [flushTask,hacq',hty,replaceContents,if_pos hfit]
        rfl
      · have he : flushTask s { g with taskList := rest } task =
            finishTask (popTask s g rest) task := by
          simp only [flushTask,hacq',hty,replaceContents,if_neg hfit]
          rfl
        rw [he]
        refine Or.inl ⟨hpop.trans (keeps_finishTask _ _),fun a ha => Or.inl ?_,?_⟩
        · rw [finishTask,(ppResourceUnref_fields _ task.imageData).2.1] at ha
          exact ha
        · rintro x ⟨⟩ _
          exact hfit

theorem Inv.exchange {s : State σ} {g g' : Context σ} {x c : ℤ} {id : ImageData} (h : Inv s)
    (hg : s.g2d = some g) (hg' : g' = { g with taskList := g'.taskList })
    (hid : acquireImageData s x = some (id,c)) : Inv (exchange s g' x id c) := by
  have hback := h.images _ _ _ (lookup_of_acquire hid)
  refine ⟨?_,?_,?_,?_⟩
  · rintro g₁ ⟨⟩
    exact hback
  · rintro g₁ ⟨⟩
    rw [hg']
    exact h.stride g hg
  · rintro g₁ ⟨⟩
    rw [hg']
    exact h.scaled g hg
  · intro r id' c' hl
    rcases lookup_insert_cases hl with ⟨_,hv⟩ | ⟨_,hl⟩
    · cases hv
      rw [hg']
      exact h.backed g hg
    · exact h.images r id' c' hl

/-- After the exchange the reference of the task is given back, perhaps the last one. -/
theorem exchange_lookup (s : State σ) (g : Context σ) (task : PaintTask) (id : ImageData) (c r : ℤ) :
    (finishTask (exchange s g task.imageData id c) task).resources.lookup r =
      if r = task.imageData then
        if c-1 ≤ 0 then none
        else some ⟨.imageData { id with data := g.data, cairoSurf := g.cairoSurf },c-1⟩
      else s.resources.lookup r := by
  have hl : (exchange s g task.imageData id c).resources.lookup task.imageData =
      some ⟨.imageData { id with data := g.data, cairoSurf := g.cairoSurf },c⟩ :=
    AList.lookup_insert _
  simp only [finishTask,ppResourceUnref,hl]
  by_cases hr : r = task.imageData
  · subst hr
    rw [if_pos rfl]
    split_ifs
    · exact AList.lookup_erase _ _
    · exact AList.lookup_insert _
  · rw [if_neg hr]
    split_ifs
    · exact (AList.lookup_erase_ne hr).trans (AList.lookup_insert_ne hr)
    · exact (AList.lookup_insert_ne hr).trans (AList.lookup_insert_ne hr)

theorem exchange_holds_iff {s : State σ} {g g' : Context σ} {task : PaintTask} {id : ImageData}
    {c : ℤ} (h : BuffersHold s) (hg : s.g2d = some g)
    (hg' : g' = { g with taskList := g'.taskList }) :
    BuffersHold (finishTask (exchange s g' task.imageData id c) task) ↔
      Holds id.data g.bytes ∧ (1 < c → Holds g.data id.bytes) := by
  have hctx : (finishTask (exchange s g' task.imageData id c) task).g2d =
      some { g' with data := id.data, cairoSurf := id.cairoSurf } :=
    (ppResourceUnref_fields _ task.imageData).1
  have hacc : (finishTask (exchange s g' task.imageData id c) task).accesses = s.accesses :=
    (ppResourceUnref_fields _ task.imageData).2.1
  have hbytes : g'.bytes = g.bytes := by rw [hg']; rfl
  have hdata : g'.data = g.data := by rw [hg']
  constructor
  · intro ht
    refine ⟨?_,fun hc => ?_⟩
    · rw [← hbytes]
      exact (ht.context _ hctx).1
    · -- the image is still there and has the buffer of the context
      have himg := exchange_lookup s g' task id c task.imageData
      rw [if_pos rfl,if_neg (by omega)] at himg
      rw [← hdata]
      exact ht.images _ _ _ himg
  · rintro ⟨hin,hout⟩
    refine ⟨fun g₁ hg₁ => ?_,fun r id₁ c₁ hl => ?_,fun a ha => h.copies a (hacc ▸ ha)⟩
    · cases hctx.symm.trans hg₁
      refine ⟨?_,?_⟩
      · rw [← hbytes] at hin
        exact hin
      · have hs := (h.context g hg).2
        rw [hg']
        exact hs
    · rw [exchange_lookup] at hl
      split_ifs at hl with hr hc
      · cases hl
        rw [hdata]
        exact hout (by omega)
      · exact h.images r id₁ c₁ hl

theorem flushTask_inv {s : State σ} {g : Context σ} {task : PaintTask} {rest : List PaintTask}
    (h : Inv s) (hg : s.g2d = some g) : Inv (flushTask s { g with taskList := rest } task) := by
  rcases flushTask_cases task rest hg h with ⟨hk,_⟩ | ⟨id,c,hid,_,_,he⟩
  · exact h.keeps hk
  · rw [he]
    exact (h.exchange hg rfl hid).keeps (keeps_finishTask _ _)

theorem consuming_holds_iff (s t : State σ) (task : PaintTask) :
    BuffersHold (s.consuming t task) ↔ BuffersHold t :=
  ⟨fun h => h.keeps (.of_eq rfl (.refl _)) fun _ ha => Or.inl ha,
    fun h => h.keeps (keeps_ghosts _ _ _) fun _ ha => Or.inl ha⟩

theorem flushTask_holds_iff {s : State σ} {g : Context σ} {task : PaintTask}
    {rest : List PaintTask} (h : BuffersHold s) (hi : Inv s) (hg : s.g2d = some g)
    (ht : g.taskList = task::rest) :
    BuffersHold (flushTask s { g with taskList := rest } task) ↔ ExchangesFit P s .flushTask := by
  have hguard : ExchangesFit P s .flushTask ↔ (task.type = .replaceContents →
      ∀ x ∈ acquireImageData s task.imageData, x.1.width = g.width ∨ x.1.height = g.height →
        Holds x.1.data g.bytes ∧ (1 < x.2 → Holds g.data x.1.bytes)) := by
    constructor
    · exact fun hf => hf g hg task (by simp [ht])
    · intro hf g₁ hg₁ task₁ ht₁
      cases hg.symm.trans hg₁
      have htask : task = task₁ := by simpa [ht] using ht₁
      rw [← htask]
      exact hf
  rw [hguard]
  rcases flushTask_cases task rest hg hi with ⟨hk,ha,hno⟩ | ⟨id,c,hid,hty,hfit,he⟩
  · exact ⟨fun _ hr x hx hxf => absurd hxf (hno x hx hr),fun _ => h.keeps hk ha⟩
  · rw [he,exchange_holds_iff h hg rfl]
    constructor
    · rintro hb _ x hx _
      cases hid.symm.trans hx
      exact hb
    · exact fun hf => hf hty (id,c) hid hfit

/-! Steps and runs. -/

/-- What a step does: it leaves the buffers alone, makes new ones, or is one of the two
that may break a size. -/
theorem step_sizes {s t : State σ} {a : Action σ} (hi : Inv s) (ht : step P s a = some t) :
    Inv t ∧ (BuffersHold s → (BuffersHold t ↔ ExchangesFit P s a)) := by
  have hkeep : ∀ {u : State σ} {b : Action σ}, ExchangesFit P s b → Keeps s u →
      u.accesses = s.accesses → Inv u ∧ (BuffersHold s → (BuffersHold u ↔ ExchangesFit P s b)) :=
    fun hf hk ha => ⟨hi.keeps hk,fun h => ⟨fun _ => hf,fun _ => h.keeps hk fun a ha' =>
      Or.inl (ha ▸ ha')⟩⟩
  cases a with
  | createImageData x w h b =>
    simp only [step] at ht
    split_ifs at ht
    cases ht
    exact ⟨hi.createImageData x w h b,fun hb => ⟨fun _ => trivial,fun _ =>
      hb.createImageData x w h b⟩⟩
  | createOther x =>
    simp only [step] at ht
    split_ifs at ht
    cases ht
    exact hkeep trivial (keeps_createOther s x) rfl
  | ref x =>
    cases ht
    exact hkeep trivial (keeps_ref s x) (ppResourceRef_fields s x).2.1
  | unref x =>
    cases ht
    exact hkeep trivial (keeps_unref s x) (ppResourceUnref_fields s x).2.1
  | create w h b₁ b₂ =>
    simp only [step] at ht
    split_ifs at ht
    cases ht
    exact ⟨hi.createContext w h b₁ b₂,fun hb => ⟨fun _ => trivial,fun _ =>
      hb.createContext w h b₁ b₂⟩⟩
  | paintImageData x =>
    obtain ⟨g,hg,rfl⟩ := Option.map_eq_some_iff.mp ht
    exact hkeep trivial ((keeps_queueTask (g2d_of_idle hg) _ x).trans (keeps_ghosts _ _ _))
      (ppResourceRef_fields s x).2.1
  | replaceContents x =>
    obtain ⟨g,hg,rfl⟩ := Option.map_eq_some_iff.mp ht
    exact hkeep trivial ((keeps_queueTask (g2d_of_idle hg) _ x).trans (keeps_ghosts _ _ _))
      (ppResourceRef_fields s x).2.1
  | setScale scale b =>
    obtain ⟨g,hg,rfl⟩ := Option.map_eq_some_iff.mp ht
    exact ⟨hi.setScale (g2d_of_idle hg) scale b,fun hb =>
      setScale_holds_iff hb (g2d_of_idle hg) scale b⟩
  | flush =>
    obtain ⟨g,hg,rfl⟩ := Option.map_eq_some_iff.mp ht
    exact hkeep trivial (.of_eq rfl (.refl _)) rfl
  | flushTask =>
    simp only [step] at ht
    (repeat' split at ht) <;> cases ht
    rename_i g _ hg _ task rest htasks
    exact ⟨(flushTask_inv hi hg).keeps (keeps_ghosts _ _ _),fun hb =>
      (consuming_holds_iff s _ task).trans (flushTask_holds_iff hb hi hg htasks)⟩
  | flushCopy =>
    simp only [step] at ht
    (repeat' split at ht) <;> cases ht
    rename_i g _ hg _
    exact ⟨hi.keeps (.of_eq rfl (.refl _)),fun hb => ⟨fun _ => trivial,fun _ =>
      hb.flushCopy hi hg⟩⟩
  | destroy =>
    obtain ⟨g,hg,rfl⟩ := Option.map_eq_some_iff.mp ht
    exact hkeep trivial ⟨fun _ hn => (by cases hn),.refl _⟩ rfl

theorem Inv.create : Inv (.create : State σ) where
  backed g hg := by simp [State.create] at hg
  stride g hg := by simp [State.create] at hg
  scaled g hg := by simp [State.create] at hg
  images r id c h := by simp [State.create] at h

theorem BuffersHold.create : BuffersHold (.create : State σ) where
  context g hg := by simp [State.create] at hg
  images r id c h := by simp [State.create] at h
  copies a ha := by simp [State.create] at ha

/-- In every run the buffers have the bytes of their geometry in all states visited, and
all copies stay inside, exactly if every change of scale finds memory and all exchanged
buffers fit their new owners. -/
theorem buffers_hold_iff (P : Scaling σ) {ls : List (Action σ)} {u : State σ}
    (hr : (machine P).exec (machine P).start ls = some u) :
    (machine P).AlwaysFrom BuffersHold (machine P).start ls ↔
      (machine P).EachFrom (ExchangesFit P) (machine P).start ls :=
  Machine.always_iff_each Inv (fun _ _ _ hi ht => (step_sizes hi ht).1)
    (fun _ _ _ hi hb ht => (step_sizes hi ht).2 hb) .create .create hr

/-- Scales that are whole numbers. -/
def wholeScaling : Scaling ℤ := ⟨1,(· * ·),(· * ·)⟩

/-- A 4×4 context replaces its contents by a 4×1 image, of the same width, and is copied
to the second buffer by the next Flush. -/
def shortImage : List (Action ℤ) :=
  [.create 4 4 true true,.createImageData 1 4 1 true,.replaceContents 1,.flush,.flushTask,.flushCopy]

theorem shortImage_too_short : ¬∀ (ls : List (Action ℤ)) (u : State ℤ),
    (machine wholeScaling).exec (machine wholeScaling).start ls = some u → BuffersHold u := by
  intro h
  have hcopies := (h shortImage _ rfl).copies
  exact absurd (hcopies ⟨64,some 16⟩ (by decide)) (by decide)

/-- An image of the same size is exchanged and another one painted, at two scales. -/
theorem sameSize_holds : (machine wholeScaling).AlwaysFrom BuffersHold
    (machine wholeScaling).start
    [.create 4 4 true true,.createImageData 1 4 4 true,.createImageData 2 3 7 true,
      .replaceContents 1,.paintImageData 2,.flush,.flushTask,.flushTask,.flushCopy,
      .setScale 2 true,.flush,.flushCopy,.unref 1,.destroy] :=
  (buffers_hold_iff wholeScaling rfl).mpr (by decide)

end Graphics2d
end FreshPlayer
