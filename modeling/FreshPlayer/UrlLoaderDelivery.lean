import FreshPlayer.UrlLoader
import Mathlib.Data.List.Count
import Mathlib.Data.List.Perm.Basic

/-! The URL loader delivers in order: its sections are runs of the abstract delivery,
and every read handed its bytes has one completion, posted, to be posted or returned. -/
namespace FreshPlayer
namespace UrlLoader

def UrlLoaderReadTask.toRequest (rt : UrlLoaderReadTask) : Delivery.Request :=
  ⟨rt.request,rt.bytesToRead⟩

/-- The delivery a loader carries out. -/
def State.delivery (s : State) : Delivery.State UInt8 :=
  ⟨s.written,s.readPos,s.readTasks.map UrlLoaderReadTask.toRequest,s.served,s.requests⟩

/-- Some abstract run leads from one to the other. -/
def Refines (s t : State) : Prop :=
  ∃ es, Delivery.machine.exec s.delivery es = some t.delivery

theorem Refines.of_eq {s t : State} (h : t.delivery = s.delivery) : Refines s t :=
  ⟨[],by rw [h]; rfl⟩

theorem Refines.inOrder {s t : State} (h : Refines s t) (ho : Delivery.InOrder s.delivery) :
    Delivery.InOrder t.delivery := by
  obtain ⟨es,hes⟩ := h
  exact Delivery.exec_inOrder ho hes

theorem writeAt_end (content buffer : List UInt8) :
    writeAt content content.length buffer = content ++ buffer := by
  simp [writeAt]

theorem readFile_open {s : State} (hf : s.file = some s.written) (n : ℕ) :
    readFile s n = some ((s.written.drop s.readPos).take n) := by
  rw [readFile,hf]
  rfl

theorem serve_delivery {s : State} {rt : UrlLoaderReadTask} {rest : List UrlLoaderReadTask}
    (hw : s.readTasks = rt::rest) {bytes : List UInt8}
    (hb : bytes = (s.written.drop s.readPos).take rt.bytesToRead) :
    Delivery.step s.delivery .serve =
      some (handOut { s with readTasks := rest } rt.request bytes).delivery := by
  subst hb
  simp only [Delivery.step,State.delivery,hw,List.map_cons]
  rfl

theorem write_refines {s : State} (hf : s.file = some s.written) (buffer : List UInt8) :
    (nppWrite s s.written.length buffer).file = some (nppWrite s s.written.length buffer).written ∧
      Refines s (nppWrite s s.written.length buffer) := by
  unfold nppWrite
  simp only [hf,writeAt_end]
  split_ifs
  · exact ⟨hf,.of_eq rfl⟩
  · let u : State :=
      { s with file := some (s.written ++ buffer), written := s.written ++ buffer }
    have hfeed : Delivery.step s.delivery (.feed buffer) = some u.delivery := rfl
    have hu : u.file = some u.written := rfl
    split
    · exact ⟨hu,[.feed buffer],rfl⟩
    · rename_i rt rest hw
      have hw' : u.readTasks = rt::rest := hw
      split
      · rename_i b bytes hread
        refine ⟨hu,[.feed buffer,.serve],?_⟩
        have hserve := serve_delivery hw' (Option.some.inj ((readFile_open hu _).symm.trans hread)).symm
        rw [Machine.exec_cons]
        show (Delivery.step s.delivery (.feed buffer)).bind _ = _
        rw [hfeed,Option.bind_some,Machine.exec_cons]
        show (Delivery.step u.delivery .serve).bind _ = _
        rw [hserve]
        rfl
      · exact ⟨hu,[.feed buffer],rfl⟩

theorem destroyLoop_refines {s : State} (hf : s.file = some s.written) :
    (destroyLoop s).file = some (destroyLoop s).written ∧ Refines s (destroyLoop s) := by
  unfold destroyLoop
  split
  · exact ⟨hf,.of_eq rfl⟩
  · rename_i rt rest hw
    dsimp only
    have hread := readFile_open (s := { s with readTasks := rest }) hf rt.bytesToRead
    rw [hread]
    refine ⟨hf,[.serve],?_⟩
    rw [Machine.exec_cons]
    show (Delivery.step s.delivery .serve).bind _ = _
    rw [serve_delivery hw rfl]
    rfl

theorem read_refines {s : State} (hf : s.file = some s.written) (n : ℕ) (optional : Bool)
    (ccb ccbMl : ℕ) :
    (ppbUrlLoaderReadResponseBody s n optional ccb ccbMl).file =
      some (ppbUrlLoaderReadResponseBody s n optional ccb ccbMl).written ∧
    Refines s (ppbUrlLoaderReadResponseBody s n optional ccb ccbMl) := by
  have hask : Refines s (scheduleReadTask s n ccb ccbMl) := by
    refine ⟨[.ask n],?_⟩
    simp [Machine.exec_cons,Delivery.machine,Delivery.step,State.delivery,scheduleReadTask,
      UrlLoaderReadTask.toRequest]
  unfold ppbUrlLoaderReadResponseBody
  rw [readFile_open hf]
  dsimp only
  split_ifs with hq he
  · exact ⟨hf,hask⟩
  · exact ⟨hf,hask⟩
  · have hnil : s.readTasks = [] := by simpa using hq
    have hrun : Refines s
        (handOut { s with requests := s.requests+1 } s.requests ((s.written.drop s.readPos).take n)) := by
      refine ⟨[.ask n,.serve],?_⟩
      simp [Machine.exec_cons,Delivery.machine,Delivery.step,Delivery.next,State.delivery,hnil,handOut]
    unfold complete
    split_ifs
    · exact ⟨hf,hrun⟩
    · exact ⟨hf,hrun⟩

/-- Each section of the loader is a run of the abstract delivery. -/
theorem step_refines {s t : State} {a : Action} (hf : s.file = some s.written)
    (ht : step s a = some t) : t.file = some t.written ∧ Refines s t := by
  cases a with
  | write offset buffer =>
    simp only [step] at ht
    split_ifs at ht with hc
    cases ht
    rw [hc.2]
    exact write_refines hf buffer
  | destroyStream =>
    simp only [step] at ht
    split_ifs at ht
    cases ht
    exact destroyLoop_refines (s := { s with finishedLoading := true }) hf
  | browserPost =>
    simp only [step] at ht
    split at ht <;> cases ht
    all_goals exact ⟨hf,.of_eq rfl⟩
  | destroyNext =>
    simp only [step] at ht
    split_ifs at ht
    cases ht
    exact destroyLoop_refines hf
  | read n optional ccb ccbMl => cases ht; exact read_refines hf n optional ccb ccbMl
  | readPost i =>
    obtain ⟨c,_,rfl⟩ := Option.map_eq_some_iff.mp ht
    exact ⟨hf,.of_eq rfl⟩

/-- The completion the browser thread is about to post. -/
def Browser.pending : Browser → List Completion
  | .writePost c | .destroyPost c => [c]
  | _ => []

/-- The browser thread is behind the first section of `NPP_DestroyStream`. -/
def Browser.destroying : Browser → Bool
  | .idle | .writePost _ => false
  | _ => true

/-- The browser thread is behind the loop of `NPP_DestroyStream`. -/
def Browser.drained : Browser → Bool
  | .filePost | .returned => true
  | _ => false

def State.completions (s : State) : List Completion :=
  s.posted ++ s.browser.pending ++ s.unposted ++ s.returned

def Completion.outcome (c : Completion) : ℕ × ℤ := (c.request,c.result)

def State.outcomes (s : State) : List (ℕ × ℤ) := s.served.map fun p => (p.1,(p.2.length : ℤ))

structure Inv (s : State) : Prop where
  file : s.file = some s.written
  inOrder : Delivery.InOrder s.delivery
  completed : List.Perm (s.completions.map Completion.outcome) s.outcomes
  byBrowser : ∀ c ∈ s.unposted ++ s.returned, c.request ∉ s.queued
  known : ∀ i ∈ s.queued, i < s.requests
  finished : s.browser.destroying = true → s.finishedLoading = true
  drained : s.browser.drained = true → s.readTasks = []

theorem Inv.request_lt {s : State} (h : Inv s) {c : Completion} (hc : c ∈ s.completions) :
    c.request < s.requests := by
  have hm : c.outcome ∈ s.outcomes := h.completed.mem_iff.mp (List.mem_map_of_mem hc)
  obtain ⟨p,hp,he⟩ := List.mem_map.mp hm
  have hpc : p.1 = c.request := (Prod.mk.inj he).1
  have hr : c.request ∈ List.range s.delivery.asked := by
    rw [← h.inOrder.order]
    exact List.mem_append_left _ (hpc ▸ List.mem_map_of_mem hp)
  exact List.mem_range.mp hr

/-- One more read is served, and its completion joins the others. -/
theorem completed_cons {cs ds : List Completion} {os : List (ℕ × ℤ)} {c : Completion}
    (h : List.Perm (cs.map Completion.outcome) os) (hd : List.Perm ds (c::cs)) :
    List.Perm (ds.map Completion.outcome) (os ++ [c.outcome]) :=
  ((hd.map _).trans (h.cons _)).trans (List.perm_append_singleton _ _).symm

/-- A read served by the browser thread, which posts its completion next. -/
theorem Inv.serve {s t : State} (h : Inv s) (hb : s.browser.pending = []) {c : Completion}
    {bytes : List UInt8} (hf : t.file = some t.written) (ho : Delivery.InOrder t.delivery)
    (hc : c.result = bytes.length) (hserved : t.served = s.served ++ [(c.request,bytes)])
    (hposted : t.posted = s.posted) (hbrowser : t.browser.pending = [c])
    (hunposted : t.unposted = s.unposted) (hreturned : t.returned = s.returned)
    (hqueued : t.queued = s.queued) (hrequests : t.requests = s.requests)
    (hfin : t.browser.destroying = true → t.finishedLoading = true)
    (hdr : t.browser.drained = false) : Inv t where
  file := hf
  inOrder := ho
  completed := by
    have hperm : List.Perm t.completions (c::s.completions) := by
      simp only [State.completions,hposted,hbrowser,hunposted,hreturned,hb,List.append_assoc,
        List.nil_append,List.cons_append]
      exact List.perm_middle
    have hout : t.outcomes = s.outcomes ++ [c.outcome] := by
      simp [State.outcomes,hserved,Completion.outcome,hc]
    rw [hout]
    exact completed_cons h.completed hperm
  byBrowser := by rw [hunposted,hreturned,hqueued]; exact h.byBrowser
  known := by rw [hqueued,hrequests]; exact h.known
  finished := hfin
  drained hd := by rw [hdr] at hd; cases hd

/-- A write changes the file alone, or also serves the first read. -/
theorem nppWrite_cases (s : State) (offset : ℕ) (buffer : List UInt8) :
    (∃ file written, nppWrite s offset buffer = { s with file := file, written := written }) ∨
    ∃ (rt : UrlLoaderReadTask) (rest : List UrlLoaderReadTask) (bytes : List UInt8)
      (file : Option (List UInt8)) (written : List UInt8), nppWrite s offset buffer =
      { handOut { s with file := file, written := written, readTasks := rest } rt.request bytes with
        browser := .writePost ⟨rt.request,rt.ccb,rt.ccbMl,bytes.length⟩ } := by
  unfold nppWrite
  split
  · exact .inl ⟨s.file,s.written,rfl⟩
  · split_ifs
    · exact .inl ⟨s.file,s.written,rfl⟩
    · dsimp only
      split
      · exact .inl ⟨_,_,rfl⟩
      · split
        · exact .inr ⟨_,_,_,_,_,rfl⟩
        · exact .inl ⟨_,_,rfl⟩

theorem Inv.write {s : State} (h : Inv s) (hb : s.browser = .idle) (buffer : List UInt8) :
    Inv (nppWrite s s.written.length buffer) := by
  obtain ⟨hf,hr⟩ := write_refines h.file buffer
  have ho := hr.inOrder h.inOrder
  have hp : s.browser.pending = [] := by rw [hb]; rfl
  obtain ⟨file,written,he⟩ | ⟨rt,rest,bytes,file,written,he⟩ :=
    nppWrite_cases s s.written.length buffer
  · rw [he] at hf ho ⊢
    exact ⟨hf,ho,h.completed,h.byBrowser,h.known,h.finished,h.drained⟩
  · rw [he] at hf ho ⊢
    exact h.serve hp hf ho rfl rfl rfl rfl rfl rfl rfl rfl (fun hd => by cases hd) rfl

/-- One round of the loop serves the first read; the loop ends on an empty queue. -/
theorem destroyLoop_cases {s : State} (hf : s.file = some s.written) :
    s.readTasks = [] ∧ (∃ b, (b = .filePost ∨ b = .returned) ∧
      destroyLoop s = { s with browser := b }) ∨
    ∃ (rt : UrlLoaderReadTask) (rest : List UrlLoaderReadTask) (bytes : List UInt8),
      s.readTasks = rt::rest ∧ destroyLoop s = { handOut { s with readTasks := rest } rt.request bytes with
      browser := .destroyPost ⟨rt.request,rt.ccb,rt.ccbMl,bytes.length⟩ } := by
  unfold destroyLoop
  split
  · rename_i hw
    left
    by_cases hs : s.streamToFile = true
    · exact ⟨hw,.filePost,.inl rfl,by rw [if_pos hs]⟩
    · exact ⟨hw,.returned,.inr rfl,by rw [if_neg hs]⟩
  · rename_i rt rest hw
    have hread := readFile_open (s := { s with readTasks := rest }) hf rt.bytesToRead
    dsimp only
    rw [hread]
    exact .inr ⟨rt,rest,_,hw,rfl⟩

theorem Inv.destroyLoop {s : State} (h : Inv s) (hb : s.browser.pending = [])
    (hfin : s.finishedLoading = true) : Inv (destroyLoop s) := by
  obtain ⟨hf,hr⟩ := destroyLoop_refines h.file
  have ho := hr.inOrder h.inOrder
  obtain ⟨hw,b,hb',he⟩ | ⟨rt,rest,bytes,_,he⟩ := destroyLoop_cases h.file
  · have hbp : b.pending = [] := by obtain rfl | rfl := hb' <;> rfl
    rw [he] at hf ho ⊢
    have hc := h.completed
    simp only [State.completions,hb] at hc
    refine ⟨hf,ho,?_,h.byBrowser,h.known,fun _ => hfin,fun _ => hw⟩
    simp only [State.completions,hbp]
    exact hc
  · rw [he] at hf ho ⊢
    exact h.serve hb hf ho rfl rfl rfl rfl rfl rfl rfl rfl (fun _ => hfin) rfl

/-- A read made while others wait, or without data before the end, joins the queue. -/
theorem Inv.schedule {s : State} (h : Inv s) (n ccb ccbMl : ℕ)
    (ho : Delivery.InOrder (scheduleReadTask s n ccb ccbMl).delivery)
    (hd : s.browser.drained = false) : Inv (scheduleReadTask s n ccb ccbMl) where
  file := h.file
  inOrder := ho
  completed := h.completed
  byBrowser c hc hq := by
    obtain hq | hq := List.mem_append.mp hq
    · exact h.byBrowser c hc hq
    · have hlt : c.request < s.requests := h.request_lt (by
        simp only [State.completions,List.append_assoc]
        exact List.mem_append_right _ (List.mem_append_right _ hc))
      have heq : c.request = s.requests := List.mem_singleton.mp hq
      omega
  known i hi := by
    obtain hi | hi := List.mem_append.mp hi
    · exact Nat.lt_succ_of_lt (h.known i hi)
    · exact (List.mem_singleton.mp hi) ▸ Nat.lt_succ_self _
  finished := h.finished
  drained hdr := by
    have hdr' : s.browser.drained = true := hdr
    rw [hd] at hdr'
    cases hdr'

theorem Inv.complete {s : State} (h : Inv s) (bytes : List UInt8) (optional : Bool) (ccb ccbMl : ℕ)
    (hq : s.readTasks = [])
    (ho : Delivery.InOrder (complete (handOut { s with requests := s.requests+1 } s.requests bytes)
      optional ⟨s.requests,ccb,ccbMl,bytes.length⟩).delivery) :
    Inv (complete (handOut { s with requests := s.requests+1 } s.requests bytes)
      optional ⟨s.requests,ccb,ccbMl,bytes.length⟩) := by
  have hnot : s.requests ∉ s.queued := fun hm => Nat.lt_irrefl _ (h.known _ hm)
  have hout : ∀ t : State, t.served = s.served ++ [(s.requests,bytes)] →
      t.outcomes = s.outcomes ++ [Completion.outcome ⟨s.requests,ccb,ccbMl,bytes.length⟩] := by
    intro t ht
    simp [State.outcomes,ht,Completion.outcome]
  have hknown : ∀ i ∈ s.queued, i < s.requests+1 := fun i hi => Nat.lt_succ_of_lt (h.known i hi)
  have hby : ∀ c ∈ (⟨s.requests,ccb,ccbMl,bytes.length⟩ : Completion)::(s.unposted ++ s.returned),
      c.request ∉ s.queued := by
    simpa using ⟨hnot,by simpa using h.byBrowser⟩
  unfold UrlLoader.complete at ho ⊢
  split_ifs at ho ⊢
  · refine ⟨h.file,ho,?_,fun c hc => hby c ?_,hknown,h.finished,fun _ => hq⟩
    · rw [hout _ rfl]
      refine completed_cons h.completed ?_
      simp only [State.completions,handOut,← List.append_assoc]
      exact List.perm_append_singleton _ _
    · simp only [handOut,List.mem_append,List.mem_cons] at hc ⊢
      tauto
  · refine ⟨h.file,ho,?_,fun c hc => hby c ?_,hknown,h.finished,fun _ => hq⟩
    · rw [hout _ rfl]
      refine completed_cons h.completed ?_
      simp only [State.completions,handOut,← List.append_assoc]
      rw [← List.append_cons]
      exact List.perm_middle
    · simp only [handOut,List.mem_append,List.mem_cons] at hc ⊢
      tauto

theorem Inv.read {s : State} (h : Inv s) (n : ℕ) (optional : Bool) (ccb ccbMl : ℕ) :
    Inv (ppbUrlLoaderReadResponseBody s n optional ccb ccbMl) := by
  have ho := (read_refines h.file n optional ccb ccbMl).2.inOrder h.inOrder
  unfold ppbUrlLoaderReadResponseBody at ho ⊢
  rw [readFile_open h.file] at ho ⊢
  dsimp only at ho ⊢
  split_ifs at ho ⊢ with hq he
  · refine h.schedule n ccb ccbMl ho ?_
    cases hd : s.browser.drained with
    | false => rfl
    | true => exact absurd (h.drained hd) hq
  · refine h.schedule n ccb ccbMl ho ?_
    cases hb : s.browser with
    | filePost | returned =>
      have hfin := h.finished (by rw [hb]; rfl)
      rw [he.2] at hfin
      cases hfin
    | _ => rfl
  · exact h.complete _ optional ccb ccbMl (not_not.mp hq) ho

/-- The browser thread posts the completion of the read it served. -/
theorem Inv.post {s : State} (h : Inv s) {b : Browser} (hb : b.pending = [])
    (hfin : b.destroying = true → s.browser.destroying = true)
    (hd : b.drained = true → s.browser.drained = true) :
    Inv { s with browser := b, posted := s.posted ++ s.browser.pending } where
  file := h.file
  inOrder := h.inOrder
  completed := by
    have hc := h.completed
    simp only [State.completions,hb,List.append_nil] at hc ⊢
    exact hc
  byBrowser := h.byBrowser
  known := h.known
  finished hdes := h.finished (hfin hdes)
  drained hdr := h.drained (hd hdr)

theorem Inv.readPost {s : State} (h : Inv s) {i : ℕ} {c : Completion}
    (hc : s.unposted[i]? = some c) :
    Inv { s with unposted := s.unposted.eraseIdx i, posted := s.posted ++ [c] } where
  file := h.file
  inOrder := h.inOrder
  completed := by
    have hlt : i < s.unposted.length := (List.getElem?_eq_some_iff.mp hc).1
    have hget : s.unposted[i] = c := (List.getElem?_eq_some_iff.mp hc).2
    have hperm : List.Perm (c::s.unposted.eraseIdx i) s.unposted :=
      hget ▸ List.getElem_cons_eraseIdx_perm hlt
    have hmoved : List.Perm (s.posted ++ [c] ++ s.browser.pending ++ s.unposted.eraseIdx i)
        (s.posted ++ s.browser.pending ++ c::s.unposted.eraseIdx i) := by
      simp only [List.append_assoc,List.cons_append,List.nil_append]
      exact List.Perm.append_left _ List.perm_middle.symm
    have hall := hmoved.trans (hperm.append_left _)
    exact ((hall.append_right _).map _).trans h.completed
  byBrowser d hd := by
    obtain hd | hd := List.mem_append.mp hd
    · exact h.byBrowser d (List.mem_append_left _ (List.mem_of_mem_eraseIdx hd))
    · exact h.byBrowser d (List.mem_append_right _ hd)
  known := h.known
  finished := h.finished
  drained := h.drained

theorem step_inv {s t : State} {a : Action} (h : Inv s) (ht : step s a = some t) : Inv t := by
  cases a with
  | write offset buffer =>
    simp only [step] at ht
    split_ifs at ht with hc
    cases ht
    rw [hc.2]
    exact h.write hc.1 buffer
  | destroyStream =>
    simp only [step] at ht
    split_ifs at ht with hc
    cases ht
    have hfin : Inv { s with finishedLoading := true } :=
      ⟨h.file,h.inOrder,h.completed,h.byBrowser,h.known,fun _ => rfl,h.drained⟩
    exact hfin.destroyLoop (by rw [hc]; rfl) rfl
  | browserPost =>
    simp only [step] at ht
    split at ht <;> cases ht
    · rename_i c hb
      have hp := h.post (b := .idle) rfl (fun hd => by cases hd) (fun hd => by cases hd)
      rwa [hb] at hp
    · rename_i c hb
      have hp := h.post (b := .destroyNext) rfl (fun _ => by rw [hb]; rfl) (fun hd => by cases hd)
      rwa [hb] at hp
    · rename_i hb
      have hp := h.post (b := .returned) rfl (fun _ => by rw [hb]; rfl) (fun _ => by rw [hb]; rfl)
      rw [hb] at hp
      have hnil : s.posted ++ Browser.pending .filePost = s.posted := List.append_nil _
      rwa [hnil] at hp
  | destroyNext =>
    simp only [step] at ht
    split_ifs at ht with hc
    cases ht
    exact h.destroyLoop (by rw [hc]; rfl) (h.finished (by rw [hc]; rfl))
  | read n optional ccb ccbMl => cases ht; exact h.read n optional ccb ccbMl
  | readPost i =>
    obtain ⟨c,hc,rfl⟩ := Option.map_eq_some_iff.mp ht
    exact h.readPost hc

theorem start_inv (streamToFile : Bool) : Inv (machine streamToFile).start where
  file := rfl
  inOrder := Delivery.start_inOrder
  completed := List.Perm.refl _
  byBrowser := by simp [machine]
  known := by simp [machine]
  finished := by simp [machine,Browser.destroying]
  drained := fun _ => rfl

/-- How often a completion of a read stands in a list. -/
def countRequest (cs : List Completion) (i : ℕ) : ℕ := (cs.map Completion.request).count i

@[simp] theorem countRequest_append (cs ds : List Completion) (i : ℕ) :
    countRequest (cs ++ ds) i = countRequest cs i + countRequest ds i := by
  simp [countRequest]

theorem countRequest_eq_zero {cs : List Completion} {i : ℕ} (h : ∀ c ∈ cs, c.request ≠ i) :
    countRequest cs i = 0 :=
  List.count_eq_zero.mpr fun hi => by
    obtain ⟨c,hc,he⟩ := List.mem_map.mp hi
    exact h c hc he

theorem Inv.countRequest_completions {s : State} (h : Inv s) (i : ℕ) :
    countRequest s.completions i = (s.served.map Prod.fst).count i := by
  have hp := (h.completed.map Prod.fst).count_eq i
  rw [State.outcomes,List.map_map,List.map_map] at hp
  exact hp

/-- A queued read waits in the queue, or its completion is with the browser thread or posted. -/
theorem Inv.queued_once {s : State} (h : Inv s) {i : ℕ} (hi : i ∈ s.queued) :
    countRequest s.posted i + countRequest s.browser.pending i +
      (s.readTasks.map UrlLoaderReadTask.request).count i = 1 := by
  have hrange : (s.served.map Prod.fst ++ s.readTasks.map UrlLoaderReadTask.request).count i = 1 := by
    have ho := h.inOrder.order
    have hq : s.delivery.waiting.map Delivery.Request.number =
        s.readTasks.map UrlLoaderReadTask.request := List.map_map
    rw [hq] at ho
    rw [show s.served = s.delivery.served from rfl,ho]
    exact List.count_eq_one_of_mem List.nodup_range (List.mem_range.mpr (h.known i hi))
  have hzero : countRequest (s.unposted ++ s.returned) i = 0 :=
    countRequest_eq_zero fun c hc he => h.byBrowser c hc (he ▸ hi)
  have hc := h.countRequest_completions i
  simp only [State.completions,List.append_assoc,countRequest_append,List.count_append] at *
  omega

/-- The loop of `NPP_DestroyStream` ends when it is left to run. -/
theorem destroyLoop_returns {streamToFile : Bool} {n : ℕ} {s : State}
    (hn : s.readTasks.length = n) (hf : s.file = some s.written) :
    ∃ as t, (machine streamToFile).exec (destroyLoop s) as = some t ∧ t.browser = .returned := by
  induction n generalizing s with
  | zero =>
    obtain ⟨_,b,rfl | rfl,he⟩ | ⟨rt,rest,_,hw,_⟩ := destroyLoop_cases hf
    · exact ⟨[.browserPost],_,by rw [he]; rfl,rfl⟩
    · exact ⟨[],_,rfl,by rw [he]⟩
    · rw [hw] at hn
      cases hn
  | succ n ih =>
    obtain ⟨hw,_⟩ | ⟨rt,rest,bytes,hw,he⟩ := destroyLoop_cases hf
    · rw [hw] at hn
      cases hn
    · have hlen : rest.length = n := by
        rw [hw] at hn
        exact Nat.succ.inj hn
      let u : State := { handOut { s with readTasks := rest } rt.request bytes with
        browser := .destroyNext, posted := s.posted ++ [⟨rt.request,rt.ccb,rt.ccbMl,bytes.length⟩] }
      obtain ⟨as,t,ht,hb⟩ := ih (s := u) hlen hf
      exact ⟨.browserPost::.destroyNext::as,t,by rw [he]; exact ht,hb⟩

/-- From wherever the browser thread is, it can destroy the stream and return. -/
theorem Inv.returns {streamToFile : Bool} {s : State} (h : Inv s) :
    ∃ as t, (machine streamToFile).exec s as = some t ∧ t.browser = .returned := by
  have hloop : ∀ u : State, u.file = some u.written →
      ∃ as t, (machine streamToFile).exec (UrlLoader.destroyLoop u) as = some t ∧ t.browser = .returned :=
    fun u hf => destroyLoop_returns rfl hf
  obtain ⟨file,readPos,readTasks,fin,stf,browser,unposted,written,requests,queued,served,posted,
    returned⟩ := s
  have hf := h.file
  cases browser with
  | idle =>
    obtain ⟨as,t,ht,hb⟩ := hloop ⟨file,readPos,readTasks,true,stf,.idle,unposted,written,requests,
      queued,served,posted,returned⟩ hf
    exact ⟨.destroyStream::as,t,ht,hb⟩
  | writePost c =>
    obtain ⟨as,t,ht,hb⟩ := hloop ⟨file,readPos,readTasks,true,stf,.idle,unposted,written,requests,
      queued,served,posted ++ [c],returned⟩ hf
    exact ⟨.browserPost::.destroyStream::as,t,ht,hb⟩
  | destroyPost c =>
    obtain ⟨as,t,ht,hb⟩ := hloop ⟨file,readPos,readTasks,fin,stf,.destroyNext,unposted,written,
      requests,queued,served,posted ++ [c],returned⟩ hf
    exact ⟨.browserPost::.destroyNext::as,t,ht,hb⟩
  | destroyNext =>
    obtain ⟨as,t,ht,hb⟩ := hloop _ hf
    exact ⟨.destroyNext::as,t,ht,hb⟩
  | filePost => exact ⟨[.browserPost],_,rfl,rfl⟩
  | returned => exact ⟨[],_,rfl,rfl⟩

/-- What the reads got, in the order of their requests, and how each of them completes. -/
structure StreamOk (s : State) : Prop where
  bytes : (s.served.map Prod.snd).flatten = s.written.take s.readPos
  position : s.readPos ≤ s.written.length
  order : s.served.map Prod.fst ++ s.readTasks.map UrlLoaderReadTask.request = List.range s.requests
  results : List.Perm (s.completions.map Completion.outcome) s.outcomes
  once : ∀ i ∈ s.queued, countRequest s.posted i + countRequest s.browser.pending i +
    (s.readTasks.map UrlLoaderReadTask.request).count i = 1
  destroyed : s.browser = .returned →
    s.readTasks = [] ∧ ∀ i ∈ s.queued, countRequest s.posted i = 1

theorem stream_delivery {streamToFile : Bool} {s : State} (h : (machine streamToFile).Reachable s) :
    StreamOk s ∧ ∃ as t, (machine streamToFile).exec s as = some t ∧ t.browser = .returned := by
  have hi : Inv s := h.invariant Inv (start_inv streamToFile) fun _ _ _ hi _ ht => step_inv hi ht
  have horder := hi.inOrder.order
  refine ⟨⟨hi.inOrder.bytes,hi.inOrder.pos,?_,hi.completed,fun i => hi.queued_once,fun hb => ?_⟩,
    hi.returns⟩
  · have hq : s.delivery.waiting.map Delivery.Request.number =
        s.readTasks.map UrlLoaderReadTask.request := List.map_map
    rwa [hq] at horder
  · have hq : s.readTasks = [] := hi.drained (by rw [hb]; rfl)
    refine ⟨hq,fun i hm => ?_⟩
    have honce := hi.queued_once hm
    have hzero : countRequest s.browser.pending i = 0 := by rw [hb]; rfl
    have hnone : (s.readTasks.map UrlLoaderReadTask.request).count i = 0 := by rw [hq]; rfl
    omega

/-- One read takes part of a write and one the rest; two are queued when the stream ends. -/
def readsAcrossTheEnd : List Action :=
  [.read 2 true 7 0,.write 0 [1,2,3],.browserPost,.read 5 true 8 0,.read 4 false 9 0,.read 4 true 9 1,
    .destroyStream,.browserPost,.destroyNext,.browserPost,.destroyNext]

theorem readsAcrossTheEnd_ok : ∃ s : State,
    (machine false).exec (machine false).start readsAcrossTheEnd = some s ∧
    s.served = [(0,[1,2]),(1,[3]),(2,[]),(3,[])] ∧ s.browser = .returned ∧ StreamOk s := by
  have hr : ((machine false).exec (machine false).start readsAcrossTheEnd).isSome = true := by
    decide
  have hs := (Option.some_get hr).symm
  have hok := (stream_delivery (Machine.reachableVia_of_exec _ .start hs (by decide))).1
  exact ⟨_,hs,rfl,rfl,hok⟩

end UrlLoader
end FreshPlayer
