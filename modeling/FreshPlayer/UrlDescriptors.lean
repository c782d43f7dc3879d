import FreshPlayer.Custody
import FreshPlayer.Transition
import Mathlib.Data.List.Basic
import Mathlib.Data.List.ReduceOption
import Mathlib.Logic.Function.Iterate

/-! The descriptors of a loader's temporary files: the loader has one at most, and each file
reference made from its body has a copy. -/
namespace FreshPlayer
namespace UrlDescriptors

open Deed

/-- One loader with everything that keeps it: references of the plugin, opens whose task has
not run yet, and response infos. `fileRefs` are the references made from bodies that are still
there; what is `none` is -1 in the code. -/
structure State where
  refCnt : ℕ
  fd : Option ℕ
  readTasks : ℕ
  references : ℕ
  tasks : ℕ
  responses : ℕ
  fileRefs : List (Option ℕ)
  log : List Deed
  deriving DecidableEq, Repr

/-- The state `ppb_url_loader_create` leaves. -/
def created : State := ⟨1,none,0,1,0,0,[],[]⟩

inductive Action
  /-- Open as well; `temporary` says whether the file could be made, `first` that the loader
  is kept for the stream with the plugin content. -/
  | openTarget (request temporary first : Bool)
  /-- Also by `NPP_NewStream`. -/
  | followRedirect (temporary : Bool)
  /-- The end of `url_loader_open_ptac`. -/
  | openEnds
  | close
  | getDownloadProgress
  /-- `pending` says that there was nothing to read yet. -/
  | readResponseBody (pending : Bool)
  /-- `served` says that there was something for the first task. -/
  | write (served : Bool)
  | destroyStream (redirected : Bool)
  | getResponseInfo
  | getBodyAsFileRef (duplicated : Bool)
  | addRef
  | release
  | releaseResponse
  | queryFile (fileRef : ℕ)
  | releaseFileRef (fileRef : ℕ)
  deriving DecidableEq, Repr

def closeFd (s : State) : State :=
  match s.fd with
  | some d => { s with fd := none, log := .release d::s.log }
  | none => s

/-- Whatever was in `fd` is overwritten. -/
def openTemporaryFile (temporary : Bool) (s : State) : State :=
  if temporary then { s with fd := some s.log.length, log := .create s.log.length::s.log }
  else { s with fd := none }

/-- A system call on the descriptor; it fails on -1. -/
def access (s : State) : State :=
  match s.fd with
  | some d => { s with log := .use d::s.log }
  | none => s

/-- `pp_resource_unref` with `ppb_url_loader_destroy`. -/
def unref (s : State) : State :=
  let s := { s with refCnt := s.refCnt-1 }
  if s.refCnt = 0 then closeFd { s with readTasks := 0 } else s

def ppbUrlLoaderOpenTarget (request temporary first : Bool) (s : State) : State :=
  if request then
    let s := openTemporaryFile temporary s
    if first then s else { s with refCnt := s.refCnt+1, tasks := s.tasks+1 }
  else s

def ppbUrlLoaderFollowRedirect (temporary : Bool) (s : State) : State :=
  let s := openTemporaryFile temporary (closeFd s)
  { s with refCnt := s.refCnt+1, tasks := s.tasks+1 }

def ppbUrlLoaderReadResponseBody (pending : Bool) (s : State) : State :=
  if s.fd = none then s
  else if 0 < s.readTasks then { s with readTasks := s.readTasks+1 }
  else
    let s := access s
    if pending then { s with readTasks := s.readTasks+1 } else s

def nppWrite (served : Bool) (s : State) : State :=
  if s.fd = none then s
  else
    let s := access s
    if s.readTasks = 0 then s
    else
      let s := access s
      if served then { s with readTasks := s.readTasks-1 } else s

/-- Every task reads once. -/
def nppDestroyStream (redirected : Bool) (s : State) : State :=
  if redirected then s else { access^[s.readTasks] s with readTasks := 0 }

def ppbUrlResponseInfoGetBodyAsFileRef (duplicated : Bool) (s : State) : State :=
  let s := access s
  if s.fd ≠ none ∧ duplicated then
    { s with fileRefs := some s.log.length::s.fileRefs, log := .create s.log.length::s.log }
  else { s with fileRefs := none::s.fileRefs }

def ppbFlashFileFileRefQueryFile (i : ℕ) (s : State) : State :=
  match s.fileRefs[i]? with
  | some (some d) => { s with log := .use d::s.log }
  | _ => s

/-- The last reference on a file reference is dropped. -/
def ppbFileRefDestroy (i : ℕ) (s : State) : State :=
  match s.fileRefs[i]? with
  | some (some d) => { s with fileRefs := s.fileRefs.eraseIdx i, log := .release d::s.log }
  | some none => { s with fileRefs := s.fileRefs.eraseIdx i }
  | none => s

/-- A loader that was destroyed is not found. The plugin drops references it has, and a
response info is there as long as one is counted. -/
def step (s : State) : Action → Option State
  | .openTarget request temporary first =>
    some (if s.refCnt = 0 then s else ppbUrlLoaderOpenTarget request temporary first s)
  | .followRedirect temporary =>
    some (if s.refCnt = 0 then s else ppbUrlLoaderFollowRedirect temporary s)
  | .openEnds => if s.tasks = 0 then none else some (unref { s with tasks := s.tasks-1 })
  | .close => some (if s.refCnt = 0 then s else closeFd s)
  | .getDownloadProgress => some (if s.refCnt = 0 then s else access s)
  | .readResponseBody pending =>
    some (if s.refCnt = 0 then s else ppbUrlLoaderReadResponseBody pending s)
  | .write served => some (if s.refCnt = 0 then s else nppWrite served s)
  | .destroyStream redirected => some (if s.refCnt = 0 then s else nppDestroyStream redirected s)
  | .getResponseInfo =>
    some (if s.refCnt = 0 then s
      else { s with refCnt := s.refCnt+1, responses := s.responses+1 })
  | .getBodyAsFileRef duplicated =>
    some (if s.responses = 0 then s else ppbUrlResponseInfoGetBodyAsFileRef duplicated s)
  | .addRef =>
    some (if s.refCnt = 0 then s
      else { s with refCnt := s.refCnt+1, references := s.references+1 })
  | .release =>
    if s.references = 0 then none else some (unref { s with references := s.references-1 })
  | .releaseResponse =>
    if s.responses = 0 then none else some (unref { s with responses := s.responses-1 })
  | .queryFile i => some (ppbFlashFileFileRefQueryFile i s)
  | .releaseFileRef i => some (ppbFileRefDestroy i s)

def loaders : Machine State Action := ⟨created,step⟩

/-! Custody of the descriptors. -/

/-- The descriptors the loader and the file references have. -/
def held (s : State) : List ℕ := s.fd.toList ++ s.fileRefs.reduceOption

def books (s : State) : List Deed × List ℕ := (s.log,held s)

@[simp] theorem fd_closeFd (s : State) : (closeFd s).fd = none := by
  unfold closeFd
  split
  · rfl
  · assumption

theorem carries_closeFd (s : State) : Carries (books s) (books (closeFd s)) True := by
  unfold closeFd
  split
  · rename_i d hd
    rw [books,held,hd]
    exact .release s.log d _
  · exact .refl _

theorem carries_openTemporaryFile (temporary : Bool) (s : State) :
    Carries (books s) (books (openTemporaryFile temporary s)) (s.fd = none) := by
  have hlose := Carries.lose s.log s.fd.toList s.fileRefs.reduceOption
  have hfd : s.fd.toList = [] ↔ s.fd = none := by cases s.fd <;> simp
  unfold openTemporaryFile books held
  cases temporary with
  | true =>
    exact (hlose.trans (.create s.log _)).congr ((and_iff_left trivial).trans hfd)
  | false => exact hlose.congr hfd

theorem carries_access (s : State) : Carries (books s) (books (access s)) True := by
  unfold access
  split
  · rename_i d hd
    refine .use (List.mem_append_left _ ?_)
    rw [hd]
    exact List.mem_singleton_self d
  · exact .refl _

theorem carries_access_iterate (n : ℕ) (s : State) :
    Carries (books s) (books (access^[n] s)) True := by
  induction n generalizing s with
  | zero => exact .refl _
  | succ n ih =>
    rw [Function.iterate_succ_apply]
    exact ((carries_access s).trans (ih (access s))).congr (and_self_iff)

theorem carries_unref (s : State) : Carries (books s) (books (unref s)) True := by
  unfold unref
  dsimp only
  split
  · exact carries_closeFd { s with refCnt := s.refCnt-1, readTasks := 0 }
  · exact .refl _

theorem carries_readResponseBody (pending : Bool) (s : State) :
    Carries (books s) (books (ppbUrlLoaderReadResponseBody pending s)) True := by
  unfold ppbUrlLoaderReadResponseBody
  dsimp only
  split
  · exact .refl _
  · split
    · exact .refl _
    · cases pending with
      | true => exact carries_access s
      | false => exact carries_access s

theorem carries_write (served : Bool) (s : State) :
    Carries (books s) (books (nppWrite served s)) True := by
  have htwo := ((carries_access s).trans (carries_access (access s))).congr and_self_iff
  unfold nppWrite
  dsimp only
  split
  · exact .refl _
  · split
    · exact carries_access s
    · cases served with
      | true => exact htwo
      | false => exact htwo

theorem carries_getBodyAsFileRef (duplicated : Bool) (s : State) :
    Carries (books s) (books (ppbUrlResponseInfoGetBodyAsFileRef duplicated s)) True := by
  refine ((carries_access s).trans ?_).congr and_self_iff
  unfold ppbUrlResponseInfoGetBodyAsFileRef books held
  dsimp only
  split
  · refine ((Carries.create _ _).trans (.perm ?_)).congr and_self_iff
    exact List.perm_middle.symm
  · exact .refl _

theorem reduceOption_eraseIdx {fds : List (Option ℕ)} {i : ℕ} {fd : Option ℕ}
    (h : fds[i]? = some fd) :
    List.Perm fds.reduceOption (fd.toList ++ (fds.eraseIdx i).reduceOption) := by
  obtain ⟨hi,rfl⟩ := List.getElem?_eq_some_iff.mp h
  have hp : List.Perm fds.reduceOption (fds[i]::fds.eraseIdx i).reduceOption :=
    (List.getElem_cons_eraseIdx_perm hi).symm.filterMap id
  cases hfd : fds[i] with
  | none => simpa [hfd] using hp
  | some d => simpa [hfd] using hp

theorem mem_held_fileRef {s : State} {i d : ℕ} (h : s.fileRefs[i]? = some (some d)) :
    d ∈ held s :=
  List.mem_append_right _ ((reduceOption_eraseIdx h).mem_iff.mpr List.mem_cons_self)

theorem carries_queryFile (i : ℕ) (s : State) :
    Carries (books s) (books (ppbFlashFileFileRefQueryFile i s)) True := by
  unfold ppbFlashFileFileRefQueryFile
  split
  · rename_i d hd
    exact .use (mem_held_fileRef hd)
  · exact .refl _

theorem carries_fileRefDestroy (i : ℕ) (s : State) :
    Carries (books s) (books (ppbFileRefDestroy i s)) True := by
  unfold ppbFileRefDestroy
  split
  · rename_i d hd
    refine ((Carries.perm ?_).trans (.release s.log d _)).congr and_self_iff
    exact ((reduceOption_eraseIdx hd).append_left _).trans List.perm_middle
  · rename_i hd
    exact .perm ((reduceOption_eraseIdx hd).append_left _)
  · exact .refl _

/-- Open and OpenTarget are called only while the loader has no descriptor. -/
def OpensEmpty (s : State) : Action → Prop
  | .openTarget true _ _ => 0 < s.refCnt → s.fd = none
  | _ => True

instance (s : State) (a : Action) : Decidable (OpensEmpty s a) := by
  cases a <;> unfold OpensEmpty <;> split <;> infer_instance

theorem carries_openTarget (request temporary first : Bool) {s : State} (hs : 0 < s.refCnt) :
    Carries (books s) (books (ppbUrlLoaderOpenTarget request temporary first s))
      (OpensEmpty s (.openTarget request temporary first)) := by
  cases request with
  | false => exact .refl _
  | true =>
    have h := (carries_openTemporaryFile temporary s).congr (imp_iff_right hs).symm
    cases first with
    | true => exact h
    | false => exact h

theorem carries_followRedirect (temporary : Bool) (s : State) :
    Carries (books s) (books (ppbUrlLoaderFollowRedirect temporary s)) True := by
  refine ((carries_closeFd s).trans (carries_openTemporaryFile temporary (closeFd s))).congr ?_
  exact iff_true_intro ⟨trivial,fd_closeFd s⟩

theorem carries_nppDestroyStream (redirected : Bool) (s : State) :
    Carries (books s) (books (nppDestroyStream redirected s)) True := by
  cases redirected with
  | true => exact .refl _
  | false => exact carries_access_iterate s.readTasks s

/-! The life of the loader. -/

/-- What keeps a loader. -/
def counts (s : State) : ℕ × ℕ × ℕ × ℕ := (s.refCnt,s.references,s.tasks,s.responses)

/-- A response info keeps its loader, and a loader that was destroyed has no descriptor. -/
structure Counted (s : State) : Prop where
  count : s.refCnt = s.references + s.tasks + s.responses
  gone : s.refCnt = 0 → s.fd = none

theorem Counted.created : Counted created := ⟨rfl,fun _ => rfl⟩

theorem Counted.frame {s t : State} (h : Counted s) (hc : counts t = counts s)
    (hfd : s.refCnt = 0 → t.fd = s.fd) : Counted t := by
  simp only [counts,Prod.mk.injEq] at hc
  obtain ⟨hr,href,ht,hresp⟩ := hc
  refine ⟨?_,fun hz => ?_⟩
  · rw [hr,href,ht,hresp]
    exact h.count
  · rw [hr] at hz
    rw [hfd hz]
    exact h.gone hz

@[simp] theorem counts_closeFd (s : State) : counts (closeFd s) = counts s := by
  unfold closeFd
  split <;> rfl

@[simp] theorem counts_openTemporaryFile (temporary : Bool) (s : State) :
    counts (openTemporaryFile temporary s) = counts s := by
  cases temporary <;> rfl

@[simp] theorem counts_access (s : State) : counts (access s) = counts s := by
  unfold access
  split <;> rfl

@[simp] theorem counts_access_iterate (n : ℕ) (s : State) :
    counts (access^[n] s) = counts s := by
  induction n generalizing s with
  | zero => rfl
  | succ n ih => rw [Function.iterate_succ_apply,ih,counts_access]

/-- Dropping a reference that is counted. -/
theorem counted_unref {s : State} (hc : s.references + s.tasks + s.responses + 1 = s.refCnt) :
    Counted (unref s) := by
  unfold unref
  dsimp only
  split
  · have hcl := counts_closeFd { s with refCnt := s.refCnt-1, readTasks := 0 }
    simp only [counts,Prod.mk.injEq] at hcl
    obtain ⟨hr,href,ht,hresp⟩ := hcl
    refine ⟨?_,fun _ => fd_closeFd _⟩
    rw [hr,href,ht,hresp]
    omega
  · rename_i hz
    refine ⟨?_,fun h0 => absurd h0 hz⟩
    dsimp only
    omega

/-- One more open whose task has not run. -/
theorem counted_task {s t : State} (h : Counted s) (hc : counts t = counts s) :
    Counted { t with refCnt := t.refCnt+1, tasks := t.tasks+1 } := by
  simp only [counts,Prod.mk.injEq] at hc
  obtain ⟨hr,href,ht,hresp⟩ := hc
  refine ⟨?_,nofun⟩
  have := h.count
  dsimp only
  omega

theorem counted_openTarget (request temporary first : Bool) {s : State} (h : Counted s)
    (hs : s.refCnt ≠ 0) : Counted (ppbUrlLoaderOpenTarget request temporary first s) := by
  have hc := counts_openTemporaryFile temporary s
  cases request with
  | false => exact h
  | true =>
    cases first with
    | true => exact h.frame hc fun hz => absurd hz hs
    | false => exact counted_task h hc

theorem counts_readResponseBody (pending : Bool) (s : State) :
    counts (ppbUrlLoaderReadResponseBody pending s) = counts s := by
  unfold ppbUrlLoaderReadResponseBody
  dsimp only
  split
  · rfl
  · split
    · rfl
    · cases pending with
      | true => exact counts_access s
      | false => exact counts_access s

theorem counts_write (served : Bool) (s : State) : counts (nppWrite served s) = counts s := by
  have htwo := (counts_access (access s)).trans (counts_access s)
  unfold nppWrite
  dsimp only
  split
  · rfl
  · split
    · exact counts_access s
    · cases served with
      | true => exact htwo
      | false => exact htwo

theorem counts_destroyStream (redirected : Bool) (s : State) :
    counts (nppDestroyStream redirected s) = counts s := by
  cases redirected with
  | true => rfl
  | false => exact counts_access_iterate s.readTasks s

theorem counts_getBodyAsFileRef (duplicated : Bool) (s : State) :
    counts (ppbUrlResponseInfoGetBodyAsFileRef duplicated s) = counts s := by
  refine Eq.trans ?_ (counts_access s)
  unfold ppbUrlResponseInfoGetBodyAsFileRef
  dsimp only
  split <;> rfl

/-- Functions on the loader that keep what it counts, where it is found. -/
theorem counted_found {s : State} {f : State → State} (h : Counted s)
    (hc : counts (f s) = counts s) : Counted (if s.refCnt = 0 then s else f s) := by
  split
  · exact h
  · rename_i hz
    exact h.frame hc fun h0 => absurd h0 hz

theorem step_counted {s t : State} {a : Action} (h : Counted s) (hs : step s a = some t) :
    Counted t := by
  have hcount := h.count
  cases a with
  | openTarget request temporary first =>
    cases hs
    split
    · exact h
    · rename_i hz
      exact counted_openTarget request temporary first h hz
  | followRedirect temporary =>
    cases hs
    split
    · exact h
    · exact counted_task h
        ((counts_openTemporaryFile temporary (closeFd s)).trans (counts_closeFd s))
  | openEnds =>
    obtain ⟨_,hs⟩ := Option.ite_none_left_eq_some.mp hs
    cases hs
    exact counted_unref (by dsimp only; omega)
  | close =>
    cases hs
    exact counted_found h (counts_closeFd s)
  | getDownloadProgress =>
    cases hs
    exact counted_found h (counts_access s)
  | readResponseBody pending =>
    cases hs
    exact counted_found h (counts_readResponseBody pending s)
  | write served =>
    cases hs
    exact counted_found h (counts_write served s)
  | destroyStream redirected =>
    cases hs
    exact counted_found h (counts_destroyStream redirected s)
  | getResponseInfo =>
    cases hs
    split
    · exact h
    · exact ⟨by dsimp only; omega,nofun⟩
  | getBodyAsFileRef duplicated =>
    cases hs
    split
    · exact h
    · exact h.frame (counts_getBodyAsFileRef duplicated s) fun hz => by omega
  | addRef =>
    cases hs
    split
    · exact h
    · exact ⟨by dsimp only; omega,nofun⟩
  | release =>
    obtain ⟨_,hs⟩ := Option.ite_none_left_eq_some.mp hs
    cases hs
    exact counted_unref (by dsimp only; omega)
  | releaseResponse =>
    obtain ⟨_,hs⟩ := Option.ite_none_left_eq_some.mp hs
    cases hs
    exact counted_unref (by dsimp only; omega)
  | queryFile i =>
    cases hs
    unfold ppbFlashFileFileRefQueryFile
    split
    · exact h.frame rfl fun _ => rfl
    · exact h
  | releaseFileRef i =>
    cases hs
    unfold ppbFileRefDestroy
    split
    · exact h.frame rfl fun _ => rfl
    · exact h.frame rfl fun _ => rfl
    · exact h

/-- Each step keeps custody of the descriptors, and loses none exactly if it does not open
over one. -/
theorem step_carries {s t : State} {a : Action} (hs : step s a = some t) :
    Carries (books s) (books t) (OpensEmpty s a) := by
  have hfound : ∀ {f : State → State}, Carries (books s) (books (f s)) True →
      Carries (books s) (books (if s.refCnt = 0 then s else f s)) True := by
    intro f hf
    split
    · exact .refl _
    · exact hf
  cases a with
  | openTarget request temporary first =>
    cases hs
    split
    · rename_i hz
      refine (Carries.refl _).congr (iff_of_true trivial ?_)
      cases request with
      | false => trivial
      | true => exact fun hp => by omega
    · rename_i hz
      exact carries_openTarget request temporary first (Nat.pos_of_ne_zero hz)
  | followRedirect temporary =>
    cases hs
    exact hfound (carries_followRedirect temporary s)
  | openEnds =>
    obtain ⟨_,hs⟩ := Option.ite_none_left_eq_some.mp hs
    cases hs
    exact carries_unref { s with tasks := s.tasks-1 }
  | close =>
    cases hs
    exact hfound (carries_closeFd s)
  | getDownloadProgress =>
    cases hs
    exact hfound (carries_access s)
  | readResponseBody pending =>
    cases hs
    exact hfound (carries_readResponseBody pending s)
  | write served =>
    cases hs
    exact hfound (carries_write served s)
  | destroyStream redirected =>
    cases hs
    exact hfound (carries_nppDestroyStream redirected s)
  | getResponseInfo =>
    cases hs
    split <;> exact .refl _
  | getBodyAsFileRef duplicated =>
    cases hs
    split
    · exact .refl _
    · exact carries_getBodyAsFileRef duplicated s
  | addRef =>
    cases hs
    split <;> exact .refl _
  | release =>
    obtain ⟨_,hs⟩ := Option.ite_none_left_eq_some.mp hs
    cases hs
    exact carries_unref { s with references := s.references-1 }
  | releaseResponse =>
    obtain ⟨_,hs⟩ := Option.ite_none_left_eq_some.mp hs
    cases hs
    exact carries_unref { s with responses := s.responses-1 }
  | queryFile i =>
    cases hs
    exact carries_queryFile i s
  | releaseFileRef i =>
    cases hs
    exact carries_fileRefDestroy i s

/-- While there is a response info its loader is there. -/
theorem loader_found {s : State} (h : loaders.Reachable s) (hr : 0 < s.responses) :
    0 < s.refCnt := by
  have hc : Counted s := h.invariant Counted Counted.created fun _ _ _ h _ hs => step_counted h hs
  have := hc.count
  omega

/-- In a run that ends with all the resources destroyed each descriptor was closed once, and
none is used after it was closed, exactly if Open and OpenTarget are called only while the
loader has no descriptor. -/
theorem descriptors_closed_iff {ls : List Action} {u : State}
    (hr : loaders.exec created ls = some u) (hl : u.refCnt = 0) (hf : u.fileRefs = []) :
    ((∀ d, .create d ∈ u.log → u.log.count (.release d) = 1) ∧ Sound u.log) ↔
      loaders.EachFrom OpensEmpty created ls := by
  have hu := Machine.reachable_of_exec hr
  have hcounted : Counted u :=
    hu.invariant Counted Counted.created fun _ _ _ h _ hs => step_counted h hs
  have hcustody : Custody u.log (held u) :=
    hu.invariant (fun s => Custody s.log (held s)) Custody.nil
      fun _ _ _ h _ hs => (step_carries hs).custody h
  have hheld : held u = [] := by
    rw [held,hcounted.gone hl,hf]
    rfl
  have hfinal := Machine.final_iff_each (P := fun s => Complete s.log (held s))
    (fun s => Custody s.log (held s)) (fun _ _ _ h hs => (step_carries hs).custody h)
    (fun _ _ _ h hs => (step_carries hs).complete h) Custody.nil hr
  rw [and_iff_left hcustody.sound]
  refine Iff.trans ?_ (hfinal.trans (and_iff_right Complete.nil))
  rw [hheld]
  simp [Complete]

/-- A load that is redirected and read, and the body of which outlives the loader. -/
def redirected : List Action :=
  [.openTarget true true false,.openEnds,.followRedirect true,.openEnds,.write true,
    .getResponseInfo,.getBodyAsFileRef true,.close,.release,.releaseResponse,.queryFile 0,
    .releaseFileRef 0]

theorem redirected_closed : ∃ u, loaders.exec created redirected = some u ∧
    (∀ d, .create d ∈ u.log → u.log.count (.release d) = 1) ∧ Sound u.log := by
  obtain ⟨u,hr,hl,hf⟩ : ∃ u, loaders.exec created redirected = some u ∧ u.refCnt = 0 ∧
    u.fileRefs = [] := ⟨_,rfl,rfl,rfl⟩
  exact ⟨u,hr,(descriptors_closed_iff hr hl hf).mpr (by decide)⟩

/-- A second Open loses the file of the first. -/
def openedTwice : List Action :=
  [.openTarget true true false,.openEnds,.openTarget true true false,.openEnds,.release]

theorem openedTwice_leaks : ¬∀ (ls : List Action) (u : State),
    loaders.exec created ls = some u → u.refCnt = 0 → u.fileRefs = [] →
      (∀ d, .create d ∈ u.log → u.log.count (.release d) = 1) ∧ Sound u.log := by
  intro h
  have h0 := (h openedTwice _ rfl rfl rfl).1 0 (by decide)
  exact absurd h0 (by decide)

end UrlDescriptors
end FreshPlayer
