import FreshPlayer.Transition
import Mathlib.Data.Fintype.Defs
import Mathlib.Logic.Function.Basic

/-! Calls to a worker thread over a barrier for two. A client leaves its request where the
worker finds it and waits at the barrier; the worker serves what it finds and waits there
too. The barrier does not know who waits at it, so that two clients let each other go. -/
namespace FreshPlayer
namespace Rendezvous

/-- What the sides do to the state they share: `post` begins a call and `finish` ends it,
`serve` and `work` are steps of the worker, `act` is whatever a client does outside of calls.
Some calls begin with a look at the state, and what others do may come between it and `post`. -/
structure Service (σ τ ω ε α : Type*) where
  look : τ → Option (σ → Bool)
  post : σ → τ → Option σ
  pending : σ → Bool
  serve : σ → ω → σ
  work : σ → ε → σ
  act : σ → α → Option σ
  finish : σ → τ → σ

inductive Phase (τ : Type*)
  | looked (t : τ) | posted (t : τ) | waiting (t : τ) | released (t : τ)
  deriving DecidableEq

def Phase.task {τ : Type*} : Phase τ → τ
  | .looked t | .posted t | .waiting t | .released t => t

inductive Worker
  | free | served | waiting
  deriving DecidableEq

inductive Party (κ : Type*)
  | worker | client (c : κ)
  deriving DecidableEq

structure State (σ τ κ : Type*) where
  data : σ
  calls : κ → Option (Phase τ)
  worker : Worker
  barrier : Option (Party κ)

inductive Label (τ ω ε α κ : Type*)
  | call (c : κ) (t : τ)
  | proceed (c : κ)
  | arrive (c : κ)
  | ret (c : κ)
  | act (c : κ) (a : α)
  | serve (w : ω)
  | workerArrive
  | work (e : ε)

variable {σ τ ω ε α κ : Type*} [DecidableEq κ] (S : Service σ τ ω ε α)

/-- Whoever waits at the barrier goes on. -/
def letGo (s : State σ τ κ) : State σ τ κ :=
  match s.barrier with
  | none => s
  | some .worker => { s with worker := .free, barrier := none }
  | some (.client d) =>
    match s.calls d with
    | some (.waiting t) =>
      { s with calls := Function.update s.calls d (some (.released t)), barrier := none }
    | _ => { s with barrier := none }

def step (s : State σ τ κ) : Label τ ω ε α κ → Option (State σ τ κ)
  | .call c t =>
    if (s.calls c).isNone then
      match S.look t with
      | none => (S.post s.data t).map fun d =>
          { s with data := d, calls := Function.update s.calls c (some (.posted t)) }
      | some p =>
        if p s.data then some { s with calls := Function.update s.calls c (some (.looked t)) }
        else none
    else none
  | .proceed c =>
    match s.calls c with
    | some (.looked t) =>
      if (S.look t).isSome then
        (S.post s.data t).map fun d =>
          { s with data := d, calls := Function.update s.calls c (some (.posted t)) }
      else none
    | _ => none
  | .arrive c =>
    match s.calls c with
    | some (.posted t) =>
      if s.barrier.isNone then
        some { s with calls := Function.update s.calls c (some (.waiting t))
                      barrier := some (.client c) }
      else
        let u := letGo s
        some { u with calls := Function.update u.calls c (some (.released t)) }
    | _ => none
  | .ret c =>
    match s.calls c with
    | some (.released t) =>
      some { s with data := S.finish s.data t, calls := Function.update s.calls c none }
    | _ => none
  | .act c a =>
    if (s.calls c).isNone then (S.act s.data a).map fun d => { s with data := d } else none
  | .serve w =>
    if s.worker = .free ∧ S.pending s.data = true then
      some { s with data := S.serve s.data w, worker := .served }
    else none
  | .workerArrive =>
    if s.worker = .served then
      if s.barrier.isNone then some { s with worker := .waiting, barrier := some .worker }
      else some { letGo s with worker := .free }
    else none
  | .work e =>
    if s.worker = .free then some { s with data := S.work s.data e } else none

def start (d : σ) : State σ τ κ := ⟨d,fun _ => none,.free,none⟩

def machine (d : σ) : Machine (State σ τ κ) (Label τ ω ε α κ) := ⟨start d,step S⟩

@[simp] theorem letGo_data (s : State σ τ κ) : (letGo s).data = s.data := by
  unfold letGo
  split
  · rfl
  · rfl
  · split <;> rfl

/-- What a step does to the shared state. -/
theorem step_data {s t : State σ τ κ} {l : Label τ ω ε α κ} (h : step S s l = some t) :
    match l with
    | .call c u => s.calls c = none ∧ match S.look u with
      | none => S.post s.data u = some t.data
      | some p => p s.data = true ∧ t.data = s.data
    | .proceed c => ∃ u, s.calls c = some (.looked u) ∧ (S.look u).isSome = true ∧
        S.post s.data u = some t.data
    | .ret c => ∃ u, s.calls c = some (.released u) ∧ t.data = S.finish s.data u
    | .act c a => s.calls c = none ∧ S.act s.data a = some t.data
    | .serve w => S.pending s.data = true ∧ t.data = S.serve s.data w
    | .work e => s.worker = .free ∧ t.data = S.work s.data e
    | .arrive _ | .workerArrive => t.data = s.data := by
  cases l with
  | call c u =>
    simp only [step] at h
    split_ifs at h with hc
    refine ⟨Option.isNone_iff_eq_none.mp hc,?_⟩
    split at h
    · obtain ⟨d,hd,rfl⟩ := Option.map_eq_some_iff.mp h
      exact hd
    · split_ifs at h with hp
      cases h
      exact ⟨hp,rfl⟩
  | proceed c =>
    simp only [step] at h
    split at h
    · rename_i u hu
      split_ifs at h with hl
      obtain ⟨d,hd,rfl⟩ := Option.map_eq_some_iff.mp h
      exact ⟨u,hu,hl,hd⟩
    · cases h
  | arrive c =>
    simp only [step] at h
    split at h
    · split_ifs at h
      · cases h; rfl
      · cases h; exact letGo_data s
    · cases h
  | ret c =>
    simp only [step] at h
    split at h
    · rename_i u hu
      cases h
      exact ⟨u,hu,rfl⟩
    · cases h
  | act c a =>
    simp only [step] at h
    split_ifs at h with hc
    obtain ⟨d,hd,rfl⟩ := Option.map_eq_some_iff.mp h
    exact ⟨Option.isNone_iff_eq_none.mp hc,hd⟩
  | serve w =>
    simp only [step] at h
    split_ifs at h with hp
    cases h
    exact ⟨hp.2,rfl⟩
  | workerArrive =>
    simp only [step] at h
    split_ifs at h
    · cases h; rfl
    · cases h; exact letGo_data s
  | work e =>
    simp only [step] at h
    split_ifs at h with hw
    cases h
    exact ⟨hw,rfl⟩

/-- The call a client is in, wherever it is in it. -/
def State.task (s : State σ τ κ) (c : κ) : Option τ := (s.calls c).map Phase.task

theorem task_update {s u : State σ τ κ} {c : κ} {o : Option (Phase τ)}
    (h : u.calls = Function.update s.calls c o) :
    u.task = Function.update s.task c (o.map Phase.task) := by
  funext d
  rw [State.task,h]
  by_cases hd : d = c
  · subst hd
    simp
  · simp [Function.update_of_ne hd,State.task]

theorem letGo_task (s : State σ τ κ) : (letGo s).task = s.task := by
  unfold letGo
  split
  · rfl
  · rfl
  · rename_i d _
    split
    · rename_i t ht
      rw [task_update (s := s) rfl]
      exact Function.update_eq_self_iff.mpr (by rw [State.task,ht]; rfl)
    · rfl

/-- A step begins a call, ends one, or leaves them. -/
theorem step_task {s t : State σ τ κ} {l : Label τ ω ε α κ} (h : step S s l = some t) :
    match l with
    | .call c u => s.task c = none ∧ t.task = Function.update s.task c (some u)
    | .ret c => t.task = Function.update s.task c none
    | _ => t.task = s.task := by
  cases l with
  | call c u =>
    simp only [step] at h
    split_ifs at h with hc
    refine ⟨by rw [State.task,Option.isNone_iff_eq_none.mp hc]; rfl,?_⟩
    split at h
    · obtain ⟨d,hd,rfl⟩ := Option.map_eq_some_iff.mp h
      exact task_update (s := s) (o := some (.posted u)) rfl
    · split_ifs at h
      cases h
      exact task_update (s := s) (o := some (.looked u)) rfl
  | proceed c =>
    simp only [step] at h
    split at h
    · rename_i u hu
      split_ifs at h
      obtain ⟨d,-,rfl⟩ := Option.map_eq_some_iff.mp h
      refine (task_update (s := s) (o := some (.posted u)) rfl).trans ?_
      exact Function.update_eq_self_iff.mpr (by rw [State.task,hu]; rfl)
    · cases h
  | arrive c =>
    simp only [step] at h
    split at h
    · rename_i u hu
      have hsame : Function.update s.task c (some u) = s.task :=
        Function.update_eq_self_iff.mpr (by rw [State.task,hu]; rfl)
      split_ifs at h
      · cases h
        exact (task_update (s := s) rfl).trans hsame
      · cases h
        refine (task_update (s := letGo s) rfl).trans ?_
        rw [letGo_task]
        exact hsame
    · cases h
  | ret c =>
    simp only [step] at h
    split at h
    · cases h
      exact task_update (s := s) (o := none) rfl
    · cases h
  | act c a =>
    simp only [step] at h
    split_ifs at h
    obtain ⟨d,-,rfl⟩ := Option.map_eq_some_iff.mp h
    rfl
  | serve w =>
    simp only [step] at h
    split_ifs at h
    cases h
    rfl
  | workerArrive =>
    simp only [step] at h
    split_ifs at h
    · cases h; rfl
    · cases h; exact letGo_task s
  | work e =>
    simp only [step] at h
    split_ifs at h
    cases h
    rfl

theorem update_eq_looked {s u : State σ τ κ} {c d : κ} {o : Option (Phase τ)} {t : τ}
    (h : u.calls = Function.update s.calls d o) (ho : ∀ v, o ≠ some (.looked v))
    (hc : u.calls c = some (.looked t)) : s.calls c = some (.looked t) ∧ c ≠ d := by
  rw [h] at hc
  by_cases hd : c = d
  · subst hd
    rw [Function.update_self] at hc
    exact absurd hc (ho t)
  · rw [Function.update_of_ne hd] at hc
    exact ⟨hc,hd⟩

theorem letGo_looked {s : State σ τ κ} {c : κ} {t : τ}
    (h : (letGo s).calls c = some (.looked t)) : s.calls c = some (.looked t) := by
  unfold letGo at h
  split at h
  · exact h
  · exact h
  · split at h
    · exact (update_eq_looked (s := s) (u := { s with calls := _, barrier := none }) rfl
        (fun _ he => by cases he) h).1
    · exact h

/-- Who has looked had looked before and not gone on, or looks now. -/
theorem step_looked {s t : State σ τ κ} {l : Label τ ω ε α κ} {c : κ} {u : τ}
    (h : step S s l = some t) (hc : t.calls c = some (.looked u)) :
    s.calls c = some (.looked u) ∧ l ≠ .proceed c ∨
      l = .call c u ∧ ∃ p, S.look u = some p ∧ p s.data = true := by
  cases l with
  | call d v =>
    simp only [step] at h
    split_ifs at h
    split at h
    · obtain ⟨e,-,rfl⟩ := Option.map_eq_some_iff.mp h
      exact .inl ⟨(update_eq_looked (s := s) rfl (fun _ he => by cases he) hc).1,nofun⟩
    · rename_i p hp
      split_ifs at h with hsees
      cases h
      dsimp only at hc
      by_cases hd : c = d
      · subst hd
        rw [Function.update_self] at hc
        cases hc
        exact .inr ⟨rfl,p,hp,hsees⟩
      · rw [Function.update_of_ne hd] at hc
        exact .inl ⟨hc,nofun⟩
  | proceed d =>
    simp only [step] at h
    split at h
    · split_ifs at h
      obtain ⟨e,-,rfl⟩ := Option.map_eq_some_iff.mp h
      obtain ⟨hs,hd⟩ := update_eq_looked (s := s) rfl (fun _ he => by cases he) hc
      exact .inl ⟨hs,fun he => hd (Label.proceed.inj he).symm⟩
    · cases h
  | arrive d =>
    simp only [step] at h
    split at h
    · split_ifs at h
      · cases h
        exact .inl ⟨(update_eq_looked (s := s) rfl (fun _ he => by cases he) hc).1,nofun⟩
      · cases h
        exact .inl ⟨letGo_looked (update_eq_looked (s := letGo s) rfl
          (fun _ he => by cases he) hc).1,nofun⟩
    · cases h
  | ret d =>
    simp only [step] at h
    split at h
    · cases h
      exact .inl ⟨(update_eq_looked (s := s) rfl (fun _ he => by cases he) hc).1,nofun⟩
    · cases h
  | act d a =>
    simp only [step] at h
    split_ifs at h
    obtain ⟨e,-,rfl⟩ := Option.map_eq_some_iff.mp h
    exact .inl ⟨hc,nofun⟩
  | serve w =>
    simp only [step] at h
    split_ifs at h
    cases h
    exact .inl ⟨hc,nofun⟩
  | workerArrive =>
    simp only [step] at h
    split_ifs at h
    · cases h
      exact .inl ⟨hc,nofun⟩
    · cases h
      exact .inl ⟨letGo_looked hc,nofun⟩
  | work e =>
    simp only [step] at h
    split_ifs at h
    cases h
    exact .inl ⟨hc,nofun⟩

/-- A call begins when no other one is in progress. -/
def Serial (s : State σ τ κ) : Label τ ω ε α κ → Prop
  | .call _ _ => ∀ c, s.calls c = none
  | _ => True

instance [Fintype κ] [DecidableEq τ] (s : State σ τ κ) (l : Label τ ω ε α κ) :
    Decidable (Serial s l) := by
  unfold Serial
  split <;> infer_instance

/-- The call of a client that has only looked. -/
def State.looking (s : State σ τ κ) (c : κ) : Option τ :=
  match s.calls c with
  | some (.looked t) => some t
  | _ => none

/-- Rules for the calls that begin and for what clients do outside of calls. -/
def Within (P : σ → τ → Prop) (A : σ → α → Prop) (s : State σ τ κ) : Label τ ω ε α κ → Prop
  | .call _ t => P s.data t
  | .proceed c => ∀ t ∈ s.looking c, P s.data t
  | .act _ a => A s.data a
  | _ => True

omit [DecidableEq κ] in
theorem within_true (s : State σ τ κ) (l : Label τ ω ε α κ) :
    Within (fun _ _ => True) (fun _ _ => True) s l := by
  cases l with
  | proceed c => exact fun _ _ => trivial
  | _ => trivial

instance (P : σ → τ → Prop) (A : σ → α → Prop) [∀ d t, Decidable (P d t)]
    [∀ d a, Decidable (A d a)] (s : State σ τ κ) (l : Label τ ω ε α κ) :
    Decidable (Within P A s l) := by
  unfold Within
  split <;> infer_instance

/-- The only call in progress. -/
def only (c : κ) (p : Phase τ) : κ → Option (Phase τ) := Function.update (fun _ => none) c (some p)

@[simp] theorem only_self (c : κ) (p : Phase τ) : only c p c = some p := by simp [only]

theorem only_eq_some {c d : κ} {p q : Phase τ} (h : only c p d = some q) : d = c ∧ q = p := by
  by_cases hd : d = c
  · subst hd
    rw [only_self] at h
    exact ⟨rfl,(Option.some.inj h).symm⟩
  · simp [only,Function.update_of_ne hd] at h

@[simp] theorem update_only (c : κ) (p q : Phase τ) :
    Function.update (only c p) c (some q) = only c q := by simp [only]

@[simp] theorem update_only_none (c : κ) (p : Phase τ) :
    Function.update (only c p) c none = fun _ => none := by
  funext d
  by_cases hd : d = c
  · subst hd; simp
  · simp [only,Function.update_of_ne hd]

variable (κ) in
/-- What the state is without a request, with one, and once that one has been served. Where
there are several clients, one may act during the call of another. What a client saw when it
looked stays true. -/
structure Contract (P : σ → τ → Prop) (A : σ → α → Prop) (Clear : σ → Prop)
    (Holds Served : τ → σ → Prop) : Prop where
  post : ∀ d t e, Clear d → P d t → (∀ p, S.look t = some p → p d = true) →
    S.post d t = some e → Holds t e
  looked : ∀ t p, S.look t = some p → ∀ d, p d = true →
    (∀ e, p (S.work d e) = true) ∧ ∀ a e, S.act d a = some e → p e = true
  notPending : ∀ d, Clear d → S.pending d = false
  notPendingAgain : ∀ d t, Served t d → S.pending d = false
  serve : ∀ d t w, Holds t d → Served t (S.serve d w)
  finish : ∀ d t, Served t d → Clear (S.finish d t)
  work : ∀ d e, (Clear d → Clear (S.work d e)) ∧
    ∀ t, (Holds t d → Holds t (S.work d e)) ∧ (Served t d → Served t (S.work d e))
  act : ∀ d a e, A d a → S.act d a = some e → (Clear d → Clear e) ∧
    (Nontrivial κ → ∀ t, (Holds t d → Holds t e) ∧ (Served t d → Served t e))

variable {S} {P : σ → τ → Prop} {A : σ → α → Prop} {Clear : σ → Prop}
  {Holds Served : τ → σ → Prop}

/-- Where both sides are during a call, and whether it has been served. -/
inductive Handshake (c : κ) (t : τ) : Phase τ → Worker → Option (Party κ) → Bool → Prop
  | posted : Handshake c t (.posted t) .free none false
  | waiting : Handshake c t (.waiting t) .free (some (.client c)) false
  | served : Handshake c t (.posted t) .served none true
  | servedWaiting : Handshake c t (.waiting t) .served (some (.client c)) true
  | workerWaits : Handshake c t (.posted t) .waiting (some .worker) true
  | released : Handshake c t (.released t) .free none true

variable (S) in
/-- No call is in progress, or one is, of which the client may only have looked yet. -/
inductive Stage (Clear : σ → Prop) (Holds Served : τ → σ → Prop) (s : State σ τ κ) : Prop
  | idle (data : Clear s.data) (calls : s.calls = fun _ => none) (worker : s.worker = .free)
      (barrier : s.barrier = none)
  | looking (c : κ) (t : τ) (p : σ → Bool) (data : Clear s.data) (look : S.look t = some p)
      (holds : p s.data = true) (calls : s.calls = only c (.looked t)) (worker : s.worker = .free)
      (barrier : s.barrier = none)
  | inCall (c : κ) (t : τ) (p : Phase τ) (done : Bool)
      (data : if done then Served t s.data else Holds t s.data) (calls : s.calls = only c p)
      (hand : Handshake c t p s.worker s.barrier done)

/-- Between calls nothing is asked of the worker. -/
theorem Stage.clear {s : State σ τ κ} (h : Stage S Clear Holds Served s)
    (hc : ∀ c, s.calls c = none) : Clear s.data ∧ s.worker = .free ∧ s.barrier = none := by
  cases h with
  | idle data _ worker barrier => exact ⟨data,worker,barrier⟩
  | looking _ _ _ data _ _ _ worker barrier => exact ⟨data,worker,barrier⟩
  | inCall c t p _ _ calls _ =>
    have hcall := hc c
    rw [calls,only_self] at hcall
    cases hcall

/-- A client that has looked finds the state without a request, and what it saw is still true. -/
theorem Stage.looked {s : State σ τ κ} (h : Stage S Clear Holds Served s) {c : κ} {t : τ}
    (hc : s.calls c = some (.looked t)) :
    Clear s.data ∧ (∀ p, S.look t = some p → p s.data = true) ∧
    s.calls = only c (.looked t) ∧ s.worker = .free ∧ s.barrier = none := by
  cases h with
  | idle _ calls _ _ => simp [calls] at hc
  | looking d u p data look holds calls worker barrier =>
    rw [calls] at hc
    obtain ⟨rfl,hu⟩ := only_eq_some hc
    cases hu
    refine ⟨data,fun q hq => ?_,calls,worker,barrier⟩
    rw [hq] at look
    cases look
    exact holds
  | inCall d u p done data calls hand =>
    rw [calls] at hc
    obtain ⟨rfl,rfl⟩ := only_eq_some hc
    cases hand

/-- A client that has been let go has been served. -/
theorem Stage.served {s : State σ τ κ} (h : Stage S Clear Holds Served s) {c : κ} {t : τ}
    (hc : s.calls c = some (.released t)) :
    Served t s.data ∧ s.calls = only c (.released t) ∧ s.worker = .free ∧ s.barrier = none := by
  cases h with
  | idle _ calls _ _ => simp [calls] at hc
  | looking d u p _ _ _ calls _ _ =>
    rw [calls] at hc
    cases (only_eq_some hc).2
  | inCall d u p done data calls hand =>
    rw [calls] at hc
    obtain ⟨rfl,rfl⟩ := only_eq_some hc
    obtain ⟨_,_,worker,barrier⟩ := s
    cases hand
    exact ⟨data,calls,rfl,rfl⟩

/-- The state changes, the call stays where it is. -/
theorem Stage.data {s : State σ τ κ} (h : Stage S Clear Holds Served s) {d : σ}
    (hc : Clear s.data → Clear d)
    (hl : ∀ t p, S.look t = some p → p s.data = true → p d = true)
    (ht : ∀ c, (s.calls c).isSome → ∀ t, (Holds t s.data → Holds t d) ∧
      (Served t s.data → Served t d)) :
    Stage S Clear Holds Served { s with data := d } := by
  cases h with
  | idle data calls worker barrier => exact .idle (hc data) calls worker barrier
  | looking c t p data look holds calls worker barrier =>
    exact .looking c t p (hc data) look (hl t p look holds) calls worker barrier
  | inCall c t p done data calls hand =>
    have ht := ht c (by rw [calls,only_self]; rfl) t
    refine .inCall c t p done ?_ calls hand
    cases done with
    | false => exact ht.1 data
    | true => exact ht.2 data

theorem Stage.arrive {s : State σ τ κ} (h : Stage S Clear Holds Served s) {c : κ} {t : τ}
    (hc : s.calls c = some (.posted t)) :
    (s.barrier = none → Stage S Clear Holds Served
      { s with calls := Function.update s.calls c (some (.waiting t)),
               barrier := some (.client c) }) ∧
    (s.barrier ≠ none → Stage S Clear Holds Served
      { letGo s with calls := Function.update (letGo s).calls c (some (.released t)) }) := by
  cases h with
  | idle _ calls _ _ => simp [calls] at hc
  | looking d u p _ _ _ calls _ _ =>
    rw [calls] at hc
    cases (only_eq_some hc).2
  | inCall d u p done data calls hand =>
    rw [calls] at hc
    obtain ⟨rfl,rfl⟩ := only_eq_some hc
    obtain ⟨_,cs,worker,barrier⟩ := s
    obtain rfl : cs = only c _ := calls
    cases hand with
    | posted =>
      exact ⟨fun _ => .inCall c t _ false data (update_only ..) .waiting,fun h => absurd rfl h⟩
    | served =>
      exact ⟨fun _ => .inCall c t _ true data (update_only ..) .servedWaiting,fun h => absurd rfl h⟩
    | workerWaits =>
      exact ⟨fun h => (by cases h),fun _ => .inCall c t _ true data (update_only ..) .released⟩

theorem Stage.workerArrive {s : State σ τ κ} (h : Stage S Clear Holds Served s)
    (hw : s.worker = .served) :
    (s.barrier = none → Stage S Clear Holds Served
      { s with worker := .waiting, barrier := some .worker }) ∧
    (s.barrier ≠ none → Stage S Clear Holds Served { letGo s with worker := .free }) := by
  cases h with
  | idle _ _ worker _ => rw [hw] at worker; cases worker
  | looking _ _ _ _ _ _ _ worker _ => rw [hw] at worker; cases worker
  | inCall d u p done data calls hand =>
    obtain ⟨_,cs,worker,barrier⟩ := s
    obtain rfl : cs = only d _ := calls
    cases hw
    cases hand with
    | served =>
      exact ⟨fun _ => .inCall d u _ true data rfl .workerWaits,fun h => absurd rfl h⟩
    | servedWaiting =>
      refine ⟨fun h => (by cases h),fun _ => ?_⟩
      simp only [letGo,only_self,update_only]
      exact .inCall d u _ true data rfl .released

/-- One step of a run without overlapping calls. -/
theorem Stage.step (C : Contract κ S P A Clear Holds Served) {s t : State σ τ κ}
    {l : Label τ ω ε α κ} (h : Stage S Clear Holds Served s) (hg : Serial s l)
    (hw : Within P A s l) (hs : step S s l = some t) : Stage S Clear Holds Served t := by
  cases l with
  | call c t =>
    obtain ⟨hdata,hworker,hbarrier⟩ := h.clear hg
    simp only [Rendezvous.step] at hs
    split_ifs at hs
    split at hs
    · rename_i hlook
      obtain ⟨d,hd,rfl⟩ := Option.map_eq_some_iff.mp hs
      have hholds := C.post _ _ _ hdata hw (fun p hp => by rw [hlook] at hp; cases hp) hd
      refine .inCall c t _ false hholds (by rw [funext hg]; rfl) ?_
      dsimp only
      rw [hworker,hbarrier]
      exact .posted
    · rename_i p hlook
      split_ifs at hs with hp
      cases hs
      exact .looking c t p hdata hlook hp (by rw [funext hg]; rfl) hworker hbarrier
  | proceed c =>
    simp only [Rendezvous.step] at hs
    split at hs
    · rename_i t hc
      split_ifs at hs
      obtain ⟨d,hd,rfl⟩ := Option.map_eq_some_iff.mp hs
      obtain ⟨hdata,hlooked,hcalls,hworker,hbarrier⟩ := h.looked hc
      have hmay : P s.data t := hw t (by rw [State.looking,hc]; rfl)
      refine .inCall c t _ false (C.post _ _ _ hdata hmay hlooked hd)
        (by rw [hcalls,update_only]) ?_
      dsimp only
      rw [hworker,hbarrier]
      exact .posted
    · cases hs
  | arrive c =>
    simp only [Rendezvous.step] at hs
    split at hs
    · rename_i t hc
      split_ifs at hs with hb
      · cases hs
        exact (h.arrive hc).1 (Option.isNone_iff_eq_none.mp hb)
      · cases hs
        exact (h.arrive hc).2 fun hn => hb (Option.isNone_iff_eq_none.mpr hn)
    · cases hs
  | ret c =>
    simp only [Rendezvous.step] at hs
    split at hs
    · rename_i t hc
      cases hs
      obtain ⟨hdata,hcalls,hw,hb⟩ := h.served hc
      exact .idle (C.finish _ _ hdata) (by rw [hcalls,update_only_none]) hw hb
    · cases hs
  | act c a =>
    simp only [Rendezvous.step] at hs
    split_ifs at hs with hc
    obtain ⟨d,hd,rfl⟩ := Option.map_eq_some_iff.mp hs
    refine h.data (C.act _ _ _ hw hd).1 (fun t p hp hd' => (C.looked t p hp _ hd').2 a d hd)
      fun c' hc' => (C.act _ _ _ hw hd).2 ⟨c',c,?_⟩
    rintro rfl
    rw [Option.isNone_iff_eq_none.mp hc] at hc'
    cases hc'
  | serve w =>
    simp only [Rendezvous.step] at hs
    split_ifs at hs with hw
    cases hs
    cases h with
    | idle data _ _ _ =>
      rw [C.notPending _ data] at hw
      cases hw.2
    | looking _ _ _ data _ _ _ _ _ =>
      rw [C.notPending _ data] at hw
      cases hw.2
    | inCall c t p done data calls hand =>
      obtain ⟨d,_,worker,barrier⟩ := s
      obtain ⟨hfree,hpending⟩ := hw
      cases hfree
      cases hand with
      | posted => exact .inCall c t _ true (C.serve _ _ _ data) calls .served
      | waiting => exact .inCall c t _ true (C.serve _ _ _ data) calls .servedWaiting
      | released =>
        rw [C.notPendingAgain _ _ data] at hpending
        cases hpending
  | workerArrive =>
    simp only [Rendezvous.step] at hs
    split_ifs at hs with hw hb
    · cases hs
      exact (h.workerArrive hw).1 (Option.isNone_iff_eq_none.mp hb)
    · cases hs
      exact (h.workerArrive hw).2 fun hn => hb (Option.isNone_iff_eq_none.mpr hn)
  | work e =>
    simp only [Rendezvous.step] at hs
    split_ifs at hs
    cases hs
    exact h.data (C.work _ _).1 (fun t p hp hd => (C.looked t p hp _ hd).1 e) fun _ _ =>
      (C.work _ _).2

/-- One client alone does not overlap its calls. -/
theorem serial_of_step [Subsingleton κ] {s t : State σ τ κ} {l : Label τ ω ε α κ}
    (h : step S s l = some t) : Serial s l := by
  cases l with
  | call c _ =>
    simp only [step] at h
    split_ifs at h with hc
    intro d
    rw [Subsingleton.elim d c]
    exact Option.isNone_iff_eq_none.mp hc
  | _ => trivial

/-- In a run without overlapping calls every call is served before it returns. -/
theorem stage_of_reachableVia (C : Contract κ S P A Clear Holds Served) {d : σ} (hd : Clear d)
    {guard : State σ τ κ → Label τ ω ε α κ → Prop}
    (hguard : ∀ {s t l}, guard s l → step S s l = some t → Serial s l ∧ Within P A s l)
    {s : State σ τ κ} (h : (machine S d).ReachableVia guard s) : Stage S Clear Holds Served s :=
  h.invariant (Stage S Clear Holds Served) (.idle hd rfl rfl rfl) fun _ _ _ hi hg ht =>
    hi.step C (hguard hg ht).1 (hguard hg ht).2 ht

end Rendezvous
end FreshPlayer
