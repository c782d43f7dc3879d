import Mathlib.Logic.Relation
import Mathlib.Tactic.Common

/-! Labelled transition systems with executable partial steps. A label carries
every choice of the environment, so a run is determined by its labels and a
concrete run can be evaluated. Invariants are proved once here by induction on
runs; clients only supply what one step preserves. -/
namespace FreshPlayer

structure Machine (σ ι : Type*) where
  start : σ
  step : σ → ι → Option σ

namespace Machine

variable {σ ι τ κ : Type*}

/-- Execute a list of labels from a given state; `none` when one of them is not enabled. -/
def exec (M : Machine σ ι) : σ → List ι → Option σ
  | s, [] => some s
  | s, l::ls => (M.step s l).bind fun t => exec M t ls

@[simp] theorem exec_nil (M : Machine σ ι) (s : σ) : M.exec s [] = some s := rfl

theorem exec_cons (M : Machine σ ι) (s : σ) (l : ι) (ls : List ι) :
    M.exec s (l::ls) = (M.step s l).bind fun t => M.exec t ls := rfl

theorem exec_append (M : Machine σ ι) (s : σ) (ls ks : List ι) :
    M.exec s (ls++ks) = (M.exec s ls).bind fun t => M.exec t ks := by
  induction ls generalizing s with
  | nil => rfl
  | cons l ls ih =>
    rw [List.cons_append,exec_cons,exec_cons,Option.bind_assoc]
    exact Option.bind_congr fun t _ => ih t

/-- States reached by runs all of whose steps meet the guard. -/
inductive ReachableVia (M : Machine σ ι) (guard : σ → ι → Prop) : σ → Prop
  | start : ReachableVia M guard M.start
  | step {s t : σ} {l : ι} : ReachableVia M guard s → guard s l → M.step s l = some t →
      ReachableVia M guard t

abbrev Reachable (M : Machine σ ι) : σ → Prop := M.ReachableVia fun _ _ => True

/-- A property of the start kept by every guarded step holds in every state
that a guarded run reaches. -/
theorem ReachableVia.invariant {M : Machine σ ι} {guard : σ → ι → Prop} (I : σ → Prop)
    (h0 : I M.start)
    (hs : ∀ s l t, I s → guard s l → M.step s l = some t → I t)
    {s : σ} (h : M.ReachableVia guard s) : I s := by
  induction h with
  | start => exact h0
  | step _ hg ht ih => exact hs _ _ _ ih hg ht

theorem ReachableVia.reachable {M : Machine σ ι} {guard : σ → ι → Prop} {s : σ}
    (h : M.ReachableVia guard s) : M.Reachable s :=
  h.invariant M.Reachable .start fun _ _ _ hi _ ht => .step hi trivial ht

theorem Reachable.exec {M : Machine σ ι} {s t : σ} {ls : List ι} (h : M.Reachable s)
    (hr : M.exec s ls = some t) : M.Reachable t := by
  induction ls generalizing s with
  | nil => exact (Option.some.inj hr) ▸ h
  | cons l ls ih =>
    obtain ⟨u,hu,ht⟩ := Option.bind_eq_some_iff.mp hr
    exact ih (.step h trivial hu) ht

theorem reachable_of_exec {M : Machine σ ι} {t : σ} {ls : List ι}
    (hr : M.exec M.start ls = some t) : M.Reachable t :=
  Reachable.exec .start hr

/-- Every state a run visits, the first and the last included, satisfies `P`. -/
def AlwaysFrom (M : Machine σ ι) (P : σ → Prop) : σ → List ι → Prop
  | s, [] => P s
  | s, l::ls => P s ∧ ∀ t, M.step s l = some t → AlwaysFrom M P t ls

/-- Every step of a run meets the guard in the state it starts from. -/
def EachFrom (M : Machine σ ι) (guard : σ → ι → Prop) : σ → List ι → Prop
  | _, [] => True
  | s, l::ls => guard s l ∧ ∀ t, M.step s l = some t → EachFrom M guard t ls

/-- What is asked of the state after a step is decided there. -/
def decidableAfter (M : Machine σ ι) {P : σ → Prop} (s : σ) (l : ι) (dec : ∀ t, Decidable (P t)) :
    Decidable (∀ t, M.step s l = some t → P t) :=
  match M.step s l with
  | none => .isTrue fun _ h => nomatch h
  | some t => @decidable_of_iff _ (P t)
      ⟨fun h _ he => Option.some.inj he ▸ h,fun h => h t rfl⟩ (dec t)

instance decidableAlwaysFrom (M : Machine σ ι) (P : σ → Prop) [DecidablePred P] :
    ∀ s ls, Decidable (M.AlwaysFrom P s ls)
  | s, [] => inferInstanceAs (Decidable (P s))
  | s, l::ls =>
    have := M.decidableAfter s l fun t => decidableAlwaysFrom M P t ls
    inferInstanceAs (Decidable (_ ∧ _))

instance decidableEachFrom (M : Machine σ ι) (guard : σ → ι → Prop)
    [∀ s l, Decidable (guard s l)] : ∀ s ls, Decidable (M.EachFrom guard s ls)
  | _, [] => .isTrue trivial
  | s, l::ls =>
    have := M.decidableAfter s l fun t => decidableEachFrom M guard t ls
    inferInstanceAs (Decidable (_ ∧ _))

/-- A run whose steps meet the guard stays among the states guarded runs reach. -/
theorem reachableVia_of_exec {M : Machine σ ι} {guard : σ → ι → Prop} {s u : σ} (ls : List ι)
    (h : M.ReachableVia guard s) (hr : M.exec s ls = some u) (hg : M.EachFrom guard s ls) :
    M.ReachableVia guard u := by
  induction ls generalizing s with
  | nil => exact (Option.some.inj hr) ▸ h
  | cons l ls ih =>
    obtain ⟨t,ht,hu⟩ := Option.bind_eq_some_iff.mp hr
    exact ih (.step h hg.1 ht) hu (hg.2 t ht)

theorem eachFrom_append {M : Machine σ ι} {guard : σ → ι → Prop} {s : σ} {ls ks : List ι} :
    M.EachFrom guard s (ls++ks) ↔
      M.EachFrom guard s ls ∧ ∀ t, M.exec s ls = some t → M.EachFrom guard t ks := by
  induction ls generalizing s with
  | nil => exact ⟨fun h => ⟨trivial,fun t ht => Option.some.inj ht ▸ h⟩,fun h => h.2 s rfl⟩
  | cons l ls ih =>
    constructor
    · rintro ⟨hl,htail⟩
      refine ⟨⟨hl,fun t ht => (ih.mp (htail t ht)).1⟩,fun u hu => ?_⟩
      obtain ⟨t,ht,hu⟩ := Option.bind_eq_some_iff.mp hu
      exact (ih.mp (htail t ht)).2 u hu
    · rintro ⟨⟨hl,htail⟩,hk⟩
      refine ⟨hl,fun t ht => ih.mpr ⟨htail t ht,fun u hu => hk u ?_⟩⟩
      rw [exec_cons,ht]
      exact hu

/-- The last step of a run starts from the state the others lead to. -/
theorem EachFrom.last {M : Machine σ ι} {guard : σ → ι → Prop} {s t : σ} {ls : List ι} {l : ι}
    (h : M.EachFrom guard s (ls++[l])) (hr : M.exec s ls = some t) : guard t l :=
  ((eachFrom_append.mp h).2 t hr).1

/-- Steps on which the guard is silent. -/
theorem eachFrom_of_forall {M : Machine σ ι} {guard : σ → ι → Prop} {ls : List ι}
    (h : ∀ l ∈ ls, ∀ s, guard s l) (s : σ) : M.EachFrom guard s ls := by
  induction ls generalizing s with
  | nil => trivial
  | cons l ls ih =>
    exact ⟨h l List.mem_cons_self s,fun t _ => ih (fun k hk => h k (List.mem_cons_of_mem l hk)) t⟩

theorem AlwaysFrom.head {M : Machine σ ι} {P : σ → Prop} {s : σ} {ls : List ι}
    (h : M.AlwaysFrom P s ls) : P s := by
  cases ls with
  | nil => exact h
  | cons l ls => exact h.1

theorem AlwaysFrom.last {M : Machine σ ι} {P : σ → Prop} {s u : σ} {ls : List ι}
    (h : M.AlwaysFrom P s ls) (hr : M.exec s ls = some u) : P u := by
  induction ls generalizing s with
  | nil => exact (Option.some.inj hr) ▸ h
  | cons l ls ih =>
    obtain ⟨t,ht,hu⟩ := Option.bind_eq_some_iff.mp hr
    exact ih (h.2 t ht) hu

theorem AlwaysFrom.mono {M : Machine σ ι} {P Q : σ → Prop} (hPQ : ∀ s, P s → Q s) {s : σ}
    {ls : List ι} (h : M.AlwaysFrom P s ls) : M.AlwaysFrom Q s ls := by
  induction ls generalizing s with
  | nil => exact hPQ s h
  | cons l ls ih => exact ⟨hPQ s h.1,fun t ht => ih (h.2 t ht)⟩

/-- A property that every step keeps holds throughout a run. -/
theorem alwaysFrom_of_invariant {M : Machine σ ι} {P : σ → Prop}
    (hP : ∀ s l t, P s → M.step s l = some t → P t) {s : σ} (h : P s) (ls : List ι) :
    M.AlwaysFrom P s ls := by
  induction ls generalizing s with
  | nil => exact h
  | cons l ls ih => exact ⟨h,fun t ht => ih (hP s l t h ht)⟩

/-- A property that a step into `P` keeps holds wherever a run stays in `P`. -/
theorem AlwaysFrom.strengthen {M : Machine σ ι} {P Q : σ → Prop}
    (hQ : ∀ s l t, Q s → M.step s l = some t → P t → Q t) {s : σ} {ls : List ι} (hs : Q s)
    (h : M.AlwaysFrom P s ls) : M.AlwaysFrom Q s ls := by
  induction ls generalizing s with
  | nil => exact hs
  | cons l ls ih => exact ⟨hs,fun t ht => ih (hQ s l t hs ht (h.2 t ht).head) (h.2 t ht)⟩

/-- Guards that agree on the steps from states with an invariant agree on its runs. -/
theorem eachFrom_congr {M : Machine σ ι} {guard guard' : σ → ι → Prop} (I : σ → Prop)
    (hI : ∀ s l t, I s → M.step s l = some t → I t)
    (hg : ∀ s l t, I s → M.step s l = some t → (guard s l ↔ guard' s l))
    {s u : σ} {ls : List ι} (hi : I s) (hr : M.exec s ls = some u) :
    M.EachFrom guard s ls ↔ M.EachFrom guard' s ls := by
  induction ls generalizing s with
  | nil => exact Iff.rfl
  | cons l ls ih =>
    obtain ⟨t,ht,hu⟩ := Option.bind_eq_some_iff.mp hr
    refine and_congr (hg s l t hi ht) ⟨fun h t' ht' => ?_,fun h t' ht' => ?_⟩
    · cases Option.some.inj (ht.symm.trans ht')
      exact (ih (hI s l t hi ht) hu).mp (h t ht)
    · cases Option.some.inj (ht.symm.trans ht')
      exact (ih (hI s l t hi ht) hu).mpr (h t ht)

/-- When each step keeps `P` exactly if it meets the guard, a run keeps `P`
throughout exactly if all its steps meet the guard. -/
theorem always_iff_each {M : Machine σ ι} {P : σ → Prop} {guard : σ → ι → Prop} (I : σ → Prop)
    (hI : ∀ s l t, I s → M.step s l = some t → I t)
    (hs : ∀ s l t, I s → P s → M.step s l = some t → (P t ↔ guard s l))
    {s u : σ} {ls : List ι} (hi : I s) (hp : P s) (hr : M.exec s ls = some u) :
    M.AlwaysFrom P s ls ↔ M.EachFrom guard s ls := by
  induction ls generalizing s with
  | nil => exact ⟨fun _ => trivial,fun _ => hp⟩
  | cons l ls ih =>
    obtain ⟨t,ht,hu⟩ := Option.bind_eq_some_iff.mp hr
    have hit := hI s l t hi ht
    have hstep := hs s l t hi hp ht
    constructor
    · rintro ⟨_,htail⟩
      have hpt := (htail t ht).head
      refine ⟨hstep.mp hpt,fun t' ht' => ?_⟩
      cases Option.some.inj (ht.symm.trans ht')
      exact (ih hit hpt hu).mp (htail t ht)
    · rintro ⟨hg,htail⟩
      refine ⟨hp,fun t' ht' => ?_⟩
      cases Option.some.inj (ht.symm.trans ht')
      exact (ih hit (hstep.mpr hg) hu).mpr (htail t ht)

/-- When a step ends in `P` exactly if it starts from `P` and meets the guard, a run ends in
`P` exactly if it starts from `P` and all its steps meet the guard. -/
theorem final_iff_each {M : Machine σ ι} {P : σ → Prop} {guard : σ → ι → Prop} (I : σ → Prop)
    (hI : ∀ s l t, I s → M.step s l = some t → I t)
    (hs : ∀ s l t, I s → M.step s l = some t → (P t ↔ P s ∧ guard s l))
    {s u : σ} {ls : List ι} (hi : I s) (hr : M.exec s ls = some u) :
    P u ↔ P s ∧ M.EachFrom guard s ls := by
  induction ls generalizing s with
  | nil =>
    cases hr
    exact (and_iff_left trivial).symm
  | cons l ls ih =>
    obtain ⟨t,ht,hu⟩ := Option.bind_eq_some_iff.mp hr
    rw [ih (hI s l t hi ht) hu,hs s l t hi ht,and_assoc]
    refine and_congr_right fun _ => and_congr_right fun _ => ⟨fun h t' ht' => ?_,fun h => h t ht⟩
    cases Option.some.inj (ht.symm.trans ht')
    exact h

/-- A property that every guarded step keeps holds where a guarded run ends. -/
theorem invariant_of_exec {M : Machine σ ι} {guard : σ → ι → Prop} (I : σ → Prop)
    (hI : ∀ s l t, I s → guard s l → M.step s l = some t → I t) {s u : σ} {ls : List ι} (hi : I s)
    (hr : M.exec s ls = some u) (hg : M.EachFrom guard s ls) : I u := by
  induction ls generalizing s with
  | nil => exact (Option.some.inj hr) ▸ hi
  | cons l ls ih =>
    obtain ⟨t,ht,hu⟩ := Option.bind_eq_some_iff.mp hr
    exact ih (hI s l t hi hg.1 ht) hu (hg.2 t ht)

/-- What holds for a number that each step of one kind adds one to holds, at the end of a run,
for the number of these steps. -/
theorem counted_of_exec {M : Machine σ ι} {guard : σ → ι → Prop} (J : ℕ → σ → Prop) (own : ι → Bool)
    (hJ : ∀ n s l t, J n s → guard s l → M.step s l = some t → J (if own l then n+1 else n) t)
    {n : ℕ} {s u : σ} {ls : List ι} (h : J n s) (hr : M.exec s ls = some u)
    (hg : M.EachFrom guard s ls) : J (n + ls.countP own) u := by
  induction ls generalizing s n with
  | nil => exact (Option.some.inj hr) ▸ h
  | cons l ls ih =>
    obtain ⟨t,ht,hu⟩ := Option.bind_eq_some_iff.mp hr
    have hj := ih (hJ n s l t h hg.1 ht) hu (hg.2 t ht)
    cases hl : own l with
    | true =>
      rw [List.countP_cons_of_pos hl]
      rwa [hl,if_pos rfl,Nat.add_right_comm] at hj
    | false =>
      rw [List.countP_cons_of_neg (by simp [hl])]
      rwa [hl,if_neg Bool.false_ne_true] at hj

/-- Steps of one kind use up a rank that each of the others refills by `c` at most. -/
theorem countP_le_of_rank {M : Machine σ ι} {guard : σ → ι → Prop} {P : σ → Prop} (I : σ → Prop)
    (own : ι → Bool) (rank : σ → ℕ) (c : ℕ)
    (hI : ∀ s l t, I s → guard s l → M.step s l = some t → P t → I t)
    (hown : ∀ s l t, I s → guard s l → M.step s l = some t → P t → own l = true → rank t < rank s)
    (hrest : ∀ s l t, I s → guard s l → M.step s l = some t → P t → own l = false →
      rank t ≤ rank s + c)
    {s u : σ} {ls : List ι} (hi : I s) (hr : M.exec s ls = some u) (hg : M.EachFrom guard s ls)
    (hp : M.AlwaysFrom P s ls) :
    I u ∧ ls.countP own + rank u ≤ rank s + c * ls.countP fun l => !own l := by
  induction ls generalizing s with
  | nil =>
    cases hr
    exact ⟨hi,by simp⟩
  | cons l ls ih =>
    obtain ⟨t,ht,hu⟩ := Option.bind_eq_some_iff.mp hr
    have hpt := (hp.2 t ht).head
    obtain ⟨hiu,hle⟩ := ih (hI s l t hi hg.1 ht hpt) hu (hg.2 t ht) (hp.2 t ht)
    refine ⟨hiu,?_⟩
    cases hl : own l with
    | true =>
      have hlt := hown s l t hi hg.1 ht hpt hl
      rw [List.countP_cons_of_pos hl,List.countP_cons_of_neg (by simp [hl])]
      omega
    | false =>
      have hadd := hrest s l t hi hg.1 ht hpt hl
      rw [List.countP_cons_of_neg (by simp [hl]),List.countP_cons_of_pos (by simp [hl]),Nat.mul_succ]
      omega

end Machine
end FreshPlayer
