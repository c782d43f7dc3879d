import Mathlib.Data.List.Dedup

/-! Regular machines with embedded actions, by derivatives. On a character the actions of
all alternatives that match so far run in the order in which the machine embeds them;
leaving actions also run at the end of the input. -/
namespace FreshPlayer
namespace Ragel

/-- A machine over named classes of characters. `entering` runs its action on the first
character, `leaving` on the first one after. -/
inductive Expr (K A : Type*)
  | eps
  | cls (k : K)
  | seq (r s : Expr K A)
  | alt (r s : Expr K A)
  | star (r : Expr K A)
  | entering (a : A) (r : Expr K A)
  | leaving (a : A) (r : Expr K A)
  deriving DecidableEq, Repr

namespace Expr

variable {K A : Type*}

def plus (r : Expr K A) : Expr K A := .seq r (.star r)

def opt (r : Expr K A) : Expr K A := .alt r .eps

/-- The actions in the order of their embedding. -/
def actions : Expr K A → List A
  | eps | cls _ => []
  | seq r s | alt r s => r.actions ++ s.actions
  | star r => r.actions
  | entering a r | leaving a r => r.actions ++ [a]

/-- What leaving a machine runs that has matched; passing one over also enters it. -/
def out : Expr K A → Option (List A)
  | eps | star _ => some []
  | cls _ => none
  | seq r s => match r.out, s.out with
    | some as, some bs => some (as ++ bs)
    | _, _ => none
  | alt r s => match r.out, s.out with
    | some as, some bs => some (as ++ bs)
    | some as, none => some as
    | none, o => o
  | entering a r => r.out.map (a::·)
  | leaving a r => r.out.map (· ++ [a])

/-- The alternatives after a character of the classes in `m`, each with its actions. -/
def delta (m : K → Bool) : Expr K A → List (List A × Expr K A)
  | eps => []
  | cls k => if m k then [([],eps)] else []
  | seq r s => (r.delta m).map (fun p => (p.1,seq p.2 s)) ++ match r.out with
    | some as => (s.delta m).map fun p => (as ++ p.1,p.2)
    | none => []
  | alt r s => r.delta m ++ s.delta m
  | star r => (r.delta m).map fun p => (p.1,seq p.2 (star r))
  | entering a r => (r.delta m).map fun p => (a::p.1,p.2)
  | leaving a r => (r.delta m).map fun p => (p.1,leaving a p.2)

end Expr

variable {K A : Type} {α κ σ D : Type*}

/-- Run actions at a position. -/
def fire (act : A → ℕ → σ → σ) (as : List A) (p : ℕ) (v : σ) : σ := as.foldl (fun v a => act a p v) v

section Run

variable [DecidableEq K] [DecidableEq A]

def successors (m : K → Bool) (S : List (Expr K A)) : List (Expr K A) :=
  ((S.flatMap (Expr.delta m)).map Prod.snd).dedup

def fired (order : List A) (m : K → Bool) (S : List (Expr K A)) : List A :=
  order.filter (· ∈ (S.flatMap (Expr.delta m)).flatMap Prod.fst)

def finals (order : List A) (S : List (Expr K A)) : List A :=
  order.filter (· ∈ S.flatMap fun r => r.out.getD [])

/-- Run from a set of alternatives, up to the end or to a character none of them has. -/
def run (order : List A) (mem : K → α → Bool) (act : A → ℕ → σ → σ) :
    List (Expr K A) → ℕ → List α → σ → σ
  | S, p, [], v => fire act (finals order S) p v
  | S, p, c::cs, v => match successors (mem · c) S with
    | [] => v
    | S'@(_::_) => run order mem act S' (p+1) cs (fire act (fired order (mem · c) S) p v)

/-- The machine run over a text. -/
def exec (r : Expr K A) (mem : K → α → Bool) (act : A → ℕ → σ → σ) (text : List α) (v : σ) : σ :=
  run r.actions mem act [r] 0 text v

end Run

/-- States for sets of alternatives, and their transitions on the kinds of characters. -/
structure Table (K A κ D : Type*) where
  alternatives : D → List (Expr K A)
  next : D → κ → D
  fired : D → κ → List A
  finals : D → List A

namespace Table

/-- The table is what the sets of alternatives do. -/
structure Correct [DecidableEq K] [DecidableEq A] (T : Table K A κ D) (order : List A) (mem : K → κ → Bool) : Prop where
  next : ∀ d k, successors (mem · k) (T.alternatives d) = T.alternatives (T.next d k)
  alive : ∀ d, T.alternatives d ≠ []
  fired : ∀ d k, Ragel.fired order (mem · k) (T.alternatives d) = T.fired d k
  finals : ∀ d, Ragel.finals order (T.alternatives d) = T.finals d

/-- Read characters by the table. -/
def walk (T : Table K A κ D) (kind : α → κ) (act : A → ℕ → σ → σ) :
    D → ℕ → List α → σ → D × σ
  | d, _, [], v => (d,v)
  | d, p, c::cs, v => T.walk kind act (T.next d (kind c)) (p+1) cs (fire act (T.fired d (kind c)) p v)

/-- Read characters to the end. -/
def run (T : Table K A κ D) (kind : α → κ) (act : A → ℕ → σ → σ) (d : D) (p : ℕ) (cs : List α)
    (v : σ) : σ :=
  fire act (T.finals (T.walk kind act d p cs v).1) (p+cs.length) (T.walk kind act d p cs v).2

variable {T : Table K A κ D} {kind : α → κ} {act : A → ℕ → σ → σ}

theorem run_nil (d : D) (p : ℕ) (v : σ) : T.run kind act d p [] v = fire act (T.finals d) p v := rfl

theorem run_cons (d : D) (p : ℕ) (c : α) (cs : List α) (v : σ) :
    T.run kind act d p (c::cs) v =
      T.run kind act (T.next d (kind c)) (p+1) cs (fire act (T.fired d (kind c)) p v) := by
  simp only [run,walk,List.length_cons]
  rw [Nat.add_assoc,Nat.add_comm 1]

theorem walk_append (d : D) (p : ℕ) (xs ys : List α) (v : σ) :
    T.walk kind act d p (xs ++ ys) v =
      T.walk kind act (T.walk kind act d p xs v).1 (p+xs.length) ys (T.walk kind act d p xs v).2 := by
  induction xs generalizing d p v with
  | nil => rfl
  | cons c xs ih =>
    rw [List.cons_append,walk,ih,walk,List.length_cons]
    rw [Nat.add_assoc,Nat.add_comm 1]

/-- Read the rest after a part. -/
theorem run_append (d : D) (p : ℕ) (xs ys : List α) (v : σ) :
    T.run kind act d p (xs ++ ys) v =
      T.run kind act (T.walk kind act d p xs v).1 (p+xs.length) ys (T.walk kind act d p xs v).2 := by
  simp only [run,walk_append,List.length_append,Nat.add_assoc]

/-- A state that the characters do not leave, and what their actions keep. -/
theorem walk_loop {d : D} {as : List A} (P : ℕ → σ → Prop) {cs : List α}
    (hnext : ∀ c ∈ cs, T.next d (kind c) = d) (hfired : ∀ c ∈ cs, T.fired d (kind c) = as)
    (hP : ∀ p v, P p v → P (p+1) (fire act as p v)) {p : ℕ} {v : σ} (h : P p v) :
    (T.walk kind act d p cs v).1 = d ∧ P (p+cs.length) (T.walk kind act d p cs v).2 := by
  induction cs generalizing p v with
  | nil => exact ⟨rfl,h⟩
  | cons c cs ih =>
    have hc := ih (fun x hx => hnext x (List.mem_cons_of_mem c hx))
      (fun x hx => hfired x (List.mem_cons_of_mem c hx)) (hP p v h)
    rw [walk,hnext c List.mem_cons_self,hfired c List.mem_cons_self,List.length_cons]
    rwa [Nat.add_assoc,Nat.add_comm 1] at hc

/-- Characters that neither leave the state nor run anything. -/
theorem walk_idle {d : D} {cs : List α} (hnext : ∀ c ∈ cs, T.next d (kind c) = d)
    (hfired : ∀ c ∈ cs, T.fired d (kind c) = []) (p : ℕ) (v : σ) :
    T.walk kind act d p cs v = (d,v) := by
  have hloop : (T.walk kind act d p cs v).1 = d ∧ (T.walk kind act d p cs v).2 = v :=
    T.walk_loop (fun _ v' => v' = v) hnext hfired (fun _ _ h => h) rfl
  exact Prod.ext hloop.1 hloop.2

/-- What every character keeps of the text read so far holds where the text ends. -/
theorem run_reads {I : D → List α → σ → Prop} (hstep : ∀ {d xs v}, I d xs v → ∀ c,
      I (T.next d (kind c)) (xs ++ [c]) (fire act (T.fired d (kind c)) xs.length v))
    {d : D} {xs : List α} {v : σ} (h : I d xs v) (cs : List α) : ∃ e w, I e (xs ++ cs) w ∧
      T.run kind act d xs.length cs v = fire act (T.finals e) (xs ++ cs).length w := by
  induction cs generalizing d xs v with
  | nil => exact ⟨d,v,by rwa [List.append_nil],by rw [List.append_nil,run_nil]⟩
  | cons c cs ih =>
    obtain ⟨e,w,hw,hrun⟩ := ih (hstep h c)
    rw [List.append_assoc,List.singleton_append] at hw hrun
    refine ⟨e,w,hw,?_⟩
    rw [run_cons,← hrun,List.length_append,List.length_singleton]

/-- Running the alternatives is running the table. -/
theorem Correct.run_eq [DecidableEq K] [DecidableEq A] {order : List A} {memKind : K → κ → Bool} (h : T.Correct order memKind)
    {mem : K → α → Bool} (hmem : ∀ c, (mem · c) = (memKind · (kind c))) (d : D) (p : ℕ)
    (cs : List α) (v : σ) :
    Ragel.run order mem act (T.alternatives d) p cs v = T.run kind act d p cs v := by
  induction cs generalizing d p v with
  | nil => rw [Ragel.run,h.finals,run_nil]
  | cons c cs ih =>
    have hnext : successors (mem · c) (T.alternatives d) = T.alternatives (T.next d (kind c)) := by
      rw [hmem]
      exact h.next d (kind c)
    have hfired : Ragel.fired order (mem · c) (T.alternatives d) = T.fired d (kind c) := by
      rw [hmem]
      exact h.fired d (kind c)
    rw [run_cons,← ih,Ragel.run,hnext,hfired]
    cases hs : T.alternatives (T.next d (kind c)) with
    | nil => exact absurd hs (h.alive _)
    | cons r rs => rfl

end Table

/-! Machines that stop where no alternative has a way on. Sets of alternatives with the same
members do the same, and several sets can share a state. -/

section Sets

variable {S S' : List (Expr K A)}

/-- The same alternatives. -/
def Alike (S S' : List (Expr K A)) : Prop := S ⊆ S' ∧ S' ⊆ S

theorem Alike.flatMap {β : Type*} (f : Expr K A → List β) (h : Alike S S') {x : β} :
    x ∈ S.flatMap f ↔ x ∈ S'.flatMap f := by
  simp only [List.mem_flatMap]
  exact ⟨fun ⟨r,hr,hx⟩ => ⟨r,h.1 hr,hx⟩,fun ⟨r,hr,hx⟩ => ⟨r,h.2 hr,hx⟩⟩

variable [DecidableEq A]

theorem Alike.fired (h : Alike S S') (order : List A) (m : K → Bool) :
    Ragel.fired order m S = Ragel.fired order m S' := by
  unfold Ragel.fired
  refine List.filter_congr fun a _ => ?_
  have hmem : a ∈ (S.flatMap (Expr.delta m)).flatMap Prod.fst ↔
      a ∈ (S'.flatMap (Expr.delta m)).flatMap Prod.fst := by
    simp only [List.mem_flatMap (f := Prod.fst)]
    exact exists_congr fun q => and_congr_left fun _ => h.flatMap _
  exact decide_eq_decide.mpr hmem

theorem Alike.finals (h : Alike S S') (order : List A) :
    Ragel.finals order S = Ragel.finals order S' := by
  unfold Ragel.finals
  exact List.filter_congr fun a _ => decide_eq_decide.mpr (h.flatMap _)

variable [DecidableEq K]

instance (S S' : List (Expr K A)) : Decidable (Alike S S') := inferInstanceAs (Decidable (_ ∧ _))

theorem mem_successors {m : K → Bool} {r : Expr K A} :
    r ∈ successors m S ↔ ∃ as, (as,r) ∈ S.flatMap (Expr.delta m) := by
  simp [successors]

theorem Alike.successors (h : Alike S S') (m : K → Bool) :
    Alike (Ragel.successors m S) (Ragel.successors m S') := by
  constructor
  · intro r hr
    obtain ⟨as,has⟩ := mem_successors.mp hr
    exact mem_successors.mpr ⟨as,(h.flatMap _).mp has⟩
  · intro r hr
    obtain ⟨as,has⟩ := mem_successors.mp hr
    exact mem_successors.mpr ⟨as,(h.flatMap _).mpr has⟩

end Sets

/-- States with their transitions, if there are any. -/
structure Chart (A κ D : Type*) where
  next : D → κ → Option D
  fired : D → κ → List A
  finals : D → List A

namespace Chart

/-- Read up to the end, or to a character where there is no way on. -/
def run (T : Chart A κ D) (kind : α → κ) (act : A → ℕ → σ → σ) : D → ℕ → List α → σ → σ
  | d, p, [], v => fire act (T.finals d) p v
  | d, p, c::cs, v => match T.next d (kind c) with
    | none => v
    | some e => T.run kind act e (p+1) cs (fire act (T.fired d (kind c)) p v)

/-- Read all of the characters. -/
def walk (T : Chart A κ D) (kind : α → κ) (act : A → ℕ → σ → σ) :
    D → ℕ → List α → σ → Option (D × σ)
  | d, _, [], v => some (d,v)
  | d, p, c::cs, v =>
    (T.next d (kind c)).bind fun e => T.walk kind act e (p+1) cs (fire act (T.fired d (kind c)) p v)

variable {T : Chart A κ D} {kind : α → κ} {act : A → ℕ → σ → σ}

theorem walk_cons {d e : D} {p : ℕ} {c : α} {cs : List α} {v : σ} (h : T.next d (kind c) = some e) :
    T.walk kind act d p (c::cs) v =
      T.walk kind act e (p+1) cs (fire act (T.fired d (kind c)) p v) := by
  rw [walk,h]
  rfl

theorem walk_append {d e : D} {p : ℕ} {xs : List α} {v w : σ}
    (h : T.walk kind act d p xs v = some (e,w)) (ys : List α) :
    T.walk kind act d p (xs ++ ys) v = T.walk kind act e (p+xs.length) ys w := by
  induction xs generalizing d p v with
  | nil =>
    cases h
    rfl
  | cons c xs ih =>
    obtain ⟨e',he,h⟩ := Option.bind_eq_some_iff.mp h
    rw [List.cons_append,walk_cons he,ih h,List.length_cons]
    rw [Nat.add_assoc,Nat.add_comm 1]

/-- Read the rest after a part. -/
theorem run_append {d e : D} {p : ℕ} {xs : List α} {v w : σ}
    (h : T.walk kind act d p xs v = some (e,w)) (ys : List α) :
    T.run kind act d p (xs ++ ys) v = T.run kind act e (p+xs.length) ys w := by
  induction xs generalizing d p v with
  | nil =>
    cases h
    rfl
  | cons c xs ih =>
    obtain ⟨e',he,h⟩ := Option.bind_eq_some_iff.mp h
    rw [List.cons_append,run,he]
    dsimp only
    rw [ih h,List.length_cons,Nat.add_assoc,Nat.add_comm 1]

theorem run_stuck {d : D} {p : ℕ} {c : α} {cs : List α} {v : σ} (h : T.next d (kind c) = none) :
    T.run kind act d p (c::cs) v = v := by
  rw [run,h]

/-- A state that the characters do not leave, and what their actions keep. -/
theorem walk_loop {d : D} (P : ℕ → σ → Prop) {cs : List α}
    (hnext : ∀ c ∈ cs, T.next d (kind c) = some d)
    (hP : ∀ c ∈ cs, ∀ p v, P p v → P (p+1) (fire act (T.fired d (kind c)) p v))
    {p : ℕ} {v : σ} (h : P p v) :
    ∃ w, T.walk kind act d p cs v = some (d,w) ∧ P (p+cs.length) w := by
  induction cs generalizing p v with
  | nil => exact ⟨v,rfl,h⟩
  | cons c cs ih =>
    have hc := ih (fun x hx => hnext x (List.mem_cons_of_mem c hx))
      (fun x hx => hP x (List.mem_cons_of_mem c hx)) (hP c List.mem_cons_self p v h)
    rw [walk_cons (hnext c List.mem_cons_self),List.length_cons,Nat.add_comm cs.length,← Nat.add_assoc]
    exact hc

/-- Characters that neither leave the state nor run anything. -/
theorem walk_idle {d : D} {cs : List α}
    (h : ∀ c ∈ cs, T.next d (kind c) = some d ∧ T.fired d (kind c) = []) (p : ℕ) (v : σ) :
    T.walk kind act d p cs v = some (d,v) := by
  have hloop : ∃ w, T.walk kind act d p cs v = some (d,w) ∧ w = v :=
    T.walk_loop (fun _ v' => v' = v) (fun c hc => (h c hc).1)
      (fun c hc _ _ hv => by rw [(h c hc).2]; exact hv) rfl
  obtain ⟨w,hw,rfl⟩ := hloop
  exact hw

variable [DecidableEq K] [DecidableEq A]

/-- The chart does what the alternatives do that `R` relates to its states. -/
def Simulates (T : Chart A κ D) (order : List A) (mem : K → κ → Bool)
    (R : List (Expr K A) → D → Prop) : Prop :=
  ∀ S d, R S d → Ragel.finals order S = T.finals d ∧ ∀ k, match T.next d k with
    | none => successors (mem · k) S = []
    | some e => successors (mem · k) S ≠ [] ∧ Ragel.fired order (mem · k) S = T.fired d k ∧
        R (successors (mem · k) S) e

/-- Running the alternatives is running the chart. -/
theorem Simulates.run_eq {order : List A} {memKind : K → κ → Bool}
    {R : List (Expr K A) → D → Prop} (h : T.Simulates order memKind R) {mem : K → α → Bool}
    (hmem : ∀ c, (mem · c) = (memKind · (kind c))) {S : List (Expr K A)} {d : D} (hR : R S d)
    (p : ℕ) (cs : List α) (v : σ) :
    Ragel.run order mem act S p cs v = T.run kind act d p cs v := by
  induction cs generalizing S d p v with
  | nil => rw [Ragel.run,(h S d hR).1,run]
  | cons c cs ih =>
    have hk := (h S d hR).2 (kind c)
    rw [Ragel.run,run,hmem]
    cases hn : T.next d (kind c) with
    | none =>
      simp only [hn] at hk
      rw [hk]
    | some e =>
      simp only [hn] at hk
      obtain ⟨hne,hfired,hnext⟩ := hk
      rw [hfired]
      cases hs : successors (memKind · (kind c)) S with
      | nil => exact absurd hs hne
      | cons r rs => exact ih (hs ▸ hnext) ..

/-- On a character a sample goes where the chart says, to a set that is like a sample. -/
def Follows (T : Chart A κ D) (order : List A) (mem : K → κ → Bool)
    (samples : List (List (Expr K A) × D)) (q : List (Expr K A) × D) (k : κ) : Prop :=
  match T.next q.2 k with
  | none => successors (mem · k) q.1 = []
  | some e => successors (mem · k) q.1 ≠ [] ∧ Ragel.fired order (mem · k) q.1 = T.fired q.2 k ∧
      ∃ q' ∈ samples, q'.2 = e ∧ Alike (successors (mem · k) q.1) q'.1

instance [DecidableEq D] (T : Chart A κ D) (order : List A) (mem : K → κ → Bool)
    (samples : List (List (Expr K A) × D)) (q : List (Expr K A) × D) (k : κ) :
    Decidable (T.Follows order mem samples q k) :=
  match h : T.next q.2 k with
  | none => decidable_of_iff (successors (mem · k) q.1 = []) (by simp only [Follows,h])
  | some e => decidable_of_iff (successors (mem · k) q.1 ≠ [] ∧
      Ragel.fired order (mem · k) q.1 = T.fired q.2 k ∧
      ∃ q' ∈ samples, q'.2 = e ∧ Alike (successors (mem · k) q.1) q'.1)
      (by simp only [Follows,h])

/-- A simulation from samples: sets that are like one of them. -/
theorem simulates_of_samples {order : List A} {mem : K → κ → Bool}
    (samples : List (List (Expr K A) × D))
    (hfinals : ∀ q ∈ samples, Ragel.finals order q.1 = T.finals q.2)
    (hnext : ∀ q ∈ samples, ∀ k, T.Follows order mem samples q k) :
    T.Simulates order mem fun S d => ∃ q ∈ samples, q.2 = d ∧ Alike S q.1 := by
  rintro S d ⟨q,hq,rfl,halike⟩
  refine ⟨(halike.finals order).trans (hfinals q hq),fun k => ?_⟩
  have hk := hnext q hq k
  have hsucc := halike.successors (mem · k)
  unfold Follows at hk
  cases hn : T.next q.2 k with
  | none =>
    simp only [hn] at hk ⊢
    exact List.subset_nil.mp (hk ▸ hsucc.1)
  | some e =>
    simp only [hn] at hk ⊢
    obtain ⟨hne,hfired,q',hq',he,halike'⟩ := hk
    refine ⟨fun hnil => hne (List.subset_nil.mp (hnil ▸ hsucc.2)),
      (halike.fired order _).trans hfired,q',hq',he,?_⟩
    exact ⟨List.Subset.trans hsucc.1 halike'.1,List.Subset.trans halike'.2 hsucc.2⟩

end Chart
end Ragel
end FreshPlayer
