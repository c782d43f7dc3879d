import Mathlib.Data.List.Perm.Basic
import Mathlib.Tactic.Common

/-! Objects that have to be given back. A log says what was done to them, newest first, and an
object is known by the place in the log where it came into being, so one that takes the place
of another is not mistaken for it. -/
namespace FreshPlayer

inductive Deed
  | create (o : ℕ) | use (o : ℕ) | release (o : ℕ)
  deriving DecidableEq, Repr

namespace Deed

/-- What is used or given back was not given back before. -/
def Sound : List Deed → Prop
  | [] => True
  | .create _::log => Sound log
  | .use o::log => .release o ∉ log ∧ Sound log
  | .release o::log => .release o ∉ log ∧ Sound log

instance decidableSound : ∀ log, Decidable (Sound log)
  | [] => .isTrue trivial
  | .create _::log => decidableSound log
  | .use _::log => @instDecidableAnd _ _ _ (decidableSound log)
  | .release _::log => @instDecidableAnd _ _ _ (decidableSound log)

/-- Everything that came into being is held, or was given back once. -/
def Complete (log : List Deed) (held : List ℕ) : Prop :=
  ∀ o, .create o ∈ log → held.count o + log.count (.release o) = 1

/-- What is held came into being once and was not given back. -/
structure Custody (log : List Deed) (held : List ℕ) : Prop where
  created : ∀ o, held.count o + log.count (.release o) ≤ log.count (.create o)
  once : ∀ o, log.count (.create o) ≤ 1
  known : ∀ o, .create o ∈ log → o < log.length
  sound : Sound log

variable {log : List Deed} {held : List ℕ}

theorem Custody.nil : Custody [] [] := ⟨fun _ => Nat.le_refl _,fun _ => Nat.zero_le _,nofun,trivial⟩

theorem Complete.nil : Complete [] [] := nofun

theorem Custody.perm {held' : List ℕ} (h : Custody log held) (hp : List.Perm held held') :
    Custody log held' :=
  ⟨fun o => hp.count_eq o ▸ h.created o,h.once,h.known,h.sound⟩

theorem complete_perm {held' : List ℕ} (hp : List.Perm held held') :
    Complete log held ↔ Complete log held' := by
  simp only [Complete,hp.count_eq]

theorem Custody.not_released (h : Custody log held) {o : ℕ} (ho : o ∈ held) :
    .release o ∉ log := by
  have h1 := h.created o
  have h2 := h.once o
  have h3 := List.count_pos_iff.mpr ho
  rw [← List.count_eq_zero]
  omega

theorem Custody.mem_created (h : Custody log held) {o : ℕ} (ho : o ∈ held) : .create o ∈ log := by
  have h1 := h.created o
  have h3 := List.count_pos_iff.mpr ho
  rw [← List.count_pos_iff]
  omega

theorem Custody.create (h : Custody log held) :
    Custody (.create log.length::log) (log.length::held) := by
  have hnew : .create log.length ∉ log := fun hm => absurd (h.known _ hm) (Nat.lt_irrefl _)
  refine ⟨fun o => ?_,fun o => ?_,fun o ho => ?_,h.sound⟩
  · have h1 := h.created o
    by_cases he : log.length = o
    · subst he
      simp only [List.count_cons_self,List.count_cons,reduceCtorEq,beq_iff_eq,if_false]
      omega
    · simpa [List.count_cons,he] using h1
  · by_cases he : log.length = o
    · subst he
      exact Nat.le_of_eq (by rw [List.count_cons_self,List.count_eq_zero.mpr hnew])
    · simpa [List.count_cons,he] using h.once o
  · rw [List.length_cons]
    rcases List.mem_cons.mp ho with he | hm
    · cases he
      omega
    · have := h.known o hm
      omega

theorem Custody.complete_create (h : Custody log held) :
    Complete (.create log.length::log) (log.length::held) ↔ Complete log held := by
  have hnew : .create log.length ∉ log := fun hm => absurd (h.known _ hm) (Nat.lt_irrefl _)
  have hzero := h.created log.length
  rw [List.count_eq_zero.mpr hnew] at hzero
  constructor
  · intro hc o ho
    have he : log.length ≠ o := fun he => hnew (he ▸ ho)
    simpa [List.count_cons,he] using hc o (List.mem_cons_of_mem _ ho)
  · intro hc o ho
    by_cases he : log.length = o
    · subst he
      simp only [List.count_cons_self,List.count_cons,reduceCtorEq,beq_iff_eq,if_false]
      omega
    · have hm : .create o ∈ log := by simpa [Ne.symm he] using ho
      simpa [List.count_cons,he] using hc o hm

theorem Custody.use (h : Custody log held) {o : ℕ} (ho : o ∈ held) :
    Custody (.use o::log) held := by
  refine ⟨fun p => ?_,fun p => ?_,fun p hp => ?_,h.not_released ho,h.sound⟩
  · simpa [List.count_cons] using h.created p
  · simpa [List.count_cons] using h.once p
  · have := h.known p (by simpa using hp)
    rw [List.length_cons]
    omega

@[simp] theorem complete_use {o : ℕ} : Complete (.use o::log) held ↔ Complete log held := by
  simp [Complete]

theorem Custody.release {o : ℕ} (h : Custody log (o::held)) :
    Custody (.release o::log) held := by
  refine ⟨fun p => ?_,fun p => ?_,fun p hp => ?_,h.not_released List.mem_cons_self,h.sound⟩
  · have := h.created p
    simp only [List.count_cons,beq_iff_eq,Deed.release.injEq,reduceCtorEq,if_false] at this ⊢
    omega
  · simpa [List.count_cons] using h.once p
  · have := h.known p (by simpa using hp)
    rw [List.length_cons]
    omega

theorem complete_release {o : ℕ} :
    Complete (.release o::log) held ↔ Complete log (o::held) := by
  refine forall_congr' fun p => ?_
  simp only [List.mem_cons,reduceCtorEq,false_or,List.count_cons,beq_iff_eq,Deed.release.injEq]
  refine imp_congr_right fun _ => ?_
  omega

/-- Holding less. -/
theorem Custody.lose {lost : List ℕ} (h : Custody log (lost ++ held)) : Custody log held := by
  refine ⟨fun o => ?_,h.once,h.known,h.sound⟩
  have := h.created o
  rw [List.count_append] at this
  omega

theorem Custody.complete_lose {lost : List ℕ} (h : Custody log (lost ++ held)) :
    Complete log held ↔ Complete log (lost ++ held) ∧ lost = [] := by
  constructor
  · intro hc
    cases lost with
    | nil => exact ⟨hc,rfl⟩
    | cons o lost =>
      exfalso
      have h1 := h.created o
      have h2 := h.once o
      have h3 := hc o (h.mem_created List.mem_cons_self)
      rw [List.cons_append,List.count_cons_self,List.count_append] at h1
      omega
  · rintro ⟨hc,rfl⟩
    exact hc

/-- A step from one log and what is held then to another: custody is kept, and completeness
exactly if `g`. -/
structure Carries (b c : List Deed × List ℕ) (g : Prop) : Prop where
  custody : Custody b.1 b.2 → Custody c.1 c.2
  complete : Custody b.1 b.2 → (Complete c.1 c.2 ↔ Complete b.1 b.2 ∧ g)

theorem Carries.refl (b : List Deed × List ℕ) : Carries b b True :=
  ⟨id,fun _ => (and_iff_left trivial).symm⟩

theorem Carries.trans {b c d : List Deed × List ℕ} {g g' : Prop} (h : Carries b c g)
    (h' : Carries c d g') : Carries b d (g ∧ g') := by
  refine ⟨fun hb => h'.custody (h.custody hb),fun hb => ?_⟩
  rw [h'.complete (h.custody hb),h.complete hb,and_assoc]

theorem Carries.congr {b c : List Deed × List ℕ} {g g' : Prop} (h : Carries b c g)
    (hg : g ↔ g') : Carries b c g' := propext hg ▸ h

theorem Carries.perm {held' : List ℕ} (hp : List.Perm held held') :
    Carries (log,held) (log,held') True :=
  ⟨fun h => h.perm hp,fun _ => (complete_perm hp).symm.trans (and_iff_left trivial).symm⟩

theorem Carries.create (log : List Deed) (held : List ℕ) :
    Carries (log,held) (.create log.length::log,log.length::held) True :=
  ⟨Custody.create,fun h => h.complete_create.trans (and_iff_left trivial).symm⟩

theorem Carries.use {o : ℕ} (ho : o ∈ held) : Carries (log,held) (.use o::log,held) True :=
  ⟨fun h => h.use ho,fun _ => complete_use.trans (and_iff_left trivial).symm⟩

theorem Carries.release (log : List Deed) (o : ℕ) (held : List ℕ) :
    Carries (log,o::held) (.release o::log,held) True :=
  ⟨Custody.release,fun _ => complete_release.trans (and_iff_left trivial).symm⟩

theorem Carries.lose (log : List Deed) (lost held : List ℕ) :
    Carries (log,lost ++ held) (log,held) (lost = []) :=
  ⟨Custody.lose,Custody.complete_lose⟩

theorem Carries.useOption {o : Option ℕ} (ho : ∀ i ∈ o, i ∈ held) :
    Carries (log,held) (o.toList.map .use ++ log,held) True := by
  cases o with
  | none => exact .refl _
  | some i => exact .use (ho i rfl)

theorem Carries.releaseOption (log : List Deed) (o : Option ℕ) (held : List ℕ) :
    Carries (log,o.toList ++ held) (o.toList.map .release ++ log,held) True := by
  cases o with
  | none => exact .refl _
  | some i => exact .release log i held

end Deed
end FreshPlayer
