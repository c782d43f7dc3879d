import Mathlib.Data.List.AList
import Mathlib.Tactic.Common

/-! What the entries of a finite table hold, as one list. Reference counting counts
occurrences in it; the lemmas say how insertion and removal of an entry change it. -/
namespace FreshPlayer

variable {κ β γ : Type*}

def holdings (f : β → List γ) (t : AList fun _ : κ => β) : List γ :=
  t.entries.flatMap fun e => f e.2

@[simp] theorem holdings_empty (f : β → List γ) :
    holdings f (∅ : AList fun _ : κ => β) = [] := rfl

variable [DecidableEq κ]

theorem lookup_insert_cases {t : AList fun _ : κ => β} {k i : κ} {b c : β}
    (h : (t.insert k b).lookup i = some c) : (i = k ∧ c = b) ∨ (i ≠ k ∧ t.lookup i = some c) := by
  by_cases hik : i = k
  · subst hik
    rw [AList.lookup_insert] at h
    exact Or.inl ⟨rfl,(Option.some.inj h).symm⟩
  · rw [AList.lookup_insert_ne hik] at h
    exact Or.inr ⟨hik,h⟩

/-- Changing an entry that is there adds and removes none. -/
theorem isSome_lookup_insert {t : AList fun _ : κ => β} {k i : κ} {b c : β}
    (h : t.lookup k = some b) : ((t.insert k c).lookup i).isSome = (t.lookup i).isSome := by
  by_cases hik : i = k
  · subst hik
    rw [AList.lookup_insert,h]
    rfl
  · rw [AList.lookup_insert_ne hik]

theorem lookup_erase_cases {t : AList fun _ : κ => β} {k i : κ} {c : β}
    (h : (t.erase k).lookup i = some c) : i ≠ k ∧ t.lookup i = some c := by
  by_cases hik : i = k
  · subst hik
    simp at h
  · rw [AList.lookup_erase_ne hik] at h
    exact ⟨hik,h⟩

theorem entries_perm_of_lookup {t : AList fun _ : κ => β} {k : κ} {b : β}
    (h : t.lookup k = some b) : List.Perm t.entries (⟨k,b⟩::(t.erase k).entries) := by
  have hk : k ∈ t.entries.keys := AList.lookup_isSome.mp (by rw [h]; rfl)
  obtain ⟨c,l₁,l₂,_,hl,he⟩ := List.exists_of_kerase hk
  have hmem : ⟨k,c⟩ ∈ t.entries := by rw [hl]; simp
  have hc : t.lookup k = some c := List.mem_dlookup t.nodupKeys hmem
  cases Option.some.inj (h.symm.trans hc)
  have hkerase : (t.erase k).entries = l₁ ++ l₂ := he
  rw [hl,hkerase]
  exact List.perm_middle

theorem holdings_erase (f : β → List γ) {t : AList fun _ : κ => β} {k : κ} {b : β}
    (h : t.lookup k = some b) : List.Perm (holdings f t) (f b ++ holdings f (t.erase k)) :=
  (entries_perm_of_lookup h).flatMap_right _

theorem holdings_insert (f : β → List γ) (t : AList fun _ : κ => β) (k : κ) (b : β) :
    holdings f (t.insert k b) = f b ++ holdings f (t.erase k) := rfl

theorem holdings_insert_new (f : β → List γ) {t : AList fun _ : κ => β} {k : κ} (b : β)
    (h : k ∉ t) : holdings f (t.insert k b) = f b ++ holdings f t := by
  unfold holdings
  rw [AList.entries_insert_of_notMem h]
  rfl

/-- Replacing an entry exchanges what it holds. -/
theorem holdings_replace (f : β → List γ) {t : AList fun _ : κ => β} {k : κ} {b : β} (c : β)
    (h : t.lookup k = some b) :
    List.Perm (f b ++ holdings f (t.insert k c)) (f c ++ holdings f t) := by
  rw [holdings_insert]
  refine List.Perm.trans ?_ ((holdings_erase f h).symm.append_left (f c))
  rw [← List.append_assoc,← List.append_assoc]
  exact List.perm_append_comm.append_right _

theorem mem_holdings {f : β → List γ} {t : AList fun _ : κ => β} {x : γ} :
    x ∈ holdings f t ↔ ∃ k b, t.lookup k = some b ∧ x ∈ f b := by
  unfold holdings
  rw [List.mem_flatMap]
  constructor
  · rintro ⟨⟨k,b⟩,he,hx⟩
    exact ⟨k,b,List.mem_dlookup t.nodupKeys he,hx⟩
  · rintro ⟨k,b,hl,hx⟩
    exact ⟨⟨k,b⟩,List.of_mem_dlookup hl,hx⟩

end FreshPlayer
