import Mathlib.Data.List.Perm.Basic
import Mathlib.Tactic.Common

/-! Balanced trees without values, seen through their in-order key list. Keys
are pairwise different for the comparison, inserting a key equal to a present
one keeps the old key, and removal takes out the key comparing equal. -/
namespace FreshPlayer

variable {α : Type*} {cmp : α → α → Ordering}

/-- Insertion into an ascending key list; an equal key is not replaced. -/
def insertKey (cmp : α → α → Ordering) (x : α) : List α → List α
  | [] => [x]
  | y::ys => match cmp x y with
    | .lt => x::y::ys
    | .eq => y::ys
    | .gt => y::insertKey cmp x ys

theorem mem_of_mem_insertKey {x z : α} {ys : List α} (h : z ∈ insertKey cmp x ys) :
    z = x ∨ z ∈ ys := by
  induction ys with
  | nil => exact Or.inl (List.mem_singleton.mp h)
  | cons y ys ih =>
    simp only [insertKey] at h
    split at h
    · exact List.mem_cons.mp h
    · exact Or.inr h
    · rcases List.mem_cons.mp h with rfl | h
      · exact Or.inr (by simp)
      · exact (ih h).imp_right (List.mem_cons_of_mem y)

theorem insertKey_sorted [Std.TransCmp cmp] (x : α) {ys : List α}
    (hs : ys.Pairwise fun a b => cmp a b = .lt) :
    (insertKey cmp x ys).Pairwise fun a b => cmp a b = .lt := by
  induction ys with
  | nil => exact List.pairwise_singleton _ _
  | cons y ys ih =>
    obtain ⟨hy,hys⟩ := List.pairwise_cons.mp hs
    simp only [insertKey]
    split
    · rename_i hlt
      refine List.pairwise_cons.mpr ⟨fun z hz => ?_,hs⟩
      rcases List.mem_cons.mp hz with rfl | hz
      · exact hlt
      · exact Std.TransCmp.lt_trans hlt (hy z hz)
    · exact hs
    · rename_i hgt
      refine List.pairwise_cons.mpr ⟨fun z hz => ?_,ih hys⟩
      rcases mem_of_mem_insertKey hz with rfl | hz
      · exact Std.OrientedCmp.lt_of_gt hgt
      · exact hy z hz

theorem insertKey_perm (x : α) {ys : List α} (h : ∀ y ∈ ys, cmp x y ≠ .eq) :
    List.Perm (insertKey cmp x ys) (x::ys) := by
  induction ys with
  | nil => exact .refl _
  | cons y ys ih =>
    simp only [insertKey]
    split
    · exact .refl _
    · rename_i heq; exact absurd heq (h y (by simp))
    · exact ((ih fun z hz => h z (by simp [hz])).cons y).trans (.swap x y ys)

theorem insertKey_of_mem [Std.TransCmp cmp] {x y : α} {ys : List α}
    (hs : ys.Pairwise fun a b => cmp a b = .lt) (hy : y ∈ ys) (he : cmp x y = .eq) :
    insertKey cmp x ys = ys := by
  induction ys with
  | nil => simp at hy
  | cons z zs ih =>
    obtain ⟨hz,hzs⟩ := List.pairwise_cons.mp hs
    simp only [insertKey]
    rcases List.mem_cons.mp hy with rfl | hy
    · simp [he]
    · have hgt : cmp x z = .gt :=
        Std.OrientedCmp.gt_of_lt (Std.TransCmp.lt_of_lt_of_eq (hz y hy) (Std.OrientedCmp.eq_symm he))
      simp [hgt,ih hzs hy]

/-- An ordered tree: its keys in order, strictly ascending for the comparison. -/
structure KeyTree (α : Type*) (cmp : α → α → Ordering) where
  keys : List α
  sorted : keys.Pairwise fun a b => cmp a b = .lt

namespace KeyTree

def empty : KeyTree α cmp := ⟨[],.nil⟩

def insert [Std.TransCmp cmp] (q : KeyTree α cmp) (x : α) : KeyTree α cmp :=
  ⟨insertKey cmp x q.keys,insertKey_sorted x q.sorted⟩

def remove (q : KeyTree α cmp) (x : α) : KeyTree α cmp :=
  ⟨q.keys.eraseP fun y => cmp x y == .eq,q.sorted.sublist List.eraseP_sublist⟩

/-- In-order traversal stopping at the first key that satisfies the predicate. -/
def first (q : KeyTree α cmp) (p : α → Bool) : Option α := q.keys.find? p

/-- Some present key compares equal, so an insertion would be dropped. -/
def Clashes (q : KeyTree α cmp) (x : α) : Prop := ∃ y ∈ q.keys, cmp x y = .eq

instance (q : KeyTree α cmp) (x : α) : Decidable (q.Clashes x) :=
  inferInstanceAs (Decidable (∃ y ∈ q.keys, cmp x y = .eq))

@[simp] theorem keys_empty : (empty : KeyTree α cmp).keys = [] := rfl

theorem insert_perm [Std.TransCmp cmp] {q : KeyTree α cmp} {x : α} (h : ¬q.Clashes x) :
    List.Perm (q.insert x).keys (x::q.keys) :=
  insertKey_perm x fun y hy he => h ⟨y,hy,he⟩

theorem insert_of_clash [Std.TransCmp cmp] {q : KeyTree α cmp} {x : α} (h : q.Clashes x) :
    (q.insert x).keys = q.keys := by
  obtain ⟨y,hy,he⟩ := h
  exact insertKey_of_mem q.sorted hy he

theorem first_mem {q : KeyTree α cmp} {p : α → Bool} {x : α} (h : q.first p = some x) :
    x ∈ q.keys := List.mem_of_find?_eq_some h

theorem first_holds {q : KeyTree α cmp} {p : α → Bool} {x : α} (h : q.first p = some x) :
    p x = true := List.find?_some h

/-- Of the keys that satisfy the predicate the traversal finds the least. -/
theorem first_least {q : KeyTree α cmp} {p : α → Bool} {x y : α} (h : q.first p = some x)
    (hy : y ∈ q.keys) (hp : p y = true) : y = x ∨ cmp x y = .lt := by
  obtain ⟨_,before,after,hkeys,hbefore⟩ := List.find?_eq_some_iff_append.mp h
  rw [hkeys] at hy
  rcases List.mem_append.mp hy with hy | hy
  · exact absurd hp (by simpa using hbefore y hy)
  · have hsorted := q.sorted
    rw [hkeys] at hsorted
    have hafter := (List.pairwise_cons.mp (List.pairwise_append.mp hsorted).2.1).1
    exact (List.mem_cons.mp hy).imp_right (hafter y)

/-- Removing a present key takes out that key itself and nothing else. -/
theorem remove_perm [Std.TransCmp cmp] {q : KeyTree α cmp} {x : α} (h : x ∈ q.keys) :
    List.Perm q.keys (x::(q.remove x).keys) := by
  obtain ⟨keys,hs⟩ := q
  simp only [remove] at h ⊢
  induction keys with
  | nil => simp at h
  | cons y ys ih =>
    obtain ⟨hy,hys⟩ := List.pairwise_cons.mp hs
    rcases List.mem_cons.mp h with rfl | h
    · simp [Std.ReflCmp.compare_self]
    · have hgt : cmp x y = .gt := Std.OrientedCmp.gt_of_lt (hy x h)
      simpa [List.eraseP_cons,hgt] using ((ih hys h).cons y).trans (.swap _ _ _)

end KeyTree
end FreshPlayer
