import FreshPlayer.MessageLoopOrder
import Mathlib.Data.List.Sort

/-! A loop as a channel. Tasks that one thread posts with its clock moving on in between are
taken in the order they were posted and, where none is lost, none before all earlier ones. -/
namespace FreshPlayer
namespace MessageLoop

/-- Of two lists without repetition, the one that has with each of its elements what stands
before it in the other one, in that order, is a beginning of the other. -/
theorem prefix_of_pairs {α : Type*} {l m : List α} (hl : l.Nodup) (hm : m.Nodup) (hsub : m ⊆ l)
    (h : ∀ a b, List.Sublist [a,b] l → b ∈ m → List.Sublist [a,b] m) : m <+: l := by
  induction l generalizing m with
  | nil =>
    obtain rfl := List.subset_nil.mp hsub
    exact List.nil_prefix
  | cons x l ih =>
    obtain ⟨hx,htail⟩ := List.nodup_cons.mp hl
    cases m with
    | nil => exact List.nil_prefix
    | cons y m =>
      obtain ⟨hy,hm⟩ := List.nodup_cons.mp hm
      have hyx : y = x := by
        by_contra hne
        have hyl := (List.mem_cons.mp (hsub List.mem_cons_self)).resolve_left hne
        have hpair := h x y ((List.singleton_sublist.mpr hyl).cons_cons x) List.mem_cons_self
        obtain hpair | hpair := List.sublist_cons_iff.mp hpair
        · exact hy (hpair.subset (List.mem_cons_of_mem x (List.mem_singleton_self y)))
        · obtain ⟨r,hr,-⟩ := hpair
          exact hne (List.cons.inj hr).1.symm
      subst hyx
      refine (List.prefix_cons_inj y).mpr (ih htail hm (fun a ha => ?_) fun a b hab hb => ?_)
      · refine (List.mem_cons.mp (hsub (List.mem_cons_of_mem y ha))).resolve_left fun he => ?_
        exact hy (he ▸ ha)
      · have hne : a ≠ y := fun he => hx (he ▸ hab.subset List.mem_cons_self)
        have hpair := h a b (hab.cons y) (List.mem_cons_of_mem y hb)
        obtain hpair | ⟨r,hr,-⟩ := List.sublist_cons_iff.mp hpair
        · exact hpair
        · exact absurd (List.cons.inj hr).1 hne

theorem pair_sublist {α : Type*} {l : List α} {a b : α} (ha : a ∈ l) (hb : b ∈ l) (hne : a ≠ b) :
    List.Sublist [a,b] l ∨ List.Sublist [b,a] l := by
  induction l with
  | nil => cases ha
  | cons x l ih =>
    obtain rfl | hal := List.mem_cons.mp ha
    · have hbl := (List.mem_cons.mp hb).resolve_left (Ne.symm hne)
      exact .inl ((List.singleton_sublist.mpr hbl).cons_cons a)
    · obtain rfl | hbl := List.mem_cons.mp hb
      · exact .inr ((List.singleton_sublist.mpr hal).cons_cons b)
      · exact (ih hal hbl).imp (·.cons x) (·.cons x)

theorem not_both_sublists {α : Type*} {l : List α} {a b : α} (hn : l.Nodup)
    (hab : List.Sublist [a,b] l) : ¬List.Sublist [b,a] l := by
  induction l with
  | nil => cases hab
  | cons x l ih =>
    obtain ⟨hx,hn⟩ := List.nodup_cons.mp hn
    intro hba
    obtain hl | ⟨r,hr,hl⟩ := List.sublist_cons_iff.mp hab <;>
      obtain hm | ⟨q,hq,hm⟩ := List.sublist_cons_iff.mp hba
    · exact ih hn hl hm
    · cases hq
      exact hx (hl.subset (List.mem_cons_of_mem a (List.mem_singleton_self b)))
    · cases hr
      exact hx (hm.subset (List.mem_cons_of_mem b (List.mem_singleton_self a)))
    · cases hr
      cases hq
      exact hx (List.singleton_sublist.mp hl)

variable {L : Ledger}

theorem OrderInv.taken_subset (h : OrderInv L) (p : Task → Bool) :
    L.taken.filter p ⊆ L.accepted.filter p := fun x hx => by
  obtain ⟨hx,hpx⟩ := List.mem_filter.mp hx
  exact List.mem_filter.mpr ⟨h.books.mem_of_taken hx,hpx⟩

/-- Of the tasks that `p` picks out, posted one later than the other, those taken were taken in
this order, whatever became of the others. -/
theorem OrderInv.taken_sublist (h : OrderInv L) (p : Task → Bool)
    (hp : (L.accepted.filter p).Pairwise Precedes) :
    (L.taken.filter p).Sublist (L.accepted.filter p) := by
  have hnodup := h.books.taken_nodup.filter p
  have hsub := h.taken_subset p
  have hanti : Std.Antisymm fun a b : Task => a.when.instant < b.when.instant :=
    ⟨fun _ _ hab hba => absurd hab hba.asymm⟩
  refine List.sublist_of_subperm_of_pairwise (List.subperm_of_subset hnodup hsub)
    (List.pairwise_iff_forall_sublist.mpr fun {a b} hab => ?_) (hp.imp Precedes.lt)
  have ha := hab.subset List.mem_cons_self
  have hb := hab.subset (List.mem_cons_of_mem a (List.mem_singleton_self b))
  have hne : a ≠ b := fun he => by
    subst he
    exact (List.nodup_cons.mp (hnodup.sublist hab)).1 (List.mem_singleton_self a)
  obtain hacc | hacc := pair_sublist (hsub ha) (hsub hb) hne
  · exact (List.pairwise_iff_forall_sublist.mp hp hacc).lt
  · -- `b` was posted first, so it was taken first
    have hpre := List.pairwise_iff_forall_sublist.mp hp hacc
    obtain ⟨ha,hpa⟩ := List.mem_filter.mp ha
    obtain ⟨hb,hpb⟩ := List.mem_filter.mp hb
    have hba := (h.settled b a (hacc.trans List.filter_sublist) hpre ha).2 hb
    have hba : List.Sublist [b,a] (L.taken.filter p) := by simpa [hpa,hpb] using hba.filter p
    exact absurd hba (not_both_sublists hnodup hab)

/-- Where no task was lost, what stands before a task taken was taken before it. -/
theorem OrderInv.taken_before (h : OrderInv L) (hc : L.Conserved) {a b : Task}
    (hab : List.Sublist [a,b] L.accepted) (hpre : Precedes a b) (hb : b ∈ L.taken) :
    List.Sublist [a,b] L.taken := by
  obtain ⟨hint,htaken⟩ := h.settled a b hab hpre hb
  obtain ⟨moved,hmoved,hmem⟩ := h.moved
  have hnodup := h.books.nodup
  rw [hmoved] at hab hnodup
  have ham : a ∈ moved :=
    (sublist_front hnodup hab (hmem b (List.mem_append_right _ hb))).subset List.mem_cons_self
  have hasync : a ∉ L.asyncQ := fun ha => (List.disjoint_of_nodup_append hnodup) ham ha
  obtain ⟨hone,-⟩ := hc a (by rw [hmoved]; exact List.mem_append_left _ ham)
  rw [List.count_eq_zero_of_not_mem hasync,List.count_eq_zero_of_not_mem hint] at hone
  exact htaken (List.count_pos_iff.mp (by omega))

/-- Of the tasks that `p` picks out, posted one later than the other, the ones taken are the
first ones accepted. -/
theorem OrderInv.taken_prefix (h : OrderInv L) (hc : L.Conserved) (p : Task → Bool)
    (hp : (L.accepted.filter p).Pairwise Precedes) :
    L.taken.filter p <+: L.accepted.filter p := by
  refine prefix_of_pairs (h.books.nodup.filter p) (h.books.taken_nodup.filter p) (h.taken_subset p)
    fun a b hab hb => ?_
  have hpre := List.pairwise_iff_forall_sublist.mp hp hab
  have hpair := h.taken_before hc (hab.trans List.filter_sublist) hpre (List.mem_filter.mp hb).1
  have hpa := (List.mem_filter.mp (hab.subset List.mem_cons_self)).2
  have hpb := (List.mem_filter.mp hb).2
  simpa [hpa,hpb] using hpair.filter p

/-- When no such task is queued any more, all of them were taken. -/
theorem OrderInv.taken_all (h : OrderInv L) (hc : L.Conserved) (p : Task → Bool)
    (hp : (L.accepted.filter p).Pairwise Precedes)
    (hq : ∀ x ∈ L.asyncQ ++ L.intQ.keys, p x = false) :
    L.taken.filter p = L.accepted.filter p := by
  refine (h.taken_prefix hc p hp).eq_of_length_le ?_
  have hperm := ((h.books.conserved_iff.mp hc).filter p).length_eq
  have hnone : (L.asyncQ ++ L.intQ.keys).filter p = [] :=
    List.filter_eq_nil_iff.mpr fun x hx => by simp [hq x hx]
  rw [Ledger.held,List.filter_append,hnone,List.nil_append] at hperm
  exact hperm.ge

end MessageLoop
end FreshPlayer
