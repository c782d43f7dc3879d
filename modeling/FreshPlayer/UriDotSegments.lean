import FreshPlayer.Rfc3986
import FreshPlayer.UriParser

/-! The removal of dot segments in one pass over a buffer does what the RFC says. -/
namespace FreshPlayer
namespace UriParser

open Rfc3986

def delimiters : Delimiters UInt8 where
  colon := colon
  slash := slash
  quest := quest
  sharp := sharp
  dot := dot
  slash_ne_dot := by decide

theorem push_delimiters (stack : List Text) (s : Text) : push delimiters stack s =
    if s = [dot] then stack else if s = [dot,dot] then stack.dropLast else stack ++ [s] := rfl

theorem pushLast_delimiters (stack : List Text) (s : Text) : pushLast delimiters stack s =
    if s = [dot] ∨ s = [dot,dot] then push delimiters stack s ++ [[]] else stack ++ [s] := rfl

/-- The loop in a segment, of which it has read `s`. -/
def inSegment (stack : List Text) (s : Text) : DotState :=
  let dots := s.all (· = dot)
  ⟨s.reverse ++ slash::(render delimiters stack).reverse,if dots then s.length else 0,dots⟩

theorem dropSegment_reverse {s : Text} (hs : slash ∉ s) (dst : Text) :
    dropSegment (s.reverse ++ slash::dst) = dst := by
  have hall : ∀ c ∈ s.reverse, decide (c ≠ slash) = true := by
    intro c hc
    exact decide_eq_true fun heq => hs (by rw [← heq]; exact List.mem_reverse.mp hc)
  rw [dropSegment,List.dropWhile_append_of_pos hall,List.dropWhile_cons_of_neg (by simp)]
  rfl

theorem dropSegment_render {stack : List Text} (h : Segments delimiters stack) :
    dropSegment (render delimiters stack).reverse = (render delimiters stack.dropLast).reverse := by
  obtain rfl | ⟨stack,s,rfl⟩ := stack.eq_nil_or_concat
  · rfl
  · have hs : slash ∉ s := h s (by simp)
    have hreverse : (render delimiters (stack.concat s)).reverse =
        s.reverse ++ slash::(render delimiters stack).reverse := by simp [delimiters]
    rw [hreverse,dropSegment_reverse hs]
    simp

/-- The counter tells the two dot segments from all others. -/
theorem dotCnt_inSegment (stack : List Text) (s : Text) :
    ((inSegment stack s).dotCnt = 1 ↔ s = [dot]) ∧ ((inSegment stack s).dotCnt = 2 ↔ s = [dot,dot]) := by
  match s with
  | [] => simp [inSegment]
  | [c] => by_cases hc : c = dot <;> simp [inSegment,hc]
  | [c,e] => by_cases hc : c = dot <;> by_cases he : e = dot <;> simp [inSegment,hc,he]
  | c::e::f::s =>
    have hlen : s.length+1+1+1 ≠ 1 ∧ s.length+1+1+1 ≠ 2 := by omega
    by_cases hall : (c::e::f::s).all (· = dot) <;> simp [inSegment,hall]

theorem inSegment_dst (stack : List Text) (s : Text) :
    (inSegment stack s).dst = (render delimiters (stack ++ [s])).reverse := by
  simp [inSegment,delimiters]

/-- What the dots of a finished segment drop, the stack drops. -/
theorem dropSegments_inSegment {stack : List Text} (h : Segments delimiters stack) {s : Text}
    (hs : slash ∉ s) :
    dropSegments (inSegment stack s) = (render delimiters (push delimiters stack s)).reverse := by
  obtain ⟨hone,htwo⟩ := dotCnt_inSegment stack s
  have hdrop : dropSegment (inSegment stack s).dst = (render delimiters stack).reverse :=
    dropSegment_reverse hs _
  rw [dropSegments,push_delimiters]
  by_cases h₁ : s = [dot]
  · rw [hone.mpr h₁,if_pos (.inl rfl),if_pos h₁,← hdrop]
    rfl
  by_cases h₂ : s = [dot,dot]
  · rw [htwo.mpr h₂,if_pos (.inr rfl),if_neg h₁,if_pos h₂,← dropSegment_render h,← hdrop]
    rfl
  · rw [if_neg (by rw [hone,htwo]; exact not_or.mpr ⟨h₁,h₂⟩),if_neg h₁,if_neg h₂,inSegment_dst]

theorem dotStep_slash {stack : List Text} (h : Segments delimiters stack) {s : Text}
    (hs : slash ∉ s) :
    dotStep (inSegment stack s) slash = inSegment (push delimiters stack s) [] := by
  rw [dotStep,if_pos rfl,dropSegments_inSegment h hs]
  rfl

theorem dotStep_segment (stack : List Text) (s : Text) {c : UInt8} (hc : c ≠ slash) :
    dotStep (inSegment stack s) c = inSegment stack (s ++ [c]) := by
  have hne : dot ≠ slash := by decide
  by_cases hdot : c = dot <;> by_cases hall : s.all (· = dot) <;>
    simp [dotStep,inSegment,hc,hne,hdot,hall]

theorem foldl_segment (stack : List Text) {s : Text} (hs : slash ∉ s) (t : Text) :
    s.foldl dotStep (inSegment stack t) = inSegment stack (t ++ s) := by
  induction s generalizing t with
  | nil => simp
  | cons c s ih =>
    have hc : c ≠ slash := fun heq => hs (by simp [heq])
    rw [List.foldl_cons,dotStep_segment stack t hc,ih (List.not_mem_of_not_mem_cons hs)]
    simp

/-- The buffer at the end of the path. -/
def DotState.finish (s : DotState) : Text :=
  (if s.afterSlash ∧ (s.dotCnt = 1 ∨ s.dotCnt = 2) then slash::dropSegments s else s.dst).reverse

theorem finish_inSegment {stack : List Text} (h : Segments delimiters stack) {s : Text}
    (hs : slash ∉ s) :
    (inSegment stack s).finish = render delimiters (pushLast delimiters stack s) := by
  obtain ⟨hone,htwo⟩ := dotCnt_inSegment stack s
  have hdots : (inSegment stack s).afterSlash ∧ ((inSegment stack s).dotCnt = 1 ∨
      (inSegment stack s).dotCnt = 2) ↔ s = [dot] ∨ s = [dot,dot] := by
    rw [hone,htwo]
    refine and_iff_right_of_imp ?_
    rintro (rfl | rfl) <;> rfl
  rw [DotState.finish,pushLast_delimiters]
  by_cases hlast : s = [dot] ∨ s = [dot,dot]
  · rw [if_pos (hdots.mpr hlast),if_pos hlast,dropSegments_inSegment h hs]
    simp [delimiters]
  · rw [if_neg (fun hd => hlast (hdots.mp hd)),if_neg hlast,inSegment_dst,List.reverse_reverse]

/-- The loop over the rest of a path, from the segment it is in. -/
theorem foldl_render {stack : List Text} (h : Segments delimiters stack) {s : Text}
    (hs : slash ∉ s) {segments : List Text} (hsegments : Segments delimiters segments) :
    ((render delimiters segments).foldl dotStep (inSegment stack s)).finish =
      render delimiters (resolveSegments delimiters stack (s::segments)) := by
  induction segments generalizing stack s with
  | nil => exact finish_inSegment h hs
  | cons t segments ih =>
    obtain ⟨ht,hrest⟩ := segments_cons.mp hsegments
    have hstep : dotStep (inSegment stack s) delimiters.slash =
        inSegment (push delimiters stack s) [] := dotStep_slash h hs
    rw [render_cons,List.foldl_cons,hstep,List.foldl_append,foldl_segment _ ht,List.nil_append,
      ih (push_segments h hs) ht hrest]
    rfl

theorem removeDotSegments_render {segments : List Text} {s : Text}
    (h : Segments delimiters (s::segments)) :
    removeDotSegments (render delimiters (s::segments)) =
      render delimiters (resolveSegments delimiters [] (s::segments)) := by
  obtain ⟨hs,hsegments⟩ := segments_cons.mp h
  have hfirst : dotStep ⟨[],0,true⟩ delimiters.slash = inSegment [] [] := rfl
  have hloop : ((render delimiters segments).foldl dotStep (inSegment [] s)).finish =
      render delimiters (resolveSegments delimiters [] (s::segments)) :=
    foldl_render segments_nil hs hsegments
  rw [← hloop,render_cons,removeDotSegments,List.foldl_cons,hfirst,List.foldl_append,
    foldl_segment [] hs]
  rfl

/-- On absolute paths the one pass is the algorithm of the RFC. -/
theorem removeDotSegments_eq (path : Text) :
    removeDotSegments (slash::path) = Rfc3986.removeDotSegments delimiters (slash::path) [] := by
  obtain ⟨s,segments,heq,h⟩ := exists_segments (d := delimiters) path
  have hrfc : Rfc3986.removeDotSegments delimiters (render delimiters (s::segments))
      (render delimiters []) = render delimiters (resolveSegments delimiters [] (s::segments)) :=
    Rfc3986.removeDotSegments_render segments_nil h
  have hpath : slash::path = render delimiters (s::segments) := heq
  rw [hpath,removeDotSegments_render h,← hrfc,render_nil]

/-- An absolute path stays one. -/
theorem removeDotSegments_slash (path : Text) :
    ∃ x, removeDotSegments (slash::path) = slash::x := by
  obtain ⟨s,segments,heq,h⟩ := exists_segments (d := delimiters) path
  have hpath : slash::path = render delimiters (s::segments) := heq
  rw [hpath,removeDotSegments_render h]
  cases hs : resolveSegments delimiters [] (s::segments) with
  | nil => exact absurd hs (resolveSegments_ne_nil [] s segments)
  | cons t rest => exact ⟨t ++ render delimiters rest,rfl⟩

/-! A buffer of which the loop has written a part. -/

theorem take_write {buf : Text} {n : ℕ} (h : n < buf.length) (c : UInt8) :
    (buf.set n c).take (n+1) = buf.take n ++ [c] := by
  rw [List.take_add_one,List.take_set_of_le (Nat.le_refl n)]
  simp [h]

/-- What is left of a written text is written. -/
theorem take_suffix {buf d e : Text} (hd : buf.take d.length = d.reverse) (he : e <:+ d) :
    buf.take e.length = e.reverse := by
  obtain ⟨x,rfl⟩ := he
  have htake := congrArg (List.take e.length) hd
  rw [List.take_take,List.length_append,Nat.min_eq_left (Nat.le_add_left _ _)] at htake
  simpa using htake

theorem dropSegment_suffix (d : Text) : dropSegment d <:+ d :=
  (List.drop_suffix _ _).trans (List.dropWhile_suffix _)

theorem dropSegments_suffix (d : DotState) : dropSegments d <:+ d.dst := by
  have hiter : ∀ (k : ℕ) (x : Text), dropSegment^[k] x <:+ x := by
    intro k
    induction k with
    | zero => exact fun x => List.suffix_refl x
    | succ k ih => exact fun x => (ih _).trans (dropSegment_suffix x)
  unfold dropSegments
  split_ifs
  · exact hiter d.dotCnt d.dst
  · exact List.suffix_refl d.dst

theorem dropSegments_length {d : DotState} (h : d.dotCnt = 1 ∨ d.dotCnt = 2)
    (hdots : d.dotCnt ≤ d.dst.length) : (dropSegments d).length < d.dst.length := by
  have hdrop : ∀ x : Text, (dropSegment x).length ≤ x.length-1 := by
    intro x
    have hle := (List.dropWhile_suffix (· ≠ slash) (l := x)).length_le
    rw [dropSegment,List.length_drop]
    omega
  have hone := hdrop d.dst
  have htwo := hdrop (dropSegment d.dst)
  rw [dropSegments,if_pos h]
  obtain h | h := h <;> rw [h]
  · change (dropSegment d.dst).length < d.dst.length
    omega
  · change (dropSegment (dropSegment d.dst)).length < d.dst.length
    omega

end UriParser
end FreshPlayer
