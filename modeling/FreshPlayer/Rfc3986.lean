import Mathlib.Data.List.DropRight
import Mathlib.Data.List.TakeWhile

/-! Reference resolution by RFC 3986, section 5, over any characters. On an absolute path
the removal of dot segments is a run over its segments that keeps a stack of them. -/
namespace FreshPlayer
namespace Rfc3986

/-- The delimiters of a URI. -/
structure Delimiters (α : Type*) where
  colon : α
  slash : α
  quest : α
  sharp : α
  dot : α
  slash_ne_dot : slash ≠ dot

/-- A URI reference in its components, undefined ones being `none`. -/
structure Parts (α : Type*) where
  scheme : Option (List α)
  authority : Option (List α)
  path : List α
  query : Option (List α)
  fragment : Option (List α)

variable {α : Type*} (d : Delimiters α)

/-- An absolute path of these segments. -/
def render (segments : List (List α)) : List α := segments.flatMap (d.slash::·)

@[simp] theorem render_nil : render d [] = [] := rfl

@[simp] theorem render_cons (s : List α) (segments : List (List α)) :
    render d (s::segments) = d.slash::(s ++ render d segments) := rfl

@[simp] theorem render_append (xs ys : List (List α)) :
    render d (xs ++ ys) = render d xs ++ render d ys := List.flatMap_append

/-- Segments have no slashes. -/
def Segments (segments : List (List α)) : Prop := ∀ s ∈ segments, d.slash ∉ s

variable {d}

@[simp] theorem segments_nil : Segments d [] := List.forall_mem_nil _

@[simp] theorem segments_cons {s : List α} {segments : List (List α)} :
    Segments d (s::segments) ↔ d.slash ∉ s ∧ Segments d segments := List.forall_mem_cons

@[simp] theorem segments_append {xs ys : List (List α)} :
    Segments d (xs ++ ys) ↔ Segments d xs ∧ Segments d ys := List.forall_mem_append

theorem Segments.dropLast {segments : List (List α)} (h : Segments d segments) :
    Segments d segments.dropLast := fun s hs => h s (List.dropLast_subset segments hs)

/-- Every absolute path is one of segments. -/
theorem exists_segments (path : List α) :
    ∃ s segments, d.slash::path = render d (s::segments) ∧ Segments d (s::segments) := by
  induction path with
  | nil => exact ⟨[],[],rfl,by simp⟩
  | cons c path ih =>
    obtain ⟨s,segments,heq,hsegments⟩ := ih
    have hpath : path = s ++ render d segments := List.tail_eq_of_cons_eq heq
    by_cases hc : c = d.slash
    · exact ⟨[],s::segments,by simp [hc,hpath],by simpa using hsegments⟩
    · have hs : d.slash ∉ c::s := by simpa using ⟨Ne.symm hc,(segments_cons.mp hsegments).1⟩
      exact ⟨c::s,segments,by simp [hpath],segments_cons.mpr ⟨hs,(segments_cons.mp hsegments).2⟩⟩

/-- A segment and the slash after it, as a prefix. -/
theorem segment_starts {s t rest : List α} (hs : d.slash ∉ s) (ht : d.slash ∉ t) :
    t ++ [d.slash] <+: s ++ d.slash::rest ↔ s = t := by
  constructor
  · induction t generalizing s with
    | nil =>
      intro h
      cases s with
      | nil => rfl
      | cons c s => exact absurd (by simp [(List.cons_prefix_cons.mp h).1]) hs
    | cons c t ih =>
      intro h
      cases s with
      | nil => exact absurd (by simp [(List.cons_prefix_cons.mp h).1]) ht
      | cons e s =>
        obtain ⟨rfl,hrest⟩ := List.cons_prefix_cons.mp h
        rw [ih (List.not_mem_of_not_mem_cons hs) (List.not_mem_of_not_mem_cons ht) hrest]
  · rintro rfl
    exact ⟨rest,by simp⟩

theorem append_slash_ne {s t rest : List α} (ht : d.slash ∉ t) : s ++ d.slash::rest ≠ t := by
  rintro rfl
  simp at ht

theorem not_segment_starts {s t : List α} (hs : d.slash ∉ s) : ¬t ++ [d.slash] <+: s :=
  fun h => hs (h.subset (by simp))

/-- The parts between the separators of a path are its segments, when a slash is a separator
and they have none. -/
theorem splitOnP_render {p : α → Bool} (hp : p d.slash = true) {segments : List (List α)}
    {x : List α} (hx : ∀ c ∈ x, p c = false) (h : ∀ t ∈ segments, ∀ c ∈ t, p c = false) :
    (x ++ render d segments).splitOnP p = x::segments := by
  induction segments generalizing x with
  | nil =>
    rw [render_nil,List.append_nil]
    exact List.splitOnP_eq_singleton hx
  | cons t segments ih =>
    have hrest := ih (h t List.mem_cons_self) fun u hu => h u (List.mem_cons_of_mem t hu)
    rw [render_cons,List.splitOnP_append_cons_of_forall_mem hx _ hp,hrest]

variable [DecidableEq α] (d)

/-- Remove the last segment and the slash before it. -/
def removeLast (output : List α) : List α := (output.rdropWhile (· ≠ d.slash)).dropLast

/-- One turn of the loop of section 5.2.4, on the input and the output buffer. -/
def dotTurn (input output : List α) : List α × List α :=
  if [d.dot,d.dot,d.slash] <+: input then (input.drop 3,output)
  else if [d.dot,d.slash] <+: input then (input.drop 2,output)
  else if [d.slash,d.dot,d.slash] <+: input then (input.drop 2,output)
  else if input = [d.slash,d.dot] then ([d.slash],output)
  else if [d.slash,d.dot,d.dot,d.slash] <+: input then (input.drop 3,removeLast d output)
  else if input = [d.slash,d.dot,d.dot] then ([d.slash],removeLast d output)
  else if input = [d.dot] ∨ input = [d.dot,d.dot] then ([],output)
  else (input.tail.dropWhile (· ≠ d.slash),
    output ++ (input.take 1 ++ input.tail.takeWhile (· ≠ d.slash)))

theorem dotTurn_length {input : List α} (h : input ≠ []) (output : List α) :
    (dotTurn d input output).1.length < input.length := by
  have hdrop : ∀ n, 0 < n → (input.drop n).length < input.length := by
    intro n hn
    have hpos := List.length_pos_iff.mpr h
    rw [List.length_drop]
    omega
  unfold dotTurn
  split_ifs with _ _ _ h₄ _ h₆ h₇
  · exact hdrop 3 (by decide)
  · exact hdrop 2 (by decide)
  · exact hdrop 2 (by decide)
  · simp [h₄]
  · exact hdrop 3 (by decide)
  · simp [h₆]
  · exact List.length_pos_iff.mpr h
  · have hle := (List.dropWhile_sublist (· ≠ d.slash) (l := input.tail)).length_le
    have hpos := List.length_pos_iff.mpr h
    rw [List.length_tail] at hle
    exact lt_of_le_of_lt hle (by omega)

def removeDotSegments (input output : List α) : List α :=
  if _h : input = [] then output
  else removeDotSegments (dotTurn d input output).1 (dotTurn d input output).2
termination_by input.length
decreasing_by exact dotTurn_length d _h output

/-- Section 5.2.3. -/
def mergePaths (base : Parts α) (path : List α) : List α :=
  if base.authority.isSome ∧ base.path = [] then d.slash::path
  else base.path.rdropWhile (· ≠ d.slash) ++ path

/-- Section 5.2.2. -/
def resolve (base r : Parts α) : Parts α :=
  if r.scheme.isSome then { r with path := removeDotSegments d r.path [] }
  else if r.authority.isSome then
    { r with scheme := base.scheme, path := removeDotSegments d r.path [] }
  else if r.path = [] then
    { base with query := if r.query.isSome then r.query else base.query, fragment := r.fragment }
  else
    let path := if [d.slash] <+: r.path then r.path else mergePaths d base r.path
    { base with path := removeDotSegments d path [], query := r.query, fragment := r.fragment }

/-- Section 5.3. -/
def recompose (t : Parts α) : List α :=
  (t.scheme.elim [] (· ++ [d.colon])) ++ (t.authority.elim [] ([d.slash,d.slash] ++ ·)) ++ t.path ++
    (t.query.elim [] (d.quest::·)) ++ t.fragment.elim [] (d.sharp::·)

/-- Queries and fragments that are empty are left out. -/
def dropEmpty (t : Parts α) : Parts α :=
  { t with query := t.query.filter (· ≠ []), fragment := t.fragment.filter (· ≠ []) }

/-- A reference of a path, a query and a fragment has the origin of its base. -/
theorem resolve_origin {base r : Parts α} (h : r.scheme = none ∧ r.authority = none) :
    (resolve d base r).scheme = base.scheme ∧ (resolve d base r).authority = base.authority := by
  unfold resolve
  rw [h.1,h.2]
  by_cases hpath : r.path = [] <;> simp [hpath]

/-- The stack when a slash follows the segment. -/
def push (stack : List (List α)) (s : List α) : List (List α) :=
  if s = [d.dot] then stack else if s = [d.dot,d.dot] then stack.dropLast else stack ++ [s]

/-- The stack at the end of the path. -/
def pushLast (stack : List (List α)) (s : List α) : List (List α) :=
  if s = [d.dot] ∨ s = [d.dot,d.dot] then push d stack s ++ [[]] else stack ++ [s]

def resolveSegments (stack : List (List α)) : List (List α) → List (List α)
  | [] => stack
  | [s] => pushLast d stack s
  | s::t::segments => resolveSegments (push d stack s) (t::segments)

variable {d}

theorem push_segments {stack : List (List α)} {s : List α} (h : Segments d stack)
    (hs : d.slash ∉ s) : Segments d (push d stack s) := by
  unfold push
  split_ifs
  · exact h
  · exact h.dropLast
  · exact segments_append.mpr ⟨h,by simpa using hs⟩

theorem resolveSegments_eq_append {stack segments : List (List α)}
    (h : ∀ s ∈ segments, s ≠ [d.dot] ∧ s ≠ [d.dot,d.dot]) :
    resolveSegments d stack segments = stack ++ segments := by
  induction segments generalizing stack with
  | nil => rw [resolveSegments,List.append_nil]
  | cons s segments ih =>
    obtain ⟨⟨h₁,h₂⟩,hsegments⟩ := List.forall_mem_cons.mp h
    cases segments with
    | nil => rw [resolveSegments,pushLast,if_neg (not_or.mpr ⟨h₁,h₂⟩)]
    | cons t segments =>
      rw [resolveSegments,ih hsegments,push,if_neg h₁,if_neg h₂,List.append_assoc,
        List.singleton_append]

theorem resolveSegments_ne_nil (stack : List (List α)) (s : List α) (segments : List (List α)) :
    resolveSegments d stack (s::segments) ≠ [] := by
  induction segments generalizing stack s with
  | nil =>
    unfold resolveSegments pushLast
    split_ifs <;> simp
  | cons t segments ih => exact ih (push d stack s) t

theorem mem_push {stack : List (List α)} {s t : List α} (h : t ∈ push d stack s) :
    t ∈ stack ∨ t = s ∧ s ≠ [d.dot] ∧ s ≠ [d.dot,d.dot] := by
  unfold push at h
  split_ifs at h with h₁ h₂
  · exact .inl h
  · exact .inl (List.dropLast_subset stack h)
  · obtain h | h := List.mem_append.mp h
    · exact .inl h
    · exact .inr ⟨List.mem_singleton.mp h,h₁,h₂⟩

/-- No dot segments are left. -/
theorem mem_resolveSegments {stack segments : List (List α)} {t : List α}
    (h : t ∈ resolveSegments d stack segments) :
    t ∈ stack ∨ t = [] ∨ t ∈ segments ∧ t ≠ [d.dot] ∧ t ≠ [d.dot,d.dot] := by
  induction segments generalizing stack with
  | nil => exact .inl h
  | cons s segments ih =>
    have hpush : t ∈ push d stack s → t ∈ stack ∨ t ∈ s::segments ∧ t ≠ [d.dot] ∧ t ≠ [d.dot,d.dot] := by
      intro hmem
      obtain hmem | ⟨rfl,hdots⟩ := mem_push hmem
      · exact .inl hmem
      · exact .inr ⟨List.mem_cons_self,hdots⟩
    cases segments with
    | nil =>
      rw [resolveSegments,pushLast] at h
      split_ifs at h with hlast
      · obtain h | h := List.mem_append.mp h
        · exact (hpush h).imp_right .inr
        · exact .inr (.inl (List.mem_singleton.mp h))
      · obtain ⟨h₁,h₂⟩ := not_or.mp hlast
        exact (hpush (by rwa [push,if_neg h₁,if_neg h₂])).imp_right .inr
    | cons u segments =>
      obtain hmem | hempty | ⟨hmem,hdots⟩ := ih h
      · exact (hpush hmem).imp_right .inr
      · exact .inr (.inl hempty)
      · exact .inr (.inr ⟨List.mem_cons_of_mem s hmem,hdots⟩)

theorem resolveSegments_segments {stack segments : List (List α)} (h : Segments d stack)
    (hs : Segments d segments) : Segments d (resolveSegments d stack segments) := by
  intro t ht
  obtain hmem | rfl | ⟨hmem,_⟩ := mem_resolveSegments ht
  · exact h t hmem
  · exact List.not_mem_nil
  · exact hs t hmem

theorem rdropWhile_slash {xs ys : List α} (h : d.slash ∉ ys) :
    (xs ++ d.slash::ys).rdropWhile (· ≠ d.slash) = xs ++ [d.slash] := by
  have hys : ∀ y ∈ ys.reverse, decide (y ≠ d.slash) = true := by
    intro y hy
    have hne : y ≠ d.slash := fun heq => h (by rw [← heq]; exact List.mem_reverse.mp hy)
    exact decide_eq_true hne
  have hrev : (xs ++ d.slash::ys).reverse = ys.reverse ++ d.slash::xs.reverse := by simp
  rw [List.rdropWhile,hrev,List.dropWhile_append_of_pos hys,List.dropWhile_cons_of_neg (by simp)]
  simp

theorem removeLast_render {stack : List (List α)} (h : Segments d stack) :
    removeLast d (render d stack) = render d stack.dropLast := by
  obtain rfl | ⟨stack,s,rfl⟩ := stack.eq_nil_or_concat
  · rfl
  · have hs : d.slash ∉ s := h s (by simp)
    rw [removeLast,List.concat_eq_append,render_append,render_cons,render_nil,List.append_nil,
      rdropWhile_slash hs]
    simp

/-- On an absolute path the first branches are not taken. -/
theorem dotTurn_slash (path output : List α) : dotTurn d (d.slash::path) output =
    if [d.dot] ++ [d.slash] <+: path then (path.drop 1,output)
    else if path = [d.dot] then ([d.slash],output)
    else if [d.dot,d.dot] ++ [d.slash] <+: path then (path.drop 2,removeLast d output)
    else if path = [d.dot,d.dot] then ([d.slash],removeLast d output)
    else (path.dropWhile (· ≠ d.slash),output ++ d.slash::path.takeWhile (· ≠ d.slash)) := by
  have hdot : ¬d.dot = d.slash := Ne.symm d.slash_ne_dot
  simp [dotTurn,List.cons_prefix_cons,hdot,d.slash_ne_dot]

/-- A turn reads one segment, when a slash follows. -/
theorem dotTurn_push {stack : List (List α)} (h : Segments d stack) {s : List α}
    (hs : d.slash ∉ s) (rest : List α) :
    dotTurn d (d.slash::(s ++ d.slash::rest)) (render d stack) =
      (d.slash::rest,render d (push d stack s)) := by
  have hdot : d.slash ∉ [d.dot] := by simp [d.slash_ne_dot]
  have hdots : d.slash ∉ [d.dot,d.dot] := by simp [d.slash_ne_dot]
  have hall : ∀ c ∈ s, decide (c ≠ d.slash) = true := by
    intro c hc
    exact decide_eq_true fun heq => hs (by rwa [← heq])
  simp only [dotTurn_slash,segment_starts hs hdot,segment_starts hs hdots,append_slash_ne hdot,
    append_slash_ne hdots,if_false,push]
  split_ifs with h₁ h₂
  · simp [h₁]
  · simp [h₂,removeLast_render h]
  · rw [List.dropWhile_append_of_pos hall,List.takeWhile_append_of_pos hall]
    simp

@[simp] theorem removeDotSegments_nil (output : List α) : removeDotSegments d [] output = output := by
  rw [removeDotSegments,dif_pos rfl]

theorem removeDotSegments_cons (c : α) (input output : List α) :
    removeDotSegments d (c::input) output =
      removeDotSegments d (dotTurn d (c::input) output).1 (dotTurn d (c::input) output).2 := by
  rw [removeDotSegments,dif_neg (List.cons_ne_nil c input)]

/-- A last segment that is no dot segment stays. -/
theorem removeDotSegments_segment {s : List α} (hs : d.slash ∉ s) (h₁ : s ≠ [d.dot])
    (h₂ : s ≠ [d.dot,d.dot]) (output : List α) :
    removeDotSegments d (d.slash::s) output = output ++ d.slash::s := by
  have hall : ∀ c ∈ s, decide (c ≠ d.slash) = true := by
    intro c hc
    exact decide_eq_true fun heq => hs (by rwa [← heq])
  have hdrop : s.dropWhile (· ≠ d.slash) = [] := List.dropWhile_eq_nil_iff.mpr hall
  have htake : s.takeWhile (· ≠ d.slash) = s := List.takeWhile_eq_self_iff.mpr hall
  simp only [removeDotSegments_cons,dotTurn_slash,not_segment_starts hs,h₁,h₂,if_false,hdrop,htake,
    removeDotSegments_nil]

theorem removeDotSegments_last {stack : List (List α)} (h : Segments d stack) {s : List α}
    (hs : d.slash ∉ s) :
    removeDotSegments d (d.slash::s) (render d stack) = render d (pushLast d stack s) := by
  have hempty := removeDotSegments_segment (d := d) (s := []) (by simp) (by simp) (by simp)
  by_cases h₁ : s = [d.dot]
  · rw [removeDotSegments_cons,dotTurn_slash,if_neg (not_segment_starts hs),if_pos h₁,hempty]
    simp [pushLast,push,h₁]
  by_cases h₂ : s = [d.dot,d.dot]
  · rw [removeDotSegments_cons,dotTurn_slash,if_neg (not_segment_starts hs),if_neg h₁,
      if_neg (not_segment_starts hs),if_pos h₂,hempty,removeLast_render h]
    simp [pushLast,push,h₂]
  · rw [removeDotSegments_segment hs h₁ h₂]
    simp [pushLast,h₁,h₂]

/-- Removing the dot segments of an absolute path keeps a stack of segments. -/
theorem removeDotSegments_render {stack segments : List (List α)} (h : Segments d stack)
    (hs : Segments d segments) :
    removeDotSegments d (render d segments) (render d stack) =
      render d (resolveSegments d stack segments) := by
  induction segments generalizing stack with
  | nil => simp [resolveSegments]
  | cons s segments ih =>
    obtain ⟨hslash,hsegments⟩ := segments_cons.mp hs
    cases segments with
    | nil =>
      rw [render_cons,render_nil,List.append_nil]
      exact removeDotSegments_last h hslash
    | cons t segments =>
      rw [render_cons,render_cons,removeDotSegments_cons,dotTurn_push h hslash,← render_cons,
        ih (push_segments h hslash) hsegments]
      rfl

end Rfc3986
end FreshPlayer
