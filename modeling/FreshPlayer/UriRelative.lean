import FreshPlayer.UriText

/-! Texts without a scheme that do not begin with two slashes are path, query and fragment. -/
namespace FreshPlayer
namespace UriParser

/-- The first characters of a text, as long as they are of the class. -/
def Span.before (cl : CharClass) (s : Text) : Span cl where
  text := s.takeWhile cl.mem
  all _ h := List.mem_takeWhile_imp h

def queryOf (s : Text) : Option (Span .query) :=
  if s.head? = some quest then some (Span.before .query s.tail) else none

/-- What a query leaves of a text. -/
def afterQuery (s : Text) : Text :=
  if s.head? = some quest then s.tail.dropWhile CharClass.query.mem else s

def fragmentOf : Text → Option (Span .any)
  | [] => none
  | _::s => some ⟨s,fun _ _ => rfl⟩

def Reference.ofText (s : Text) : Reference where
  path := Span.before .path s
  query := queryOf (s.dropWhile CharClass.path.mem)
  fragment := fragmentOf (afterQuery (s.dropWhile CharClass.path.mem))

theorem path_mem_false {c : UInt8} (h : CharClass.path.mem c = false) : c = quest ∨ c = sharp := by
  unfold CharClass.mem at h
  cases hk : kind c <;> rw [hk] at h <;>
    first | exact .inl (kind_eq_quest hk) | exact .inr (kind_eq_sharp hk) | cases h

theorem query_mem_false {c : UInt8} (h : CharClass.query.mem c = false) : c = sharp := by
  unfold CharClass.mem at h
  cases hk : kind c <;> rw [hk] at h <;> first | exact kind_eq_sharp hk | cases h

theorem head_dropWhile {p : UInt8 → Bool} {s rest : Text} {c : UInt8}
    (h : s.dropWhile p = c::rest) : p c = false := by
  have hhead := List.head?_dropWhile_not p s
  rw [h] at hhead
  simpa using hhead

theorem fragmentOf_text {s : Text} (h : ∀ c ∈ s.head?, c = sharp) :
    fragmentText (fragmentOf s) = s := by
  cases s with
  | nil => rfl
  | cons c s =>
    have hc : c = sharp := h c rfl
    rw [hc]
    rfl

theorem queryOf_text {s : Text} (h : ∀ c ∈ s.head?, c = quest ∨ c = sharp) :
    queryText (queryOf s) ++ fragmentText (fragmentOf (afterQuery s)) = s := by
  unfold queryOf afterQuery
  by_cases hs : s.head? = some quest
  · obtain ⟨rest,rfl⟩ := List.head?_eq_some_iff.mp hs
    have hsharp : ∀ c ∈ (rest.dropWhile CharClass.query.mem).head?, c = sharp := by
      intro c hc
      obtain ⟨ys,hys⟩ := List.head?_eq_some_iff.mp hc
      exact query_mem_false (head_dropWhile hys)
    rw [if_pos hs,if_pos hs,List.tail_cons,fragmentOf_text hsharp]
    exact congrArg (quest::·) (List.takeWhile_append_dropWhile)
  · rw [if_neg hs,if_neg hs,fragmentOf_text]
    · rfl
    · intro c hc
      obtain rfl | hc' := h c hc
      · exact absurd hc hs
      · exact hc'

/-- Every text is path, query and fragment. -/
theorem Reference.ofText_text (s : Text) : (Reference.ofText s).text = s := by
  have hhead : ∀ c ∈ (s.dropWhile CharClass.path.mem).head?, c = quest ∨ c = sharp := by
    intro c hc
    obtain ⟨ys,hys⟩ := List.head?_eq_some_iff.mp hc
    exact path_mem_false (head_dropWhile hys)
  rw [Reference.text,Reference.ofText,queryOf_text hhead]
  exact List.takeWhile_append_dropWhile

def HasScheme (s : Text) : Prop :=
  ∃ x y, s = x ++ colon::y ∧ x ≠ [] ∧ ∀ c ∈ x, CharClass.scheme.mem c = true

theorem scheme_mem {c : UInt8} (h : CharClass.path.mem c = true) (hcolon : c ≠ colon)
    (hslash : c ≠ slash) : CharClass.scheme.mem c = true := by
  unfold CharClass.mem at *
  cases hk : kind c <;> rw [hk] at h <;>
    first
    | rfl
    | exact absurd (kind_eq_colon hk) hcolon
    | exact absurd (kind_eq_slash hk) hslash
    | cases h

/-- A text without a scheme and two slashes, as a URI. -/
def Uri.relative (s : Text) (hscheme : ¬HasScheme s) (hslashes : ¬[slash,slash] <+: s) : Uri where
  scheme := none
  authority := none
  reference := Reference.ofText s
  begins h := by cases h
  notSlashes _ h := hslashes (h.trans (List.takeWhile_prefix _))
  notScheme _ _ x y heq hx := by
    have hpath : x ++ colon::y <+: s := by
      rw [← heq]
      exact List.takeWhile_prefix _
    obtain ⟨rest,hrest⟩ := hpath
    by_contra hne
    obtain ⟨hne,hslash⟩ := not_or.mp hne
    refine hscheme ⟨x,y ++ rest,by rw [← hrest]; simp,hne,?_⟩
    intro c hc
    have hmem : c ∈ (Reference.ofText s).path.text := by
      rw [heq]
      exact List.mem_append_left _ hc
    exact scheme_mem ((Reference.ofText s).path.all c hmem) (fun h => hx (by rwa [← h]))
      fun h => hslash (by rwa [← h])

theorem Uri.relative_text {s : Text} (hscheme : ¬HasScheme s) (hslashes : ¬[slash,slash] <+: s) :
    (Uri.relative s hscheme hslashes).text = s := Reference.ofText_text s

end UriParser
end FreshPlayer
