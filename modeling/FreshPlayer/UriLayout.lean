import FreshPlayer.UriParser

/-! Where the components of a text lie: one behind the other, inside the text. -/
namespace FreshPlayer
namespace UriParser

/-- Components one behind the other between two positions, or not reported. -/
def Chain : List UrlComponent → ℕ → ℕ → Prop
  | [], lo, hi => lo ≤ hi
  | c::cs, lo, hi => (c = resetUrlComponent ∧ Chain cs lo hi) ∨
      ∃ b e : ℕ, c = ⟨b,e-b⟩ ∧ lo ≤ b ∧ b ≤ e ∧ Chain cs e hi

namespace Chain

variable {l l' : List UrlComponent} {lo m hi : ℕ}

theorem reset (h : Chain l lo hi) : Chain (resetUrlComponent::l) lo hi := .inl ⟨rfl,h⟩

theorem reported {b e : ℕ} (hb : lo ≤ b) (he : b ≤ e) (h : Chain l e hi) :
    Chain (⟨b,e-b⟩::l) lo hi := .inr ⟨b,e,rfl,hb,he,h⟩

theorem le (h : Chain l lo hi) : lo ≤ hi := by
  induction l generalizing lo with
  | nil => exact h
  | cons c l ih =>
    obtain ⟨_,h⟩ | ⟨b,e,_,hb,he,h⟩ := h
    · exact ih h
    · exact hb.trans (he.trans (ih h))

/-- What begins earlier. -/
theorem widen {lo' : ℕ} (h : Chain l lo hi) (hlo : lo' ≤ lo) : Chain l lo' hi := by
  induction l with
  | nil => exact hlo.trans h
  | cons c l ih =>
    obtain ⟨hc,h⟩ | ⟨b,e,hc,hb,he,h⟩ := h
    · exact .inl ⟨hc,ih h⟩
    · exact .inr ⟨b,e,hc,hlo.trans hb,he,h⟩

theorem append (h : Chain l lo m) (h' : Chain l' m hi) : Chain (l ++ l') lo hi := by
  induction l generalizing lo with
  | nil => exact h'.widen h
  | cons c l ih =>
    obtain ⟨hc,h⟩ | ⟨b,e,hc,hb,he,h⟩ := h
    · exact .inl ⟨hc,ih h⟩
    · exact .inr ⟨b,e,hc,hb,he,ih h⟩

/-- What may end later. -/
theorem mono {hi' : ℕ} (h : Chain l lo hi) (hhi : hi ≤ hi') : Chain l lo hi' := by
  have happend : Chain (l ++ []) lo hi' := h.append hhi
  rwa [List.append_nil] at happend

theorem mem (h : Chain l lo hi) {c : UrlComponent} (hc : c ∈ l) :
    c = resetUrlComponent ∨ ∃ b e : ℕ, c = ⟨b,e-b⟩ ∧ lo ≤ b ∧ b ≤ e ∧ e ≤ hi := by
  induction l generalizing lo with
  | nil => cases hc
  | cons x l ih =>
    obtain ⟨hx,h⟩ | ⟨b,e,hx,hb,he,h⟩ := h
    · obtain rfl | hc := List.mem_cons.mp hc
      · exact .inl hx
      · exact ih h hc
    · obtain rfl | hc := List.mem_cons.mp hc
      · exact .inr ⟨b,e,hx,hb,he,h.le⟩
      · obtain hc | ⟨b',e',hc,hb',he',hhi⟩ := ih h hc
        · exact .inl hc
        · exact .inr ⟨b',e',hc,hb.trans (he.trans hb'),he',hhi⟩

theorem pairwise (h : Chain l lo hi) : l.Pairwise fun x y =>
    0 ≤ x.len → 0 ≤ y.len → x.begin+x.len ≤ y.begin := by
  induction l generalizing lo with
  | nil => exact .nil
  | cons x l ih =>
    obtain ⟨rfl,h⟩ | ⟨b,e,rfl,hb,he,h⟩ := h
    · exact .cons (fun y _ hx => absurd hx (by decide)) (ih h)
    · refine .cons (fun y hy _ hlen => ?_) (ih h)
      obtain rfl | ⟨b',e',rfl,hb',_,_⟩ := h.mem hy
      · exact absurd hlen (by decide)
      · simp only
        omega

end Chain

def UrlComponents.toList (c : UrlComponents) : List UrlComponent :=
  [c.scheme,c.username,c.password,c.host,c.port,c.path,c.query,c.ref]

def UrlComponent.Covers (c : UrlComponent) (i : ℤ) : Prop := c.begin ≤ i ∧ i < c.begin+c.len

/-- Extracting the component reads nothing outside the text. -/
def UrlComponent.Inside (s : Text) (c : UrlComponent) : Prop :=
  0 ≤ c.begin ∧ c.begin+max c.len 0 ≤ s.length

/-- Fields of type `int32_t` hold the component. -/
def UrlComponent.Fits (c : UrlComponent) : Prop :=
  (-2^31 ≤ c.begin ∧ c.begin < 2^31) ∧ -2^31 ≤ c.len ∧ c.len < 2^31

def UrlComponents.Fits (c : UrlComponents) : Prop := ∀ x ∈ c.toList, x.Fits

/-- The component that `extract_authority` puts together. -/
def authoritySpan (c : UrlComponents) : UrlComponent :=
  let begin := 0
  let begin := if 0 ≤ c.port.len then c.port.begin else begin
  let begin := if 0 ≤ c.host.len then c.host.begin else begin
  let begin := if 0 ≤ c.password.len then c.password.begin else begin
  let begin := if 0 ≤ c.username.len then c.username.begin else begin
  let fin := -1
  let fin := if 0 ≤ c.username.len then c.username.begin+c.username.len else fin
  let fin := if 0 ≤ c.password.len then c.password.begin+c.password.len else fin
  let fin := if 0 ≤ c.host.len then c.host.begin+c.host.len else fin
  let fin := if 0 ≤ c.port.len then c.port.begin+c.port.len else fin
  ⟨begin,fin-begin⟩

theorem extractAuthority_span (s : Text) (c : UrlComponents) :
    extractAuthority s c = extractComponent s (authoritySpan c) := rfl

/-- The components lie in the text, apart from each other and in the order of a URI. -/
structure InOrder (s : Text) (c : UrlComponents) : Prop where
  within : ∀ x ∈ c.toList, 0 ≤ x.len → 0 ≤ x.begin ∧ x.begin+x.len ≤ s.length
  disjoint : c.toList.Pairwise fun x y => ∀ i, ¬(x.Covers i ∧ y.Covers i)
  ordered : c.toList.Pairwise fun x y => 0 ≤ x.len → 0 ≤ y.len → x.begin+x.len ≤ y.begin
  components : ∀ x ∈ c.toList, x.Inside s
  authority : (authoritySpan c).Inside s

/-- Every component is reset or lies in the text. -/
def Within (n : ℕ) (l : List UrlComponent) : Prop :=
  ∀ x ∈ l, x = resetUrlComponent ∨ ∃ b e : ℕ, x = ⟨b,e-b⟩ ∧ b ≤ e ∧ e ≤ n

theorem Within.reported {n : ℕ} {l : List UrlComponent} (h : Within n l) {x : UrlComponent}
    (hx : x ∈ l) (hlen : 0 ≤ x.len) : 0 ≤ x.begin ∧ x.begin+x.len ≤ n := by
  obtain rfl | ⟨b,e,rfl,hb,he⟩ := h x hx
  · exact absurd hlen (by decide)
  · simp only
    omega

theorem Within.inside {s : Text} {l : List UrlComponent} (h : Within s.length l) {x : UrlComponent}
    (hx : x ∈ l) : x.Inside s := by
  unfold UrlComponent.Inside
  obtain rfl | ⟨b,e,rfl,hb,he⟩ := h x hx
  · simp [resetUrlComponent]
  · simp only
    omega

/-- Begin and end of the authority are those of reported components, if any. -/
theorem Within.authority {s : Text} {c : UrlComponents} (h : Within s.length c.toList) :
    (authoritySpan c).Inside s := by
  have husername := h.reported (x := c.username) (by simp [UrlComponents.toList])
  have hpassword := h.reported (x := c.password) (by simp [UrlComponents.toList])
  have hhost := h.reported (x := c.host) (by simp [UrlComponents.toList])
  have hport := h.reported (x := c.port) (by simp [UrlComponents.toList])
  unfold UrlComponent.Inside authoritySpan
  constructor
  · simp only
    split_ifs <;> omega
  · simp only
    split_ifs <;> omega

theorem Within.len_le {n : ℕ} {l : List UrlComponent} (h : Within n l) {x : UrlComponent}
    (hx : x ∈ l) : -1 ≤ x.len := by
  obtain rfl | ⟨b,e,rfl,hb,he⟩ := h x hx
  · decide
  · simp only
    omega

theorem Within.len_authority {n : ℕ} {c : UrlComponents} (h : Within n c.toList) :
    -(n+1 : ℤ) ≤ (authoritySpan c).len := by
  have husername := h.reported (x := c.username) (by simp [UrlComponents.toList])
  have hpassword := h.reported (x := c.password) (by simp [UrlComponents.toList])
  have hhost := h.reported (x := c.host) (by simp [UrlComponents.toList])
  have hport := h.reported (x := c.port) (by simp [UrlComponents.toList])
  unfold authoritySpan
  simp only
  split_ifs <;> omega

theorem UrlComponent.stored_eq_iff {x : UrlComponent} : x.stored = x ↔ x.Fits := by
  obtain ⟨b,n⟩ := x
  have hbmod : ∀ i : ℤ, i.bmod (2^32) = i ↔ -2^31 ≤ i ∧ i < 2^31 := by
    intro i
    constructor
    · intro h
      have hlo := Int.le_bmod (x := i) (m := 2^32) (by decide)
      have hhi := Int.bmod_lt (x := i) (m := 2^32) (by decide)
      rw [h] at hlo hhi
      omega
    · rintro ⟨hlo,hhi⟩
      apply Int.bmod_eq_of_le_mul_two <;> omega
  simp only [UrlComponent.stored,UrlComponent.mk.injEq,UrlComponent.Fits,hbmod]

theorem UrlComponents.stored_eq_iff {c : UrlComponents} : c.stored = c ↔ c.Fits := by
  obtain ⟨scheme,username,password,host,port,path,query,ref⟩ := c
  simp [UrlComponents.stored,UrlComponents.Fits,UrlComponents.toList,UrlComponent.stored_eq_iff]

theorem UrlComponents.fits_stored (c : UrlComponents) : c.stored.Fits := by
  rw [← stored_eq_iff]
  simp [UrlComponents.stored,UrlComponent.stored]

theorem stored_eq {s : Text} (hs : s.length < 2^31) {x : UrlComponent} (hx : x.Inside s)
    (hlen : -2^31 ≤ x.len) : x.stored = x := by
  obtain ⟨hb,he⟩ := hx
  rw [UrlComponent.stored_eq_iff,UrlComponent.Fits]
  omega

def UrlComponents.front (c : UrlComponents) : List UrlComponent :=
  [c.scheme,c.username,c.password,c.host]

/-- The port lies where the password begins. -/
def PortInPassword (c : UrlComponents) : Prop :=
  ∃ b e q : ℕ, c.password = ⟨b,q-b⟩ ∧ c.port = ⟨b,e-b⟩ ∧ b < e ∧ e ≤ q

/-- The components before `n`, with the port in its place or, as `T` explains, left behind. -/
def Placed (T : Prop) (l : List UrlComponent) (n : ℕ) (c : UrlComponents) : Prop :=
  Chain (c.front ++ c.port::l) 0 n ∨ T ∧ PortInPassword c ∧ Chain (c.front ++ l) 0 n

namespace Placed

variable {T : Prop} {l : List UrlComponent} {m n : ℕ} {c : UrlComponents}

theorem imp {T' : Prop} (h : Placed T l n c) (hT : T → T') : Placed T' l n c := by
  obtain h | ⟨ht,h⟩ := h
  · exact .inl h
  · exact .inr ⟨hT ht,h⟩

theorem append {l' : List UrlComponent} (h : Placed T l m c) (h' : Chain l' m n) :
    Placed T (l ++ l') n c := by
  unfold Placed
  rw [← List.cons_append,← List.append_assoc,← List.append_assoc]
  obtain h | ⟨ht,hport,h⟩ := h
  · exact .inl (h.append h')
  · exact .inr ⟨ht,hport,h.append h'⟩

theorem mono (h : Placed T l m c) (hn : m ≤ n) : Placed T l n c := by
  have hnil : Chain [] m n := hn
  have happend := h.append hnil
  rwa [List.append_nil] at happend

end Placed

theorem Placed.within {T : Prop} {n : ℕ} {c : UrlComponents}
    (h : Placed T [c.path,c.query,c.ref] n c) : Within n c.toList := by
  obtain h | ⟨_,⟨b,e,q,hpassword,hport,hlt,he⟩,h⟩ := h
  · intro x hx
    obtain hx | ⟨b,e,hx,_,hb,he⟩ := h.mem hx
    · exact .inl hx
    · exact .inr ⟨b,e,hx,hb,he⟩
  · intro x hx
    have hq : q ≤ n := by
      have hmem : c.password ∈ c.front ++ [c.path,c.query,c.ref] := by simp [UrlComponents.front]
      rw [hpassword] at hmem
      obtain hreset | ⟨b',e',heq,_,_,he'⟩ := h.mem hmem
      · have hlen := congrArg UrlComponent.len hreset
        simp only [resetUrlComponent] at hlen
        omega
      · simp only [UrlComponent.mk.injEq] at heq
        omega
    by_cases hx' : x = c.port
    · exact .inr ⟨b,e,hx'.trans hport,hlt.le,he.trans hq⟩
    · have hmem : x ∈ c.front ++ [c.path,c.query,c.ref] := by
        simp only [UrlComponents.toList,UrlComponents.front,List.mem_cons,List.cons_append,
          List.nil_append] at hx ⊢
        tauto
      obtain hx | ⟨b,e,hx,_,hb,he⟩ := h.mem hmem
      · exact .inl hx
      · exact .inr ⟨b,e,hx,hb,he⟩

theorem Chain.inOrder {s : Text} {c : UrlComponents} (h : Chain c.toList 0 s.length) :
    InOrder s c := by
  have hwithin : Within s.length c.toList := fun x hx => by
    obtain hx | ⟨b,e,hx,_,hb,he⟩ := h.mem hx
    · exact .inl hx
    · exact .inr ⟨b,e,hx,hb,he⟩
  refine ⟨fun x => hwithin.reported,h.pairwise.imp ?_,h.pairwise,fun x => hwithin.inside,
    hwithin.authority⟩
  rintro x y hxy i ⟨⟨hx,hx'⟩,hy,hy'⟩
  have hle := hxy (by omega) (by omega)
  omega

/-- A port in the password is not behind it. -/
theorem PortInPassword.not_inOrder {s : Text} {c : UrlComponents} (h : PortInPassword c) :
    ¬InOrder s c := by
  intro hin
  obtain ⟨b,e,q,hpassword,hport,hlt,he⟩ := h
  have hordered := List.pairwise_iff_getElem.mp hin.ordered 2 4 (by decide : 2 < 8)
    (by decide : 4 < 8) (by decide)
  have hle : 0 ≤ c.password.len → 0 ≤ c.port.len →
    c.password.begin+c.password.len ≤ c.port.begin := hordered
  rw [hpassword,hport] at hle
  have hle' := hle (by simp only; omega) (by simp only; omega)
  simp only at hle'
  omega

end UriParser
end FreshPlayer
