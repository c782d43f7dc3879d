import FreshPlayer.UriParser

/-! URIs put together from their components, with where each component then stands. -/
namespace FreshPlayer
namespace UriParser

theorem kind_eq_slash {c : UInt8} (h : kind c = .slash) : c = slash := by
  unfold kind at h
  split_ifs at h
  assumption

theorem kind_eq_colon {c : UInt8} (h : kind c = .colon) : c = colon := by
  unfold kind at h
  split_ifs at h
  assumption

theorem kind_eq_quest {c : UInt8} (h : kind c = .quest) : c = quest := by
  unfold kind at h
  split_ifs at h
  assumption

theorem kind_eq_sharp {c : UInt8} (h : kind c = .sharp) : c = sharp := by
  unfold kind at h
  split_ifs at h
  assumption

theorem kind_eq_atSign {c : UInt8} (h : kind c = .atSign) : c = atSign := by
  unfold kind at h
  split_ifs at h
  assumption

theorem isDigit_iff {c : UInt8} : isDigit c = true ↔ kind c = .digit := by
  constructor
  · intro h
    have hne : ∀ x : UInt8, isDigit x = false → c ≠ x := fun x hx he => by
      rw [he,hx] at h
      cases h
    unfold kind
    rw [if_neg (hne _ (by decide)),if_neg (hne _ (by decide)),if_neg (hne _ (by decide)),
      if_neg (hne _ (by decide)),if_neg (hne _ (by decide)),if_pos h]
  · intro h
    unfold kind at h
    split_ifs at h
    assumption

/-- A text of one class of characters. -/
structure Span (cl : CharClass) where
  text : Text
  all : ∀ c ∈ text, cl.mem c = true

/-- One of at least one character. -/
structure Word (cl : CharClass) extends Span cl where
  ne : text ≠ []

structure Authority where
  user : Option (Word .username × Option (Word .password))
  host : Word .host
  port : Option (Word .digit)

/-- What follows the authority. -/
structure Reference where
  path : Span .path
  query : Option (Span .query)
  fragment : Option (Span .any)

structure Uri where
  scheme : Option (Word .scheme)
  /-- What follows two slashes. -/
  authority : Option (Option Authority)
  reference : Reference
  begins : authority.isSome = true → reference.path.text = [] ∨ ∃ x, reference.path.text = slash::x
  notSlashes : authority = none → ¬[slash,slash] <+: reference.path.text
  notScheme : scheme = none → authority = none → ∀ x y, reference.path.text = x ++ colon::y →
    colon ∉ x → x = [] ∨ slash ∈ x

def passwordText : Option (Word .password) → Text
  | none => []
  | some w => colon::w.text

def userText : Option (Word .username × Option (Word .password)) → Text
  | none => []
  | some (u,w) => u.text ++ passwordText w ++ [atSign]

def portText : Option (Word .digit) → Text
  | none => []
  | some w => colon::w.text

def Authority.text (a : Authority) : Text := userText a.user ++ a.host.text ++ portText a.port

def queryText : Option (Span .query) → Text
  | none => []
  | some q => quest::q.text

def fragmentText : Option (Span .any) → Text
  | none => []
  | some f => sharp::f.text

def Reference.text (r : Reference) : Text :=
  r.path.text ++ (queryText r.query ++ fragmentText r.fragment)

def schemeText : Option (Word .scheme) → Text
  | none => []
  | some w => w.text ++ [colon]

def authorityText : Option (Option Authority) → Text
  | none => []
  | some none => [slash,slash]
  | some (some a) => [slash,slash] ++ a.text

def Uri.text (u : Uri) : Text := schemeText u.scheme ++ (authorityText u.authority ++ u.reference.text)

/-- Query and fragment behind a path that ends at `p`. -/
def tailComponents (q : Option (Span .query)) (f : Option (Span .any)) (p : ℕ) (c : UrlComponents) :
    UrlComponents :=
  let c := match q with
    | none => c
    | some q => { c with query := ⟨(p+1 : ℕ),q.text.length⟩ }
  match f with
  | none => c
  | some f => { c with ref := ⟨(p+(queryText q).length+1 : ℕ),f.text.length⟩ }

/-- The components of a text that begins at `p`, set in `c`. -/
def Reference.components (r : Reference) (p : ℕ) (c : UrlComponents) : UrlComponents :=
  tailComponents r.query r.fragment (p+r.path.text.length) { c with path := ⟨p,r.path.text.length⟩ }

def userComponents (user : Option (Word .username × Option (Word .password))) (p : ℕ)
    (c : UrlComponents) : UrlComponents :=
  match user with
  | none => c
  | some (u,none) => { c with username := ⟨p,u.text.length⟩ }
  | some (u,some w) => { c with
      username := ⟨p,u.text.length⟩, password := ⟨(p+u.text.length+1 : ℕ),w.text.length⟩ }

def portComponents (port : Option (Word .digit)) (p : ℕ) (c : UrlComponents) : UrlComponents :=
  match port with
  | none => c
  | some w => { c with port := ⟨(p+1 : ℕ),w.text.length⟩ }

def Authority.components (a : Authority) (p : ℕ) (c : UrlComponents) : UrlComponents :=
  let hostBegin := p+(userText a.user).length
  portComponents a.port (hostBegin+a.host.text.length)
    { userComponents a.user p c with host := ⟨hostBegin,a.host.text.length⟩ }

def schemeComponents (w : Option (Word .scheme)) (c : UrlComponents) : UrlComponents :=
  match w with
  | none => c
  | some w => { c with scheme := ⟨0,w.text.length⟩ }

def authorityComponents (a : Option (Option Authority)) (p : ℕ) (c : UrlComponents) :
    UrlComponents :=
  match a with
  | some (some a) => a.components (p+2) c
  | _ => c

/-- Each present component where it was put, and all others reset. -/
def Uri.components (u : Uri) : UrlComponents :=
  let p := (schemeText u.scheme).length
  u.reference.components (p+(authorityText u.authority).length)
    (authorityComponents u.authority p (schemeComponents u.scheme resetUrlComponents))

/-- The digits a password begins with. -/
def leadingDigits (a : Authority) : Text :=
  match a.user with
  | some (_,some w) => w.text.takeWhile isDigit
  | _ => []

end UriParser
end FreshPlayer
