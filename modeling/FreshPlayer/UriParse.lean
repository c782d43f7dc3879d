import FreshPlayer.UriText

/-! What the machine does on a URI put together from its components, piece by piece. -/
namespace FreshPlayer
namespace UriParser

open Ragel

def walk (d : Phase) (p : ℕ) (s : Text) (v : Vars) : Phase × Vars := table.walk kind act d p s v

def run (d : Phase) (p : ℕ) (s : Text) (v : Vars) : Vars := table.run kind act d p s v

/-- The machine is its table. -/
theorem uriParserParseUri_eq (s : Text) :
    uriParserParseUri s = (run .start 0 s Vars.init).components := by
  have heq : Ragel.run mainRule.actions CharClass.mem act (table.alternatives .start) 0 s Vars.init =
      table.run kind act .start 0 s Vars.init := table_correct.run_eq (fun _ => rfl) ..
  exact congrArg Vars.components heq

theorem run_nil (d : Phase) (p : ℕ) (v : Vars) : run d p [] v = fire act d.finals p v := rfl

theorem run_cons (d : Phase) (p : ℕ) (c : UInt8) (s : Text) (v : Vars) :
    run d p (c::s) v = run (d.next (kind c)) (p+1) s (fire act (d.fired (kind c)) p v) :=
  Table.run_cons d p c s v

theorem walk_cons (d : Phase) (p : ℕ) (c : UInt8) (s : Text) (v : Vars) :
    walk d p (c::s) v = walk (d.next (kind c)) (p+1) s (fire act (d.fired (kind c)) p v) := rfl

/-- Read the rest after a part whose effect is known. -/
theorem run_through {d d' : Phase} {p : ℕ} {xs : Text} {v v' : Vars} (h : walk d p xs v = (d',v'))
    (ys : Text) : run d p (xs ++ ys) v = run d' (p+xs.length) ys v' := by
  have happend : run d p (xs ++ ys) v = table.run kind act (table.walk kind act d p xs v).1
      (p+xs.length) ys (table.walk kind act d p xs v).2 := Table.run_append ..
  have hwalk : table.walk kind act d p xs v = (d',v') := h
  rwa [hwalk] at happend

theorem walk_through {d d' : Phase} {p : ℕ} {xs : Text} {v v' : Vars} (h : walk d p xs v = (d',v'))
    (ys : Text) : walk d p (xs ++ ys) v = walk d' (p+xs.length) ys v' := by
  have happend : walk d p (xs ++ ys) v = table.walk kind act (table.walk kind act d p xs v).1
      (p+xs.length) ys (table.walk kind act d p xs v).2 := Table.walk_append ..
  have hwalk : table.walk kind act d p xs v = (d',v') := h
  rwa [hwalk] at happend

theorem walk_idle {d : Phase} {s : Text}
    (h : ∀ c ∈ s, d.next (kind c) = d ∧ d.fired (kind c) = []) (p : ℕ) (v : Vars) :
    walk d p s v = (d,v) :=
  Table.walk_idle (fun c hc => (h c hc).1) (fun c hc => (h c hc).2) p v

@[simp] theorem fire_nil (p : ℕ) (v : Vars) : fire act [] p v = v := rfl

@[simp] theorem fire_cons (a : UriAction) (as : List UriAction) (p : ℕ) (v : Vars) :
    fire act (a::as) p v = fire act as p (act a p v) := rfl

@[simp] theorem setUrlComponent_add (c : UrlComponent) (b n : ℕ) :
    setUrlComponent c (some b) (some (b+n)) = ⟨b,n⟩ := by
  simp [setUrlComponent]

@[simp] theorem setUrlComponent_self (c : UrlComponent) (b : ℕ) :
    setUrlComponent c (some b) (some b) = ⟨b,0⟩ := by
  simp [setUrlComponent]

/-- Behind a query or a fragment nothing ends but these. -/
def Phase.beforeQuery : Phase → Bool
  | .queryStart | .query | .fragmentStart | .fragment => false
  | _ => true

def Phase.beforeFragment : Phase → Bool
  | .fragmentStart | .fragment => false
  | _ => true

theorem next_quest {d : Phase} (h : d.beforeQuery = true) :
    d.next .quest = .queryStart ∧ d.fired .quest = d.finals := by
  cases d <;> first | exact ⟨rfl,rfl⟩ | cases h

theorem next_sharp {d : Phase} (h : d.beforeFragment = true) :
    d.next .sharp = .fragmentStart ∧ d.fired .sharp = d.finals := by
  cases d <;> first | exact ⟨rfl,rfl⟩ | cases h

theorem run_fragmentStart (s : Text) (p : ℕ) (v : Vars) :
    (run .fragmentStart p s v).components = { v.components with ref := ⟨p,s.length⟩ } := by
  cases s with
  | nil => simp [run_nil,Phase.finals,act]
  | cons c s =>
    have hidle : ∀ v', walk .fragment (p+1) s v' = (.fragment,v') :=
      walk_idle (fun _ _ => ⟨rfl,rfl⟩) (p+1)
    have hlen : p+1+s.length = p+(s.length+1) := by omega
    have hrun := run_through (hidle (act .markFragment p v)) []
    rw [List.append_nil,hlen] at hrun
    rw [run_cons]
    change (run .fragment (p+1) s (act .markFragment p v)).components = _
    rw [hrun,run_nil]
    simp [Phase.finals,act]

theorem run_fragmentText {d : Phase} (h : d.beforeFragment = true) (f : Option (Span .any)) (p : ℕ)
    (v : Vars) : (run d p (fragmentText f) v).components =
      tailComponents none f p (fire act d.finals p v).components := by
  cases f with
  | none => rfl
  | some f =>
    rw [fragmentText,run_cons]
    change (run (d.next .sharp) (p+1) f.text (fire act (d.fired .sharp) p v)).components = _
    rw [(next_sharp h).1,(next_sharp h).2,run_fragmentStart]
    rfl

theorem next_query {c : UInt8} (h : CharClass.query.mem c = true) :
    (Phase.next .query (kind c) = .query ∧ Phase.fired .query (kind c) = []) ∧
      Phase.next .queryStart (kind c) = .query ∧ Phase.fired .queryStart (kind c) = [.markQuery] := by
  unfold CharClass.mem at h
  cases hk : kind c <;> rw [hk] at h <;> first | exact ⟨⟨rfl,rfl⟩,rfl,rfl⟩ | cases h

theorem run_queryStart (q : Span .query) (f : Option (Span .any)) (p : ℕ) (v : Vars) :
    (run .queryStart p (q.text ++ fragmentText f) v).components =
      tailComponents none f (p+q.text.length) { v.components with query := ⟨p,q.text.length⟩ } := by
  obtain ⟨s,hs⟩ := q
  cases s with
  | nil =>
    rw [List.nil_append,run_fragmentText rfl]
    simp [Phase.finals,act]
  | cons c s =>
    have hidle : ∀ v', walk .query (p+1) s v' = (.query,v') :=
      walk_idle (fun x hx => (next_query (hs x (List.mem_cons_of_mem c hx))).1) (p+1)
    have hc := (next_query (hs c List.mem_cons_self)).2
    have hlen : p+1+s.length = p+(s.length+1) := by omega
    rw [List.cons_append,run_cons,hc.1,hc.2,run_through (hidle _),hlen,run_fragmentText rfl]
    simp [Phase.finals,act]

/-- Query and fragment, read where the path can end. -/
theorem run_tail {d : Phase} (h : d.beforeQuery = true) (q : Option (Span .query))
    (f : Option (Span .any)) (p : ℕ) (v : Vars) :
    (run d p (queryText q ++ fragmentText f) v).components =
      tailComponents q f p (fire act d.finals p v).components := by
  cases q with
  | none =>
    have hd : d.beforeFragment = true := by cases d <;> first | rfl | cases h
    exact run_fragmentText hd f p v
  | some q =>
    have hpos : p+1+q.text.length = p+(q.text.length+1) := by omega
    rw [queryText,List.cons_append,run_cons]
    change (run (d.next .quest) (p+1) _ (fire act (d.fired .quest) p v)).components = _
    rw [(next_quest h).1,(next_quest h).2,run_queryStart,hpos]
    rfl

theorem next_path {c : UInt8} (h : CharClass.path.mem c = true) :
    Phase.next .path (kind c) = .path ∧ Phase.fired .path (kind c) = [] := by
  unfold CharClass.mem at h
  cases hk : kind c <;> rw [hk] at h <;> first | exact ⟨rfl,rfl⟩ | cases h

/-- The rest of a path that began at `b`, and what follows. -/
theorem run_path {s : Text} (hs : ∀ c ∈ s, CharClass.path.mem c = true) (q : Option (Span .query))
    (f : Option (Span .any)) {b n : ℕ} {v : Vars} (hb : v.mark.path = some b) :
    (run .path (b+n) (s ++ (queryText q ++ fragmentText f)) v).components =
      tailComponents q f (b+(n+s.length)) { v.components with path := ⟨b,(n+s.length : ℕ)⟩ } := by
  have hidle := walk_idle (fun c hc => next_path (hs c hc)) (b+n) v
  rw [run_through hidle,run_tail rfl,Nat.add_assoc]
  simp only [Phase.finals,Phase.leaves,Phase.beginsPath,List.nil_append,Bool.false_eq_true,if_false,
    fire_cons,fire_nil,act,hb,setUrlComponent_add]

/-- A path begins with a slash or is empty, where something else has ended. -/
theorem run_reference {d : Phase} (hd : d.beginsPath = true) (hstart : d ≠ .start ∧ d ≠ .schemeEnd)
    {r : Reference} (hr : r.path.text = [] ∨ ∃ x, r.path.text = slash::x) (p : ℕ) (v : Vars) :
    (run d p r.text v).components = r.components p (fire act d.leaves p v).components := by
  have hbefore : d.beforeQuery = true := by cases d <;> first | rfl | cases hd
  have hfinals : d.finals = d.leaves ++ [.markPath,.finPath] := by
    cases d <;> first | rfl | cases hd
  have hslash : d.next .slash = .path ∧ d.fired .slash = d.leaves ++ [.markPath] := by
    cases d <;> first | exact ⟨rfl,rfl⟩ | exact absurd rfl hstart.1 | exact absurd rfl hstart.2 | cases hd
  have hfire : ∀ as bs : List UriAction, fire act (as ++ bs) p v = fire act bs p (fire act as p v) :=
    fun as bs => List.foldl_append ..
  unfold Reference.text Reference.components
  obtain hr | ⟨x,hr⟩ := hr
  · rw [hr,List.nil_append,run_tail hbefore,hfinals,hfire]
    simp [act]
  · have hx : ∀ c ∈ x, CharClass.path.mem c = true :=
      fun c hc => r.path.all c (by rw [hr]; exact List.mem_cons_of_mem _ hc)
    rw [hr,List.cons_append,run_cons]
    change (run (d.next .slash) (p+1) _ (fire act (d.fired .slash) p v)).components = _
    rw [hslash.1,hslash.2,hfire,run_path hx _ _ rfl,Nat.add_comm 1]
    simp [act]

theorem next_afterSlash {c : UInt8} (h : CharClass.path.mem c = true) (hs : c ≠ slash) :
    Phase.next .slash (kind c) = .path ∧ Phase.fired .slash (kind c) = [] := by
  unfold CharClass.mem at h
  cases hk : kind c <;> rw [hk] at h <;>
    first | exact ⟨rfl,rfl⟩ | exact absurd (kind_eq_slash hk) hs | cases h

/-- After a first slash a path goes on, unless there is a second one. -/
theorem run_slash {s : Text} (hs : ∀ c ∈ s, CharClass.path.mem c = true)
    (hss : ¬[slash] <+: s) (q : Option (Span .query)) (f : Option (Span .any)) {b : ℕ} {v : Vars}
    (hb : v.mark.path = some b) :
    (run .slash (b+1) (s ++ (queryText q ++ fragmentText f)) v).components =
      tailComponents q f (b+(1+s.length)) { v.components with path := ⟨b,(1+s.length : ℕ)⟩ } := by
  cases s with
  | nil =>
    rw [List.nil_append,run_tail rfl]
    simp only [Phase.finals,Phase.leaves,Phase.beginsPath,List.nil_append,Bool.false_eq_true,if_false,
      fire_cons,fire_nil,act,hb,setUrlComponent_add,List.length_nil,Nat.add_zero]
  | cons c s =>
    have hc : c ≠ slash := fun h => hss ⟨s,by rw [h]; rfl⟩
    have hnext := next_afterSlash (hs c List.mem_cons_self) hc
    have hrest : ∀ x ∈ s, CharClass.path.mem x = true := fun x hx => hs x (List.mem_cons_of_mem c hx)
    rw [List.cons_append,run_cons,hnext.1,hnext.2,fire_nil,Nat.add_assoc,run_path hrest _ _ hb,
      List.length_cons]
    have hlen : 1+1+s.length = 1+(s.length+1) := by omega
    rw [hlen]

/-- A path after a scheme. -/
theorem run_schemeEnd {r : Reference} (hr : ¬[slash,slash] <+: r.path.text) (p : ℕ) (v : Vars) :
    (run .schemeEnd p r.text v).components = r.components p v.components := by
  unfold Reference.text Reference.components
  obtain ⟨⟨s,hs⟩,q,f⟩ := r
  cases s with
  | nil =>
    rw [List.nil_append,run_tail rfl]
    simp [Phase.finals,Phase.leaves,Phase.beginsPath,act]
  | cons c s =>
    have hrest : ∀ x ∈ s, CharClass.path.mem x = true := fun x hx => hs x (List.mem_cons_of_mem c hx)
    by_cases hc : c = slash
    · subst hc
      have hss : ¬[slash] <+: s := fun h => hr (List.cons_prefix_cons.mpr ⟨rfl,h⟩)
      rw [List.cons_append,run_cons]
      change (run .slash (p+1) _ (act .markPath p v)).components = _
      rw [run_slash hrest hss _ _ rfl,Nat.add_comm 1]
      rfl
    · have hnext : Phase.next .schemeEnd (kind c) = .path ∧
          Phase.fired .schemeEnd (kind c) = [.markPath] := by
        have hcl := hs c List.mem_cons_self
        unfold CharClass.mem at hcl
        cases hk : kind c <;> rw [hk] at hcl <;>
          first | exact ⟨rfl,rfl⟩ | exact absurd (kind_eq_slash hk) hc | cases hcl
      rw [List.cons_append,run_cons,hnext.1,hnext.2,run_path hrest _ _ rfl,Nat.add_comm 1]
      rfl

/-- A path that could still be a scheme, as long as no colon comes before a slash. -/
theorem run_schemeOrPath {s : Text} (hs : ∀ c ∈ s, CharClass.path.mem c = true)
    (hcolon : ∀ x y, s = x ++ colon::y → colon ∉ x → slash ∈ x) (q : Option (Span .query))
    (f : Option (Span .any)) {b n : ℕ} {v : Vars} (hb : v.mark.path = some b) :
    (run .schemeOrPath (b+n) (s ++ (queryText q ++ fragmentText f)) v).components =
      tailComponents q f (b+(n+s.length)) { v.components with path := ⟨b,(n+s.length : ℕ)⟩ } := by
  induction s generalizing n with
  | nil =>
    rw [List.nil_append,run_tail rfl]
    simp only [Phase.finals,Phase.leaves,Phase.beginsPath,List.nil_append,Bool.false_eq_true,if_false,
      fire_cons,fire_nil,act,hb,setUrlComponent_add,List.length_nil,Nat.add_zero]
  | cons c s ih =>
    have hrest : ∀ x ∈ s, CharClass.path.mem x = true := fun x hx => hs x (List.mem_cons_of_mem c hx)
    have hlen : n+1+s.length = n+(s.length+1) := by omega
    have hne : c ≠ colon := fun h => by simpa using hcolon [] s (by rw [h]; rfl) (by simp)
    rw [List.cons_append,run_cons,Nat.add_assoc,List.length_cons,← hlen]
    by_cases hc : c = slash
    · subst hc
      exact run_path hrest q f hb
    · have hnext : Phase.next .schemeOrPath (kind c) = .schemeOrPath ∧
          Phase.fired .schemeOrPath (kind c) = [] := by
        have hcl := hs c List.mem_cons_self
        unfold CharClass.mem at hcl
        cases hk : kind c <;> rw [hk] at hcl <;>
          first
          | exact ⟨rfl,rfl⟩
          | exact absurd (kind_eq_slash hk) hc
          | exact absurd (kind_eq_colon hk) hne
          | cases hcl
      rw [hnext.1,hnext.2]
      refine ih hrest fun x y hxy hx => ?_
      have hx := hcolon (c::x) y (congrArg (c::·) hxy) (by simpa using ⟨hne.symm,hx⟩)
      obtain hx | hx := List.mem_cons.mp hx
      · exact absurd hx.symm hc
      · exact hx

/-- A text that is only a path, a query and a fragment. -/
theorem run_start {r : Reference} (hr : ¬[slash,slash] <+: r.path.text)
    (hcolon : ∀ x y, r.path.text = x ++ colon::y → colon ∉ x → x = [] ∨ slash ∈ x) (v : Vars) :
    (run .start 0 r.text v).components = r.components 0 v.components := by
  unfold Reference.text Reference.components
  obtain ⟨⟨s,hs⟩,q,f⟩ := r
  cases s with
  | nil =>
    rw [List.nil_append,run_tail rfl]
    simp [Phase.finals,Phase.leaves,Phase.beginsPath,act]
  | cons c s =>
    have hrest : ∀ x ∈ s, CharClass.path.mem x = true := fun x hx => hs x (List.mem_cons_of_mem c hx)
    rw [List.cons_append,run_cons]
    by_cases hc : c = slash
    · subst hc
      have hss : ¬[slash] <+: s := fun h => hr (List.cons_prefix_cons.mpr ⟨rfl,h⟩)
      change (run .slash (0+1) _ (act .markPath 0 v)).components = _
      rw [run_slash hrest hss _ _ rfl,Nat.add_comm 1]
      rfl
    by_cases hc' : c = colon
    · subst hc'
      change (run .path (0+1) _ (act .markPath 0 v)).components = _
      rw [run_path hrest _ _ rfl,Nat.add_comm 1]
      rfl
    · have hnext : Phase.next .start (kind c) = .schemeOrPath ∧
          Phase.fired .start (kind c) = [.markScheme,.markPath] := by
        have hcl := hs c List.mem_cons_self
        unfold CharClass.mem at hcl
        cases hk : kind c <;> rw [hk] at hcl <;>
          first
          | exact ⟨rfl,rfl⟩
          | exact absurd (kind_eq_slash hk) hc
          | exact absurd (kind_eq_colon hk) hc'
          | cases hcl
      have hlater : ∀ x y, s = x ++ colon::y → colon ∉ x → slash ∈ x := by
        intro x y hxy hx
        obtain hx | hx := hcolon (c::x) y (congrArg (c::·) hxy) (by simpa using ⟨Ne.symm hc',hx⟩)
        · cases hx
        obtain hx | hx := List.mem_cons.mp hx
        · exact absurd hx.symm hc
        · exact hx
      rw [hnext.1,hnext.2,run_schemeOrPath hrest hlater _ _ rfl,Nat.add_comm 1]
      rfl

theorem next_scheme {c : UInt8} (h : CharClass.scheme.mem c = true) :
    (Phase.next .start (kind c) = .schemeOrPath ∧
      Phase.fired .start (kind c) = [.markScheme,.markPath]) ∧
    Phase.next .schemeOrPath (kind c) = .schemeOrPath ∧ Phase.fired .schemeOrPath (kind c) = [] := by
  unfold CharClass.mem at h
  cases hk : kind c <;> rw [hk] at h <;> first | exact ⟨⟨rfl,rfl⟩,rfl,rfl⟩ | cases h

theorem walk_scheme (w : Word .scheme) (v : Vars) :
    walk .start 0 (w.text ++ [colon]) v = (.schemeEnd,{ v with
      mark.scheme := some 0, mark.path := some 0, components.scheme := ⟨0,w.text.length⟩ }) := by
  obtain ⟨⟨s,hs⟩,hne⟩ := w
  cases s with
  | nil => exact absurd rfl hne
  | cons c s =>
    have hc := (next_scheme (hs c List.mem_cons_self)).1
    have hidle := walk_idle (fun x hx => (next_scheme (hs x (List.mem_cons_of_mem c hx))).2) (0+1)
      (act .markPath 0 (act .markScheme 0 v))
    rw [List.cons_append,walk_cons,hc.1,hc.2,fire_cons,fire_cons,fire_nil,walk_through hidle]
    have hlen : 0+1+s.length = 0+(s.length+1) := by omega
    rw [hlen]
    change (Phase.schemeEnd,act .finScheme (0+(s.length+1)) _) = _
    simp only [act,setUrlComponent_add,List.length_cons,Nat.cast_zero]

theorem walk_slashes {d : Phase} (hd : d = .start ∨ d = .schemeEnd) (p : ℕ) (v : Vars) :
    walk d p [slash,slash] v = (.slashes,act .markPath p v) := by
  obtain rfl | rfl := hd <;> rfl

theorem next_name {c : UInt8} (h : CharClass.host.mem c = true) :
    (Phase.next .slashes (kind c) = .userOrHost ∧
      Phase.fired .slashes (kind c) = [.markUsername,.markHost,.markPath]) ∧
    (Phase.next .userOrHost (kind c) = .userOrHost ∧
      Phase.fired .userOrHost (kind c) = [.finHost,.markPath]) ∧
    (Phase.next .userEnd (kind c) = .host ∧
      Phase.fired .userEnd (kind c) = [.finUserpass,.markHost]) ∧
    Phase.next .host (kind c) = .host ∧ Phase.fired .host (kind c) = [.finHost,.markPath] := by
  unfold CharClass.mem at h
  cases hk : kind c <;> rw [hk] at h <;>
    first | exact ⟨⟨rfl,rfl⟩,⟨rfl,rfl⟩,⟨rfl,rfl⟩,rfl,rfl⟩ | cases h

/-- Each further character of a name ends the host and begins the path anew. -/
theorem walk_name {d : Phase} {s : Text} (h : ∀ c ∈ s, d.next (kind c) = d ∧
    d.fired (kind c) = [.finHost,.markPath]) (p : ℕ) (v : Vars) :
    ∃ path host, walk d p s v = (d,{ v with mark.path := path, components.host := host }) := by
  let P : ℕ → Vars → Prop := fun _ v' =>
    ∃ path host, v' = { v with mark.path := path, components.host := host }
  have hstep : ∀ p v', P p v' → P (p+1) (fire act [.finHost,.markPath] p v') := by
    rintro p _ ⟨path,host,rfl⟩
    exact ⟨some p,_,rfl⟩
  have hloop : (walk d p s v).1 = d ∧ P (p+s.length) (walk d p s v).2 :=
    Table.walk_loop P (fun c hc => (h c hc).1) (fun c hc => (h c hc).2) hstep ⟨v.mark.path,v.components.host,rfl⟩
  obtain ⟨path,host,hw⟩ := hloop.2
  exact ⟨path,host,Prod.ext hloop.1 hw⟩

/-- A first name is read as a user and as a host. -/
theorem walk_userOrHost {s : Text} (hs : ∀ c ∈ s, CharClass.host.mem c = true) (hne : s ≠ [])
    (p : ℕ) (v : Vars) : ∃ path host, walk .slashes p s v = (.userOrHost,{ v with
      mark.username := some p, mark.host := some p, mark.path := path, endUsername := some p
      components.host := host }) := by
  cases s with
  | nil => exact absurd rfl hne
  | cons c s =>
    have hc := (next_name (hs c List.mem_cons_self)).1
    obtain ⟨path,host,hw⟩ := walk_name (fun x hx => (next_name (hs x (List.mem_cons_of_mem c hx))).2.1)
      (p+1) (fire act [.markUsername,.markHost,.markPath] p v)
    exact ⟨path,host,by rw [walk_cons,hc.1,hc.2,hw]; rfl⟩

theorem walk_host (w : Word .host) (p : ℕ) (v : Vars) :
    ∃ path host, walk .userEnd p w.text v = (.host,{ act .finUserpass p v with
      mark := { v.mark with host := some p, path := path }
      components := { (act .finUserpass p v).components with host := host } }) := by
  obtain ⟨⟨s,hs⟩,hne⟩ := w
  have hmark : (act .finUserpass p v).mark = v.mark := by
    simp only [act]
    split_ifs <;> rfl
  cases s with
  | nil => exact absurd rfl hne
  | cons c s =>
    have hc := (next_name (hs c List.mem_cons_self)).2.2.1
    obtain ⟨path,host,hw⟩ := walk_name (fun x hx => (next_name (hs x (List.mem_cons_of_mem c hx))).2.2.2)
      (p+1) (fire act [.finUserpass,.markHost] p v)
    refine ⟨path,host,?_⟩
    rw [walk_cons,hc.1,hc.2,hw,fire_cons,fire_cons,fire_nil,← hmark]
    rfl

theorem next_port {c : UInt8} (h : CharClass.digit.mem c = true) :
    (Phase.next .userColon (kind c) = .passwordOrPort ∧
      Phase.fired .userColon (kind c) = [.markPassword,.markPort]) ∧
    (Phase.next .passwordOrPort (kind c) = .passwordOrPort ∧
      Phase.fired .passwordOrPort (kind c) = [.finPort,.markPath]) ∧
    (Phase.next .hostColon (kind c) = .port ∧ Phase.fired .hostColon (kind c) = [.markPort]) ∧
    Phase.next .port (kind c) = .port ∧ Phase.fired .port (kind c) = [.finPort,.markPath] := by
  unfold CharClass.mem at h
  cases hk : kind c <;> rw [hk] at h <;>
    first | exact ⟨⟨rfl,rfl⟩,⟨rfl,rfl⟩,⟨rfl,rfl⟩,rfl,rfl⟩ | cases h

/-- Each further digit ends the port and begins the path anew. -/
theorem walk_digits {d : Phase} {s : Text} (h : ∀ c ∈ s, d.next (kind c) = d ∧
    d.fired (kind c) = [.finPort,.markPath]) (p : ℕ) (v : Vars) :
    ∃ path port, walk d p s v = (d,{ v with mark.path := path, components.port := port }) := by
  let P : ℕ → Vars → Prop := fun _ v' =>
    ∃ path port, v' = { v with mark.path := path, components.port := port }
  have hstep : ∀ p v', P p v' → P (p+1) (fire act [.finPort,.markPath] p v') := by
    rintro p _ ⟨path,port,rfl⟩
    exact ⟨some p,_,rfl⟩
  have hloop : (walk d p s v).1 = d ∧ P (p+s.length) (walk d p s v).2 :=
    Table.walk_loop P (fun c hc => (h c hc).1) (fun c hc => (h c hc).2) hstep ⟨v.mark.path,v.components.port,rfl⟩
  obtain ⟨path,port,hw⟩ := hloop.2
  exact ⟨path,port,Prod.ext hloop.1 hw⟩

/-- The rest of a port that began at `b`, and what follows the authority. -/
theorem run_port {d : Phase} (hd : d = .passwordOrPort ∨ d = .port) {s : Text}
    (hs : ∀ c ∈ s, CharClass.digit.mem c = true) {r : Reference}
    (hr : r.path.text = [] ∨ ∃ x, r.path.text = slash::x) {b : ℕ} {v : Vars}
    (hb : v.mark.port = some b) : (run d (b+1) (s ++ r.text) v).components =
      r.components (b+(1+s.length)) { v.components with port := ⟨b,(1+s.length : ℕ)⟩ } := by
  have hnext : ∀ c ∈ s, d.next (kind c) = d ∧ d.fired (kind c) = [.finPort,.markPath] := by
    intro c hc
    obtain rfl | rfl := hd
    · exact (next_port (hs c hc)).2.1
    · exact (next_port (hs c hc)).2.2.2
  have hphase : d.beginsPath = true ∧ (d ≠ .start ∧ d ≠ .schemeEnd) ∧ d.leaves = [.finPort] := by
    obtain rfl | rfl := hd <;> exact ⟨rfl,by decide,rfl⟩
  obtain ⟨path,port,hw⟩ := walk_digits hnext (b+1) v
  rw [run_through hw,run_reference hphase.1 hphase.2.1 hr,hphase.2.2,Nat.add_assoc]
  simp only [fire_cons,fire_nil,act,hb,setUrlComponent_add]

/-- A host that began at `b` ends at `b+n`, and a port may follow. -/
theorem run_hostEnd {d : Phase} (hd : d = .userOrHost ∨ d = .host) (port : Option (Word .digit))
    {r : Reference} (hr : r.path.text = [] ∨ ∃ x, r.path.text = slash::x) {b n : ℕ} {v : Vars}
    (hb : v.mark.host = some b) : (run d (b+n) (portText port ++ r.text) v).components =
      r.components (b+n+(portText port).length)
        (portComponents port (b+n) { v.components with host := ⟨b,n⟩ }) := by
  cases port with
  | none =>
    have hphase : d.beginsPath = true ∧ (d ≠ .start ∧ d ≠ .schemeEnd) ∧ d.leaves = [.finHost] := by
      obtain rfl | rfl := hd <;> exact ⟨rfl,by decide,rfl⟩
    rw [portText,List.nil_append,run_reference hphase.1 hphase.2.1 hr,hphase.2.2]
    simp only [fire_cons,fire_nil,act,hb,setUrlComponent_add,portComponents,List.length_nil,Nat.add_zero]
  | some w =>
    obtain ⟨⟨s,hs⟩,hne⟩ := w
    cases s with
    | nil => exact absurd rfl hne
    | cons c s =>
      have hrest : ∀ x ∈ s, CharClass.digit.mem x = true :=
        fun x hx => hs x (List.mem_cons_of_mem c hx)
      have hc := next_port (hs c List.mem_cons_self)
      have hlen : b+n+1+(1+s.length) = b+n+(s.length+1+1) := by omega
      have hcomp : portComponents (some ⟨⟨c::s,hs⟩,hne⟩) (b+n) { v.components with host := ⟨b,n⟩ } =
          { v.components with host := ⟨b,n⟩, port := ⟨(b+n+1 : ℕ),(1+s.length : ℕ)⟩ } := by
        rw [portComponents,List.length_cons,Nat.add_comm 1]
      rw [hcomp,portText,List.cons_append,List.cons_append,run_cons,run_cons]
      simp only [List.length_cons]
      rw [← hlen]
      obtain rfl | rfl := hd
      · change (run (Phase.next .userColon (kind c)) (b+n+1+1) (s ++ r.text)
          (fire act (Phase.fired .userColon (kind c)) (b+n+1)
            (fire act [.finUsername,.finHost,.markPath] (b+n) v))).components = _
        rw [hc.1.1,hc.1.2,run_port (.inl rfl) hrest hr rfl]
        simp only [fire_cons,fire_nil,act,hb,setUrlComponent_add]
      · change (run (Phase.next .hostColon (kind c)) (b+n+1+1) (s ++ r.text)
          (fire act (Phase.fired .hostColon (kind c)) (b+n+1)
            (fire act [.finHost,.markPath] (b+n) v))).components = _
        rw [hc.2.2.1.1,hc.2.2.1.2,run_port (.inr rfl) hrest hr rfl]
        simp only [fire_cons,fire_nil,act,hb,setUrlComponent_add]

/-- The port that is left behind by the digits a password begins with. -/
def stalePort (digits : Text) (p : ℕ) (c : UrlComponent) : UrlComponent :=
  if digits = [] then c else ⟨p,digits.length⟩

theorem next_password {c : UInt8} (h : CharClass.password.mem c = true) :
    (Phase.next .password (kind c) = .password ∧ Phase.fired .password (kind c) = []) ∧
    (isDigit c = false →
      (Phase.next .userColon (kind c) = .password ∧
        Phase.fired .userColon (kind c) = [.markPassword]) ∧
      Phase.next .passwordOrPort (kind c) = .password ∧
        Phase.fired .passwordOrPort (kind c) = [.finPort,.markPath]) := by
  unfold CharClass.mem at h
  cases hk : kind c <;> rw [hk] at h <;>
    first
    | exact ⟨⟨rfl,rfl⟩,fun _ => ⟨⟨rfl,rfl⟩,rfl,rfl⟩⟩
    | exact ⟨⟨rfl,rfl⟩,fun hd => by rw [isDigit_iff.mpr hk] at hd; cases hd⟩
    | cases h

theorem mem_digit {c : UInt8} (h : isDigit c = true) : CharClass.digit.mem c = true := by
  rw [CharClass.mem,isDigit_iff.mp h]
  rfl

/-- The rest of a password after its digits. -/
theorem walk_password {s : Text} (hs : ∀ c ∈ s, CharClass.password.mem c = true) (p : ℕ) (v : Vars) :
    walk .password p (s ++ [atSign]) v =
      (.userEnd,{ v with endPassword := some (p+s.length) }) := by
  rw [walk_through (walk_idle (fun c hc => (next_password (hs c hc)).1) p v)]
  rfl

theorem walk_passwordText (w : Word .password) (p : ℕ) (v : Vars) :
    ∃ port path, walk .userColon p (w.text ++ [atSign]) v = (.userEnd,{ v with
      mark.password := some p, mark.port := port, mark.path := path
      endPassword := some (p+w.text.length)
      components.port := stalePort (w.text.takeWhile isDigit) p v.components.port }) := by
  obtain ⟨⟨s,hs⟩,hne⟩ := w
  cases s with
  | nil => exact absurd rfl hne
  | cons c s =>
    have hrest : ∀ x ∈ s, CharClass.password.mem x = true := fun x hx => hs x (List.mem_cons_of_mem c hx)
    have hlen : p+1+s.length = p+(s.length+1) := by omega
    cases hc : isDigit c with
    | false =>
      have hnext := ((next_password (hs c List.mem_cons_self)).2 hc).1
      refine ⟨v.mark.port,v.mark.path,?_⟩
      rw [List.cons_append,walk_cons,hnext.1,hnext.2,walk_password hrest,hlen]
      simp [act,stalePort,hc]
    | true =>
      have hnext := (next_port (mem_digit hc)).1
      have hdigits : ∀ x ∈ s.takeWhile isDigit, CharClass.digit.mem x = true :=
        fun x hx => mem_digit (List.mem_takeWhile_imp hx)
      obtain ⟨path,port,hw⟩ := walk_digits (fun x hx => (next_port (hdigits x hx)).2.1) (p+1)
        (act .markPort p (act .markPassword p v))
      have hsplit : s ++ [atSign] = s.takeWhile isDigit ++ (s.dropWhile isDigit ++ [atSign]) := by
        rw [← List.append_assoc,List.takeWhile_append_dropWhile]
      have hcount : (s.takeWhile isDigit).length+(s.dropWhile isDigit).length = s.length := by
        rw [← List.length_append,List.takeWhile_append_dropWhile]
      have hend : p+1+(s.takeWhile isDigit).length = p+((s.takeWhile isDigit).length+1) := by omega
      refine ⟨some p,some (p+((s.takeWhile isDigit).length+1)),?_⟩
      rw [List.cons_append,walk_cons,hnext.1,hnext.2,fire_cons,fire_cons,fire_nil,hsplit,
        walk_through hw,hend]
      cases hd : s.dropWhile isDigit with
      | nil =>
        rw [hd,List.length_nil,Nat.add_zero] at hcount
        change (Phase.userEnd,fire act [.finPassword,.finPort,.markPath] _ _) = _
        simp [act,stalePort,hc,hcount]
      | cons y ys =>
        rw [hd,List.length_cons] at hcount
        have hy : isDigit y = false := by
          have hhead := List.head?_dropWhile_not isDigit s
          rw [hd] at hhead
          simpa using hhead
        have hmem : ∀ x ∈ y::ys, CharClass.password.mem x = true := fun x hx => hrest x (by
          rw [← hd] at hx
          exact List.dropWhile_subset _ hx)
        have hynext := ((next_password (hmem y List.mem_cons_self)).2 hy).2
        have hpos : p+((s.takeWhile isDigit).length+1)+1+ys.length = p+(s.length+1) := by omega
        rw [List.cons_append,walk_cons,hynext.1,hynext.2,
          walk_password fun x hx => hmem x (List.mem_cons_of_mem y hx),hpos]
        simp [act,stalePort,hc]

/-- What the machine reports of user and password: the port it tried is not taken back. -/
def userReported (user : Option (Word .username × Option (Word .password))) (p : ℕ)
    (c : UrlComponents) : UrlComponents :=
  match user with
  | some (u,some w) => { userComponents user p c with
      port := stalePort (w.text.takeWhile isDigit) (p+u.text.length+1) c.port }
  | _ => userComponents user p c

def Authority.reported (a : Authority) (p : ℕ) (c : UrlComponents) : UrlComponents :=
  let hostBegin := p+(userText a.user).length
  portComponents a.port (hostBegin+a.host.text.length)
    { userReported a.user p c with host := ⟨hostBegin,a.host.text.length⟩ }

/-- User and password, which the first character of the host then reports. -/
theorem walk_userText (u : Word .username) (w : Option (Word .password)) (p q : ℕ) {v : Vars}
    (hv : v.mark.password = none) : ∃ v' host, walk .slashes p (userText (some (u,w))) v = (.userEnd,v') ∧
      (act .finUserpass q v').components = { userReported (some (u,w)) p v.components with
        host := host } := by
  obtain ⟨v',hw,huser,hhost,hpass,x,hcomp⟩ : ∃ v', walk .slashes p u.text v = (.userOrHost,v') ∧
      v'.mark.username = some p ∧ v'.mark.host = some p ∧ v'.mark.password = none ∧
      ∃ host, v'.components = { v.components with host := host } := by
    obtain ⟨path,host,hw⟩ := walk_userOrHost (s := u.text) u.all u.ne p v
    exact ⟨_,hw,rfl,rfl,hv,host,rfl⟩
  cases w with
  | none =>
    refine ⟨fire act [.finUsername,.finHost,.markPath] (p+u.text.length) v',⟨p,u.text.length⟩,?_,?_⟩
    · rw [userText,passwordText,List.append_nil,walk_through hw]
      rfl
    · simp only [fire_cons,fire_nil,act,huser,hhost,hpass,hcomp,Option.isSome_some,Option.isSome_none,
        if_true,Bool.false_eq_true,if_false,setUrlComponent_add,userReported,userComponents]
  | some w =>
    obtain ⟨port,path,hp⟩ := walk_passwordText w (p+u.text.length+1)
      (fire act [.finUsername,.finHost,.markPath] (p+u.text.length) v')
    have hcolon : walk .slashes p (userText (some (u,some w))) v = walk .userColon (p+u.text.length+1)
        (w.text ++ [atSign]) (fire act [.finUsername,.finHost,.markPath] (p+u.text.length) v') := by
      rw [userText,passwordText,List.append_assoc,walk_through hw,List.cons_append,walk_cons]
      rfl
    refine ⟨_,⟨p,u.text.length⟩,hcolon.trans hp,?_⟩
    simp only [fire_cons,fire_nil,act,huser,hhost,hcomp,Option.isSome_some,if_true,setUrlComponent_add,
      userReported,userComponents]

theorem run_authority (a : Authority) {r : Reference}
    (hr : r.path.text = [] ∨ ∃ x, r.path.text = slash::x) (p : ℕ) {v : Vars}
    (hv : v.mark.password = none) : (run .slashes p (a.text ++ r.text) v).components =
      r.components (p+a.text.length) (a.reported p v.components) := by
  obtain ⟨user,host,port⟩ := a
  cases user with
  | none =>
    obtain ⟨path,x,hw⟩ := walk_userOrHost host.all host.ne p v
    simp only [Authority.text,Authority.reported,userText,userReported,userComponents,List.nil_append,
      List.length_nil,Nat.add_zero,List.append_assoc]
    rw [run_through hw,run_hostEnd (.inl rfl) port hr rfl,List.length_append,Nat.add_assoc]
  | some user =>
    obtain ⟨u,w⟩ := user
    obtain ⟨v',x,hu,hreported⟩ := walk_userText u w p (p+(userText (some (u,w))).length) hv
    obtain ⟨path,y,hw⟩ := walk_host host (p+(userText (some (u,w))).length) v'
    simp only [Authority.text,Authority.reported,List.append_assoc]
    rw [run_through hu,run_through hw,run_hostEnd (.inr rfl) port hr rfl]
    simp only [hreported,List.length_append,Nat.add_assoc]

/-- What the parser reports of a URI. -/
def Uri.reported (u : Uri) : UrlComponents :=
  let p := (schemeText u.scheme).length
  let c := schemeComponents u.scheme resetUrlComponents
  u.reference.components (p+(authorityText u.authority).length) (match u.authority with
    | some (some a) => a.reported (p+2) c
    | _ => c)

theorem run_afterScheme {d : Phase} (hd : d = .start ∨ d = .schemeEnd) (a : Option Authority)
    {r : Reference} (hr : r.path.text = [] ∨ ∃ x, r.path.text = slash::x) (p : ℕ) {v : Vars}
    (hv : v.mark.password = none) : (run d p (authorityText (some a) ++ r.text) v).components =
      r.components (p+(authorityText (some a)).length) (match a with
        | some a => a.reported (p+2) v.components
        | none => v.components) := by
  have hslashes := walk_slashes hd p v
  cases a with
  | none =>
    rw [authorityText,run_through hslashes,run_reference rfl (by decide) hr]
    rfl
  | some a =>
    have hmark : (act .markPath p v).mark.password = none := hv
    rw [authorityText,List.append_assoc,run_through hslashes,List.length_append,← Nat.add_assoc]
    exact run_authority a hr _ hmark

/-- The parser, on every URI put together from components. -/
theorem uriParserParseUri_text (u : Uri) : uriParserParseUri u.text = u.reported := by
  rw [uriParserParseUri_eq]
  obtain ⟨scheme,authority,r,hbegins,hslashes,hscheme⟩ := u
  cases scheme with
  | none =>
    cases authority with
    | none =>
      have hrun := run_start (r := r) (hslashes rfl) (hscheme rfl rfl) Vars.init
      exact hrun
    | some a =>
      have hrun := run_afterScheme (.inl rfl) a (hbegins rfl) 0 (v := Vars.init) rfl
      refine Eq.trans hrun ?_
      cases a <;> rfl
  | some w =>
    have hw := walk_scheme w Vars.init
    have hlen : (schemeText (some w)).length = 0+(w.text ++ [colon]).length := (Nat.zero_add _).symm
    simp only [Uri.text,Uri.reported,hlen]
    rw [schemeText,run_through hw]
    cases authority with
    | none => exact run_schemeEnd (hslashes rfl) _ _
    | some a =>
      refine (run_afterScheme (.inr rfl) a (hbegins rfl) _ rfl).trans ?_
      cases a <;> rfl

end UriParser
end FreshPlayer
