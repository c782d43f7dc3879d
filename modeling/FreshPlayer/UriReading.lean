import FreshPlayer.UriLayout
import FreshPlayer.UriRoundTrip

/-! What holds in each state of the machine, with the text that has been read. -/
namespace FreshPlayer
namespace UriParser

open Ragel

/-- A host ends here, and no port follows. -/
def EndsHost (rest : Text) : Prop := ∀ c x, rest = c::x →
  CharClass.host.mem c = false ∧ (c = colon → ∀ d y, x = d::y → isDigit d = false)

/-- The authority has a password that begins with a digit, and no port. -/
def PasswordForPort (s : Text) : Prop :=
  ∃ (w : Option (Word .scheme)) (a : Authority) (rest : Text),
    s = schemeText w ++ (authorityText (some (some a)) ++ rest) ∧ a.LeavesPort ∧ EndsHost rest

section Texts

def Word.single {cl : CharClass} (c : UInt8) (hc : cl.mem c = true) : Word cl :=
  ⟨⟨[c],by simpa using hc⟩,by simp⟩

def Word.snoc {cl : CharClass} (w : Word cl) (c : UInt8) (hc : cl.mem c = true) : Word cl where
  text := w.text ++ [c]
  all x hx := by
    obtain hx | hx := List.mem_append.mp hx
    · exact w.all x hx
    · rwa [List.mem_singleton.mp hx]
  ne := by simp

/-- Nothing or a scheme has been read. -/
def Begins (x : Text) : Prop := ∃ w : Option (Word .scheme), x = schemeText w

/-- After two slashes, what may be a user. -/
def Named (x : Text) : Prop :=
  ∃ (y : Text) (u : Word .username), Begins y ∧ x = y ++ slash::slash::u.text

/-- What may be a password begins with a digit. -/
def Tried (x : Text) : Prop :=
  ∃ (y : Text) (w : Word .password), Named y ∧ x = y ++ colon::w.text ∧
    w.text.takeWhile isDigit ≠ []

/-- It was a password, and the host is being read. -/
def Taken (x : Text) : Prop := ∃ (y : Text) (h : Word .host), Tried y ∧ x = y ++ atSign::h.text

/-- The host has ended without a port. -/
def Passed (x : Text) : Prop := ∃ y rest, Taken y ∧ x = y ++ rest ∧ ∀ z, EndsHost (rest ++ z)

variable {x : Text} {c : UInt8}

theorem Begins.named (h : Begins x) (hc : CharClass.username.mem c = true) :
    Named (x ++ [slash,slash] ++ [c]) := by
  refine ⟨x,Word.single c hc,h,?_⟩
  simp [Word.single]

theorem Named.snoc (h : Named x) (hc : CharClass.username.mem c = true) : Named (x ++ [c]) := by
  obtain ⟨y,u,hy,rfl⟩ := h
  refine ⟨y,u.snoc c hc,hy,?_⟩
  simp [Word.snoc]

theorem Named.tried (h : Named x) (hc : CharClass.password.mem c = true) (hd : isDigit c = true) :
    Tried (x ++ [colon] ++ [c]) := by
  refine ⟨x,Word.single c hc,h,?_,?_⟩
  · simp [Word.single]
  · simp [Word.single,hd]

theorem Tried.snoc (h : Tried x) (hc : CharClass.password.mem c = true) : Tried (x ++ [c]) := by
  obtain ⟨y,w,hy,rfl,hw⟩ := h
  refine ⟨y,w.snoc c hc,hy,?_,?_⟩
  · simp [Word.snoc]
  · rw [Word.snoc,List.takeWhile_append]
    split_ifs
    · exact List.append_ne_nil_of_left_ne_nil w.ne _
    · exact hw

theorem Tried.taken (h : Tried x) (hc : CharClass.host.mem c = true) :
    Taken (x ++ [atSign] ++ [c]) := by
  refine ⟨x,Word.single c hc,h,?_⟩
  simp [Word.single]

theorem Taken.snoc (h : Taken x) (hc : CharClass.host.mem c = true) : Taken (x ++ [c]) := by
  obtain ⟨y,w,hy,rfl⟩ := h
  refine ⟨y,w.snoc c hc,hy,?_⟩
  simp [Word.snoc]

theorem Taken.passed (h : Taken x) (hc : CharClass.host.mem c = false) (hne : c ≠ colon) :
    Passed (x ++ [c]) := by
  refine ⟨x,[c],h,rfl,?_⟩
  rintro z _ _ ⟨⟩
  exact ⟨hc,fun heq => absurd heq hne⟩

theorem Taken.passedColon (h : Taken x) (hc : isDigit c = false) :
    Passed (x ++ [colon] ++ [c]) := by
  refine ⟨x,[colon,c],h,by simp,?_⟩
  rintro z _ _ ⟨⟩
  refine ⟨by decide,fun _ => ?_⟩
  rintro _ _ ⟨⟩
  exact hc

theorem Passed.snoc (h : Passed x) (c : UInt8) : Passed (x ++ [c]) := by
  obtain ⟨y,rest,hy,rfl,hrest⟩ := h
  refine ⟨y,rest ++ [c],hy,List.append_assoc ..,fun z => ?_⟩
  rw [List.append_assoc]
  exact hrest ([c] ++ z)

theorem Taken.passwordForPort (h : Taken x) {rest : Text} (hrest : EndsHost rest) :
    PasswordForPort (x ++ rest) := by
  obtain ⟨_,h,⟨_,w,⟨_,u,⟨sch,rfl⟩,rfl⟩,rfl,hw⟩,rfl⟩ := h
  refine ⟨sch,⟨some (u,some w),h,none⟩,rest,?_,⟨rfl,hw⟩,hrest⟩
  simp [authorityText,Authority.text,userText,passwordText,portText]

theorem Passed.passwordForPort (h : Passed x) : PasswordForPort x := by
  obtain ⟨y,rest,hy,rfl,hrest⟩ := h
  exact hy.passwordForPort (by simpa using hrest [])

end Texts

/-- Before the path, which begins at its mark. -/
def Settled (T : Prop) (n : ℕ) (v : Vars) : Prop :=
  ∃ m, v.mark.path = some m ∧ m ≤ n ∧ Placed T [] m v.components ∧
    v.components.query = resetUrlComponent ∧ v.components.ref = resetUrlComponent

/-- Behind the scheme, which ends before `b`, only a host and a port are reported. -/
def Fronts (b : ℕ) (h r : UrlComponent) (v : Vars) : Prop :=
  ∃ s, v.components = { resetUrlComponents with scheme := s, host := h, port := r } ∧ Chain [s] 0 b

/-- A name has been read from `b` to `e`, as a user and as a host. -/
structure NameRead (b e : ℕ) (r : UrlComponent) (v : Vars) : Prop where
  lt : b < e
  fronts : Fronts b ⟨b,e-b⟩ r v
  username : v.mark.username = some b
  endUsername : v.endUsername = some e

/-- A port that was tried behind a name up to `m`, or none. -/
def PortTried (T : Prop) (e m : ℕ) (r : UrlComponent) : Prop :=
  r = resetUrlComponent ∧ e ≤ m ∨ T ∧ r = ⟨(e+1 : ℕ),m-(e+1 : ℕ)⟩ ∧ e+1 < m

/-- The authority is reported before `n` up to its port, which may be left behind. -/
structure HostRead (T : Prop) (l : List UrlComponent) (n : ℕ) (c : UrlComponents) : Prop where
  chain : Chain l 0 n
  port : c.port = resetUrlComponent ∨ T ∧ PortInPassword c
  query : c.query = resetUrlComponent
  ref : c.ref = resetUrlComponent

/-- What holds in each state after the text `x`. -/
inductive Reads (x : Text) (v : Vars) : Phase → Prop
  | start (hx : x = []) (hf : Fronts 0 resetUrlComponent resetUrlComponent v)
      (hw : v.mark.password = none) : Reads x v .start
  | schemeOrPath (w : Word .scheme) (hx : x = w.text)
      (hf : Fronts 0 resetUrlComponent resetUrlComponent v) (hs : v.mark.scheme = some 0)
      (hp : v.mark.path = some 0) (hw : v.mark.password = none) : Reads x v .schemeOrPath
  | schemeEnd (hx : Begins x) (hf : Fronts x.length resetUrlComponent resetUrlComponent v)
      (hw : v.mark.password = none) : Reads x v .schemeEnd
  | slash {y : Text} (hx : x = y ++ [slash]) (hy : Begins y)
      (hf : Fronts y.length resetUrlComponent resetUrlComponent v)
      (hp : v.mark.path = some y.length) (hw : v.mark.password = none) : Reads x v .slash
  | slashes {y : Text} (hx : x = y ++ [slash,slash]) (hy : Begins y)
      (hf : Fronts x.length resetUrlComponent resetUrlComponent v)
      (hw : v.mark.password = none) : Reads x v .slashes
  | userOrHost {b : ℕ} {h : UrlComponent} (hx : Named x) (hb : b < x.length)
      (hf : Fronts b h resetUrlComponent v) (hu : v.mark.username = some b)
      (hh : v.mark.host = some b) (hw : v.mark.password = none) : Reads x v .userOrHost
  | userColon {y : Text} {b : ℕ} (hx : x = y ++ [colon]) (hy : Named y)
      (hn : NameRead b y.length resetUrlComponent v) (hp : v.mark.path = some y.length) :
      Reads x v .userColon
  | passwordOrPort {b e : ℕ} {r : UrlComponent} (hx : Tried x) (he : e+1 < x.length)
      (hn : NameRead b e r v) (hw : v.mark.password = some (e+1))
      (hr : v.mark.port = some (e+1)) : Reads x v .passwordOrPort
  | password {b e m : ℕ} {r : UrlComponent} (he : e+1 < x.length) (hn : NameRead b e r v)
      (hw : v.mark.password = some (e+1)) (hp : v.mark.path = some m) (hm : m ≤ x.length)
      (hr : PortTried (Tried x) e m r) : Reads x v .password
  | userEnd {y : Text} {b e m : ℕ} {r : UrlComponent} (hx : x = y ++ [atSign])
      (hn : NameRead b e r v) (hp : v.mark.path = some m) (hm : m ≤ y.length)
      (hr : v.mark.password = none ∧ r = resetUrlComponent ∧ e ≤ m ∨
        v.mark.password = some (e+1) ∧ v.endPassword = some y.length ∧ e+1 < y.length ∧
          PortTried (Tried y) e m r) : Reads x v .userEnd
  | host {b : ℕ} (hb : b < x.length) (hh : v.mark.host = some b)
      (h : HostRead (Taken x) [v.components.scheme,v.components.username,v.components.password] b
        v.components) : Reads x v .host
  | hostColon {y : Text} (hx : x = y ++ [colon]) (hp : v.mark.path = some y.length)
      (h : HostRead (Taken y) v.components.front y.length v.components) : Reads x v .hostColon
  | port {b : ℕ} (hb : b < x.length) (hr : v.mark.port = some b)
      (h : Chain v.components.front 0 b) (hquery : v.components.query = resetUrlComponent)
      (href : v.components.ref = resetUrlComponent) : Reads x v .port
  | path (h : Settled (Passed x) x.length v) : Reads x v .path
  | queryStart (h : Placed (Passed x) [v.components.path] x.length v.components)
      (href : v.components.ref = resetUrlComponent) : Reads x v .queryStart
  | query {b : ℕ} (hq : v.mark.query = some b) (hb : b ≤ x.length)
      (h : Placed (Passed x) [v.components.path] b v.components)
      (href : v.components.ref = resetUrlComponent) : Reads x v .query
  | fragmentStart
      (h : Placed (Passed x) [v.components.path,v.components.query] x.length v.components) :
      Reads x v .fragmentStart
  | fragment {b : ℕ} (hf : v.mark.fragment = some b) (hb : b ≤ x.length)
      (h : Placed (Passed x) [v.components.path,v.components.query] b v.components) :
      Reads x v .fragment

/-- Actions that settle where the path begins. -/
def Phase.settle (d : Phase) : List UriAction :=
  d.leaves ++ if d.beginsPath then [.markPath] else []

theorem fire_finals {d : Phase} (hd : d.beforeQuery = true) (n : ℕ) (v : Vars) :
    fire act d.finals n v = act .finPath n (fire act d.settle n v) := by
  have hfinals : d.finals = d.settle ++ [.finPath] := by
    cases d <;> first | rfl | cases hd
  rw [hfinals]
  exact List.foldl_append ..

/-- The text of a port left behind, where a state keeps one. -/
def LeftPort : Phase → Text → Prop
  | .host, x => Taken x
  | .hostColon, x => ∃ y, x = y ++ [colon] ∧ Taken y
  | .path, x => Passed x
  | _, _ => False

section Settling

variable {T : Prop} {b e m n : ℕ} {h r : UrlComponent} {x : Text} {v : Vars} {d : Phase}

theorem Settled.imp {T' : Prop} (h : Settled T n v) (hT : T → T') : Settled T' n v := by
  obtain ⟨m,hp,hm,h,hrest⟩ := h
  exact ⟨m,hp,hm,h.imp hT,hrest⟩

theorem Fronts.settled (hf : Fronts b h r v) (hc : Chain [h,r] b m) (hp : v.mark.path = some m)
    (hm : m ≤ n) : Settled T n v := by
  obtain ⟨s,hs,hchain⟩ := hf
  unfold Settled
  rw [hs]
  exact ⟨m,hp,hm,.inl (hchain.append (.reset (.reset hc))),rfl,rfl⟩

theorem Fronts.begun (hf : Fronts b h r v) (hc : Chain [h,r] b n) :
    Settled T n (act .markPath n v) := Fronts.settled (v := act .markPath n v) hf hc rfl le_rfl

theorem Fronts.mono (hf : Fronts b h r v) (hb : b ≤ m) : Fronts m h r v := by
  obtain ⟨s,hs,hchain⟩ := hf
  exact ⟨s,hs,hchain.mono hb⟩

/-- Another host has ended. -/
theorem Fronts.setHost (hf : Fronts b h r v) (h' : UrlComponent) {v' : Vars}
    (hv : v'.components = { v.components with host := h' }) : Fronts b h' r v' := by
  obtain ⟨s,hs,hchain⟩ := hf
  exact ⟨s,by rw [hv,hs],hchain⟩

/-- Another port has ended. -/
theorem Fronts.setPort (hf : Fronts b h r v) (r' : UrlComponent) {v' : Vars}
    (hv : v'.components = { v.components with port := r' }) : Fronts b h r' v' := by
  obtain ⟨s,hs,hchain⟩ := hf
  exact ⟨s,by rw [hv,hs],hchain⟩

theorem PortTried.chain (hr : PortTried T e m r) : Chain [r] e m := by
  obtain ⟨rfl,hm⟩ | ⟨_,rfl,hm⟩ := hr
  · exact .reset hm
  · exact .reported (Nat.le_succ e) hm.le le_rfl

theorem NameRead.settled (hn : NameRead b e r v) (hr : Chain [r] e m) (hp : v.mark.path = some m)
    (hm : m ≤ n) : Settled T n v :=
  hn.fronts.settled (.reported le_rfl hn.lt.le hr) hp hm

theorem HostRead.finHost (hr : HostRead T
      [v.components.scheme,v.components.username,v.components.password] b v.components)
    (hh : v.mark.host = some b) (hb : b ≤ n) :
    HostRead T (act .finHost n v).components.front n (act .finHost n v).components := by
  have hv : act .finHost n v = { v with components.host := ⟨b,n-b⟩ } := by
    simp only [act,hh,setUrlComponent]
  rw [hv]
  exact ⟨hr.chain.append (.reported le_rfl hb le_rfl),hr.port,hr.query,hr.ref⟩

theorem HostRead.settled (hh : HostRead T v.components.front m v.components)
    (hp : v.mark.path = some m) (hm : m ≤ n) : Settled T n v := by
  refine ⟨m,hp,hm,?_,hh.query,hh.ref⟩
  obtain hport | ⟨ht,hport⟩ := hh.port
  · refine .inl ?_
    rw [hport]
    exact hh.chain.append (.reset le_rfl)
  · exact .inr ⟨ht,hport,hh.chain⟩

/-- In every state before the query the path can be settled. -/
theorem Reads.settle (h : Reads x v d) (hd : d.beforeQuery = true) :
    Settled (LeftPort d x) x.length (fire act d.settle x.length v) := by
  cases h with
  | start hx hf hw => exact hf.begun (.reset (.reset (Nat.zero_le _)))
  | schemeOrPath w hx hf hs hp hw => exact hf.settled (.reset (.reset le_rfl)) hp (Nat.zero_le _)
  | schemeEnd hx hf hw => exact hf.begun (.reset (.reset le_rfl))
  | @slash y hx hy hf hp hw =>
    have hm : y.length ≤ x.length := by simp [hx]
    exact hf.settled (.reset (.reset le_rfl)) hp hm
  | slashes hx hy hf hw => exact hf.begun (.reset (.reset le_rfl))
  | @userOrHost b h hx hb hf hu hh hw =>
    have hfin : Fronts b ⟨b,x.length-b⟩ resetUrlComponent (act .finHost x.length v) :=
      hf.setHost _ (by simp only [act,hh,setUrlComponent])
    exact hfin.begun (.reported le_rfl hb.le (.reset le_rfl))
  | @userColon y b hx hy hn hp =>
    have hm : y.length ≤ x.length := by simp [hx]
    exact hn.settled (.reset le_rfl) hp hm
  | @passwordOrPort b e r hx he hn hw hr =>
    have hfin : Fronts b ⟨b,e-b⟩ ⟨(e+1 : ℕ),x.length-(e+1 : ℕ)⟩ (act .finPort x.length v) :=
      hn.fronts.setPort _ (by simp only [act,hr,setUrlComponent])
    exact hfin.begun (.reported le_rfl hn.lt.le (.reported (Nat.le_succ e) he.le le_rfl))
  | password he hn hw hp hm hr => exact hn.settled hr.chain hp hm
  | @userEnd y b e m r hx hn hp hm hr =>
    have hlen : y.length ≤ x.length := by simp [hx]
    have hchain : Chain [r] e m := by
      obtain ⟨_,rfl,hm⟩ | ⟨_,_,_,hr⟩ := hr
      · exact .reset hm
      · exact hr.chain
    exact hn.settled hchain hp (hm.trans hlen)
  | host hb hh h =>
    have hfin := h.finHost hh hb.le
    exact HostRead.settled (v := fire act [.finHost,.markPath] x.length v) hfin rfl le_rfl
  | @hostColon y hx hp h =>
    have hlen : y.length ≤ x.length := by simp [hx]
    have hleft : Settled (Taken y) x.length v := h.settled hp hlen
    exact hleft.imp fun hy => ⟨y,hx,hy⟩
  | @port b hb hr h hquery href =>
    have hv : act .finPort x.length v = { v with components.port := ⟨b,x.length-b⟩ } := by
      simp only [act,hr,setUrlComponent]
    change Settled _ x.length (act .markPath x.length (act .finPort x.length v))
    rw [hv]
    exact ⟨x.length,rfl,le_rfl,.inl (h.append (.reported le_rfl hb.le le_rfl)),hquery,href⟩
  | path h => exact h
  | queryStart => cases hd
  | query => cases hd
  | fragmentStart => cases hd
  | fragment => cases hd

end Settling

end UriParser
end FreshPlayer
