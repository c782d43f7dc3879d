import FreshPlayer.UriReading

/-! What one character and the end of the text do in each state of the machine. -/
namespace FreshPlayer
namespace UriParser

open Ragel

/-- The path begins or goes on, or has ended. -/
def Phase.beginsRest : Phase → Bool
  | .path | .queryStart | .fragmentStart => true
  | _ => false

theorem next_rest {d : Phase} {k : Kind} (hk : (d.next k).beginsRest = true) :
    d.next k = .path ∧ d.fired k = d.settle ∨
      (d.next k = .queryStart ∨ d.next k = .fragmentStart) ∧ d.fired k = d.finals := by
  cases d <;> cases k <;>
    first
    | exact .inl ⟨rfl,rfl⟩
    | exact .inr ⟨.inl rfl,rfl⟩
    | exact .inr ⟨.inr rfl,rfl⟩
    | cases hk

theorem LeftPort.passed {d : Phase} {x : Text} {c : UInt8} (h : LeftPort d x)
    (hk : (d.next (kind c)).beginsRest = true) : Passed (x ++ [c]) := by
  cases d with
  | path => exact Passed.snoc h c
  | host =>
    refine Taken.passed h ?_ ?_
    · unfold CharClass.mem
      cases hc : kind c <;> rw [hc] at hk <;> first | rfl | cases hk
    · rintro rfl
      exact absurd hk (by decide)
  | hostColon =>
    obtain ⟨y,rfl,hy⟩ := h
    refine hy.passedColon ?_
    by_contra hc
    rw [isDigit_iff.mp (by simpa using hc)] at hk
    cases hk
  | _ => exact h.elim

theorem LeftPort.passwordForPort {d : Phase} {x : Text} (h : LeftPort d x) : PasswordForPort x := by
  cases d with
  | path => exact Passed.passwordForPort h
  | host =>
    have hends : EndsHost [] := by rintro _ _ ⟨⟩
    simpa using Taken.passwordForPort h hends
  | hostColon =>
    obtain ⟨y,rfl,hy⟩ := h
    refine hy.passwordForPort ?_
    rintro _ _ ⟨⟩
    exact ⟨by decide,fun _ _ _ hnil => by cases hnil⟩
  | _ => exact h.elim

section Steps

variable {T : Prop} {b e m n : ℕ} {h r : UrlComponent} {x : Text} {v : Vars} {d : Phase}
  {c : UInt8} {k : Kind}

theorem Settled.finPath (hs : Settled T n v) :
    Placed T [(act .finPath n v).components.path] n (act .finPath n v).components ∧
      (act .finPath n v).components.query = resetUrlComponent ∧
      (act .finPath n v).components.ref = resetUrlComponent := by
  obtain ⟨m,hp,hm,hplaced,hquery,href⟩ := hs
  have hv : act .finPath n v = { v with components.path := ⟨m,n-m⟩ } := by
    simp only [act,hp,setUrlComponent]
  rw [hv]
  exact ⟨hplaced.append (.reported le_rfl hm le_rfl),hquery,href⟩

theorem Settled.mono (hs : Settled T m v) (hm : m ≤ n) : Settled T n v := by
  obtain ⟨q,hp,hq,hrest⟩ := hs
  exact ⟨q,hp,hq.trans hm,hrest⟩

/-- Where the authority cannot go on, the path begins, or is empty. -/
theorem Reads.leave (hread : Reads x v d) (hk : kind c = k) (hd : d.beforeQuery = true)
    (hrest : (d.next k).beginsRest = true) :
    Reads (x ++ [c]) (fire act (d.fired k) x.length v) (d.next k) := by
  subst hk
  have hlen : x.length ≤ (x ++ [c]).length := by simp
  have hleft : Settled (Passed (x ++ [c])) x.length (fire act d.settle x.length v) :=
    (hread.settle hd).imp fun hleft => hleft.passed hrest
  obtain ⟨hnext,hfired⟩ | ⟨hnext,hfired⟩ := next_rest hrest
  · rw [hnext,hfired]
    exact .path (hleft.mono hlen)
  · obtain ⟨hplaced,hquery,href⟩ := hleft.finPath
    rw [hfired,fire_finals hd]
    obtain hnext | hnext := hnext <;> rw [hnext]
    · exact .queryStart (hplaced.mono hlen) href
    · refine .fragmentStart ?_
      rw [hquery]
      exact (hplaced.append (.reset le_rfl)).mono hlen

theorem mem_of_kind {cl : CharClass} (hk : kind c = k) (hmem : cl.memKind k = true) :
    cl.mem c = true := by
  rw [CharClass.mem,hk]
  exact hmem

theorem Reads.step_slash (hx : Begins x)
    (hf : Fronts x.length resetUrlComponent resetUrlComponent v) (hw : v.mark.password = none)
    (hk : kind c = .slash) : Reads (x ++ [c]) (act .markPath x.length v) .slash := by
  rw [kind_eq_slash hk]
  exact .slash rfl hx hf rfl hw

theorem Reads.step_schemeColon (w : Word .scheme)
    (hf : Fronts 0 resetUrlComponent resetUrlComponent v) (hs : v.mark.scheme = some 0)
    (hw : v.mark.password = none) (hk : kind c = .colon) :
    Reads (w.text ++ [c]) (act .finScheme w.text.length v) .schemeEnd := by
  obtain ⟨s,hs',_⟩ := hf
  have hv : act .finScheme w.text.length v =
      { v with components.scheme := ⟨(0 : ℕ),w.text.length-(0 : ℕ)⟩ } := by
    simp only [act,hs,setUrlComponent]
  have hlen : w.text.length ≤ (w.text ++ [c]).length := by simp
  rw [hv]
  refine .schemeEnd ⟨some w,by rw [kind_eq_colon hk]; rfl⟩ ⟨_,by rw [hs'],?_⟩ hw
  exact .reported le_rfl (Nat.zero_le _) hlen

theorem NameRead.keep (hn : NameRead b e r v) {v' : Vars} (hc : v'.components = v.components)
    (hu : v'.mark.username = v.mark.username) (he : v'.endUsername = v.endUsername) :
    NameRead b e r v' := by
  refine ⟨hn.lt,?_,hu.trans hn.username,he.trans hn.endUsername⟩
  unfold Fronts
  rw [hc]
  exact hn.fronts

/-- The name has ended, as a user and as a host. -/
theorem NameRead.fin (hb : b < n) (hf : Fronts b h resetUrlComponent v)
    (hu : v.mark.username = some b) (hh : v.mark.host = some b) :
    NameRead b n resetUrlComponent (fire act [.finUsername,.finHost,.markPath] n v) := by
  refine ⟨hb,hf.setHost _ ?_,hu,rfl⟩
  simp only [fire_cons,fire_nil,act,hh,setUrlComponent]

/-- The digits have ended, as a port. -/
theorem NameRead.finPort (hn : NameRead b e r v) (hr : v.mark.port = some m) :
    NameRead b e ⟨m,n-m⟩ (act .finPort n v) := by
  refine ⟨hn.lt,hn.fronts.setPort _ ?_,hn.username,hn.endUsername⟩
  simp only [act,hr,setUrlComponent]

/-- At the first character of a host user and password are reported. -/
theorem HostRead.begin {q : ℕ} (hn : NameRead b e r v) (hm : m ≤ q)
    (hr : v.mark.password = none ∧ r = resetUrlComponent ∧ e ≤ m ∨
      v.mark.password = some (e+1) ∧ v.endPassword = some q ∧ e+1 < q ∧ PortTried T e m r)
    (hq : q < n) :
    HostRead T [(act .finUserpass n v).components.scheme,(act .finUserpass n v).components.username,
      (act .finUserpass n v).components.password] n (act .finUserpass n v).components := by
  obtain ⟨s,hs,hchain⟩ := hn.fronts
  obtain ⟨hw,rfl,he⟩ | ⟨hw,hend,he,hr⟩ := hr
  · have hv : (act .finUserpass n v).components =
        { v.components with username := ⟨b,e-b⟩ } := by
      simp [act,hn.username,hn.endUsername,hw,setUrlComponent]
    rw [hv,hs]
    refine ⟨hchain.append (.reported le_rfl hn.lt.le (.reset ?_)),.inl rfl,rfl,rfl⟩
    exact (he.trans hm).trans hq.le
  · have hv : (act .finUserpass n v).components = { v.components with
        username := ⟨b,e-b⟩, password := ⟨(e+1 : ℕ),q-(e+1 : ℕ)⟩ } := by
      simp [act,hn.username,hn.endUsername,hw,hend,setUrlComponent]
    rw [hv,hs]
    refine ⟨hchain.append (.reported le_rfl hn.lt.le (.reported (Nat.le_succ e) he.le hq.le)),
      ?_,rfl,rfl⟩
    obtain ⟨rfl,_⟩ | ⟨ht,rfl,hlt⟩ := hr
    · exact .inl rfl
    · exact .inr ⟨ht,e+1,m,q,rfl,rfl,hlt,hm⟩

theorem PortTried.imp {T' : Prop} (hr : PortTried T e m r) (hT : T → T') : PortTried T' e m r := by
  obtain hr | ⟨ht,hr⟩ := hr
  · exact .inl hr
  · exact .inr ⟨hT ht,hr⟩

theorem HostRead.imp {T' : Prop} {l : List UrlComponent} {C : UrlComponents}
    (hr : HostRead T l n C) (hT : T → T') : HostRead T' l n C :=
  ⟨hr.chain,hr.port.imp_right (And.imp_left hT),hr.query,hr.ref⟩

theorem Placed.finQuery (hp : Placed T [v.components.path] b v.components)
    (hq : v.mark.query = some b) (hb : b ≤ n) :
    Placed T [v.components.path,(act .finQuery n v).components.query] n
      (act .finQuery n v).components := by
  have hv : act .finQuery n v = { v with components.query := ⟨b,n-b⟩ } := by
    simp only [act,hq,setUrlComponent]
  rw [hv]
  exact hp.append (.reported le_rfl hb le_rfl)

/-- What one character does. -/
theorem Reads.step (hread : Reads x v d) (hk : kind c = k) :
    Reads (x ++ [c]) (fire act (d.fired k) x.length v) (d.next k) := by
  have hleave := hread.leave hk
  have hlen : (x ++ [c]).length = x.length+1 := List.length_append
  cases hread with
  | start hx hf hw =>
    cases k with
    | colon | quest | sharp => exact hleave rfl rfl
    | slash => exact .step_slash ⟨none,hx⟩ (hf.mono (Nat.zero_le _)) hw hk
    | atSign | digit | other =>
      subst hx
      exact .schemeOrPath (.single c (mem_of_kind hk rfl)) rfl hf rfl rfl hw
  | schemeOrPath w hx hf hs hp hw =>
    subst hx
    cases k with
    | slash | quest | sharp => exact hleave rfl rfl
    | colon => exact .step_schemeColon w hf hs hw hk
    | atSign | digit | other =>
      exact .schemeOrPath (w.snoc c (mem_of_kind hk rfl)) rfl hf hs hp hw
  | schemeEnd hx hf hw =>
    cases k with
    | slash => exact .step_slash hx hf hw hk
    | colon | quest | sharp | atSign | digit | other => exact hleave rfl rfl
  | @slash y hx hy hf hp hw =>
    subst hx
    cases k with
    | slash =>
      rw [kind_eq_slash hk]
      refine .slashes (List.append_assoc ..) hy (hf.mono ?_) hw
      simp
    | colon | quest | sharp | atSign | digit | other => exact hleave rfl rfl
  | slashes hx hy hf hw =>
    cases k with
    | digit | other =>
      have hname := hy.named (mem_of_kind hk rfl)
      rw [← hx] at hname
      exact .userOrHost hname (by omega) hf rfl rfl hw
    | colon | slash | quest | sharp | atSign => exact hleave rfl rfl
  | userOrHost hx hb hf hu hh hw =>
    have hn := NameRead.fin hb hf hu hh
    cases k with
    | colon =>
      rw [kind_eq_colon hk]
      exact .userColon rfl hx hn rfl
    | atSign =>
      rw [kind_eq_atSign hk]
      exact .userEnd rfl hn rfl le_rfl (.inl ⟨hw,rfl,le_rfl⟩)
    | digit | other =>
      exact .userOrHost (hx.snoc (mem_of_kind hk rfl)) (by omega) (hf.setHost _ rfl) hu hh hw
    | slash | quest | sharp => exact hleave rfl rfl
  | @userColon y b hx hy hn hp =>
    subst hx
    have hcolon : (y ++ [colon]).length = y.length+1 := List.length_append
    have hpos : some (y ++ [colon]).length = some (y.length+1) := congrArg some hcolon
    have hn' : NameRead b y.length resetUrlComponent (act .markPassword (y ++ [colon]).length v) :=
      hn.keep rfl rfl rfl
    cases k with
    | colon | other =>
      exact .password (by omega) hn' hpos hp (by omega) (.inl ⟨rfl,le_rfl⟩)
    | digit =>
      have htried := hy.tried (mem_of_kind hk rfl) (isDigit_iff.mpr hk)
      exact .passwordOrPort htried (by omega) (hn.keep rfl rfl rfl) hpos hpos
    | slash | quest | sharp | atSign => exact hleave rfl rfl
  | @passwordOrPort b e r hx he hn hw hr =>
    have hn' := hn.finPort (n := x.length) hr
    cases k with
    | colon | other =>
      have htried := hx.snoc (mem_of_kind hk rfl)
      exact .password (by omega) (hn'.keep rfl rfl rfl) hw rfl (by omega)
        (.inr ⟨htried,rfl,he⟩)
    | digit =>
      exact .passwordOrPort (hx.snoc (mem_of_kind hk rfl)) (by omega)
        (hn'.keep rfl rfl rfl) hw hr
    | atSign =>
      rw [kind_eq_atSign hk]
      exact .userEnd rfl (hn'.keep rfl rfl rfl) rfl le_rfl
        (.inr ⟨hw,rfl,he,.inr ⟨hx,rfl,he⟩⟩)
    | slash | quest | sharp => exact hleave rfl rfl
  | password he hn hw hp hm hr =>
    cases k with
    | colon | digit | other =>
      have htried := hr.imp fun ht => ht.snoc (mem_of_kind hk rfl)
      exact .password (by omega) hn hw hp (by omega) htried
    | atSign =>
      rw [kind_eq_atSign hk]
      exact .userEnd rfl (hn.keep rfl rfl rfl) hp hm (.inr ⟨hw,rfl,he,hr⟩)
    | slash | quest | sharp => exact hleave rfl rfl
  | @userEnd y b e m r hx hn hp hm hr =>
    subst hx
    cases k with
    | digit | other =>
      have hat : (y ++ [atSign]).length = y.length+1 := List.length_append
      have hread := HostRead.begin (n := (y ++ [atSign]).length) hn hm hr (by omega)
      have htaken := hread.imp fun ht => ht.taken (mem_of_kind hk rfl)
      exact .host (by omega) rfl htaken
    | colon | slash | quest | sharp | atSign => exact hleave rfl rfl
  | host hb hh h =>
    cases k with
    | colon =>
      rw [kind_eq_colon hk]
      exact .hostColon rfl rfl (h.finHost hh hb.le)
    | digit | other =>
      have htaken := h.imp fun ht => ht.snoc (mem_of_kind hk rfl)
      exact .host (by omega) hh ⟨htaken.chain,htaken.port,htaken.query,htaken.ref⟩
    | slash | quest | sharp | atSign => exact hleave rfl rfl
  | @hostColon y hx hp h =>
    have hy : y.length ≤ x.length := by simp [hx]
    cases k with
    | digit => exact .port (by omega) rfl (h.chain.mono hy) h.query h.ref
    | colon | slash | quest | sharp | atSign | other => exact hleave rfl rfl
  | port hb hr h hquery href =>
    cases k with
    | digit => exact .port (by omega) hr h hquery href
    | colon | slash | quest | sharp | atSign | other => exact hleave rfl rfl
  | path h => cases k <;> exact hleave rfl rfl
  | queryStart h href =>
    have hpassed := h.imp fun ht => ht.snoc c
    cases k with
    | sharp =>
      have hfin := Placed.finQuery (v := act .markQuery x.length v) hpassed rfl le_rfl
      exact .fragmentStart (hfin.mono (by omega))
    | colon | slash | quest | atSign | digit | other => exact .query rfl (by omega) hpassed href
  | query hq hb h href =>
    have hpassed := h.imp fun ht => ht.snoc c
    cases k with
    | sharp => exact .fragmentStart ((hpassed.finQuery hq hb).mono (by omega))
    | colon | slash | quest | atSign | digit | other => exact .query hq (by omega) hpassed href
  | fragmentStart h =>
    have hpassed := h.imp fun ht => ht.snoc c
    cases k <;> exact .fragment rfl (by omega) hpassed
  | fragment hf hb h =>
    have hpassed := h.imp fun ht => ht.snoc c
    cases k <;> exact .fragment hf (by omega) hpassed

theorem Placed.finFragment
    (hp : Placed T [v.components.path,v.components.query] b v.components)
    (hf : v.mark.fragment = some b) (hb : b ≤ n) :
    Placed T [v.components.path,v.components.query,(act .finFragment n v).components.ref] n
      (act .finFragment n v).components := by
  have hv : act .finFragment n v = { v with components.ref := ⟨b,n-b⟩ } := by
    simp only [act,hf,setUrlComponent]
  rw [hv]
  exact hp.append (.reported le_rfl hb le_rfl)

/-- What the actions at the end of the text leave. -/
theorem Reads.finish (hread : Reads x v d) :
    Placed (PasswordForPort x) [(fire act d.finals x.length v).components.path,
      (fire act d.finals x.length v).components.query,(fire act d.finals x.length v).components.ref]
      x.length (fire act d.finals x.length v).components := by
  by_cases hd : d.beforeQuery = true
  · have hleft := (hread.settle hd).imp LeftPort.passwordForPort
    obtain ⟨hplaced,hquery,href⟩ := hleft.finPath
    rw [fire_finals hd,hquery,href]
    exact hplaced.append (.reset (.reset le_rfl))
  · cases hread with
    | queryStart h href =>
      have hfin := Placed.finQuery (v := act .markQuery x.length v)
        (h.imp Passed.passwordForPort) rfl le_rfl
      have href' : (fire act Phase.queryStart.finals x.length v).components.ref =
        resetUrlComponent := href
      rw [href']
      exact hfin.append (.reset le_rfl)
    | query hq hb h href =>
      have hfin := (h.imp Passed.passwordForPort).finQuery hq hb
      have href' : (fire act Phase.query.finals x.length v).components.ref =
        resetUrlComponent := href
      rw [href']
      exact hfin.append (.reset le_rfl)
    | fragmentStart h =>
      exact Placed.finFragment (v := act .markFragment x.length v)
        (h.imp Passed.passwordForPort) rfl le_rfl
    | fragment hf hb h => exact (h.imp Passed.passwordForPort).finFragment hf hb
    | _ => exact absurd rfl hd

end Steps

end UriParser
end FreshPlayer
