import FreshPlayer.UriRoundTrip

/-! What is extracted from a parsed URI. Where a password passes for a port, the authority
ends with the digits of the password. -/
namespace FreshPlayer
namespace UriParser

/-- What stands before the path. -/
def Uri.front (u : Uri) : Text := schemeText u.scheme ++ authorityText u.authority

/-- What is reported of it. -/
def Uri.frontReported (u : Uri) : UrlComponents :=
  match u.authority with
  | some (some a) =>
    a.reported ((schemeText u.scheme).length+2) (schemeComponents u.scheme resetUrlComponents)
  | _ => schemeComponents u.scheme resetUrlComponents

theorem Uri.text_front (u : Uri) : u.text = u.front ++ u.reference.text :=
  (List.append_assoc ..).symm

theorem uriParserParseUri_front (u : Uri) :
    uriParserParseUri u.text = u.reference.components u.front.length u.frontReported := by
  rw [uriParserParseUri_text,Uri.front,List.length_append]
  rfl

theorem Reference.components_eq (r : Reference) (p : ℕ) (c : UrlComponents) :
    r.components p c = { c with
      path := ⟨p,r.path.text.length⟩
      query := r.query.elim c.query fun q => ⟨(p+r.path.text.length+1 : ℕ),q.text.length⟩
      ref := r.fragment.elim c.ref fun f =>
        ⟨(p+r.path.text.length+(queryText r.query).length+1 : ℕ),f.text.length⟩ } := by
  obtain ⟨path,query,fragment⟩ := r
  cases query <;> cases fragment <;> rfl

theorem extractComponent_middle (xs ys zs : Text) :
    extractComponent (xs ++ (ys ++ zs)) ⟨xs.length,ys.length⟩ = ys := by
  simp [extractComponent]

theorem extractComponent_absent (s : Text) {c : UrlComponent} (h : c.len = -1) :
    extractComponent s c = [] := by
  simp [extractComponent,h]

theorem extract_path (pre : Text) (r : Reference) (c : UrlComponents) :
    extractComponent (pre ++ r.text) (r.components pre.length c).path = r.path.text := by
  rw [Reference.components_eq]
  exact extractComponent_middle pre r.path.text _

theorem extract_query (pre : Text) (r : Reference) {c : UrlComponents} (hc : c.query.len = -1) :
    extractComponent (pre ++ r.text) (r.components pre.length c).query =
      r.query.elim [] (·.text) := by
  rw [Reference.components_eq]
  cases hq : r.query with
  | none => exact extractComponent_absent _ hc
  | some q =>
    have hmiddle := extractComponent_middle (pre ++ (r.path.text ++ [quest])) q.text
      (fragmentText r.fragment)
    simpa [Reference.text,hq,queryText,Nat.add_assoc] using hmiddle

theorem extract_fragment (pre : Text) (r : Reference) {c : UrlComponents} (hc : c.ref.len = -1) :
    extractComponent (pre ++ r.text) (r.components pre.length c).ref =
      r.fragment.elim [] (·.text) := by
  rw [Reference.components_eq]
  cases hf : r.fragment with
  | none => exact extractComponent_absent _ hc
  | some f =>
    have hmiddle := extractComponent_middle
      (pre ++ (r.path.text ++ (queryText r.query ++ [sharp]))) f.text []
    simpa [Reference.text,hf,fragmentText,Nat.add_assoc] using hmiddle

/-- The authority leaves the other components alone. -/
theorem Authority.reported_frame (a : Authority) (p : ℕ) (c : UrlComponents) :
    (a.reported p c).scheme = c.scheme ∧ (a.reported p c).query = c.query ∧
      (a.reported p c).ref = c.ref := by
  obtain ⟨user,host,port⟩ := a
  obtain _ | ⟨u,_ | w⟩ := user <;> cases port <;> exact ⟨rfl,rfl,rfl⟩

/-- Where an authority with a host begins and ends, as reported. -/
def authorityBegin (c : UrlComponents) : ℤ :=
  if 0 ≤ c.username.len then c.username.begin
  else if 0 ≤ c.password.len then c.password.begin else c.host.begin

def authorityEnd (c : UrlComponents) : ℤ :=
  if 0 ≤ c.port.len then c.port.begin+c.port.len else c.host.begin+c.host.len

theorem extractAuthority_eq {s : Text} {c : UrlComponents} {p n : ℕ} (hhost : 0 ≤ c.host.len)
    (hbegin : authorityBegin c = p) (hend : authorityEnd c = (p+n : ℕ)) :
    extractAuthority s c = extractComponent s ⟨p,n⟩ := by
  unfold authorityBegin at hbegin
  unfold authorityEnd at hend
  simp only [extractAuthority,if_pos hhost,hbegin,hend]
  congr 2
  omega

/-- No part of an authority has been set yet. -/
def UrlComponents.NoAuthority (c : UrlComponents) : Prop :=
  c.username.len = -1 ∧ c.password.len = -1 ∧ c.host.len = -1 ∧ c.port.len = -1

theorem schemeComponents_noAuthority (w : Option (Word .scheme)) :
    (schemeComponents w resetUrlComponents).NoAuthority := by
  cases w <;> exact ⟨rfl,rfl,rfl,rfl⟩

/-- The authority is reported to begin where it does. -/
theorem Authority.reported_begin (a : Authority) (p : ℕ) {c : UrlComponents} (hc : c.NoAuthority) :
    authorityBegin (a.reported p c) = p := by
  obtain ⟨huser,hpass,_,_⟩ := hc
  obtain ⟨user,host,port⟩ := a
  obtain _ | ⟨u,_ | w⟩ := user <;> cases port <;>
    simp [authorityBegin,Authority.reported,portComponents,userReported,userComponents,userText,
      huser,hpass]

theorem Authority.reported_host (a : Authority) (p : ℕ) (c : UrlComponents) :
    (a.reported p c).host = ⟨(p+(userText a.user).length : ℕ),a.host.text.length⟩ := by
  obtain ⟨user,host,port⟩ := a
  cases port <;> rfl

theorem Authority.extract {a : Authority} (h : ¬a.LeavesPort) (pre tail : Text) {c : UrlComponents}
    (hc : c.NoAuthority) :
    extractAuthority (pre ++ (a.text ++ tail)) (a.reported pre.length c) = a.text := by
  have hhost := a.reported_host pre.length c
  have hend : authorityEnd (a.reported pre.length c) = (pre.length+a.text.length : ℕ) := by
    rw [authorityEnd,hhost,Authority.reported_eq h]
    unfold Authority.components Authority.text
    cases a.port with
    | none =>
      have hport : (userComponents a.user pre.length c).port.len = -1 := by
        rw [userComponents_port,hc.2.2.2]
      simp [portComponents,portText,hport]
      omega
    | some w =>
      simp [portComponents,portText]
      omega
  rw [extractAuthority_eq (by simp [hhost]) (a.reported_begin pre.length hc) hend,
    extractComponent_middle]

theorem password_mem_ne {c : UInt8} (h : CharClass.password.mem c = true) :
    c ∉ [slash,quest,sharp] := by
  have hslash : CharClass.password.mem slash = false := by decide
  have hquest : CharClass.password.mem quest = false := by decide
  have hsharp : CharClass.password.mem sharp = false := by decide
  intro hc
  simp only [List.mem_cons,List.not_mem_nil,or_false] at hc
  obtain rfl | rfl | rfl := hc
  · rw [hslash] at h
    cases h
  · rw [hquest] at h
    cases h
  · rw [hsharp] at h
    cases h

/-- Of an authority whose password passes for a port the rest is cut off. -/
theorem Authority.extract_leavesPort {a : Authority} (h : a.LeavesPort) (pre tail : Text)
    {c : UrlComponents} (hc : c.NoAuthority) :
    ∃ x y z, x ≠ [] ∧ a.text = x ++ y::z ∧ y ∉ [slash,quest,sharp] ∧
      extractAuthority (pre ++ (a.text ++ tail)) (a.reported pre.length c) = x := by
  have hbegin := a.reported_begin pre.length hc
  have hhost := a.reported_host pre.length c
  obtain ⟨user,host,port⟩ := a
  obtain ⟨hport,hdigits⟩ := h
  cases hport
  obtain _ | ⟨u,_ | w⟩ := user
  · exact absurd rfl hdigits
  · exact absurd rfl hdigits
  have hstale : stalePort (w.text.takeWhile isDigit) (pre.length+u.text.length+1) c.port =
      ⟨(pre.length+u.text.length+1 : ℕ),(w.text.takeWhile isDigit).length⟩ := if_neg hdigits
  have hwritten : ((⟨some (u,some w),host,none⟩ : Authority).reported pre.length c).port =
      ⟨(pre.length+u.text.length+1 : ℕ),(w.text.takeWhile isDigit).length⟩ := hstale
  let x := u.text ++ colon::w.text.takeWhile isDigit
  have hend : authorityEnd ((⟨some (u,some w),host,none⟩ : Authority).reported pre.length c) =
      (pre.length+x.length : ℕ) := by
    rw [authorityEnd,hwritten,if_pos (Int.natCast_nonneg _)]
    simp [x]
    omega
  obtain ⟨y,z,hrest,hy⟩ : ∃ y z, w.text.dropWhile isDigit ++ atSign::host.text = y::z ∧
      y ∉ [slash,quest,sharp] := by
    cases hd : w.text.dropWhile isDigit with
    | nil => exact ⟨atSign,host.text,rfl,by decide⟩
    | cons y ys =>
      have hmem : y ∈ w.text := List.dropWhile_subset isDigit (by simp [hd])
      exact ⟨y,ys ++ atSign::host.text,rfl,password_mem_ne (w.all y hmem)⟩
  have hw : w.text ++ atSign::host.text =
      w.text.takeWhile isDigit ++ (w.text.dropWhile isDigit ++ atSign::host.text) := by
    rw [← List.append_assoc,List.takeWhile_append_dropWhile]
  have htext : (⟨some (u,some w),host,none⟩ : Authority).text = x ++ y::z := by
    rw [← hrest]
    simp [Authority.text,userText,passwordText,portText,x,hw]
  refine ⟨x,y,z,by simp [x],htext,hy,?_⟩
  rw [extractAuthority_eq (by simp [hhost]) hbegin hend,htext,List.append_assoc,
    extractComponent_middle]

end UriParser
end FreshPlayer
