import FreshPlayer.UriSteps

/-! The components that the parser reports, on every text. -/
namespace FreshPlayer
namespace UriParser

open Ragel

/-- On every text the components come out one behind the other, but for a port left behind. -/
theorem parse_placed (s : Text) : Placed (PasswordForPort s)
    [(uriParserParseUri s).path,(uriParserParseUri s).query,(uriParserParseUri s).ref] s.length
    (uriParserParseUri s) := by
  have hstart : Reads [] Vars.init .start :=
    .start rfl ⟨resetUrlComponent,rfl,.reset le_rfl⟩ rfl
  obtain ⟨d,v,hread,hrun⟩ : ∃ d v, Reads s v d ∧
      run .start 0 s Vars.init = fire act d.finals s.length v :=
    Table.run_reads (I := fun d x v => Reads x v d) (fun h _ => h.step rfl) hstart s
  have heq : uriParserParseUri s = (fire act d.finals s.length v).components := by
    rw [uriParserParseUri_eq]
    exact congrArg Vars.components hrun
  rw [heq]
  exact hread.finish

/-- Only these two actions touch password and port. -/
def UriAction.keepsPort : UriAction → Bool
  | .finPort | .finUserpass => false
  | _ => true

theorem PortInPassword.fire {as : List UriAction} {v : Vars} (h : PortInPassword v.components)
    (has : as.all UriAction.keepsPort = true) (p : ℕ) :
    PortInPassword (fire act as p v).components := by
  induction as generalizing v with
  | nil => exact h
  | cons a as ih =>
    rw [List.all_cons,Bool.and_eq_true] at has
    obtain ⟨ha,has⟩ := has
    refine ih ?_ has
    cases a <;> first | exact h | exact absurd ha (by decide)

/-- Behind the authority. -/
def Phase.behind : Phase → Bool
  | .path | .queryStart | .query | .fragmentStart | .fragment => true
  | _ => false

theorem next_behind {d : Phase} (h : d.behind = true) (k : Kind) : (d.next k).behind = true ∧
    (d.fired k).all UriAction.keepsPort = true ∧ d.finals.all UriAction.keepsPort = true := by
  cases d <;> first | (cases k <;> exact ⟨rfl,rfl,rfl⟩) | cases h

theorem run_behind {d : Phase} (hd : d.behind = true) (s : Text) (p : ℕ) {v : Vars}
    (hv : PortInPassword v.components) : PortInPassword (run d p s v).components := by
  induction s generalizing d p v with
  | nil => exact hv.fire (next_behind hd .other).2.2 p
  | cons c s ih =>
    obtain ⟨hnext,hfired,_⟩ := next_behind hd (kind c)
    rw [run_cons]
    exact ih hnext _ (hv.fire hfired p)

theorem run_host {rest : Text} (hrest : EndsHost rest) (p : ℕ) {v : Vars}
    (hv : PortInPassword v.components) : PortInPassword (run .host p rest v).components := by
  cases rest with
  | nil => exact hv.fire rfl p
  | cons c x =>
    obtain ⟨hc,hcolon⟩ := hrest c x rfl
    unfold CharClass.mem at hc
    rw [run_cons]
    cases hk : kind c with
    | digit | other =>
      rw [hk] at hc
      cases hc
    | slash | quest | sharp | atSign => exact run_behind rfl _ _ (hv.fire rfl p)
    | colon =>
      have hv' : PortInPassword (Ragel.fire act (Phase.host.fired .colon) p v).components :=
        hv.fire rfl p
      cases x with
      | nil => exact hv'.fire rfl _
      | cons d y =>
        have hd := hcolon (kind_eq_colon hk) d y rfl
        rw [run_cons]
        cases hk' : kind d with
        | digit =>
          rw [isDigit_iff.mpr hk'] at hd
          cases hd
        | _ => exact run_behind rfl _ _ (hv'.fire rfl _)

/-- Digits that a password begins with are reported as the port. -/
theorem run_leavesPort {a : Authority} (ha : a.LeavesPort) {rest : Text} (hrest : EndsHost rest)
    (p : ℕ) {v : Vars} (hv : v.mark.password = none) :
    PortInPassword (run .slashes p (a.text ++ rest) v).components := by
  obtain ⟨user,host,port⟩ := a
  obtain ⟨hport,hdigits⟩ := ha
  cases hport
  obtain _ | ⟨u,_ | w⟩ := user
  · exact absurd rfl hdigits
  · exact absurd rfl hdigits
  · obtain ⟨v',x,hu,hreported⟩ := walk_userText u (some w) p
      (p+(userText (some (u,some w))).length) hv
    obtain ⟨path,y,hw⟩ := walk_host host (p+(userText (some (u,some w))).length) v'
    simp only [Authority.text,portText,List.append_nil,List.append_assoc]
    rw [run_through hu,run_through hw]
    refine run_host hrest _ ?_
    have hstale : stalePort (w.text.takeWhile isDigit) (p+u.text.length+1) v.components.port =
        ⟨(p+u.text.length+1 : ℕ),(w.text.takeWhile isDigit).length⟩ := if_neg hdigits
    have hle : (w.text.takeWhile isDigit).length ≤ w.text.length :=
      (List.takeWhile_sublist isDigit).length_le
    have hpos : 0 < (w.text.takeWhile isDigit).length := List.length_pos_iff.mpr hdigits
    simp only [hreported,userReported,userComponents,hstale]
    refine ⟨p+u.text.length+1,p+u.text.length+1+(w.text.takeWhile isDigit).length,
      p+u.text.length+1+w.text.length,?_,?_,by omega,by omega⟩
    · simp
    · simp

theorem PasswordForPort.reported {s : Text} (h : PasswordForPort s) :
    PortInPassword (uriParserParseUri s) := by
  obtain ⟨w,a,rest,rfl,ha,hrest⟩ := h
  rw [uriParserParseUri_eq]
  cases w with
  | none =>
    rw [schemeText,List.nil_append,authorityText,List.append_assoc,
      run_through (walk_slashes (.inl rfl) 0 Vars.init)]
    exact run_leavesPort ha hrest _ rfl
  | some w =>
    rw [schemeText,run_through (walk_scheme w Vars.init),authorityText,List.append_assoc,
      run_through (walk_slashes (.inr rfl) _ _)]
    exact run_leavesPort ha hrest _ rfl

/-- On every text nothing outside it is read. -/
theorem parse_inside (s : Text) :
    ∀ x ∈ authoritySpan (uriParserParseUri s)::(uriParserParseUri s).toList, x.Inside s := by
  have hwithin := (parse_placed s).within
  intro x hx
  obtain rfl | hx := List.mem_cons.mp hx
  · exact hwithin.authority
  · exact hwithin.inside hx

theorem parse_stored {s : Text} (hs : s.length < 2^31) :
    ∀ x ∈ authoritySpan (uriParserParseUri s)::(uriParserParseUri s).toList, x.stored = x := by
  have hwithin := (parse_placed s).within
  intro x hx
  refine stored_eq hs (parse_inside s x hx) ?_
  obtain rfl | hx := List.mem_cons.mp hx
  · have hlen := hwithin.len_authority
    omega
  · have hlen := hwithin.len_le hx
    omega

/-- The fields hold the components of a text that is not too long. -/
theorem components_stored {s : Text} (hs : s.length < 2^31) :
    (uriParserParseUri s).stored = uriParserParseUri s :=
  UrlComponents.stored_eq_iff.mpr fun x hx =>
    UrlComponent.stored_eq_iff.mp (parse_stored hs x (List.mem_cons_of_mem _ hx))

/-- On every text nothing outside it is read, and the components are in order exactly if no
password that begins with a digit passes for a port. -/
theorem parse_inOrder_iff (s : Text) :
    (InOrder s (uriParserParseUri s) ↔ ¬PasswordForPort s) ∧
    (∀ x ∈ authoritySpan (uriParserParseUri s)::(uriParserParseUri s).toList, x.Inside s) ∧
    (s.length < 2^31 → ∀ x ∈ authoritySpan (uriParserParseUri s)::(uriParserParseUri s).toList,
      x.stored = x) := by
  refine ⟨⟨fun hin hport => hport.reported.not_inOrder hin,fun hport => ?_⟩,parse_inside s,
    parse_stored⟩
  obtain hchain | ⟨hpassword,_⟩ := parse_placed s
  · exact Chain.inOrder hchain
  · exact absurd hpassword hport

/-- `//u:1@h`: the port lies in the password. -/
theorem password_for_port : ¬∀ s : Text, InOrder s (uriParserParseUri s) := by
  intro h
  have hordered := (h (bytes "//u:1@h")).ordered
  revert hordered
  decide

end UriParser
end FreshPlayer
