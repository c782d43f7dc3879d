import FreshPlayer.UriBounds
import FreshPlayer.UriDotSegments
import FreshPlayer.UriExtract
import FreshPlayer.UriRelative

/-! Merging a URI with a relative one resolves it, up to the authority that is extracted. -/
namespace FreshPlayer
namespace UriParser

open Rfc3986

/-- The components as the RFC has them. -/
def Uri.parts (u : Uri) : Parts UInt8 where
  scheme := u.scheme.map (·.text)
  authority := u.authority.map fun a => a.elim [] Authority.text
  path := u.reference.path.text
  query := u.reference.query.map (·.text)
  fragment := u.reference.fragment.map (·.text)

def Uri.IsRelative (u : Uri) : Prop := u.scheme = none ∧ u.authority = none

theorem Uri.frontReported_frame (u : Uri) : u.frontReported.scheme =
    (schemeComponents u.scheme resetUrlComponents).scheme ∧
      u.frontReported.query = resetUrlComponent ∧ u.frontReported.ref = resetUrlComponent := by
  have hreset : (schemeComponents u.scheme resetUrlComponents).query = resetUrlComponent ∧
      (schemeComponents u.scheme resetUrlComponents).ref = resetUrlComponent := by
    cases u.scheme <;> exact ⟨rfl,rfl⟩
  unfold Uri.frontReported
  split
  · rename_i a _
    obtain ⟨hscheme,hquery,href⟩ := a.reported_frame ((schemeText u.scheme).length+2)
      (schemeComponents u.scheme resetUrlComponents)
    rw [hscheme,hquery,href]
    exact ⟨rfl,hreset⟩
  · exact ⟨rfl,hreset⟩

theorem Uri.extract_scheme (u : Uri) :
    extractComponent u.text (uriParserParseUri u.text).scheme = u.scheme.elim [] (·.text) := by
  rw [uriParserParseUri_front,Reference.components_eq]
  change extractComponent u.text u.frontReported.scheme = _
  rw [u.frontReported_frame.1]
  cases hs : u.scheme with
  | none => rfl
  | some w =>
    have hmiddle := extractComponent_middle [] w.text
      ([colon] ++ (authorityText u.authority ++ u.reference.text))
    simpa [Uri.text,hs,schemeText,schemeComponents] using hmiddle

theorem Uri.extract_path (u : Uri) :
    extractComponent u.text (uriParserParseUri u.text).path = u.reference.path.text := by
  rw [uriParserParseUri_front,u.text_front]
  exact UriParser.extract_path u.front u.reference _

theorem Uri.extract_query (u : Uri) :
    extractComponent u.text (uriParserParseUri u.text).query =
      u.reference.query.elim [] (·.text) := by
  rw [uriParserParseUri_front,u.text_front]
  exact UriParser.extract_query u.front u.reference (congrArg UrlComponent.len u.frontReported_frame.2.1)

theorem Uri.extract_fragment (u : Uri) :
    extractComponent u.text (uriParserParseUri u.text).ref =
      u.reference.fragment.elim [] (·.text) := by
  rw [uriParserParseUri_front,u.text_front]
  exact UriParser.extract_fragment u.front u.reference (congrArg UrlComponent.len u.frontReported_frame.2.2)

theorem Uri.path_len (u : Uri) :
    (uriParserParseUri u.text).path.len ≤ 0 ↔ u.reference.path.text = [] := by
  rw [uriParserParseUri_front,Reference.components_eq]
  simp

theorem Uri.query_notEmpty (u : Uri) :
    urlcomponentIsNotEmpty (uriParserParseUri u.text).query = u.reference.query.isSome := by
  rw [uriParserParseUri_front,Reference.components_eq]
  cases hq : u.reference.query with
  | none =>
    change urlcomponentIsNotEmpty u.frontReported.query = _
    rw [u.frontReported_frame.2.1]
    rfl
  | some q =>
    simp [urlcomponentIsNotEmpty,urlcomponentIsEmpty]

/-- Of a relative URI neither a scheme nor an authority is reported. -/
theorem Uri.IsRelative.reported {u : Uri} (h : u.IsRelative) :
    urlcomponentIsNotEmpty (uriParserParseUri u.text).scheme = false ∧
      authorityIsNotEmpty (uriParserParseUri u.text) = false ∧
      (uriParserParseUri u.text).path.begin = 0 ∧ u.text = u.reference.text := by
  have hfront : u.front = [] := by
    rw [Uri.front,h.1,h.2]
    rfl
  have hreported : u.frontReported = resetUrlComponents := by
    rw [Uri.frontReported,h.1,h.2]
    rfl
  rw [uriParserParseUri_front,Reference.components_eq,hreported,u.text_front,hfront]
  exact ⟨rfl,rfl,rfl,rfl⟩

theorem Uri.reported_host {u : Uri} {a : Authority} (h : u.authority = some (some a)) :
    0 < (uriParserParseUri u.text).host.len := by
  have hfront : u.frontReported = a.reported ((schemeText u.scheme).length+2)
      (schemeComponents u.scheme resetUrlComponents) := by
    rw [Uri.frontReported,h]
  rw [uriParserParseUri_front,Reference.components_eq,hfront,Authority.reported_host]
  have hpos := List.length_pos_iff.mpr a.host.ne
  exact Int.natCast_pos.mpr hpos

/-- The last-slash merge is the one of the RFC, under a base with a host. -/
theorem mergePath_eq {base : Uri} {a : Authority} (h : base.authority = some (some a)) (rel : Uri) :
    mergePath base.text (uriParserParseUri base.text) rel.text (uriParserParseUri rel.text) =
      mergePaths delimiters base.parts rel.parts.path := by
  have hsome : base.parts.authority.isSome = true := by
    rw [Uri.parts,h]
    rfl
  rw [mergePath,mergePaths,base.extract_path,rel.extract_path]
  by_cases hpath : base.reference.path.text = []
  · rw [if_pos ⟨base.reported_host h,base.path_len.mpr hpath⟩,if_pos ⟨hsome,hpath⟩]
    rfl
  · rw [if_neg (fun hc => hpath (base.path_len.mp hc.2)),if_neg (fun hc => hpath hc.2)]
    rfl

/-- Under such a base paths are absolute. -/
theorem mergePaths_slash {base : Uri} {a : Authority} (h : base.authority = some (some a))
    (path : Text) : ∃ x, mergePaths delimiters base.parts path = slash::x := by
  have hsome : base.parts.authority.isSome = true := by
    rw [Uri.parts,h]
    rfl
  unfold mergePaths
  obtain hpath | ⟨x,hpath⟩ := base.begins (by rw [h]; rfl)
  · exact ⟨path,if_pos ⟨hsome,hpath⟩⟩
  · have hpath' : base.parts.path = slash::x := hpath
    have hne : ¬(base.parts.authority.isSome ∧ base.parts.path = []) := by simp [hpath']
    rw [if_neg hne,hpath']
    cases hd : (slash::x).rdropWhile (· ≠ delimiters.slash) with
    | nil =>
      have hall := List.rdropWhile_eq_nil_iff.mp hd slash List.mem_cons_self
      exact absurd hall (by decide)
    | cons c y =>
      have hprefix := List.rdropWhile_prefix (decide <| · ≠ delimiters.slash) (slash::x)
      rw [hd] at hprefix
      exact ⟨y ++ path,by rw [(List.cons_prefix_cons.mp hprefix).1]; rfl⟩

/-- A component that is not there is extracted as an empty one. -/
theorem elim_text {cl : CharClass} (o : Option (Span cl)) :
    o.elim [] (·.text) = (o.map (·.text)).getD [] := by
  cases o <;> rfl

/-- The path that is given or merged is absolute, and its dot segments are removed. -/
theorem mergeRelative_path {base rel : Uri} {a : Authority} (h : base.authority = some (some a))
    (hrel : rel.IsRelative) (hpath : rel.reference.path.text ≠ []) :
    removeDotSegments
      (if rel.text[(uriParserParseUri rel.text).path.begin.toNat]? = some slash
        then extractComponent rel.text (uriParserParseUri rel.text).path
        else mergePath base.text (uriParserParseUri base.text) rel.text (uriParserParseUri rel.text)) =
      Rfc3986.removeDotSegments delimiters
        (if [delimiters.slash] <+: rel.parts.path then rel.parts.path
          else mergePaths delimiters base.parts rel.parts.path) [] := by
  obtain ⟨_,_,hbegin,htext⟩ := hrel.reported
  obtain ⟨c,x,hc⟩ := List.exists_cons_of_ne_nil hpath
  have hfirst : rel.text[(uriParserParseUri rel.text).path.begin.toNat]? = some c := by
    rw [hbegin,htext,Reference.text,hc]
    rfl
  have hparts : rel.parts.path = c::x := hc
  rw [hfirst,mergePath_eq h rel,rel.extract_path,hc,hparts]
  by_cases hslash : c = slash
  · subst hslash
    rw [if_pos rfl,if_pos ⟨x,rfl⟩,removeDotSegments_eq]
  · have hprefix : ¬[delimiters.slash] <+: c::x :=
      fun hp => hslash (List.cons_prefix_cons.mp hp).1.symm
    obtain ⟨y,hy⟩ := mergePaths_slash h (c::x)
    rw [if_neg (by simpa using hslash),if_neg hprefix,hy,removeDotSegments_eq]

theorem Uri.IsRelative.parts {u : Uri} (h : u.IsRelative) :
    u.parts.scheme = none ∧ u.parts.authority = none := by
  rw [Uri.parts,h.1,h.2]
  exact ⟨rfl,rfl⟩

/-- What is merged, for a relative URI under a base with a host. -/
theorem mergeRelative_eq {base rel : Uri} {a : Authority} (h : base.authority = some (some a))
    (hrel : rel.IsRelative) :
    mergeRelative base.text (uriParserParseUri base.text) rel.text (uriParserParseUri rel.text) false =
      ⟨(resolve delimiters base.parts rel.parts).scheme.getD [],false,
        extractAuthority base.text (uriParserParseUri base.text),
        (resolve delimiters base.parts rel.parts).path,
        (resolve delimiters base.parts rel.parts).query.getD [],
        (resolve delimiters base.parts rel.parts).fragment.getD []⟩ := by
  obtain ⟨hscheme,hauthority,_,_⟩ := hrel.reported
  have hbase : base.scheme.elim [] (·.text) = base.parts.scheme.getD [] := by
    rw [Uri.parts]
    cases base.scheme <;> rfl
  unfold mergeRelative resolve
  simp only [hscheme,hauthority,hrel.parts.1,hrel.parts.2,Option.isSome_none,Bool.false_eq_true,
    if_false,Uri.extract_scheme,Uri.extract_query,Uri.extract_fragment,Uri.query_notEmpty,hbase,
    elim_text]
  by_cases hpath : rel.reference.path.text = []
  · have hpath' : rel.parts.path = [] := hpath
    rw [if_pos (rel.path_len.mpr hpath),if_pos hpath',base.extract_path]
    cases hq : rel.reference.query <;> simp [Uri.parts,hq]
  · have hpath' : ¬rel.parts.path = [] := hpath
    rw [if_neg (fun hlen => hpath (rel.path_len.mp hlen)),if_neg hpath',mergeRelative_path h hrel hpath]
    rfl

theorem Uri.scheme_reported {u : Uri} {w : Word .scheme} (hw : u.scheme = some w) :
    (uriParserParseUri u.text).scheme = ⟨0,w.text.length⟩ := by
  rw [uriParserParseUri_front,Reference.components_eq]
  change u.frontReported.scheme = _
  rw [u.frontReported_frame.1,hw]
  rfl

theorem take_ne_file {w rest : Text} (h : w ≠ bytes "file") (hlen : w.length = 4) :
    (w ++ rest).take 4 ≠ bytes "file" := by
  rw [← hlen,List.take_left]
  exact h

/-- A base with a scheme that is not `file` does not change the relative URI. -/
theorem uriParserMergeUris_eq {base rel : Uri} {w : Word .scheme} {a : Authority}
    (hw : base.scheme = some w) (hfile : w.text ≠ bytes "file") (h : base.authority = some (some a))
    (hrel : rel.IsRelative) (hbase : base.text.length < 2^31) (hlen : rel.text.length < 2^31) :
    uriParserMergeUris base.text rel.text =
      Merged.print ⟨w.text,false,extractAuthority base.text (uriParserParseUri base.text),
        (resolve delimiters base.parts rel.parts).path,
        (resolve delimiters base.parts rel.parts).query.getD [],
        (resolve delimiters base.parts rel.parts).fragment.getD []⟩ := by
  have hisFile : (decide (0 < (uriParserParseUri base.text).scheme.len) &&
      decide ((base.text.drop (uriParserParseUri base.text).scheme.begin.toNat).take 4 = bytes "file") &&
      decide ((uriParserParseUri base.text).scheme.len = 4)) = false := by
    rw [Uri.scheme_reported hw]
    by_cases hlen : w.text.length = 4
    · have htake : base.text.take 4 ≠ bytes "file" := by
        rw [Uri.text,hw,schemeText,List.append_assoc]
        exact take_ne_file hfile hlen
      simp [htake]
    · have hlen' : ¬(w.text.length : ℤ) = 4 := by exact_mod_cast hlen
      simp [hlen']
  have hscheme : (resolve delimiters base.parts rel.parts).scheme.getD [] = w.text := by
    have hparts : base.parts.scheme = some w.text := by
      rw [Uri.parts,hw]
      rfl
    rw [(resolve_origin delimiters hrel.parts).1,hparts]
    rfl
  unfold uriParserMergeUris
  simp only [components_stored hbase,hisFile,Bool.false_eq_true,if_false,components_stored hlen,
    mergeRelative_eq h hrel,hscheme]

end UriParser
end FreshPlayer
