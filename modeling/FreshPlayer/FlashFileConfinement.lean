import FreshPlayer.FlashFile
import FreshPlayer.UriDotSegments
import Mathlib.Tactic.Linarith

/-! Absolute paths of the Flash module are those of the RFC behind the root, and the buffer
is never written ahead of where it is read. -/
namespace FreshPlayer
namespace FlashFile

open UriParser (Text slash dot DotState dotStep dropSegment dropSegments delimiters take_write
  take_suffix dropSegment_suffix dropSegments_suffix dropSegments_length)
open Rfc3986 (render Segments resolveSegments)

/-- The writing position stays between the start of the buffer and the reading position;
with the text read to its end, something has been dropped before the slash is written. -/
structure InBounds (s : State) : Prop where
  start : 0 ≤ s.dst
  behind : s.dst ≤ s.src
  dots : s.dotCnt ≤ s.src
  dropped : ∀ k, s.pc = .drop k → s.relPath.length ≤ s.src →
    k = s.dotCnt ∧ 0 < s.dotCnt ∨ s.dst < s.src

theorem scan_inBounds {s : State} (h : InBounds s) (hpc : s.pc = .scan) : InBounds s.scan := by
  have hstart := h.start
  have hbehind := h.behind
  have hdots := h.dots
  unfold State.scan
  cases hc : s.relPath[s.src]? with
  | none =>
    dsimp only
    split_ifs with hd
    · have hpos : 0 < s.dotCnt := by
        simp only [State.countsDots,Bool.and_eq_true,Bool.or_eq_true,decide_eq_true_eq] at hd
        omega
      exact ⟨hstart,hbehind,hdots,fun k hk _ => .inl ⟨(Pc.drop.inj hk).symm,hpos⟩⟩
    · exact ⟨hstart,hbehind,hdots,fun k hk => by cases hk⟩
  | some c =>
    have hlt := (List.getElem?_eq_some_iff.mp hc).1
    have hforward : 0 ≤ s.dst+1 := by omega
    have hnext : s.dst+1 ≤ (s.src+1 : ℕ) := by omega
    have hscan : ∀ k, s.pc ≠ .drop k := fun k hk => by simp [hpc] at hk
    dsimp only
    split_ifs
    · exact ⟨hstart,hbehind,hdots,fun k _ hlen => absurd hlt (Nat.not_lt.mpr hlen)⟩
    · exact ⟨hstart,hbehind,hdots,fun k _ hlen => absurd hlt (Nat.not_lt.mpr hlen)⟩
    · exact ⟨hforward,hnext,Nat.succ_le_succ hdots,fun k hk => absurd hk (hscan k)⟩
    · exact ⟨hforward,hnext,Nat.le_succ_of_le hdots,fun k hk => absurd hk (hscan k)⟩
    · exact ⟨hforward,hnext,Nat.zero_le _,fun k hk => absurd hk (hscan k)⟩

theorem dropName_inBounds {s : State} (h : InBounds s) {k : ℕ} (hpc : s.pc = .drop (k+1)) :
    InBounds (s.dropName k) := by
  have hstart := h.start
  have hbehind := h.behind
  have hdots := h.dots
  unfold State.dropName
  split_ifs with hback hpos
  · have hless : s.dst-1 < s.src := by omega
    exact ⟨by dsimp only; omega,hless.le,hdots,fun _ _ _ => .inr hless⟩
  · have hless : s.dst-1 < s.src := by omega
    exact ⟨by dsimp only; omega,hless.le,hdots,fun _ _ _ => .inr hless⟩
  · refine ⟨hstart,hbehind,hdots,fun _ _ hlen => .inr ?_⟩
    obtain ⟨_,hcnt⟩ | hless := h.dropped _ hpc hlen
    · dsimp only
      omega
    · exact hless

theorem putSlash_inBounds {s : State} (h : InBounds s) (hpc : s.pc = .drop 0) :
    InBounds s.putSlash := by
  have hstart := h.start
  have hbehind := h.behind
  have hforward : 0 ≤ s.dst+1 := by omega
  unfold State.putSlash
  cases hc : s.relPath[s.src]? with
  | none =>
    have hless : s.dst < s.src := by
      obtain ⟨hcnt,hpos⟩ | hless := h.dropped 0 hpc (List.getElem?_eq_none_iff.mp hc)
      · omega
      · exact hless
    exact ⟨hforward,hless,h.dots,fun k hk => by cases hk⟩
  | some c =>
    have hnext : s.dst+1 ≤ (s.src+1 : ℕ) := by omega
    exact ⟨hforward,hnext,Nat.zero_le _,fun k hk => by cases hk⟩

theorem next_inBounds {s t : State} (hs : InBounds s) (ht : s.next = some t) : InBounds t := by
  unfold State.next at ht
  split at ht
  · rename_i hpc
    cases ht
    exact scan_inBounds hs hpc
  · rename_i k hpc
    cases ht
    exact dropName_inBounds hs hpc
  · rename_i hpc
    cases ht
    exact putSlash_inBounds hs hpc
  · cases ht

theorem reachable_inBounds {s : Text} {t : State} (h : (machine s).Reachable t) : InBounds t := by
  refine h.invariant InBounds ?_ fun u _ v hu _ hv => next_inBounds hu hv
  exact ⟨Int.le_refl 0,Int.le_refl 0,Nat.le_refl 0,fun k hk => by cases hk⟩

/-- At the head of the loop the code has reached the state of the loop over URI paths. -/
structure Matches (s : State) (d : DotState) (rest : Text) : Prop where
  pc : s.pc = .scan
  unread : s.relPath.drop s.src = rest
  dst : s.dst = d.dst.length
  written : s.relPath.take d.dst.length = d.dst.reverse
  behind : d.dst.length ≤ s.src
  dotCnt : s.dotCnt = d.dotCnt
  afterSlash : s.afterSlash = d.afterSlash
  dots : d.dotCnt ≤ d.dst.length

def toSlash (c : UInt8) : UInt8 := if c = backslash then slash else c

theorem run_next {s t : State} (h : s.next = some t) : s.run = t.run := by
  rw [State.run]
  split
  · rename_i hn
    rw [hn] at h
    cases h
  · rename_i u hu
    rw [hu] at h
    cases h
    rfl

theorem run_done {s : State} (h : s.pc = .done) : s.run = s := by
  have hn : s.next = none := by rw [State.next,h]
  rw [State.run]
  split
  · rfl
  · rename_i u hu
    rw [hn] at hu
    cases hu

/-- The loop that goes back over one name, and over the slash before it. -/
theorem run_dropName {s : State} {d : Text} {k : ℕ} (hpc : s.pc = .drop (k+1))
    (hdst : s.dst = d.length) (hwritten : s.relPath.take d.length = d.reverse) :
    s.run = State.run { s with dst := (dropSegment d).length, pc := .drop k } := by
  induction d generalizing s with
  | nil =>
    have hnext : s.next = some { s with dst := 0, pc := .drop k } := by
      rw [State.next,hpc]
      simp [State.dropName,hdst]
    exact run_next hnext
  | cons c d ih =>
    have hpos : 0 < s.dst := by rw [hdst]; simp
    have hback : s.dst-1 = d.length := by rw [hdst]; simp
    have hlast : s.relPath[d.length]? = some c := by
      have htake : (s.relPath.take (d.length+1))[d.length]? = some c := by
        rw [List.length_cons] at hwritten
        rw [hwritten]
        simp
      rwa [List.getElem?_take_of_lt (Nat.lt_succ_self _)] at htake
    by_cases hc : c = slash
    · have hnext : s.next = some { s with dst := d.length, pc := .drop k } := by
        rw [State.next,hpc]
        simp [State.dropName,hlast,hc,hpos,hback]
      have hdrop : dropSegment (c::d) = d := by simp [dropSegment,hc]
      rw [run_next hnext,hdrop]
    · have hnext : s.next = some { s with dst := d.length } := by
        rw [State.next,hpc]
        simp [State.dropName,hlast,hc,hpos,hback,hpc]
      have hdrop : dropSegment (c::d) = dropSegment d := by simp [dropSegment,hc]
      have hwritten' : s.relPath.take d.length = d.reverse := by
        have htake := congrArg (List.take d.length) hwritten
        rw [List.take_take,List.length_cons,Nat.min_eq_left (Nat.le_succ _)] at htake
        simpa using htake
      have htail : State.run { s with dst := d.length } =
          State.run { s with dst := (dropSegment d).length, pc := .drop k } :=
        ih hpc rfl hwritten'
      rw [run_next hnext,htail,hdrop]

theorem run_drop {s : State} {d : Text} {k : ℕ} (hpc : s.pc = .drop k) (hdst : s.dst = d.length)
    (hwritten : s.relPath.take d.length = d.reverse) :
    s.run = State.run { s with dst := (dropSegment^[k] d).length, pc := .drop 0 } := by
  induction k generalizing s d with
  | zero =>
    have heq : ({ s with dst := (dropSegment^[0] d).length, pc := .drop 0 } : State) = s := by
      rw [← hpc,Function.iterate_zero_apply,← hdst]
    rw [heq]
  | succ k ih =>
    have hrest := take_suffix hwritten (dropSegment_suffix d)
    have htail : State.run { s with dst := (dropSegment d).length, pc := .drop k } =
        State.run { s with dst := (dropSegment^[k] (dropSegment d)).length, pc := .drop 0 } :=
      ih rfl rfl hrest
    rw [run_dropName hpc hdst hwritten,htail,Function.iterate_succ_apply]

theorem Matches.unread_cons {s : State} {d : DotState} {c : UInt8} {rest : Text}
    (h : Matches s d (c::rest)) : s.relPath[s.src]? = some c ∧ s.relPath.drop (s.src+1) = rest := by
  have hunread := h.unread
  constructor
  · have hhead := congrArg List.head? hunread
    rwa [List.head?_drop] at hhead
  · have htail := congrArg (List.drop 1) hunread
    rwa [List.drop_drop] at htail

/-- A character is written where it has been read, or before. -/
theorem Matches.write {s : State} {d : DotState} {c e : UInt8} {rest : Text}
    (h : Matches s d (c::rest)) {dst : Text} (hsuffix : dst <:+ d.dst) :
    (s.relPath.set dst.length e).take (dst.length+1) = (e::dst).reverse ∧
      (s.relPath.set dst.length e).drop (s.src+1) = rest ∧ dst.length+1 ≤ s.src+1 := by
  obtain ⟨hread,hrest⟩ := h.unread_cons
  have hlt := (List.getElem?_eq_some_iff.mp hread).1
  have hle := hsuffix.length_le.trans h.behind
  refine ⟨?_,?_,Nat.succ_le_succ hle⟩
  · rw [take_write (Nat.lt_of_le_of_lt hle hlt),take_suffix h.written hsuffix,List.reverse_cons]
  · rw [List.drop_set_of_lt (Nat.lt_succ_of_le hle),hrest]

theorem countsDots_iff (s : State) : s.countsDots = true ↔ s.dotCnt = 1 ∨ s.dotCnt = 2 := by
  simp [State.countsDots]

theorem dropSegments_eq {s : State} {d : DotState} (h : s.dotCnt = d.dotCnt) :
    dropSegments d = dropSegment^[if s.countsDots then s.dotCnt else 0] d.dst := by
  unfold dropSegments
  by_cases hc : d.dotCnt = 1 ∨ d.dotCnt = 2
  · rw [if_pos hc,if_pos ((countsDots_iff s).mpr (by rwa [h])),h]
  · have hn : ¬s.countsDots = true := fun hs => hc (by rw [← h]; exact (countsDots_iff s).mp hs)
    rw [if_neg hc,if_neg hn]
    rfl

/-- From the names dropped to the slash behind them. -/
theorem run_slash {s : State} {d : DotState} (hdst : s.dst = d.dst.length)
    (hwritten : s.relPath.take d.dst.length = d.dst.reverse) (hcnt : s.dotCnt = d.dotCnt) :
    State.run { s with pc := .drop (if s.countsDots then s.dotCnt else 0) } =
      State.run { s with dst := (dropSegments d).length, pc := .drop 0 } := by
  rw [dropSegments_eq hcnt]
  exact run_drop rfl hdst hwritten

/-- One turn of the loop over the characters, with all that happens until the next. -/
theorem Matches.turn {s : State} {d : DotState} {c : UInt8} {rest : Text}
    (h : Matches s d (c::rest)) : ∃ t, s.run = t.run ∧ Matches t (dotStep d (toSlash c)) rest := by
  obtain ⟨hread,hrest⟩ := h.unread_cons
  have hscan : s.next = some s.scan := by rw [State.next,h.pc]
  by_cases hsep : c = backslash ∨ c = slash
  · have hslash : toSlash c = slash := by
      unfold toSlash
      split_ifs with hb
      · rfl
      · exact hsep.resolve_left hb
    have hdrop : s.scan = { s with pc := .drop (if s.countsDots then s.dotCnt else 0) } := by
      rw [State.scan,hread]
      exact if_pos hsep
    have hput : State.next { s with dst := (dropSegments d).length, pc := .drop 0 } =
        some ⟨s.relPath.set (dropSegments d).length slash,s.src+1,(dropSegments d).length+1,0,true,
          .scan⟩ := by
      simp [State.next,State.putSlash,hread,State.write]
    obtain ⟨htake,hunread,hbehind⟩ := h.write (e := slash) (dropSegments_suffix d)
    have hrun : s.run = _ := calc
      s.run = s.scan.run := run_next hscan
      _ = State.run { s with dst := (dropSegments d).length, pc := .drop 0 } := by
        rw [hdrop,run_slash h.dst h.written h.dotCnt]
      _ = _ := run_next hput
    refine ⟨_,hrun,?_⟩
    rw [hslash,dotStep,if_pos rfl]
    exact ⟨rfl,hunread,by simp,htake,hbehind,rfl,rfl,Nat.zero_le _⟩
  · have hslash : toSlash c = c := if_neg fun hb => hsep (.inl hb)
    have hne : c ≠ slash := fun hs => hsep (.inr hs)
    obtain ⟨htake,hunread,hbehind⟩ := h.write (e := c) (List.suffix_refl d.dst)
    rw [hslash,dotStep,if_neg hne]
    by_cases hdot : c = dot
    · subst hdot
      have hwrite : s.scan = ⟨s.relPath.set d.dst.length dot,s.src+1,d.dst.length+1,
          if s.afterSlash then s.dotCnt+1 else s.dotCnt,s.afterSlash,.scan⟩ := by
        simp only [State.scan,hread,if_neg hsep,State.write,h.dst,h.pc,if_true,Int.toNat_natCast]
      rw [hwrite] at hscan
      refine ⟨_,run_next hscan,?_⟩
      rw [if_pos rfl]
      have hdots : (if d.afterSlash then d.dotCnt+1 else d.dotCnt) ≤ d.dst.length+1 := by
        have hle := h.dots
        split_ifs <;> omega
      exact ⟨rfl,hunread,by simp,htake,hbehind,by rw [h.dotCnt,h.afterSlash],h.afterSlash,hdots⟩
    · have hwrite : s.scan = ⟨s.relPath.set d.dst.length c,s.src+1,d.dst.length+1,0,false,.scan⟩ := by
        simp [State.scan,hread,hsep,hdot,State.write,h.dst,h.pc]
      rw [hwrite] at hscan
      refine ⟨_,run_next hscan,?_⟩
      rw [if_neg hdot]
      exact ⟨rfl,hunread,by simp,htake,hbehind,rfl,rfl,Nat.zero_le _⟩

/-- The end of the text. -/
theorem Matches.finish {s : State} {d : DotState} (h : Matches s d []) :
    s.run.relPath.take s.run.dst.toNat = d.finish := by
  have hend : s.relPath[s.src]? = none := by
    rw [← List.head?_drop,h.unread]
    rfl
  have hscan : s.next = some s.scan := by rw [State.next,h.pc]
  rw [run_next hscan]
  have hdots : (s.afterSlash && s.countsDots) = true ↔
      d.afterSlash = true ∧ (d.dotCnt = 1 ∨ d.dotCnt = 2) := by
    rw [Bool.and_eq_true,countsDots_iff,h.dotCnt,h.afterSlash]
  by_cases hlast : (s.afterSlash && s.countsDots) = true
  · obtain ⟨hafter,hcounts⟩ := Bool.and_eq_true_iff.mp hlast
    have hdrop : s.scan = { s with pc := .drop (if s.countsDots then s.dotCnt else 0) } := by
      rw [State.scan,hend]
      simp only [hafter,hcounts,Bool.and_self,if_true]
    let n := (dropSegments d).length
    have hput : State.next { s with dst := n, pc := .drop 0 } =
        some ⟨s.relPath.set n slash,s.src,n+1,s.dotCnt,s.afterSlash,.done⟩ := by
      simp [State.next,State.putSlash,hend,State.write]
    have hlen : n < s.relPath.length := by
      have hwritten := congrArg List.length h.written
      rw [List.length_take,List.length_reverse] at hwritten
      have hshorter := dropSegments_length (hdots.mp hlast).2 h.dots
      omega
    have htoNat : ((n : ℤ)+1).toNat = n+1 := by omega
    rw [hdrop,run_slash h.dst h.written h.dotCnt,run_next hput,run_done rfl,htoNat,take_write hlen,
      take_suffix h.written (dropSegments_suffix d),DotState.finish,if_pos (hdots.mp hlast),
      List.reverse_cons]
  · have hdone : s.scan = { s with pc := .done } := by
      rw [State.scan,hend]
      simp only [hlast,Bool.false_eq_true,if_false]
    rw [hdone,run_done rfl,DotState.finish,if_neg (fun hd => hlast (hdots.mpr hd))]
    simpa [h.dst] using h.written

/-- The whole loop. -/
theorem Matches.run {s : State} {d : DotState} {rest : Text} (h : Matches s d rest) :
    s.run.relPath.take s.run.dst.toNat = ((rest.map toSlash).foldl dotStep d).finish := by
  induction rest generalizing s d with
  | nil => exact h.finish
  | cons c rest ih =>
    obtain ⟨t,hrun,ht⟩ := h.turn
    rw [hrun,ih ht]
    rfl

/-- What is put behind the root. -/
theorem toAbsPath_eq (root s : Text) : toAbsPath root s =
    root ++ Rfc3986.removeDotSegments delimiters (slash::s.map toSlash) [] := by
  have hstart : Matches (start s) ⟨[],0,true⟩ (slash::s) :=
    ⟨rfl,rfl,rfl,rfl,Nat.le_refl 0,rfl,rfl,Nat.le_refl 0⟩
  have hrun := hstart.run
  have hslash : toSlash slash = slash := by decide
  rw [List.map_cons,hslash] at hrun
  rw [← UriParser.removeDotSegments_eq,toAbsPath]
  exact congrArg (root ++ ·) hrun

def isSeparator (c : UInt8) : Bool := c = slash || c = backslash

theorem isSeparator_toSlash {c : UInt8} (h : toSlash c ≠ slash) : isSeparator (toSlash c) = false := by
  have hback : toSlash c ≠ backslash := by
    unfold toSlash
    split_ifs with hb
    · decide
    · exact hb
  simp [isSeparator,h,hback]

/-- Segments of what was read have no separators. -/
theorem segments_separator {s t : Text} {segments : List Text} (h : Segments delimiters segments)
    (hpath : slash::s.map toSlash = render delimiters segments) (ht : t ∈ segments) :
    ∀ c ∈ t, isSeparator c = false := by
  intro c hc
  have hmem : c ∈ slash::s.map toSlash := by
    rw [hpath]
    exact List.mem_flatMap.mpr ⟨t,ht,List.mem_cons_of_mem _ hc⟩
  have hslash : c ≠ slash := by
    rintro rfl
    exact h t ht hc
  obtain ⟨e,_,rfl⟩ := List.mem_map.mp ((List.mem_cons.mp hmem).resolve_left hslash)
  exact isSeparator_toSlash hslash

end FlashFile
end FreshPlayer
