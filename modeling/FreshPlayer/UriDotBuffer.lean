import FreshPlayer.Transition
import FreshPlayer.UriDotSegments

/-! The buffer in which the dot segments of a path are removed, by the index that is written.
Every access is checked, and no write may go ahead of the character that is being read. -/
namespace FreshPlayer
namespace UriParser

open Rfc3986

structure DotBuffer where
  data : Text
  pdst : ℤ
  dotCnt : ℕ
  afterSlash : Bool
  deriving DecidableEq, Repr

def gStrndup (s : Text) : Text :=
  let t := s.takeWhile (· ≠ 0)
  t ++ List.replicate (s.length+1-t.length) 0

def DotBuffer.start (s : Text) : DotBuffer := ⟨gStrndup s,0,0,true⟩

def readAt (data : Text) (i : ℤ) : Option UInt8 := if 0 ≤ i then data[i.toNat]? else none

/-- `res.data[pdst++] = c`, with `psrc` the place of the character that is being read. -/
def DotBuffer.write (b : DotBuffer) (psrc : ℕ) (c : UInt8) : Option DotBuffer :=
  if 0 ≤ b.pdst ∧ b.pdst ≤ psrc ∧ b.pdst < b.data.length then
    some { b with data := b.data.set b.pdst.toNat c, pdst := b.pdst+1 }
  else none

/-- The loop that goes back over a name, and over the slash before it. -/
def dropName (data : Text) (pdst : ℤ) : Option ℤ :=
  if _h : 0 < pdst then
    (readAt data (pdst-1)).bind fun c => if c ≠ slash then dropName data (pdst-1) else some (pdst-1)
  else some pdst
termination_by pdst.toNat

def dropNames (data : Text) : ℕ → ℤ → Option ℤ
  | 0,pdst => some pdst
  | k+1,pdst => (dropName data pdst).bind (dropNames data k)

/-- The names that the dots stand for, and the slash behind them. -/
def DotBuffer.putSlash (b : DotBuffer) (psrc : ℕ) : Option DotBuffer :=
  (dropNames b.data (if b.dotCnt = 1 ∨ b.dotCnt = 2 then b.dotCnt else 0) b.pdst).bind fun pdst =>
    { b with pdst := pdst }.write psrc slash

def DotBuffer.turn (b : DotBuffer) (psrc : ℕ) (c : UInt8) : Option DotBuffer :=
  if c = slash then
    (b.putSlash psrc).map fun b => { b with dotCnt := 0, afterSlash := true }
  else if c = dot then
    (b.write psrc dot).map fun b => { b with dotCnt := if b.afterSlash then b.dotCnt+1 else b.dotCnt }
  else (b.write psrc c).map fun b => { b with dotCnt := 0, afterSlash := false }

/-- The loop over the path, which is not the memory that is written. -/
def dotMachine (s : Text) : Machine (ℕ × DotBuffer) Unit where
  start := (0,.start s)
  step := fun (psrc,b) _ => s[psrc]?.bind fun c => (b.turn psrc c).map fun b => (psrc+1,b)

/-- Trailing dots; the slash behind them goes where a character has been read. -/
def DotBuffer.finish (b : DotBuffer) (len : ℕ) : Option DotBuffer :=
  if b.afterSlash ∧ (b.dotCnt = 1 ∨ b.dotCnt = 2) then b.putSlash (len-1) else some b

/-- The whole function. -/
def removeDotSegmentsIn (s : Text) : Option Text :=
  ((dotMachine s).exec (0,.start s) (List.replicate s.length ())).bind fun t =>
    (t.2.finish s.length).map fun b => b.data.take b.pdst.toNat

/-- Going back in the buffer is dropping a segment of what is written. -/
theorem dropName_eq {data d : Text} (h : data.take d.length = d.reverse) :
    dropName data d.length = some ((dropSegment d).length : ℤ) := by
  induction d with
  | nil =>
    rw [dropName,dif_neg (by simp)]
    rfl
  | cons c d ih =>
    have hpos : (0 : ℤ) < (c::d).length := by simp
    have hback : ((c::d).length : ℤ)-1 = d.length := by simp
    have hlast : readAt data d.length = some c := by
      have htake : (data.take (d.length+1))[d.length]? = some c := by
        rw [List.length_cons] at h
        rw [h]
        simp
      rw [List.getElem?_take_of_lt (Nat.lt_succ_self _)] at htake
      rw [readAt,if_pos (Int.natCast_nonneg _),Int.toNat_natCast,htake]
    have hrest : data.take d.length = d.reverse := take_suffix h (List.suffix_cons c d)
    rw [dropName,dif_pos hpos,hback,hlast,Option.bind_some]
    by_cases hc : c = slash
    · rw [if_neg (not_not.mpr hc)]
      simp [dropSegment,hc]
    · rw [if_pos hc,ih hrest]
      simp [dropSegment,hc]

theorem dropNames_eq {data d : Text} (h : data.take d.length = d.reverse) (k : ℕ) :
    dropNames data k d.length = some ((dropSegment^[k] d).length : ℤ) := by
  induction k generalizing d with
  | zero => rfl
  | succ k ih =>
    rw [dropNames,dropName_eq h,Option.bind_some,ih (take_suffix h (dropSegment_suffix d)),
      Function.iterate_succ_apply]

/-- The buffer has come as far as the loop that keeps what is written as a text. -/
structure DotBuffer.Holds (b : DotBuffer) (d : DotState) : Prop where
  pdst : b.pdst = d.dst.length
  written : b.data.take d.dst.length = d.dst.reverse
  dotCnt : b.dotCnt = d.dotCnt
  afterSlash : b.afterSlash = d.afterSlash

theorem DotBuffer.write_eq {b : DotBuffer} {dst : Text} (hpdst : b.pdst = dst.length)
    (hwritten : b.data.take dst.length = dst.reverse) {psrc : ℕ} (hle : dst.length ≤ psrc)
    (hlt : psrc < b.data.length) (c : UInt8) :
    ∃ data, b.write psrc c = some { b with data := data, pdst := (c::dst).length } ∧
      data.take (c::dst).length = (c::dst).reverse ∧ data.length = b.data.length := by
  have hin : dst.length < b.data.length := Nat.lt_of_le_of_lt hle hlt
  refine ⟨b.data.set dst.length c,?_,?_,List.length_set⟩
  · have hchecks : 0 ≤ b.pdst ∧ b.pdst ≤ psrc ∧ b.pdst < b.data.length := by omega
    rw [DotBuffer.write,if_pos hchecks,hpdst,Int.toNat_natCast]
    rfl
  · rw [List.length_cons,take_write hin,hwritten,List.reverse_cons]

theorem DotBuffer.Holds.putSlash {b : DotBuffer} {d : DotState} (h : b.Holds d) {psrc : ℕ}
    (hle : (dropSegments d).length ≤ psrc) (hlt : psrc < b.data.length) :
    ∃ data, b.putSlash psrc =
        some { b with data := data, pdst := (slash::dropSegments d).length } ∧
      data.take (slash::dropSegments d).length = (slash::dropSegments d).reverse ∧
      data.length = b.data.length := by
  have hnames : dropNames b.data (if b.dotCnt = 1 ∨ b.dotCnt = 2 then b.dotCnt else 0) b.pdst =
      some ((dropSegments d).length : ℤ) := by
    rw [h.pdst,dropNames_eq h.written,h.dotCnt,dropSegments]
    split_ifs <;> rfl
  have hwritten := take_suffix h.written (dropSegments_suffix d)
  obtain ⟨data,hwrite,hdata⟩ := DotBuffer.write_eq
    (b := { b with pdst := (dropSegments d).length }) rfl hwritten hle hlt slash
  refine ⟨data,?_,hdata⟩
  rw [DotBuffer.putSlash,hnames,Option.bind_some,hwrite]

/-- One turn of the loop leaves the buffer where the other loop is. -/
theorem DotBuffer.Holds.turn {b : DotBuffer} {d : DotState} (h : b.Holds d) {psrc : ℕ}
    (hle : d.dst.length ≤ psrc) (hlt : psrc < b.data.length) (c : UInt8) :
    ∃ b', b.turn psrc c = some b' ∧ b'.Holds (dotStep d c) ∧ b'.data.length = b.data.length := by
  unfold DotBuffer.turn dotStep
  by_cases hslash : c = slash
  · have hback := (dropSegments_suffix d).length_le.trans hle
    obtain ⟨data,hput,hwritten,hlen⟩ := h.putSlash hback hlt
    rw [if_pos hslash,if_pos hslash,hput]
    exact ⟨_,rfl,⟨rfl,hwritten,rfl,rfl⟩,hlen⟩
  · obtain ⟨data,hwrite,hwritten,hlen⟩ := DotBuffer.write_eq h.pdst h.written hle hlt c
    rw [if_neg hslash,if_neg hslash]
    by_cases hdot : c = dot
    · subst hdot
      rw [if_pos rfl,if_pos rfl,hwrite]
      refine ⟨_,rfl,⟨rfl,hwritten,?_,h.afterSlash⟩,hlen⟩
      dsimp only
      rw [h.dotCnt,h.afterSlash]
    · rw [if_neg hdot,if_neg hdot,hwrite]
      exact ⟨_,rfl,⟨rfl,hwritten,rfl,rfl⟩,hlen⟩

theorem gStrndup_length (s : Text) : (gStrndup s).length = s.length+1 := by
  have hle := (List.takeWhile_sublist (· ≠ (0 : UInt8)) (l := s)).length_le
  rw [gStrndup,List.length_append,List.length_replicate]
  omega

/-- The loop that keeps what is written as a text never has more of it than it has read. -/
structure DotState.Bounded (d : DotState) (n : ℕ) : Prop where
  dst : d.dst.length ≤ n
  dotCnt : d.dotCnt ≤ d.dst.length

theorem dotStep_bounded {d : DotState} {n : ℕ} (h : d.Bounded n) (c : UInt8) :
    (dotStep d c).Bounded (n+1) := by
  have hdst := h.dst
  have hdots := h.dotCnt
  have hdrop := (dropSegments_suffix d).length_le
  unfold dotStep
  split_ifs
  · exact ⟨Nat.succ_le_succ (hdrop.trans hdst),Nat.zero_le _⟩
  · exact ⟨Nat.succ_le_succ hdst,Nat.succ_le_succ hdots⟩
  · exact ⟨Nat.succ_le_succ hdst,Nat.le_succ_of_le hdots⟩
  · exact ⟨Nat.succ_le_succ hdst,Nat.zero_le _⟩

theorem finish_length {d : DotState} {n : ℕ} (h : d.Bounded n) : d.finish.length ≤ n := by
  have hdst := h.dst
  rw [DotState.finish,List.length_reverse]
  split_ifs with hlast
  · have := dropSegments_length hlast.2 h.dotCnt
    rw [List.length_cons]
    omega
  · exact hdst

/-- The state of the other loop when so many characters are read. -/
def dotsRead (s : Text) (psrc : ℕ) : DotState := (s.take psrc).foldl dotStep ⟨[],0,true⟩

theorem dotsRead_bounded (s : Text) {psrc : ℕ} (h : psrc ≤ s.length) :
    (dotsRead s psrc).Bounded psrc := by
  induction psrc with
  | zero => exact ⟨Nat.le_refl 0,Nat.le_refl 0⟩
  | succ psrc ih =>
    have hlt : psrc < s.length := h
    have hnext : dotsRead s (psrc+1) = dotStep (dotsRead s psrc) s[psrc] := by
      rw [dotsRead,dotsRead,List.take_succ_eq_append_getElem hlt,List.foldl_concat]
    rw [hnext]
    exact dotStep_bounded (ih (Nat.le_of_lt hlt)) _

/-- Where the loop is when it has read `t.1` characters of `s`. -/
structure AtTurn (s : Text) (t : ℕ × DotBuffer) : Prop where
  psrc : t.1 ≤ s.length
  holds : t.2.Holds (dotsRead s t.1)
  length : t.2.data.length = s.length+1

theorem AtTurn.start (s : Text) : AtTurn s (dotMachine s).start :=
  ⟨Nat.zero_le _,⟨rfl,rfl,rfl,rfl⟩,gStrndup_length s⟩

/-- No access of a turn fails. -/
theorem AtTurn.step {s : Text} {t : ℕ × DotBuffer} (h : AtTurn s t) (hlt : t.1 < s.length) :
    ∃ b,(dotMachine s).step t () = some (t.1+1,b) ∧ AtTurn s (t.1+1,b) := by
  obtain ⟨psrc,b⟩ := t
  have hlt : psrc < s.length := hlt
  have hroom : psrc < b.data.length := by
    rw [h.length]
    exact Nat.lt_succ_of_lt hlt
  obtain ⟨b',hturn,hholds,hlen⟩ := h.holds.turn (dotsRead_bounded s h.psrc).dst hroom s[psrc]
  have hnext : dotsRead s (psrc+1) = dotStep (dotsRead s psrc) s[psrc] := by
    rw [dotsRead,dotsRead,List.take_succ_eq_append_getElem hlt,List.foldl_concat]
  refine ⟨b',?_,hlt,by rw [hnext]; exact hholds,hlen.trans h.length⟩
  dsimp only [dotMachine]
  rw [List.getElem?_eq_getElem hlt,Option.bind_some,hturn]
  rfl

theorem reachable_atTurn {s : Text} {t : ℕ × DotBuffer} (h : (dotMachine s).Reachable t) :
    AtTurn s t := by
  refine h.invariant (AtTurn s) (AtTurn.start s) fun t l u ht _ hu => ?_
  have hlt : t.1 < s.length := by
    obtain ⟨c,hc,_⟩ := Option.bind_eq_some_iff.mp hu
    exact (List.getElem?_eq_some_iff.mp hc).1
  obtain ⟨b,hb,hnext⟩ := ht.step hlt
  cases hb.symm.trans hu
  exact hnext

theorem AtTurn.exec {s : Text} {t : ℕ × DotBuffer} (h : AtTurn s t) {n : ℕ}
    (hn : t.1+n ≤ s.length) :
    ∃ b,(dotMachine s).exec t (List.replicate n ()) = some (t.1+n,b) ∧ AtTurn s (t.1+n,b) := by
  induction n generalizing t with
  | zero => exact ⟨t.2,rfl,h⟩
  | succ n ih =>
    obtain ⟨b,hb,hnext⟩ := h.step (by omega)
    obtain ⟨b',hb',hlast⟩ := ih hnext (by dsimp only; omega)
    have hsum : t.1+1+n = t.1+(n+1) := by omega
    refine ⟨b',?_,by rw [← hsum]; exact hlast⟩
    rw [List.replicate_succ,Machine.exec_cons,hb,Option.bind_some,hb',hsum]

theorem DotBuffer.Holds.finish {b : DotBuffer} {d : DotState} (h : b.Holds d) {n : ℕ}
    (hd : d.Bounded n) (hlen : b.data.length = n+1) :
    (b.finish n).map (fun b => b.data.take b.pdst.toNat) = some d.finish := by
  rw [DotBuffer.finish,DotState.finish,h.afterSlash,h.dotCnt]
  split_ifs with hlast
  · have hless := dropSegments_length hlast.2 hd.dotCnt
    have hdst := hd.dst
    have hback : (dropSegments d).length ≤ n-1 := by omega
    have hroom : n-1 < b.data.length := by omega
    obtain ⟨data,hput,hwritten,_⟩ := h.putSlash hback hroom
    rw [hput]
    exact congrArg some hwritten
  · rw [← h.written,Option.map_some,h.pdst,Int.toNat_natCast]

/-- In the buffer the whole function is the one that keeps texts. -/
theorem removeDotSegmentsIn_eq (s : Text) : removeDotSegmentsIn s = some (removeDotSegments s) := by
  obtain ⟨b,hb,hlast⟩ := (AtTurn.start s).exec (n := s.length) (Nat.zero_add _).le
  have hlen : (dotMachine s).start.1+s.length = s.length := Nat.zero_add _
  have hread : dotsRead s s.length = s.foldl dotStep ⟨[],0,true⟩ := by
    rw [dotsRead,List.take_length]
  rw [hlen] at hb hlast
  have hb : (dotMachine s).exec (0,.start s) (List.replicate s.length ()) = some (s.length,b) := hb
  rw [removeDotSegmentsIn,hb,Option.bind_some,
    hlast.holds.finish (dotsRead_bounded s (Nat.le_refl s.length)) hlast.length,hread]
  rfl

/-! What comes out of it. -/

theorem removeDotSegments_length (s : Text) : (removeDotSegments s).length ≤ s.length := by
  have hbounded := dotsRead_bounded s (Nat.le_refl s.length)
  rw [dotsRead,List.take_length] at hbounded
  exact finish_length hbounded

/-- The result is an absolute path of segments none of which is a dot segment. -/
theorem removeDotSegments_segments (path : Text) : ∃ segments,
    removeDotSegments (slash::path) = render delimiters segments ∧ segments ≠ [] ∧
      Segments delimiters segments ∧ ∀ name ∈ segments, name ≠ [dot] ∧ name ≠ [dot,dot] := by
  obtain ⟨s,segments,heq,h⟩ := exists_segments (d := delimiters) path
  have hpath : slash::path = render delimiters (s::segments) := heq
  refine ⟨resolveSegments delimiters [] (s::segments),?_,?_,?_,?_⟩
  · rw [hpath,removeDotSegments_render h]
  · exact resolveSegments_ne_nil [] s segments
  · exact resolveSegments_segments segments_nil h
  · intro name hname
    obtain hmem | rfl | ⟨_,hdots⟩ := mem_resolveSegments hname
    · cases hmem
    · exact ⟨nofun,nofun⟩
    · exact hdots

theorem removeDotSegments_removeDotSegments (path : Text) :
    removeDotSegments (removeDotSegments (slash::path)) = removeDotSegments (slash::path) := by
  obtain ⟨segments,heq,hne,hsegments,hdots⟩ := removeDotSegments_segments path
  obtain ⟨s,segments,rfl⟩ := List.exists_cons_of_ne_nil hne
  rw [heq,removeDotSegments_render hsegments,resolveSegments_eq_append hdots,List.nil_append]

/-- On absolute paths the loop comes to its end with no access that fails, its writing
position between the start of the buffer and the reading position, and leaves what the RFC
says, which is no longer, has no dot segment, and stays as it is when it is done again. -/
theorem removeDotSegments_buffer (path : Text) :
    (∀ t, (dotMachine (slash::path)).Reachable t →
      0 ≤ t.2.pdst ∧ t.2.pdst ≤ t.1 ∧ t.1 ≤ (slash::path).length ∧
        (t.1 < (slash::path).length → ((dotMachine (slash::path)).step t ()).isSome = true)) ∧
    ∃ out, removeDotSegmentsIn (slash::path) = some out ∧
      out = Rfc3986.removeDotSegments delimiters (slash::path) [] ∧
      out.length ≤ (slash::path).length ∧
      (∀ name ∈ out.splitOnP (· = slash), name ≠ [dot] ∧ name ≠ [dot,dot]) ∧
      removeDotSegmentsIn out = some out := by
  constructor
  · intro t ht
    have hat := reachable_atTurn ht
    have hpdst := hat.holds.pdst
    have hbounded := (dotsRead_bounded _ hat.psrc).dst
    refine ⟨by omega,by omega,hat.psrc,fun hlt => ?_⟩
    obtain ⟨b,hb,_⟩ := hat.step hlt
    rw [hb]
    rfl
  · refine ⟨_,removeDotSegmentsIn_eq _,removeDotSegments_eq path,removeDotSegments_length _,?_,?_⟩
    · obtain ⟨segments,heq,_,hsegments,hdots⟩ := removeDotSegments_segments path
      have hslash : decide (delimiters.slash = slash) = true := rfl
      have hfree : ∀ t ∈ segments, ∀ c ∈ t, decide (c = slash) = false := by
        intro t ht c hc
        refine decide_eq_false ?_
        rintro rfl
        exact hsegments t ht hc
      have hsplit := splitOnP_render (p := (· = slash)) hslash (List.forall_mem_nil _) hfree
      rw [heq,← List.nil_append (render _ _),hsplit]
      intro name hname
      obtain rfl | hname := List.mem_cons.mp hname
      · exact ⟨nofun,nofun⟩
      · exact hdots name hname
    · rw [removeDotSegmentsIn_eq,removeDotSegments_removeDotSegments]

end UriParser
end FreshPlayer
