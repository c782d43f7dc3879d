import FreshPlayer.Transition
import FreshPlayer.UriParser

/-! Paths of the Flash module are made absolute in place, in the buffer that is read. One
step is one turn of a loop. -/
namespace FreshPlayer
namespace FlashFile

open UriParser (Text slash dot)

def backslash : UInt8 := '\\'.toUInt8

/-- Where the code is: at the head of the loop over the characters, or with so many names
still to drop, after which a slash is written. -/
inductive Pc
  | scan | drop (k : ℕ) | done
  deriving DecidableEq, Repr

structure State where
  relPath : Text
  src : ℕ
  dst : ℤ
  dotCnt : ℕ
  afterSlash : Bool
  pc : Pc
  deriving DecidableEq, Repr

/-- `*dst++ = c` -/
def State.write (s : State) (c : UInt8) : State :=
  { s with relPath := s.relPath.set s.dst.toNat c, dst := s.dst+1 }

def State.countsDots (s : State) : Bool := s.dotCnt = 1 || s.dotCnt = 2

/-- One turn of the loop over the characters, or the end of the text. -/
def State.scan (s : State) : State :=
  match s.relPath[s.src]? with
  | none => { s with pc := if s.afterSlash && s.countsDots then .drop s.dotCnt else .done }
  | some c =>
    if c = backslash ∨ c = slash then { s with pc := .drop (if s.countsDots then s.dotCnt else 0) }
    else if c = dot then
      { s.write dot with dotCnt := if s.afterSlash then s.dotCnt+1 else s.dotCnt, src := s.src+1 }
    else { s.write c with dotCnt := 0, afterSlash := false, src := s.src+1 }

/-- One turn of the loop that goes back over a name, or what stands behind it. -/
def State.dropName (s : State) (k : ℕ) : State :=
  if 0 < s.dst ∧ s.relPath[(s.dst-1).toNat]? ≠ some slash then { s with dst := s.dst-1 }
  else { s with dst := if 0 < s.dst then s.dst-1 else s.dst, pc := .drop k }

/-- The slash behind the names dropped, also at the end of the text. -/
def State.putSlash (s : State) : State :=
  match s.relPath[s.src]? with
  | none => { s.write slash with pc := .done }
  | some _ => { s.write slash with dotCnt := 0, afterSlash := true, src := s.src+1, pc := .scan }

def State.next (s : State) : Option State :=
  match s.pc with
  | .scan => some s.scan
  | .drop (k+1) => some (s.dropName k)
  | .drop 0 => some s.putSlash
  | .done => none

/-- Turns left, by what is left to read, where the code is and how far it has to go back. -/
def State.rank (s : State) : ℕ × ℕ × ℕ :=
  (s.relPath.length-s.src,match s.pc with | .scan => s.dotCnt+2 | .drop k => k+1 | .done => 0,
    s.dst.toNat)

theorem State.next_rank {s t : State} (h : s.next = some t) :
    Prod.Lex (· < ·) (Prod.Lex (· < ·) (· < ·)) t.rank s.rank := by
  unfold State.next at h
  cases hpc : s.pc with
  | done => simp [hpc] at h
  | scan =>
    simp only [hpc,Option.some.injEq] at h
    subst h
    unfold State.scan
    cases hc : s.relPath[s.src]? with
    | none =>
      dsimp only
      split_ifs <;> simp [State.rank,hpc,Prod.lex_def]
    | some c =>
      have hlt := (List.getElem?_eq_some_iff.mp hc).1
      have hread : s.relPath.length-(s.src+1) < s.relPath.length-s.src := by omega
      dsimp only
      split_ifs
      · simp [State.rank,hpc,Prod.lex_def]
      · simp [State.rank,hpc,Prod.lex_def]
      · exact .left _ _ (by simpa [State.rank,State.write] using hread)
      · exact .left _ _ (by simpa [State.rank,State.write] using hread)
      · exact .left _ _ (by simpa [State.rank,State.write] using hread)
  | drop k =>
    cases k with
    | zero =>
      simp only [hpc,Option.some.injEq] at h
      subst h
      unfold State.putSlash
      cases hc : s.relPath[s.src]? with
      | none => simp [State.rank,State.write,hpc,Prod.lex_def]
      | some c =>
        have hlt := (List.getElem?_eq_some_iff.mp hc).1
        have hread : s.relPath.length-(s.src+1) < s.relPath.length-s.src := by omega
        exact .left _ _ (by simpa [State.rank,State.write] using hread)
    | succ k =>
      simp only [hpc,Option.some.injEq] at h
      subst h
      unfold State.dropName
      split_ifs with hd
      · have hback : (s.dst-1).toNat < s.dst.toNat := by omega
        exact .right _ (by simpa only [State.rank,hpc] using .right _ hback)
      · simp [State.rank,hpc,Prod.lex_def]
      · simp [State.rank,hpc,Prod.lex_def]

/-- The whole loop. -/
def State.run (s : State) : State :=
  match _h : s.next with
  | none => s
  | some t => t.run
termination_by s.rank
decreasing_by exact State.next_rank _h

def start (s : Text) : State := ⟨slash::s,0,0,0,true,.scan⟩

def toAbsPath (root s : Text) : Text :=
  let t := (start s).run
  root ++ t.relPath.take t.dst.toNat

def machine (s : Text) : Machine State Unit := ⟨start s,fun t _ => t.next⟩

end FlashFile
end FreshPlayer
