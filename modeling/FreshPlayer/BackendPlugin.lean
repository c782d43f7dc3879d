import FreshPlayer.NetAddressText
import Mathlib.Data.List.DropRight
import Mathlib.Data.List.Lex
import Mathlib.Data.List.MinMax

/-! The search for the plugin to load among the files it may be in, and the version it is shown
under. -/
namespace FreshPlayer
namespace BackendPlugin
open CText

/-- What the file system holds: the mode of a file, the text under `version` in a file of JSON,
and the first word a pattern expands to. -/
structure Files where
  lstat : Text → Option ℕ
  version : Text → Option Text
  wordexp : Text → Option Text

/-- POSIX. The path `//` is the same as `/`. -/
def dirname (path : Text) : Text :=
  let slash : UInt8 → Bool := (· = '/'.toUInt8)
  let s := path.rdropWhile slash
  if path = [] then bytes "."
  else if s = [] then bytes "/"
  else
    let dir := s.rdropWhile (!slash ·)
    if dir = [] then bytes "."
    else if dir.rdropWhile slash = [] then bytes "/"
    else dir.rdropWhile slash

def pepperflashPathList : List Text := List.map bytes
  ["/opt/google/chrome/PepperFlash/libpepflashplayer.so",
    "/usr/lib/flash-plugin/libpepflashplayer.so",
    "/usr/lib64/flash-plugin/libpepflashplayer.so",
    "/usr/lib/adobe-flashplugin/libpepflashplayer.so",
    "/usr/lib/pepperflashplugin-nonfree/libpepflashplayer.so",
    "/usr/lib/PepperFlash/libpepflashplayer.so",
    "/usr/lib64/PepperFlash/libpepflashplayer.so",
    "/usr/lib/chromium-browser/PepperFlash/libpepflashplayer.so",
    "/usr/lib64/chromium-browser/PepperFlash/libpepflashplayer.so",
    "/usr/lib/chromium/PepperFlash/libpepflashplayer.so",
    "/usr/lib64/chromium/PepperFlash/libpepflashplayer.so",
    "/opt/chromium/PepperFlash/libpepflashplayer.so",
    "/usr/lib/pepflashplugin-installer/libpepflashplayer.so",
    "~/.config/google-chrome/PepperFlash/*/libpepflashplayer.so"]

structure FlapperVersion where
  v : List ℕ
  length_eq : v.length = 4
  deriving DecidableEq, Repr

def FlapperVersion.zero : FlapperVersion := ⟨[0,0,0,0],rfl⟩

/-- S_ISREG, and a bit of 0444. -/
def fileExistsAndIsRegularAndReadable (files : Files) (fname : Text) : Bool :=
  match files.lstat fname with
  | none => false
  | some mode => mode &&& 0o170000 == 0o100000 && mode &&& 0o444 != 0

/-- `%9u.%9u.%9u.%9u`. What is not reached is not stored. -/
def scanVersion : ℕ → Text → List ℕ
  | 0,_ => []
  | k+1,s => match scanUnsigned 9 s with
    | none => []
    | some (n,rest) => n :: match scanText (bytes ".") rest with
      | none => []
      | some rest => scanVersion k rest

def FlapperVersion.scan (s : Text) : FlapperVersion :=
  ⟨(scanVersion 4 s ++ [0,0,0,0]).take 4,by simp⟩

def getFlapperVersion (files : Files) (fname : Text) : FlapperVersion :=
  match files.version (dirname fname ++ bytes "/manifest.json") with
  | none => .zero
  | some s => .scan s

def compareVersions : List ℕ → List ℕ → ℤ
  | a::as,b::bs => if a < b then -1 else if b < a then 1 else compareVersions as bs
  | _,_ => 0

def compareFlapperVersion (a b : FlapperVersion) : ℤ := compareVersions a.v b.v

/-- `flapper_path` and `flapper_version`. -/
structure Found where
  path : Option Text
  version : FlapperVersion
  deriving DecidableEq, Repr

def Found.init : Found := ⟨none,.zero⟩

def probeFlapper (files : Files) (f : Found) (fname : Text) : ℕ × Found :=
  if !fileExistsAndIsRegularAndReadable files fname then (1,f)
  else
    let v := getFlapperVersion files fname
    if f.path.isNone || 0 < compareFlapperVersion v f.version then (0,⟨some fname,v⟩) else (0,f)

def gStrsplit (c : UInt8) (s : Text) : List Text := if s = [] then [] else s.splitOn c

/-- The files probed. A pattern stands for the first file it expands to. -/
def candidates (files : Files) (pepperflashPath : Option Text) : List Text :=
  match pepperflashPath with
  | some paths => gStrsplit ':'.toUInt8 paths
  | none => pepperflashPathList.filterMap files.wordexp

/-- `%u.%u.%u.%u`. -/
def printVersion (v : List ℕ) : Text := NetAddress.printAll 10 NetAddress.period v

structure Plugin where
  found : Found
  descr : Text
  strVersion : Text
  deriving DecidableEq, Repr

def FlapperVersion.component (v : FlapperVersion) (k : ℕ) : Text := printDigits 10 (v.v.getD k 0)

def findBackendPlugin (files : Files) (pepperflashPath : Option Text) : Plugin :=
  let f := (candidates files pepperflashPath).foldl (fun f fname => (probeFlapper files f fname).2)
    .init
  { found := f
    descr := bytes "Shockwave Flash " ++ f.version.component 0 ++ bytes "." ++
      f.version.component 1 ++ bytes " r" ++ f.version.component 2
    strVersion := printVersion f.version.v }

variable {files : Files} {fname : Text}

theorem compareVersions_pos_iff : ∀ {a b : List ℕ}, a.length = b.length →
    (0 < compareVersions a b ↔ b < a) := by
  intro a
  induction a with
  | nil =>
    intro b h
    rw [List.eq_nil_of_length_eq_zero h.symm]
    simp [compareVersions]
  | cons x a ih =>
    intro b h
    cases b with
    | nil => cases h
    | cons y b =>
      rw [compareVersions,List.cons_lt_cons_iff]
      split_ifs with hxy hyx
      · constructor
        · intro h
          omega
        · rintro (h | ⟨rfl,-⟩) <;> omega
      · simp [hyx]
      · obtain rfl : x = y := by omega
        rw [ih (by simpa using h)]
        simp

def versionOf (files : Files) (fname : Text) : List ℕ := (getFlapperVersion files fname).v

/-- What is found holds the version of its file. -/
structure Found.Read (files : Files) (f : Found) : Prop where
  version : ∀ fname ∈ f.path, f.version = getFlapperVersion files fname
  none : f.path = none → f.version = .zero

theorem probeFlapper_read {f : Found} (h : f.Read files) :
    (probeFlapper files f fname).2.Read files := by
  unfold probeFlapper
  dsimp only
  split_ifs
  · exact h
  · exact ⟨by rintro _ ⟨⟩; rfl,by rintro ⟨⟩⟩
  · exact h

/-- A file that can be read takes the place of what has been found if it has a later version. -/
theorem probeFlapper_path {f : Found} (h : f.Read files)
    (hr : fileExistsAndIsRegularAndReadable files fname = true) :
    (probeFlapper files f fname).2.path = some (match f.path with
      | none => fname
      | some c => if versionOf files c < versionOf files fname then fname else c) := by
  obtain ⟨path,v⟩ := f
  rw [probeFlapper,hr]
  cases path with
  | none => rfl
  | some c =>
    have hv : v = getFlapperVersion files c := h.version c rfl
    have hpos : 0 < compareFlapperVersion (getFlapperVersion files fname) v ↔
        versionOf files c < versionOf files fname := by
      rw [hv]
      exact compareVersions_pos_iff ((FlapperVersion.length_eq _).trans
        (FlapperVersion.length_eq _).symm)
    by_cases hlt : versionOf files c < versionOf files fname
    · simp [hpos.mpr hlt,hlt]
    · simp [mt hpos.mp hlt,hlt]

/-- After any files, the latest version among those that can be read has been found, the first
file where several have it. -/
theorem probed (files : Files) (l : List Text) :
    let f := l.foldl (fun f fname => (probeFlapper files f fname).2) .init
    f.Read files ∧ f.path =
      (l.filter (fileExistsAndIsRegularAndReadable files)).argmax (versionOf files) := by
  induction l using List.reverseRecOn with
  | nil => exact ⟨⟨by rintro _ ⟨⟩,fun _ => rfl⟩,rfl⟩
  | append_singleton l fname ih =>
    dsimp only at ih ⊢
    rw [List.foldl_append,List.foldl_cons,List.foldl_nil,List.filter_append]
    refine ⟨probeFlapper_read ih.1,?_⟩
    cases hr : fileExistsAndIsRegularAndReadable files fname with
    | false =>
      rw [List.filter_cons_of_neg (by simp [hr]),List.filter_nil,List.append_nil,← ih.2,
        probeFlapper,hr]
      rfl
    | true =>
      rw [probeFlapper_path ih.1 hr,List.filter_cons_of_pos hr,List.filter_nil,List.argmax_concat,
        ih.2]
      cases (l.filter (fileExistsAndIsRegularAndReadable files)).argmax (versionOf files) with
      | none => rfl
      | some c => exact apply_ite some _ _ _

/-- The plugin loaded is the latest among the files that can be read, and the version shown is
that file's. Where there is none, none is loaded and the version shown is zero. -/
theorem findBackendPlugin_latest (files : Files) (pepperflashPath : Option Text) :
    let p := findBackendPlugin files pepperflashPath
    let readable := (candidates files pepperflashPath).filter
      (fileExistsAndIsRegularAndReadable files)
    p.found.path = readable.argmax (versionOf files) ∧
      (∀ fname ∈ p.found.path, p.strVersion = printVersion (versionOf files fname)) ∧
      (readable = [] → p.found.path = none ∧ p.strVersion = bytes "0.0.0.0") := by
  dsimp only
  obtain ⟨hread,hpath⟩ := probed files (candidates files pepperflashPath)
  refine ⟨hpath,fun fname h => ?_,fun hempty => ?_⟩
  · exact congrArg (fun v : FlapperVersion => printVersion v.v) (hread.version fname h)
  · have hnone := hpath.trans (List.argmax_eq_none.mpr hempty)
    exact ⟨hnone,congrArg (fun v : FlapperVersion => printVersion v.v) (hread.none hnone)⟩

example :
    let files : Files :=
      { lstat := fun fname => if fname = bytes "/b/l" ∨ fname = bytes "/c/l" then some 0o100644
          else none
        version := fun fname => if fname = bytes "/b/manifest.json" then some (bytes "11.2")
          else some (bytes "11.2.0.0")
        wordexp := fun _ => none }
    (findBackendPlugin files (some (bytes "/a/l:/b/l:/c/l"))).found.path = some (bytes "/b/l") := by
  decide +kernel

theorem printVersion_cons (n : ℕ) (v : List ℕ) : printVersion (n::v) =
    printDigits 10 n ++ (if v = [] then [] else NetAddress.period::printVersion v) := by
  cases v with
  | nil => simp [printVersion,NetAddress.printAll]
  | cons m v => simp [printVersion,NetAddress.printAll]

/-- The numbers are read one by one, and the first that is longer than nine digits ends the
reading. -/
theorem scanVersion_print (k n : ℕ) (v : List ℕ) :
    scanVersion (k+1) (printVersion (n::v)) =
      if n < 10^9 then n::scanVersion k (printVersion v)
      else [decimal ((printDigits 10 n).take 9)] := by
  have htail : ∀ c ∈ (if v = [] then [] else NetAddress.period::printVersion v).head?,
      isDigit c = false := by
    intro c hc
    split_ifs at hc
    · cases hc
    · cases hc
      decide
  rw [printVersion_cons,scanVersion,scanUnsigned_printDigits (by decide) (by decide) htail]
  dsimp only
  by_cases hn : n < 10^9
  · have hlen := (length_printDigits_le_iff (by decide)).mpr hn
    rw [if_pos hn,List.take_of_length_le hlen,decimal_printDigits,List.drop_eq_nil_of_le hlen,
      List.nil_append]
    split_ifs with hv
    · subst hv
      cases k <;> rfl
    · simp [scanText,NetAddress.period,bytes]
  · -- another digit stands where the point should
    have hlen := mt (length_printDigits_le_iff (by decide)).mp hn
    have hdrop : (printDigits 10 n).drop 9 ≠ [] := by
      rw [Ne,List.drop_eq_nil_iff]
      exact hlen
    obtain ⟨c,ds,hcs⟩ := List.exists_cons_of_ne_nil hdrop
    have hc : isDigit c = true :=
      printDigits_isDigit (n := n) (List.mem_of_mem_drop (hcs ▸ List.mem_cons_self))
    have hpoint : c ≠ NetAddress.period := by
      rintro rfl
      exact absurd hc (by decide)
    have hnone : scanText (bytes ".") (c::ds ++ if v = [] then [] else
        NetAddress.period::printVersion v) = none := by
      rw [scanText,if_neg]
      intro h
      exact hpoint (List.cons_prefix_cons.mp h).1.symm
    rw [if_neg hn,hcs,hnone]

theorem scan_print_iff {v : List ℕ} (zs : List ℕ) :
    (scanVersion v.length (printVersion v) ++ zs).take v.length = v ↔ ∀ n ∈ v, n < 10^9 := by
  induction v with
  | nil => simp
  | cons n v ih =>
    rw [List.length_cons,scanVersion_print,List.forall_mem_cons]
    split_ifs with hn
    · rw [List.cons_append,List.take_succ_cons,List.cons.injEq,ih]
      exact ⟨fun h => ⟨hn,h.2⟩,fun h => ⟨rfl,h.2⟩⟩
    · refine ⟨fun h => absurd ?_ hn,fun h => absurd h.1 hn⟩
      have hsmall := decimal_lt fun x hx =>
        printDigits_isDigit (n := n) (List.mem_of_mem_take (i := 9) hx)
      have hlen : ((printDigits 10 n).take 9).length ≤ 9 := List.length_take_le 9 _
      rw [← (List.cons.inj h).1]
      exact hsmall.trans_le (Nat.pow_le_pow_right (by decide) hlen)

/-- Where the manifest of the plugin that is loaded holds a version of four numbers, that text is
shown if and only if the numbers have at most nine digits. -/
theorem findBackendPlugin_version_iff {pepperflashPath : Option Text} {v : List ℕ}
    (hpath : (findBackendPlugin files pepperflashPath).found.path = some fname)
    (hlen : v.length = 4)
    (hv : files.version (dirname fname ++ bytes "/manifest.json") = some (printVersion v)) :
    (findBackendPlugin files pepperflashPath).strVersion = printVersion v ↔
      ∀ n ∈ v, n < 10^9 := by
  have hread := (probed files (candidates files pepperflashPath)).1.version fname hpath
  have hversion : getFlapperVersion files fname = .scan (printVersion v) := by
    rw [getFlapperVersion,hv]
  have hscan : (findBackendPlugin files pepperflashPath).strVersion =
      printVersion ((scanVersion v.length (printVersion v) ++ [0,0,0,0]).take v.length) := by
    rw [hlen]
    exact congrArg (fun v : FlapperVersion => printVersion v.v) (hread.trans hversion)
  have hne : v ≠ [] := by
    rintro rfl
    cases hlen
  rw [← scan_print_iff [0,0,0,0],hscan]
  refine ⟨fun h => ?_,fun h => congrArg _ h⟩
  refine NetAddress.printAll_inj (by decide) (by decide) (by decide) ?_ hne h
  intro h
  have := congrArg List.length h
  simp [hlen] at this

theorem findBackendPlugin_longVersion :
    let v := [32,0,0,1234567890]
    let files : Files :=
      { lstat := fun _ => some 0o100644
        version := fun _ => some (printVersion v)
        wordexp := fun _ => none }
    (findBackendPlugin files (some (bytes "/l"))).strVersion = printVersion v ↔
      ∀ n ∈ v, n < 10^9 :=
  @findBackendPlugin_version_iff _ (bytes "/l") _ _ (by decide +kernel) rfl rfl

end BackendPlugin
end FreshPlayer
