import Mathlib.Data.Int.Notation
import Mathlib.Data.List.Induction
import Mathlib.Data.List.TakeWhile
import Mathlib.Tactic.Common
import Mathlib.Algebra.Group.Int.Defs
import Mathlib.Algebra.Group.Nat.Defs

/-! Functions of the C library on the bytes of a text, in the C locale. -/
namespace FreshPlayer
namespace CText

abbrev Text := List UInt8

def bytes (s : String) : Text := s.toList.map Char.toUInt8

def isSpace (c : UInt8) : Bool := c = ' '.toUInt8 || (9 ≤ c && c ≤ 13)

def isDigit (c : UInt8) : Bool := '0'.toUInt8 ≤ c && c ≤ '9'.toUInt8

theorem isDigit_iff {c : UInt8} : isDigit c = true ↔ 48 ≤ c.toNat ∧ c.toNat ≤ 57 := by
  simp only [isDigit,Bool.and_eq_true,decide_eq_true_eq,UInt8.le_iff_toNat_le]
  rfl

def digit (c : UInt8) : ℕ := c.toNat - '0'.toNat

def decimal (ds : Text) : ℕ := ds.foldl (fun n c => 10*n+digit c) 0

/-- Whether a number begins with a minus sign, and what is behind its sign. -/
def sign : Text → Bool × Text
  | [] => (false,[])
  | c::s => if c = '-'.toUInt8 then (true,s) else if c = '+'.toUInt8 then (false,s) else (false,c::s)

def signed (negative : Bool) (n : ℕ) : ℤ := if negative then -n else n

/-- `strtol` keeps to the range of a `long`, of which the lower half is taken. -/
def atoi (s : Text) : ℤ :=
  let t := sign (s.dropWhile isSpace)
  let n := signed t.1 (decimal (t.2.takeWhile isDigit))
  Int.bmod (max (-2^63) (min n (2^63-1))) (2^32)

theorem sign_append {s : Text} (h : s ≠ []) (t : Text) :
    sign (s ++ t) = ((sign s).1,(sign s).2 ++ t) := by
  cases s with
  | nil => exact absurd rfl h
  | cons c s =>
    rw [List.cons_append,sign,sign]
    split_ifs <;> rfl

theorem takeWhile_isDigit_append {s t : Text} (h : ∀ c ∈ t.head?, isDigit c = false) :
    (s ++ t).takeWhile isDigit = s.takeWhile isDigit := by
  induction s with
  | nil => cases t with
    | nil => rfl
    | cons c t => exact List.takeWhile_cons_of_neg (by rw [h c rfl]; decide)
  | cons c s ih =>
    rw [List.cons_append,List.takeWhile_cons,List.takeWhile_cons,ih]

/-- `atoi` does not look behind the digits. -/
theorem atoi_append {c : UInt8} {s t : Text} (hc : isSpace c = false)
    (ht : ∀ x ∈ t.head?, isDigit x = false) : atoi (c::s ++ t) = atoi (c::s) := by
  have hdrop : ∀ u : Text, (c::u).dropWhile isSpace = c::u :=
    fun u => List.dropWhile_cons_of_neg (by rw [hc]; decide)
  unfold atoi
  rw [List.cons_append,hdrop,hdrop,← List.cons_append,sign_append (List.cons_ne_nil c s)]
  dsimp only
  rw [takeWhile_isDigit_append ht]

/-! Numbers in `sscanf`. -/

/-- `%Nd` with what is left. The sign counts as one of the characters. -/
def scanInt (width : ℕ) (s : Text) : Option (ℤ × Text) :=
  let s := s.dropWhile isSpace
  let t := sign s
  let digits := (t.2.take (width-(s.length-t.2.length))).takeWhile isDigit
  if digits = [] then none else some (signed t.1 (decimal digits),t.2.drop digits.length)

/-- `%Nu` with what is left, into an `unsigned int`. -/
def scanUnsigned (width : ℕ) (s : Text) : Option (ℕ × Text) :=
  (scanInt width s).map fun (n,rest) => ((n % 2^32).toNat,rest)

/-- Characters of the format that have to be there. -/
def scanText (expected s : Text) : Option Text :=
  if expected <+: s then some (s.drop expected.length) else none

/-! `strtok_r`, from the place it has got to. -/

def strtokR (delims s : Text) : Option (Text × Text) :=
  match s.dropWhile (· ∈ delims) with
  | [] => none
  | c::t => some ((c::t).takeWhile (· ∉ delims),((c::t).dropWhile (· ∉ delims)).tail)

theorem strtokR_length {delims s part rest : Text} (h : strtokR delims s = some (part,rest)) :
    rest.length < s.length := by
  unfold strtokR at h
  split at h
  · cases h
  · rename_i c t hs
    cases h
    have h1 := (List.dropWhile_suffix (· ∈ delims) (l := s)).length_le
    have h2 := (List.dropWhile_suffix (· ∉ delims) (l := c::t)).length_le
    rw [hs] at h1
    rw [List.length_tail]
    simp only [List.length_cons] at h1 h2 ⊢
    omega

/-- All the parts. -/
def tokens (delims s : Text) : List Text :=
  match _h : strtokR delims s with
  | none => []
  | some (part,rest) => part::tokens delims rest
termination_by s.length
decreasing_by exact strtokR_length _h

theorem tokens_none {delims s : Text} (h : strtokR delims s = none) : tokens delims s = [] := by
  rw [tokens]
  split <;> simp_all

theorem tokens_some {delims s part rest : Text} (h : strtokR delims s = some (part,rest)) :
    tokens delims s = part::tokens delims rest := by
  rw [tokens]
  split <;> simp_all

/-- A text without delimiters, and something in it. -/
structure IsToken (delims t : Text) : Prop where
  ne : t ≠ []
  free : ∀ c ∈ t, c ∉ delims

variable {delims : Text}

theorem strtokR_isToken {s part rest : Text} (h : strtokR delims s = some (part,rest)) :
    IsToken delims part := by
  unfold strtokR at h
  split at h
  · cases h
  · rename_i c t hs
    cases h
    have hc : c ∉ delims := by
      have hne : s.dropWhile (· ∈ delims) ≠ [] := by
        rw [hs]
        exact List.cons_ne_nil c t
      have := List.head_dropWhile_not (· ∈ delims) hne
      simpa [hs] using this
    refine ⟨?_,fun d hd => ?_⟩
    · simp [hc]
    · simpa using List.mem_takeWhile_imp hd

theorem tokens_isToken (s : Text) : ∀ t ∈ tokens delims s, IsToken delims t := by
  induction s using tokens.induct delims with
  | case1 s h =>
    rw [tokens_none h]
    exact nofun
  | case2 s part rest h ih =>
    rw [tokens_some h]
    exact List.forall_mem_cons.mpr ⟨strtokR_isToken h,ih⟩

theorem strtokR_subset {s part rest : Text} (h : strtokR delims s = some (part,rest)) :
    part ⊆ s ∧ rest ⊆ s := by
  unfold strtokR at h
  split at h
  · cases h
  · rename_i c t hs
    have hsub : c::t ⊆ s := hs ▸ (List.dropWhile_suffix _).subset
    cases h
    exact ⟨fun d hd => hsub ((List.takeWhile_prefix _).subset hd),
      fun d hd => hsub ((List.dropWhile_suffix _).subset (List.mem_of_mem_tail hd))⟩

theorem tokens_subset (s : Text) : ∀ t ∈ tokens delims s, t ⊆ s := by
  induction s using tokens.induct delims with
  | case1 s h =>
    rw [tokens_none h]
    exact nofun
  | case2 s part rest h ih =>
    obtain ⟨hpart,hrest⟩ := strtokR_subset h
    rw [tokens_some h]
    exact List.forall_mem_cons.mpr ⟨hpart,fun t ht => List.Subset.trans (ih t ht) hrest⟩

/-- A part at the front, up to a delimiter or the end. -/
theorem tokens_front {t rest : Text} (h : IsToken delims t)
    (hrest : ∀ c ∈ rest.head?, c ∈ delims) : tokens delims (t ++ rest) = t::tokens delims rest.tail := by
  have hfront : strtokR delims (t ++ rest) = some (t,rest.tail) := by
    obtain ⟨c,u,rfl⟩ := List.exists_cons_of_ne_nil h.ne
    have hc := h.free c List.mem_cons_self
    have hall : ∀ d ∈ c::u, decide (d ∉ delims) = true := fun d hd => decide_eq_true (h.free d hd)
    have hstop : rest.takeWhile (· ∉ delims) = [] ∧ rest.dropWhile (· ∉ delims) = rest := by
      cases rest with
      | nil => exact ⟨rfl,rfl⟩
      | cons d rest =>
        have hd : d ∈ delims := hrest d rfl
        simp [hd]
    have hskip : (c::u ++ rest).dropWhile (· ∈ delims) = c::(u ++ rest) := by simp [hc]
    unfold strtokR
    rw [hskip]
    dsimp only
    rw [← List.cons_append,List.takeWhile_append_of_pos hall,List.dropWhile_append_of_pos hall,
      hstop.1,hstop.2,List.append_nil]
  exact tokens_some hfront

/-- Parts with one delimiter between them. -/
theorem tokens_intercalate {d : UInt8} (hd : d ∈ delims) {ts : List Text}
    (h : ∀ t ∈ ts, IsToken delims t) : tokens delims (List.intercalate [d] ts) = ts := by
  induction ts with
  | nil => exact tokens_none rfl
  | cons t ts ih =>
    obtain ⟨ht,hts⟩ := List.forall_mem_cons.mp h
    cases ts with
    | nil =>
      have hfront : tokens delims (t ++ []) = t::tokens delims [].tail := tokens_front ht nofun
      rw [List.append_nil] at hfront
      rw [List.intercalate_singleton,hfront,List.tail_nil]
      exact congrArg _ (tokens_none rfl)
    | cons u us =>
      rw [List.intercalate_cons_cons,List.append_assoc,List.singleton_append,
        tokens_front ht fun c hc => by simpa using Option.mem_some.mp hc ▸ hd,List.tail_cons,ih hts]

/-- Some character that is no delimiter. -/
theorem tokens_ne_nil {s : Text} (h : ∃ c ∈ s, c ∉ delims) : tokens delims s ≠ [] := by
  cases hs : strtokR delims s with
  | none =>
    obtain ⟨c,hc,hd⟩ := h
    unfold strtokR at hs
    split at hs
    · rename_i hnil
      have := List.dropWhile_eq_nil_iff.mp hnil c hc
      exact absurd (of_decide_eq_true this) hd
    · cases hs
  | some p =>
    rw [tokens_some (show strtokR delims s = some (p.1,p.2) from hs)]
    exact List.cons_ne_nil _ _

/-! Numbers in `printf`. -/

/-- `%u` for the base 10, `%x` for 16. -/
def printDigits (base n : ℕ) : Text := (Nat.toDigits base n).map Char.toUInt8

def digitValue (c : UInt8) : ℕ := if isDigit c then digit c else c.toNat - 'a'.toNat + 10

variable {base : ℕ}

theorem digitValue_digitChar : ∀ d < 16, digitValue d.digitChar.toUInt8 = d := by decide

theorem printDigits_step (hb : 1 < base) (n : ℕ) : printDigits base n =
    (if n < base then [] else printDigits base (n/base)) ++ [(n % base).digitChar.toUInt8] := by
  rw [printDigits,Nat.toDigits_eq_if hb]
  split_ifs with h
  · rw [Nat.mod_eq_of_lt h]
    rfl
  · rw [List.map_append]
    rfl

theorem value_printDigits (hb : 1 < base) (hbase : base ≤ 16) (n : ℕ) :
    (printDigits base n).foldl (fun v c => base*v+digitValue c) 0 = n := by
  induction n using Nat.strongRecOn with
  | ind n ih =>
    have hlast := digitValue_digitChar (n % base) ((Nat.mod_lt n (by omega)).trans_le hbase)
    rw [printDigits_step hb,List.foldl_append]
    split_ifs with h
    · simpa [Nat.mod_eq_of_lt h] using hlast
    · rw [ih (n/base) (Nat.div_lt_self (by omega) hb)]
      simp only [List.foldl_cons,List.foldl_nil,hlast]
      exact Nat.div_add_mod n base

theorem printDigits_inj (hb : 1 < base) (hbase : base ≤ 16) {n m : ℕ}
    (h : printDigits base n = printDigits base m) : n = m := by
  rw [← value_printDigits hb hbase n,h,value_printDigits hb hbase]

theorem mem_printDigits (hb : 1 < base) {n : ℕ} {c : UInt8} (h : c ∈ printDigits base n) :
    ∃ d < base, c = d.digitChar.toUInt8 := by
  induction n using Nat.strongRecOn with
  | ind n ih =>
    rw [printDigits_step hb,List.mem_append] at h
    rcases h with h | h
    · split_ifs at h with hn
      · cases h
      · exact ih (n/base) (Nat.div_lt_self (by omega) hb) h
    · exact ⟨n % base,Nat.mod_lt n (by omega),List.mem_singleton.mp h⟩

/-- What is no digit of any base is not printed. -/
theorem not_mem_printDigits (hb : 1 < base) (hbase : base ≤ 16) {c : UInt8}
    (hc : ∀ d < 16, d.digitChar.toUInt8 ≠ c) (n : ℕ) : c ∉ printDigits base n := by
  intro h
  obtain ⟨d,hd,rfl⟩ := mem_printDigits hb h
  exact hc d (hd.trans_le hbase) rfl

theorem isDigit_digitChar : ∀ d < 10, isDigit d.digitChar.toUInt8 = true := by decide

theorem printDigits_isDigit {n : ℕ} {c : UInt8} (h : c ∈ printDigits 10 n) : isDigit c = true := by
  obtain ⟨d,hd,rfl⟩ := mem_printDigits (by decide) h
  exact isDigit_digitChar d hd

theorem printDigits_ne_nil (n : ℕ) : printDigits 10 n ≠ [] := by
  rw [printDigits_step (by decide)]
  exact List.append_ne_nil_of_right_ne_nil _ (List.cons_ne_nil _ [])

theorem length_printDigits_le_iff {n k : ℕ} (hk : 0 < k) :
    (printDigits 10 n).length ≤ k ↔ n < 10^k := by
  rw [printDigits,List.length_map]
  exact Nat.length_toDigits_le_iff (by decide) hk

theorem decimal_eq_value {ds : Text} (h : ∀ c ∈ ds, isDigit c = true) (n : ℕ) :
    ds.foldl (fun n c => 10*n+digit c) n = ds.foldl (fun v c => 10*v+digitValue c) n := by
  induction ds generalizing n with
  | nil => rfl
  | cons c ds ih =>
    have hc : digitValue c = digit c := by rw [digitValue,if_pos (h c List.mem_cons_self)]
    rw [List.foldl_cons,List.foldl_cons,hc]
    exact ih (fun x hx => h x (List.mem_cons_of_mem c hx)) _

theorem decimal_printDigits (n : ℕ) : decimal (printDigits 10 n) = n :=
  (decimal_eq_value (fun _ => printDigits_isDigit) 0).trans
    (value_printDigits (by decide) (by decide) n)

/-- Few digits, a small number. -/
theorem decimal_lt {ds : Text} (h : ∀ c ∈ ds, isDigit c = true) : decimal ds < 10^ds.length := by
  induction ds using List.reverseRecOn with
  | nil => decide
  | append_singleton ds c ih =>
    have hlt := ih fun x hx => h x (List.mem_append_left _ hx)
    obtain ⟨-,hc⟩ := isDigit_iff.mp (h c (List.mem_append_right _ (List.mem_singleton_self c)))
    have hdigit : digit c ≤ 9 := by
      have h0 : '0'.toNat = 48 := rfl
      rw [digit,h0]
      omega
    rw [decimal,List.foldl_append,List.foldl_cons,List.foldl_nil,List.length_append,
      List.length_singleton,Nat.pow_succ]
    rw [decimal] at hlt
    omega

/-- A printed number is read up to the width, and what is behind it is left. -/
theorem scanUnsigned_printDigits {width n : ℕ} {rest : Text} (hw : 0 < width) (hw9 : width ≤ 9)
    (hrest : ∀ c ∈ rest.head?, isDigit c = false) :
    scanUnsigned width (printDigits 10 n ++ rest) =
      some (decimal ((printDigits 10 n).take width),(printDigits 10 n).drop width ++ rest) := by
  have hdigits : ∀ c ∈ printDigits 10 n, isDigit c = true := fun _ => printDigits_isDigit
  have hne := printDigits_ne_nil n
  generalize printDigits 10 n = ds at hdigits hne ⊢
  obtain ⟨c,ds,rfl⟩ := List.exists_cons_of_ne_nil hne
  have hc := isDigit_iff.mp (hdigits c List.mem_cons_self)
  -- a digit is no blank and no sign
  have hspace : ¬(isSpace c = true) := by
    intro h
    simp only [isSpace,Bool.or_eq_true,Bool.and_eq_true,decide_eq_true_eq,
      UInt8.le_iff_toNat_le] at h
    rcases h with rfl | ⟨-,h⟩
    · exact absurd hc.1 (by decide)
    · have h13 : (13 : UInt8).toNat = 13 := rfl
      omega
  have hsign : sign (c::(ds ++ rest)) = (false,c::(ds ++ rest)) := by
    rw [sign,if_neg,if_neg]
    · rintro rfl
      exact absurd hc.1 (by decide)
    · rintro rfl
      exact absurd hc.1 (by decide)
  have htake : ((c::ds ++ rest).take width).takeWhile isDigit = (c::ds).take width := by
    rw [List.take_append,takeWhile_isDigit_append]
    · exact List.takeWhile_eq_self_iff.mpr fun x hx => hdigits x (List.mem_of_mem_take hx)
    · intro x hx
      rw [List.head?_take] at hx
      split_ifs at hx
      · cases hx
      · exact hrest x hx
  have hlt : decimal ((c::ds).take width) < 2^32 := by
    have hpow := decimal_lt fun x hx => hdigits x (List.mem_of_mem_take (i := width) hx)
    have hlen : ((c::ds).take width).length ≤ 9 := (List.length_take_le width _).trans hw9
    have := Nat.pow_le_pow_right (n := 10) (by decide) hlen
    omega
  have hnil : (c::ds).take width ≠ [] := by
    obtain ⟨w,rfl⟩ := Nat.exists_eq_succ_of_ne_zero hw.ne'
    exact List.cons_ne_nil c _
  have hint : scanInt width (c::ds ++ rest) =
      some ((decimal ((c::ds).take width) : ℤ),(c::ds).drop width ++ rest) := by
    have hdrop : (c::ds ++ rest).drop ((c::ds).take width).length = (c::ds).drop width ++ rest := by
      rw [List.length_take]
      rcases Nat.le_total width (c::ds).length with h | h
      · rw [min_eq_left h,List.drop_append_of_le_length h]
      · rw [min_eq_right h,List.drop_left,List.drop_eq_nil_of_le h,List.nil_append]
    simp only [scanInt]
    rw [List.cons_append,List.dropWhile_cons_of_neg hspace,hsign]
    simp only [Nat.sub_self,Nat.sub_zero]
    rw [← List.cons_append,htake,if_neg hnil,hdrop]
    rfl
  have hcast : ((decimal ((c::ds).take width) : ℤ) % 2^32).toNat = decimal ((c::ds).take width) := by
    omega
  rw [scanUnsigned,hint,Option.map_some]
  dsimp only
  rw [hcast]

end CText
end FreshPlayer
