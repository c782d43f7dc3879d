import FreshPlayer.CText
import Mathlib.Data.List.AList

/-! Names of encodings without their punctuation, their case and their leading zeros, by which
the table of aliases is searched. -/
namespace FreshPlayer
namespace EncodingAlias
open CText

inductive CharType
  | uignore
  | zero
  | nonz
  | letter (lower : UInt8)
deriving DecidableEq

def charTypes (c : UInt8) : CharType :=
  if c = '0'.toUInt8 then .zero
  else if '1'.toUInt8 ≤ c ∧ c ≤ '9'.toUInt8 then .nonz
  else if 'A'.toUInt8 ≤ c ∧ c ≤ 'Z'.toUInt8 then .letter (c+32)
  else if 'a'.toUInt8 ≤ c ∧ c ≤ 'z'.toUInt8 then .letter c
  else .uignore

def ignored (c : UInt8) : Bool := charTypes c = .uignore

/-- Whether a digit is the very next character. -/
def beginsDigit : Text → Bool
  | [] => false
  | c::_ => charTypes c = .zero || charTypes c = .nonz

/-- The rest of the loop. -/
def stripFrom : Bool → Text → Text
  | _,[] => []
  | afterDigit,c::name =>
    match charTypes c with
    | .uignore => stripFrom false name
    | .zero =>
      if !afterDigit && beginsDigit name then stripFrom afterDigit name
      else c::stripFrom afterDigit name
    | .nonz => c::stripFrom true name
    | .letter lower => lower::stripFrom false name

def stripEncName (name : Text) : Text := stripFrom false name

/-- The hash table; a later alias takes the place of an earlier one. -/
def constructorEncodingAlias (encs : List (Text × Text)) : AList fun _ : Text => Text :=
  encs.foldl (fun ceHt enc => ceHt.insert (stripEncName enc.2) enc.1) ∅

def aliasEntry (ceHt : AList fun _ : Text => Text) (name : Text) : Option Text :=
  ceHt.lookup (stripEncName name)

def encodingAliasGetCanonicalName (ceHt : AList fun _ : Text => Text) (name : Text) : Text :=
  (aliasEntry ceHt name).getD name

/-! Kinds of characters. -/

def isLower (c : UInt8) : Bool := 'a'.toUInt8 ≤ c && c ≤ 'z'.toUInt8

def isUpper (c : UInt8) : Bool := 'A'.toUInt8 ≤ c && c ≤ 'Z'.toUInt8

def toLower (c : UInt8) : UInt8 := if isUpper c then c+32 else c

theorem isLower_iff {c : UInt8} : isLower c = true ↔ 97 ≤ c.toNat ∧ c.toNat ≤ 122 := by
  simp only [isLower,Bool.and_eq_true,decide_eq_true_eq,UInt8.le_iff_toNat_le]
  rfl

theorem isUpper_iff {c : UInt8} : isUpper c = true ↔ 65 ≤ c.toNat ∧ c.toNat ≤ 90 := by
  simp only [isUpper,Bool.and_eq_true,decide_eq_true_eq,UInt8.le_iff_toNat_le]
  rfl

def isLetter (c : UInt8) : Bool := isUpper c || isLower c

theorem isLower_toLower {c : UInt8} (h : isLetter c = true) : isLower (toLower c) = true := by
  unfold toLower
  split_ifs with hu
  · have hc := isUpper_iff.mp hu
    have hsum : (c+32).toNat = c.toNat+32 := by
      rw [UInt8.toNat_add]
      exact Nat.mod_eq_of_lt (show c.toNat+32 < 256 by omega)
    rw [isLower_iff,hsum]
    omega
  · rwa [isLetter,eq_false_of_ne_true hu,Bool.false_or] at h

theorem isDigit_of_isLower {c : UInt8} (h : isLower c = true) : isDigit c = false := by
  have hc := isLower_iff.mp h
  refine eq_false_of_ne_true fun hd => ?_
  have := isDigit_iff.mp hd
  omega

theorem toLower_of_isLower {c : UInt8} (h : isLower c = true) : toLower c = c := by
  have hc := isLower_iff.mp h
  refine if_neg fun hu => ?_
  have := isUpper_iff.mp hu
  omega

theorem toLower_of_isDigit {c : UInt8} (h : isDigit c = true) : toLower c = c := by
  have hc := isDigit_iff.mp h
  refine if_neg fun hu => ?_
  have := isUpper_iff.mp hu
  omega

/-- The table by the kinds of the C library. -/
theorem charTypes_eq (c : UInt8) : charTypes c =
    if isDigit c then if c = '0'.toUInt8 then .zero else .nonz
    else if isLetter c then .letter (toLower c) else .uignore := by
  have hzero : c = '0'.toUInt8 ↔ c.toNat = 48 := UInt8.toNat_inj.symm
  have hnonz : '1'.toUInt8 ≤ c ∧ c ≤ '9'.toUInt8 ↔ 49 ≤ c.toNat ∧ c.toNat ≤ 57 := by
    rw [UInt8.le_iff_toNat_le,UInt8.le_iff_toNat_le]
    rfl
  have hupper : 'A'.toUInt8 ≤ c ∧ c ≤ 'Z'.toUInt8 ↔ isUpper c = true := by simp [isUpper]
  have hlower : 'a'.toUInt8 ≤ c ∧ c ≤ 'z'.toUInt8 ↔ isLower c = true := by simp [isLower]
  unfold charTypes toLower isLetter
  simp only [hnonz,hupper,hlower,Bool.or_eq_true,isDigit_iff,isUpper_iff,isLower_iff,hzero]
  split_ifs <;> first | rfl | omega

theorem ignored_eq (c : UInt8) : ignored c = !(isDigit c || isLetter c) := by
  rw [ignored,charTypes_eq]
  split_ifs with hd hz hl <;> simp_all

theorem beginsDigit_cons (c : UInt8) (s : Text) : beginsDigit (c::s) = isDigit c := by
  rw [beginsDigit,charTypes_eq]
  split_ifs with hd hz hl <;> simp_all

theorem stripFrom_cons (b : Bool) (c : UInt8) (s : Text) : stripFrom b (c::s) =
    if isDigit c then
      if c = '0'.toUInt8 then
        if !b && beginsDigit s then stripFrom b s else c::stripFrom b s
      else c::stripFrom true s
    else if isLetter c then toLower c::stripFrom false s else stripFrom false s := by
  rw [stripFrom,charTypes_eq]
  split_ifs <;> rfl

/-! What the loop writes. -/

def isNormal (c : UInt8) : Bool := isDigit c || isLower c

theorem stripFrom_length (b : Bool) (s : Text) : (stripFrom b s).length ≤ s.length := by
  induction s generalizing b with
  | nil => exact Nat.le_refl 0
  | cons c s ih =>
    rw [stripFrom_cons]
    split_ifs
    · exact (ih b).trans (Nat.le_succ _)
    · exact Nat.succ_le_succ (ih b)
    · exact Nat.succ_le_succ (ih true)
    · exact Nat.succ_le_succ (ih false)
    · exact (ih false).trans (Nat.le_succ _)

theorem stripFrom_isNormal (b : Bool) (s : Text) : ∀ c ∈ stripFrom b s, isNormal c = true := by
  induction s generalizing b with
  | nil => exact nofun
  | cons c s ih =>
    rw [stripFrom_cons]
    split_ifs with hd hz hskip hl
    · exact ih b
    · exact List.forall_mem_cons.mpr ⟨by rw [isNormal,hd,Bool.true_or],ih b⟩
    · exact List.forall_mem_cons.mpr ⟨by rw [isNormal,hd,Bool.true_or],ih true⟩
    · exact List.forall_mem_cons.mpr
        ⟨by rw [isNormal,isLower_toLower hl,Bool.or_true],ih false⟩
    · exact ih false

theorem isDigit_toLower (c : UInt8) : isDigit (toLower c) = isDigit c := by
  cases hd : isDigit c with
  | true => rw [toLower_of_isDigit hd,hd]
  | false =>
    cases hl : isLetter c with
    | true => exact isDigit_of_isLower (isLower_toLower hl)
    | false =>
      rw [toLower,if_neg (by simp_all [isLetter]),hd]

theorem isLetter_toLower (c : UInt8) : isLetter (toLower c) = isLetter c := by
  cases hl : isLetter c with
  | true => rw [isLetter,isLower_toLower hl,Bool.or_true]
  | false => rw [toLower,if_neg (by simp_all [isLetter]),hl]

theorem toLower_toLower (c : UInt8) : toLower (toLower c) = toLower c := by
  cases hl : isLetter c with
  | true => exact toLower_of_isLower (isLower_toLower hl)
  | false =>
    have h : toLower c = c := if_neg (by simp_all [isLetter])
    rw [h,h]

theorem beginsDigit_map (s : Text) : beginsDigit (s.map toLower) = beginsDigit s := by
  cases s with
  | nil => rfl
  | cons c s => rw [List.map_cons,beginsDigit_cons,beginsDigit_cons,isDigit_toLower]

theorem stripFrom_map (b : Bool) (s : Text) : stripFrom b (s.map toLower) = stripFrom b s := by
  induction s generalizing b with
  | nil => rfl
  | cons c s ih =>
    have hzero (hd : isDigit c = true) : toLower c = c := toLower_of_isDigit hd
    rw [List.map_cons,stripFrom_cons,stripFrom_cons]
    simp only [isDigit_toLower,isLetter_toLower,toLower_toLower,beginsDigit_map,ih]
    split_ifs <;> simp_all

/-! Leading zeros. -/

/-- A zero that starts a run of two or more digits. -/
def LeadingZero (s : Text) : Prop :=
  ∃ x d y,s = x ++ '0'.toUInt8::d::y ∧ isDigit d = true ∧ ∀ c ∈ x.getLast?, isDigit c = false

/-- Whether the last of the characters that are not ignored is a digit. -/
def endsDigit (s : Text) : Bool := s.foldl (fun b c => isDigit c || b && ignored c) false

/-- Zeros that lead no digit of their own, but with the ignored characters behind them taken
out they stand before one. -/
def CutZeros (s : Text) : Prop :=
  ∃ x zeros gap d y,s = x ++ (zeros ++ (gap ++ d::y)) ∧ endsDigit x = false ∧
    zeros ≠ [] ∧ (∀ c ∈ zeros, c = '0'.toUInt8) ∧
    gap ≠ [] ∧ (∀ c ∈ gap, ignored c = true) ∧ isDigit d = true

/-- `LeadingZero`, from the left, told whether there is a digit before. -/
def leads : Bool → Text → Bool
  | _,[] => false
  | b,c::s => !b && c = '0'.toUInt8 && beginsDigit s || leads (isDigit c) s

def digitAhead : Text → Bool
  | [] => false
  | c::s => isDigit c || ignored c && digitAhead s

def gapAhead : Text → Bool
  | [] => false
  | c::s => c = '0'.toUInt8 && gapAhead s || ignored c && digitAhead s

/-- `CutZeros`, from the left. -/
def cuts : Bool → Text → Bool
  | _,[] => false
  | b,c::s => !b && c = '0'.toUInt8 && gapAhead s || cuts (isDigit c || b && ignored c) s

theorem leads_iff (b : Bool) (s : Text) : leads b s = true ↔ ∃ x d y,
    s = x ++ '0'.toUInt8::d::y ∧ isDigit d = true ∧ (x.getLast?.map isDigit).getD b = false := by
  induction s generalizing b with
  | nil => exact ⟨nofun,fun ⟨x,d,y,h,_⟩ => absurd h.symm (by simp)⟩
  | cons c s ih =>
    have hlast (e : UInt8) (x : Text) : ((e::x).getLast?.map isDigit).getD b =
        (x.getLast?.map isDigit).getD (isDigit e) := by
      rw [List.getLast?_cons]
      cases x.getLast? <;> rfl
    rw [leads,Bool.or_eq_true,ih]
    constructor
    · rintro (h | ⟨x,d,y,rfl,hd,hx⟩)
      · cases s with
        | nil => simp [beginsDigit] at h
        | cons d y =>
          simp only [Bool.and_eq_true,Bool.not_eq_true',decide_eq_true_eq,beginsDigit_cons] at h
          exact ⟨[],d,y,by rw [h.1.2]; rfl,h.2,h.1.1⟩
      · exact ⟨c::x,d,y,rfl,hd,by rw [hlast,hx]⟩
    · rintro ⟨x,d,y,h,hd,hx⟩
      cases x with
      | nil =>
        cases h
        left
        rw [beginsDigit_cons,hd,show b = false from hx]
        rfl
      | cons e x =>
        cases h
        exact .inr ⟨x,d,y,rfl,hd,by rw [← hlast,hx]⟩

theorem leadingZero_iff (s : Text) : LeadingZero s ↔ leads false s = true := by
  rw [leads_iff]
  refine exists_congr fun x => exists_congr fun d => exists_congr fun y =>
    and_congr_right fun _ => and_congr_right fun _ => ?_
  cases x.getLast? <;> simp

theorem digitAhead_iff (s : Text) : digitAhead s = true ↔
    ∃ gap d y,s = gap ++ d::y ∧ (∀ c ∈ gap, ignored c = true) ∧ isDigit d = true := by
  induction s with
  | nil => exact ⟨nofun,fun ⟨gap,d,y,h,_⟩ => absurd h.symm (by simp)⟩
  | cons c s ih =>
    rw [digitAhead,Bool.or_eq_true,Bool.and_eq_true,ih]
    constructor
    · rintro (hc | ⟨hc,gap,d,y,rfl,hgap,hd⟩)
      · exact ⟨[],c,s,rfl,nofun,hc⟩
      · exact ⟨c::gap,d,y,rfl,List.forall_mem_cons.mpr ⟨hc,hgap⟩,hd⟩
    · rintro ⟨gap,d,y,h,hgap,hd⟩
      cases gap with
      | nil => cases h; exact .inl hd
      | cons e gap =>
        cases h
        have := List.forall_mem_cons.mp hgap
        exact .inr ⟨this.1,gap,d,y,rfl,this.2,hd⟩

theorem gapAhead_iff (s : Text) : gapAhead s = true ↔
    ∃ zeros gap d y,s = zeros ++ (gap ++ d::y) ∧ (∀ c ∈ zeros, c = '0'.toUInt8) ∧
      gap ≠ [] ∧ (∀ c ∈ gap, ignored c = true) ∧ isDigit d = true := by
  induction s with
  | nil => exact ⟨nofun,fun ⟨zeros,gap,d,y,h,_⟩ => absurd h.symm (by simp)⟩
  | cons c s ih =>
    rw [gapAhead,Bool.or_eq_true,Bool.and_eq_true,Bool.and_eq_true,decide_eq_true_eq,ih,
      digitAhead_iff]
    constructor
    · rintro (⟨hc,zeros,gap,d,y,rfl,hzeros,h⟩ | ⟨hc,gap,d,y,rfl,hgap,hd⟩)
      · exact ⟨c::zeros,gap,d,y,rfl,List.forall_mem_cons.mpr ⟨hc,hzeros⟩,h⟩
      · exact ⟨[],c::gap,d,y,rfl,nofun,List.cons_ne_nil c gap,
          List.forall_mem_cons.mpr ⟨hc,hgap⟩,hd⟩
    · rintro ⟨zeros,gap,d,y,h,hzeros,hne,hgap,hd⟩
      cases zeros with
      | nil =>
        cases gap with
        | nil => exact absurd rfl hne
        | cons e gap =>
          cases h
          have := List.forall_mem_cons.mp hgap
          exact .inr ⟨this.1,gap,d,y,rfl,this.2,hd⟩
      | cons e zeros =>
        cases h
        have := List.forall_mem_cons.mp hzeros
        exact .inl ⟨this.1,zeros,gap,d,y,rfl,this.2,hne,hgap,hd⟩

theorem cuts_iff (b : Bool) (s : Text) : cuts b s = true ↔ ∃ x t,s = x ++ '0'.toUInt8::t ∧
    x.foldl (fun b c => isDigit c || b && ignored c) b = false ∧ gapAhead t = true := by
  induction s generalizing b with
  | nil => exact ⟨nofun,fun ⟨x,t,h,_⟩ => absurd h.symm (by simp)⟩
  | cons c s ih =>
    rw [cuts,Bool.or_eq_true,ih]
    constructor
    · rintro (h | ⟨x,t,rfl,hx,ht⟩)
      · simp only [Bool.and_eq_true,Bool.not_eq_true',decide_eq_true_eq] at h
        exact ⟨[],s,by rw [h.1.2]; rfl,h.1.1,h.2⟩
      · exact ⟨c::x,t,rfl,hx,ht⟩
    · rintro ⟨x,t,h,hx,ht⟩
      cases x with
      | nil =>
        cases h
        left
        rw [ht,show b = false from hx]
        rfl
      | cons e x =>
        cases h
        exact .inr ⟨x,t,rfl,hx,ht⟩

theorem cutZeros_iff (s : Text) : CutZeros s ↔ cuts false s = true := by
  rw [cuts_iff]
  constructor
  · rintro ⟨x,zeros,gap,d,y,rfl,hx,hne,hzeros,hgap⟩
    obtain ⟨z,zeros,rfl⟩ := List.exists_cons_of_ne_nil hne
    have hz := List.forall_mem_cons.mp hzeros
    refine ⟨x,zeros ++ (gap ++ d::y),by rw [hz.1]; rfl,hx,?_⟩
    exact (gapAhead_iff _).mpr ⟨zeros,gap,d,y,rfl,hz.2,hgap⟩
  · rintro ⟨x,t,rfl,hx,ht⟩
    obtain ⟨zeros,gap,d,y,rfl,hzeros,hgap⟩ := (gapAhead_iff t).mp ht
    exact ⟨x,'0'.toUInt8::zeros,gap,d,y,rfl,hx,List.cons_ne_nil _ _,
      List.forall_mem_cons.mpr ⟨rfl,hzeros⟩,hgap⟩

/-! Where the written text gets its leading zeros from. -/

theorem isDigit_zero : isDigit '0'.toUInt8 = true := rfl

theorem ignored_of_isDigit {c : UInt8} (h : isDigit c = true) : ignored c = false := by
  rw [ignored_eq,h]
  rfl

theorem ignored_of_isLetter {c : UInt8} (h : isLetter c = true) : ignored c = false := by
  rw [ignored_eq,h,Bool.or_true]
  rfl

theorem beginsDigit_stripFrom (b : Bool) (s : Text) :
    beginsDigit (stripFrom b s) = digitAhead s := by
  induction s generalizing b with
  | nil => rfl
  | cons c s ih =>
    rw [stripFrom_cons,digitAhead]
    split_ifs with hd hz hskip hl
    · have hs : digitAhead s = true := by
        cases s with
        | nil => simp [beginsDigit] at hskip
        | cons d s =>
          rw [beginsDigit_cons,Bool.and_eq_true] at hskip
          rw [digitAhead,hskip.2,Bool.true_or]
      rw [ih,hs,hd,Bool.true_or]
    · rw [beginsDigit_cons,hd,Bool.true_or]
    · rw [beginsDigit_cons,hd,Bool.true_or]
    · rw [beginsDigit_cons,isDigit_toLower,ignored_of_isLetter hl,eq_false_of_ne_true hd]
      rfl
    · rw [ih,ignored_eq,eq_false_of_ne_true hd,eq_false_of_ne_true hl]
      rfl

theorem cuts_of_beginsDigit {s : Text} (h : beginsDigit s = true) (p : Bool) :
    cuts p s = (!p && gapAhead s || cuts true s) := by
  cases s with
  | nil => cases h
  | cons c s =>
    rw [beginsDigit_cons] at h
    rw [cuts,cuts,gapAhead,h,ignored_of_isDigit h]
    cases p <;> simp

theorem gapAhead_of_beginsDigit {s : Text} (h : beginsDigit s = false) :
    gapAhead s = digitAhead s := by
  cases s with
  | nil => rfl
  | cons c s =>
    rw [beginsDigit_cons] at h
    have hz : c ≠ '0'.toUInt8 := by
      rintro rfl
      exact absurd (isDigit_zero.symm.trans h) (by decide)
    rw [gapAhead,digitAhead,h,decide_eq_false hz]
    rfl

/-- `p` tells whether the last written character is a digit, which `after_digit` says of the
characters other than a kept zero. -/
theorem leads_stripFrom {b p : Bool} (hp : b = true → p = true) (s : Text) :
    leads p (stripFrom b s) = cuts p s := by
  induction s generalizing b p with
  | nil => rfl
  | cons c s ih =>
    rw [stripFrom_cons,cuts]
    split_ifs with hd hz hskip hl
    · rw [Bool.and_eq_true] at hskip
      rw [ih hp,cuts_of_beginsDigit hskip.2,hd,hz]
      simp
    · rw [leads,ih (fun _ => hd),beginsDigit_stripFrom,hd]
      cases p with
      | true => simp
      | false =>
        have hb : b = false := eq_false_of_ne_true fun h => absurd (hp h) (by decide)
        rw [hb,Bool.not_false,Bool.true_and] at hskip
        rw [gapAhead_of_beginsDigit (eq_false_of_ne_true hskip),Bool.true_or]
    · rw [leads,ih (fun _ => hd),hd,decide_eq_false hz]
      simp
    · rw [leads,@ih false _ nofun,isDigit_toLower,ignored_of_isLetter hl,eq_false_of_ne_true hd]
      have hz : c ≠ '0'.toUInt8 := fun h => hd (h ▸ isDigit_zero)
      have hz' : toLower c ≠ '0'.toUInt8 := by
        intro h
        have := isDigit_toLower c
        rw [h] at this
        exact hd this.symm
      rw [decide_eq_false hz,decide_eq_false hz']
      simp
    · have hz : c ≠ '0'.toUInt8 := fun h => hd (h ▸ isDigit_zero)
      rw [@ih false _ nofun,ignored_eq,eq_false_of_ne_true hd,eq_false_of_ne_true hl,decide_eq_false hz]
      simp

/-! The texts that are left as they are. -/

theorem ignored_of_isNormal {c : UInt8} (h : isNormal c = true) : ignored c = false := by
  rcases Bool.or_eq_true_iff.mp h with hd | hl
  · exact ignored_of_isDigit hd
  · exact ignored_of_isLetter (by rw [isLetter,hl,Bool.or_true])

theorem cuts_of_isNormal {s : Text} (h : ∀ c ∈ s, isNormal c = true) (p : Bool) :
    cuts p s = false := by
  have hgap {t : Text} (ht : ∀ c ∈ t, isNormal c = true) : gapAhead t = false := by
    induction t with
    | nil => rfl
    | cons c t ih =>
      have hc := List.forall_mem_cons.mp ht
      rw [gapAhead,ignored_of_isNormal hc.1,ih hc.2,Bool.and_false]
      rfl
  induction s generalizing p with
  | nil => rfl
  | cons c s ih =>
    have hc := List.forall_mem_cons.mp h
    rw [cuts,hgap hc.2,ih hc.2,Bool.and_false]
    rfl

/-- A run of digits may be entered with `after_digit` not set behind a kept zero only. -/
theorem stripFrom_eq {b p : Bool} (hp : b = true → p = true) {s : Text}
    (hb : b = false → p = true → beginsDigit s = false) (h : ∀ c ∈ s, isNormal c = true)
    (hs : leads p s = false) : stripFrom b s = s := by
  induction s generalizing b p with
  | nil => rfl
  | cons c s ih =>
    have hc := List.forall_mem_cons.mp h
    rw [leads,Bool.or_eq_false_iff] at hs
    rw [stripFrom_cons]
    split_ifs with hd hz hskip hl
    · rw [Bool.and_eq_true,Bool.not_eq_true'] at hskip
      cases p with
      | true =>
        have := hb hskip.1 rfl
        rw [beginsDigit_cons,hd] at this
        cases this
      | false =>
        rw [hskip.2,decide_eq_true hz] at hs
        exact absurd hs.1 (by decide)
    · have hkept : b = false → beginsDigit s = false := by
        rintro rfl
        exact eq_false_of_ne_true hskip
      rw [ih (fun _ => hd) (fun h _ => hkept h) hc.2 hs.2]
    · rw [@ih true _ (fun _ => hd) nofun hc.2 hs.2]
    · have hlow : isLower c = true := by
        rw [isNormal,eq_false_of_ne_true hd] at hc
        exact hc.1
      rw [@ih false _ nofun (fun _ h => absurd h hd) hc.2 hs.2,toLower_of_isLower hlow]
    · have hignored := ignored_of_isNormal hc.1
      rw [ignored_eq,eq_false_of_ne_true hd,eq_false_of_ne_true hl] at hignored
      cases hignored

theorem stripFrom_eq_iff {s : Text} (h : ∀ c ∈ s, isNormal c = true) :
    stripFrom false s = s ↔ leads false s = false := by
  constructor
  · intro hs
    rw [← hs,leads_stripFrom id,cuts_of_isNormal h]
  · exact stripFrom_eq id nofun h

/-- What a name and its normal form are expected to be. -/
structure NormalForm (ceHt : AList fun _ : Text => Text) (s : Text) : Prop where
  within : (stripEncName s).length ≤ s.length
  chars : ∀ c ∈ stripEncName s, isDigit c = true ∨ isLower c = true
  caseless : ∀ t, t.map toLower = s.map toLower → stripEncName t = stripEncName s
  noLeadingZero : ¬LeadingZero (stripEncName s)
  fixed : stripEncName (stripEncName s) = stripEncName s
  sameEntry : aliasEntry ceHt (stripEncName s) = aliasEntry ceHt s

theorem noLeadingZero_iff (s : Text) : ¬LeadingZero (stripEncName s) ↔ ¬CutZeros s := by
  rw [leadingZero_iff,cutZeros_iff,stripEncName,leads_stripFrom id]

theorem fixed_iff (s : Text) : stripEncName (stripEncName s) = stripEncName s ↔ ¬CutZeros s := by
  rw [← noLeadingZero_iff,leadingZero_iff,Bool.not_eq_true]
  exact stripFrom_eq_iff (stripFrom_isNormal false s)

theorem caseless {s t : Text} (h : t.map toLower = s.map toLower) :
    stripEncName t = stripEncName s := by
  rw [stripEncName,stripEncName,← stripFrom_map,h,stripFrom_map]

/-- The normal form is one exactly where no leading zeros are cut off from their digits. -/
theorem normalForm_iff (ceHt : AList fun _ : Text => Text) (s : Text) :
    NormalForm ceHt s ↔ ¬CutZeros s := by
  refine ⟨fun h => (fixed_iff s).mp h.fixed,fun h => ?_⟩
  have hfixed := (fixed_iff s).mpr h
  exact ⟨stripFrom_length false s,
    fun c hc => Bool.or_eq_true_iff.mp (stripFrom_isNormal false s c hc),
    fun t ht => caseless ht,(noLeadingZero_iff s).mpr h,hfixed,by rw [aliasEntry,hfixed,aliasEntry]⟩

/-- `utf0-8` becomes `utf08` and that `utf8`, which is the only one to be found. -/
theorem utf0_8_twice : let ceHt := constructorEncodingAlias [(bytes "UTF-8",bytes "utf-8")]
    LeadingZero (stripEncName (bytes "utf0-8")) ∧
      stripEncName (stripEncName (bytes "utf0-8")) ≠ stripEncName (bytes "utf0-8") ∧
      aliasEntry ceHt (bytes "utf0-8") = none ∧
      encodingAliasGetCanonicalName ceHt (stripEncName (bytes "utf0-8")) = bytes "UTF-8" ∧
      ¬NormalForm ceHt (bytes "utf0-8") := by
  have hfixed : stripEncName (stripEncName (bytes "utf0-8")) ≠
      stripEncName (bytes "utf0-8") := by decide
  have hlead : LeadingZero (stripEncName (bytes "utf0-8")) :=
    (leadingZero_iff _).mpr (by decide)
  exact ⟨hlead,hfixed,by decide,by decide,fun h => hfixed h.fixed⟩

end EncodingAlias
end FreshPlayer
