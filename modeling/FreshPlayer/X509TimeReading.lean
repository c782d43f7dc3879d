import FreshPlayer.X509TimeGrammar

/-! What is read of a time, and which texts are read as they should be. -/
namespace FreshPlayer
namespace X509Certificate

open CText

/-- No field goes on here. -/
def Ends (s : Text) : Prop := ∀ c ∈ s.head?, isDigit c = false ∧ c ≠ '.'.toUInt8

theorem beginsField_two (n : Fin 100) (rest : Text) : beginsField (two n ++ rest) = true :=
  isDigit_digitChar (by omega)

theorem beginsField_ends {s : Text} (h : Ends s) : beginsField s = false := by
  match s with
  | [] => rfl
  | [_] => rfl
  | a::_::_ => exact (h a rfl).1

/-! Fractions, seconds and minutes. -/

theorem fraction_text (f : Option (Fin 1000)) {rest : Text} (h : Ends rest) :
    fraction (fractionText f ++ rest) = (fractionValue f,rest) := by
  cases f with
  | none =>
    unfold fraction
    split
    · rename_i p a b c s hs
      have hp : p ≠ '.'.toUInt8 := (h p (by rw [show rest = p::a::b::c::s from hs]; rfl)).2
      rw [show rest = p::a::b::c::s from hs]
      simp [hp,fractionValue]
    · rfl
  | some f =>
    have h1 : (f : ℕ)/100 < 10 := by omega
    have h2 : (f : ℕ)/10%10 < 10 := by omega
    have h3 : (f : ℕ)%10 < 10 := by omega
    simp [fraction,fractionText,three,isDigit_digitChar,digit_digitChar,h1,h2,h3,fractionValue,
      number]
    omega

theorem fraction_eq {s rest : Text} {n : ℤ} (h : fraction s = (n,rest)) :
    ∃ f, s = fractionText f ++ rest ∧ n = fractionValue f := by
  unfold fraction at h
  split at h
  · rename_i p a b c s
    split_ifs at h with hd
    · simp only [Bool.and_eq_true,decide_eq_true_eq] at hd
      obtain ⟨⟨⟨rfl,ha⟩,hb⟩,hc⟩ := hd
      have ha' := digit_lt ha
      have hb' := digit_lt hb
      have hc' := digit_lt hc
      cases h
      refine ⟨some ⟨100*digit a+10*digit b+digit c,by omega⟩,?_,rfl⟩
      have h1 : (100*digit a+10*digit b+digit c)/100 = digit a := by omega
      have h2 : (100*digit a+10*digit b+digit c)/10%10 = digit b := by omega
      have h3 : (100*digit a+10*digit b+digit c)%10 = digit c := by omega
      simp [fractionText,three,h1,h2,h3,digitChar_digit,ha,hb,hc]
    · cases h
      exact ⟨none,rfl,rfl⟩
  · cases h
    exact ⟨none,rfl,rfl⟩

theorem seconds_text (t : Tm) (second : Option (Fin 100)) (ht : t.tmSec = 0) {rest : Text}
    (h : Ends rest) :
    seconds t (secondText second ++ rest) = some ({ t with tmSec := secondValue second },rest) := by
  cases second with
  | none =>
    have : seconds t rest = some (t,rest) := by simp [seconds,beginsField_ends h]
    rw [secondText,List.nil_append,this,secondValue,← ht]
  | some second => simp [seconds,secondText,beginsField_two,twoDigits_two,secondValue,number]

theorem seconds_some {t t' : Tm} {s rest : Text} (ht : t.tmSec = 0)
    (h : seconds t s = some (t',rest)) :
    ∃ second, s = secondText second ++ rest ∧ t' = { t with tmSec := secondValue second } := by
  unfold seconds at h
  split_ifs at h
  · obtain ⟨⟨n,u⟩,hu,he⟩ := Option.map_eq_some_iff.mp h
    obtain ⟨k,rfl,rfl⟩ := twoDigits_some hu
    cases he
    exact ⟨some k,rfl,rfl⟩
  · cases h
    exact ⟨none,rfl,by rw [secondValue,← ht]⟩

/-- The fields set by a clock. -/
def Tm.withClock (t : Tm) (c : Clock) : Tm :=
  { t with tmMin := (clockValue c).1, tmSec := (clockValue c).2.1 }

theorem Tm.withClock_none {t : Tm} (hm : t.tmMin = 0) (hs : t.tmSec = 0) :
    t.withClock none = t := by
  obtain ⟨year,mon,mday,hour,min,sec⟩ := t
  cases hm
  cases hs
  rfl

theorem minutes_text (t : Tm) (c : Clock) (hm : t.tmMin = 0) (hs : t.tmSec = 0) {rest : Text}
    (h : Ends rest) :
    minutes t (clockText c ++ rest) = some (t.withClock c,(clockValue c).2.2,rest) := by
  match c with
  | none =>
    rw [clockText,List.nil_append,Tm.withClock_none hm hs,minutes,beginsField_ends h]
    rfl
  | some (minute,none) =>
    simp [minutes,clockText,beginsField_two,twoDigits_two,beginsField_ends h,Tm.withClock,
      clockValue,number,hs]
  | some (minute,some (second,f)) =>
    simp [minutes,clockText,beginsField_two,twoDigits_two,fraction_text f h,Tm.withClock,
      clockValue,number]

theorem minutes_some {t t' : Tm} {s rest : Text} {n : ℤ} (hm : t.tmMin = 0) (hs : t.tmSec = 0)
    (h : minutes t s = some (t',n,rest)) :
    ∃ c, s = clockText c ++ rest ∧ t' = t.withClock c ∧ n = (clockValue c).2.2 := by
  unfold minutes at h
  by_cases hfield : beginsField s = true
  · rw [if_pos hfield] at h
    obtain ⟨⟨m,u⟩,hu,hrest⟩ := Option.bind_eq_some_iff.mp h
    obtain ⟨minute,rfl,rfl⟩ := twoDigits_some hu
    dsimp only at hrest
    by_cases hfield' : beginsField u = true
    · rw [if_pos hfield'] at hrest
      obtain ⟨⟨k,v⟩,hv,he⟩ := Option.map_eq_some_iff.mp hrest
      obtain ⟨second,rfl,rfl⟩ := twoDigits_some hv
      obtain ⟨rfl,hf⟩ := Prod.mk.inj he
      obtain ⟨f,rfl,rfl⟩ := fraction_eq hf
      exact ⟨some (minute,some (second,f)),by simp [clockText],rfl,rfl⟩
    · rw [if_neg hfield'] at hrest
      cases hrest
      exact ⟨some (minute,none),rfl,by simp [Tm.withClock,clockValue,number,hs],rfl⟩
  · rw [if_neg hfield] at h
    cases h
    exact ⟨none,rfl,(Tm.withClock_none hm hs).symm,rfl⟩

/-! Zones. -/

/-- The hours and minutes an offset is read as. -/
def readOffset : Option Zone → ℤ × ℤ
  | some (.offset minus hours minutes) => ((if minus then -1 else 1)*number hours,number minutes)
  | _ => (0,0)

def zoneOf (type : Asn1Type) : Text → Option (ℤ × ℤ) :=
  if type = .utcTime then zoneOfUtcTime else zoneOfGeneralizedTime

/-- Something can follow an offset only. -/
def MayFollow (z : Option Zone) (extra : Text) : Prop :=
  extra = [] ∨ ∃ minus hours minutes, z = some (.offset minus hours minutes)

theorem zoneOffset_text (minus : Bool) (hours minutes : Fin 100) (extra : Text) :
    zoneOffset (zoneText (some (.offset minus hours minutes)) ++ extra) =
      some (readOffset (some (.offset minus hours minutes))) := by
  have hne : '-'.toUInt8 ≠ '+'.toUInt8 := by decide
  cases minus <;>
    simp [zoneOffset,zoneText,signChar,twoDigits_two,readOffset,number,hne]

theorem zoneOffset_fields {s : Text} {tzSign : ℤ} {p : ℤ × ℤ}
    (h : ((twoDigits s).bind fun (tzHours,s) =>
      (twoDigits s).map fun (tzMinutes,_) => (tzSign*tzHours,tzMinutes)) = some p) :
    ∃ hours minutes extra, s = two hours ++ (two minutes ++ extra) ∧
      p = (tzSign*number hours,number minutes) := by
  obtain ⟨⟨k,u⟩,hu,hrest⟩ := Option.bind_eq_some_iff.mp h
  obtain ⟨⟨n,extra⟩,hv,rfl⟩ := Option.map_eq_some_iff.mp hrest
  obtain ⟨hours,rfl,rfl⟩ := twoDigits_some hu
  obtain ⟨minutes,rfl,rfl⟩ := twoDigits_some hv
  exact ⟨hours,minutes,extra,rfl,rfl⟩

theorem zoneOffset_some {s : Text} {p : ℤ × ℤ} (h : zoneOffset s = some p) :
    ∃ minus hours minutes extra, s = zoneText (some (.offset minus hours minutes)) ++ extra ∧
      p = readOffset (some (.offset minus hours minutes)) := by
  unfold zoneOffset at h
  split at h
  · cases h
  · rename_i c s
    split_ifs at h with hc hplus
    · obtain ⟨hours,minutes,extra,rfl,rfl⟩ := zoneOffset_fields h
      exact ⟨false,hours,minutes,extra,by simp [zoneText,signChar,hplus],rfl⟩
    · have hminus : c = '-'.toUInt8 := by simpa [hplus] using hc
      obtain ⟨hours,minutes,extra,rfl,rfl⟩ := zoneOffset_fields h
      exact ⟨true,hours,minutes,extra,by simp [zoneText,signChar,hminus],rfl⟩

theorem zoneOf_offset (type : Asn1Type) (minus : Bool) (hours minutes : Fin 100) (extra : Text) :
    zoneOf type (zoneText (some (.offset minus hours minutes)) ++ extra) =
      some (readOffset (some (.offset minus hours minutes))) := by
  have hread := zoneOffset_text minus hours minutes extra
  obtain ⟨c,d,u,hu⟩ : ∃ c d u, zoneText (some (.offset minus hours minutes)) ++ extra = c::d::u :=
    ⟨_,_,_,rfl⟩
  rw [hu] at hread ⊢
  unfold zoneOf
  split_ifs
  · rw [zoneOfUtcTime,if_neg (by simp),hread]
  · rw [zoneOfGeneralizedTime,hread]
    · exact nofun
    · exact nofun

theorem zoneOf_text {type : Asn1Type} {z : Option Zone} (hz : type = .utcTime → z.isSome = true)
    {extra : Text} (he : MayFollow z extra) :
    zoneOf type (zoneText z ++ extra) = some (readOffset z) := by
  rcases he with rfl | ⟨minus,hours,minutes,rfl⟩
  · rw [List.append_nil]
    match z with
    | none =>
      have hne : type ≠ .utcTime := fun he => absurd (hz he) (by simp)
      simp [zoneOf,hne,zoneText,zoneOfGeneralizedTime,readOffset]
    | some .utc =>
      unfold zoneOf
      split_ifs <;> simp [zoneText,zoneOfUtcTime,zoneOfGeneralizedTime,readOffset]
    | some (.offset minus hours minutes) =>
      have := zoneOf_offset type minus hours minutes []
      rwa [List.append_nil] at this
  · exact zoneOf_offset type minus hours minutes extra

theorem zoneOf_some {type : Asn1Type} {s : Text} {p : ℤ × ℤ} (h : zoneOf type s = some p) :
    ∃ z extra, (type = .utcTime → z.isSome = true) ∧ s = zoneText z ++ extra ∧
      MayFollow z extra ∧ p = readOffset z := by
  have hoffset : zoneOffset s = some p → ∃ z extra, (type = .utcTime → z.isSome = true) ∧
      s = zoneText z ++ extra ∧ MayFollow z extra ∧ p = readOffset z := by
    intro ho
    obtain ⟨minus,hours,minutes,extra,hs,hp⟩ := zoneOffset_some ho
    exact ⟨some (.offset minus hours minutes),extra,fun _ => rfl,hs,Or.inr ⟨minus,hours,minutes,rfl⟩,hp⟩
  unfold zoneOf at h
  split_ifs at h with htype
  · unfold zoneOfUtcTime at h
    split_ifs at h with hs
    · cases h
      exact ⟨some .utc,[],fun _ => rfl,hs,Or.inl rfl,rfl⟩
    · exact hoffset h
  · unfold zoneOfGeneralizedTime at h
    split at h
    · cases h
      exact ⟨none,[],fun he => absurd he htype,rfl,Or.inl rfl,rfl⟩
    · rename_i c
      split_ifs at h with hc
      cases h
      exact ⟨some .utc,[],fun _ => rfl,by rw [hc]; rfl,Or.inl rfl,rfl⟩
    · exact hoffset h

/-! Whole times. -/

/-- The instant that is read, with the hours and minutes of the offset taken apart. -/
def readInstant (stamp : Stamp) (z : Option Zone) : ℤ :=
  stamp.value-((readOffset z).1*3600+(readOffset z).2*60)*1000

theorem ends_zone {z : Option Zone} {extra : Text} (he : MayFollow z extra) :
    Ends (zoneText z ++ extra) := by
  rcases he with rfl | ⟨minus,hours,minutes,rfl⟩
  · match z with
    | none => exact nofun
    | some .utc => exact fun c hc => Option.some.inj hc ▸ by decide
    | some (.offset minus hours minutes) =>
      exact fun c hc => Option.some.inj hc ▸ by cases minus <;> decide
  · exact fun c hc => Option.some.inj hc ▸ by cases minus <;> decide

theorem fullYear_eq (year : Fin 100) :
    number year+(if number year < 70 then 100 else 0) = fullYear year-1900 := by
  unfold fullYear
  split_ifs <;> omega

theorem convertTm_generalized (year month day hour : ℤ) (c : Clock) (p : ℤ × ℤ) :
    convertTmToPpVar (Tm.withClock ⟨year-1900,month-1,day,hour,0,0⟩ c) (clockValue c).2.2 p.1 p.2 =
      civilSeconds year month day hour (clockValue c).1 (clockValue c).2.1*1000+
        (clockValue c).2.2-(p.1*3600+p.2*60)*1000 := by
  simp only [convertTmToPpVar,Tm.withClock,timegm_eq]
  omega

theorem convertTm_utc (year : Fin 100) (month day hour minute second : ℤ) (p : ℤ × ℤ) :
    convertTmToPpVar ⟨number year+if number year < 70 then 100 else 0,month-1,day,hour,minute,second⟩
        0 p.1 p.2 =
      civilSeconds (fullYear year) month day hour minute second*1000-(p.1*3600+p.2*60)*1000 := by
  rw [fullYear_eq]
  simp only [convertTmToPpVar,timegm_eq]
  omega

theorem convert_stamp (stamp : Stamp) {rest : Text} (h : Ends rest) :
    convertAsn1TimeToPpVar stamp.type (stamp.text ++ rest) = (zoneOf stamp.type rest).map fun p =>
      stamp.value-(p.1*3600+p.2*60)*1000 := by
  cases stamp with
  | generalized year month day hour clock =>
    simp only [convertAsn1TimeToPpVar,Stamp.type,Stamp.text,convertGeneralizedTime,
      List.append_assoc,fourDigits_four,twoDigits_two,Option.bind_some]
    rw [minutes_text _ clock rfl rfl h]
    exact congrArg (Option.map · (zoneOfGeneralizedTime rest))
      (funext fun p => convertTm_generalized ..)
  | utc year month day hour minute second =>
    simp only [convertAsn1TimeToPpVar,Stamp.type,Stamp.text,convertUtcTime,
      List.append_assoc,twoDigits_two,Option.bind_some]
    rw [seconds_text _ second rfl h]
    exact congrArg (Option.map · (zoneOfUtcTime rest)) (funext fun p => convertTm_utc ..)

theorem convert_some {type : Asn1Type} {s : Text} {r : ℤ}
    (h : convertAsn1TimeToPpVar type s = some r) : ∃ (stamp : Stamp) (rest : Text) (p : ℤ × ℤ), stamp.type = type ∧
      s = stamp.text ++ rest ∧ zoneOf type rest = some p ∧
      r = stamp.value-(p.1*3600+p.2*60)*1000 := by
  cases type with
  | generalizedTime =>
    obtain ⟨⟨_,_⟩,hyear,h⟩ := Option.bind_eq_some_iff.mp h
    obtain ⟨⟨_,_⟩,hmonth,h⟩ := Option.bind_eq_some_iff.mp h
    obtain ⟨⟨_,_⟩,hday,h⟩ := Option.bind_eq_some_iff.mp h
    obtain ⟨⟨_,_⟩,hhour,h⟩ := Option.bind_eq_some_iff.mp h
    obtain ⟨⟨_,_,rest⟩,hclock,h⟩ := Option.bind_eq_some_iff.mp h
    obtain ⟨p,hp,rfl⟩ := Option.map_eq_some_iff.mp h
    obtain ⟨year,rfl,rfl⟩ := fourDigits_some hyear
    obtain ⟨month,rfl,rfl⟩ := twoDigits_some hmonth
    obtain ⟨day,rfl,rfl⟩ := twoDigits_some hday
    obtain ⟨hour,rfl,rfl⟩ := twoDigits_some hhour
    obtain ⟨clock,rfl,rfl,rfl⟩ := minutes_some rfl rfl hclock
    exact ⟨.generalized year month day hour clock,rest,p,rfl,by simp [Stamp.text],hp,
      convertTm_generalized ..⟩
  | utcTime =>
    obtain ⟨⟨_,_⟩,hyear,h⟩ := Option.bind_eq_some_iff.mp h
    obtain ⟨⟨_,_⟩,hmonth,h⟩ := Option.bind_eq_some_iff.mp h
    obtain ⟨⟨_,_⟩,hday,h⟩ := Option.bind_eq_some_iff.mp h
    obtain ⟨⟨_,_⟩,hhour,h⟩ := Option.bind_eq_some_iff.mp h
    obtain ⟨⟨_,_⟩,hminute,h⟩ := Option.bind_eq_some_iff.mp h
    obtain ⟨⟨_,rest⟩,hsecond,h⟩ := Option.bind_eq_some_iff.mp h
    obtain ⟨p,hp,rfl⟩ := Option.map_eq_some_iff.mp h
    obtain ⟨year,rfl,rfl⟩ := twoDigits_some hyear
    obtain ⟨month,rfl,rfl⟩ := twoDigits_some hmonth
    obtain ⟨day,rfl,rfl⟩ := twoDigits_some hday
    obtain ⟨hour,rfl,rfl⟩ := twoDigits_some hhour
    obtain ⟨minute,rfl,rfl⟩ := twoDigits_some hminute
    obtain ⟨second,rfl,rfl⟩ := seconds_some rfl hsecond
    exact ⟨.utc year month day hour minute second,rest,p,rfl,by simp [Stamp.text],hp,
      convertTm_utc ..⟩
  | other => cases h

/-- Exactly times, with something behind an offset or not, are taken for times. -/
theorem convert_iff {type : Asn1Type} {s : Text} {r : ℤ} :
    convertAsn1TimeToPpVar type s = some r ↔ ∃ (t : Time) (extra : Text), t.stamp.type = type ∧
      MayFollow t.zone extra ∧ s = t.text ++ extra ∧ r = readInstant t.stamp t.zone := by
  constructor
  · intro h
    obtain ⟨stamp,rest,p,rfl,rfl,hp,rfl⟩ := convert_some h
    obtain ⟨z,extra,hz,rfl,he,rfl⟩ := zoneOf_some hp
    exact ⟨⟨stamp,z,hz⟩,extra,rfl,he,(List.append_assoc ..).symm,rfl⟩
  · rintro ⟨⟨stamp,z,hz⟩,extra,rfl,he,rfl,rfl⟩
    rw [Time.text,List.append_assoc,convert_stamp stamp (ends_zone he),zoneOf_text hz he]
    rfl

/-! A text is a time in one way at most, as far as offsets go. -/

def isSign (c : UInt8) : Bool := c = '+'.toUInt8 || c = '-'.toUInt8

theorem isSign_of_isDigit {c : UInt8} (h : isDigit c = true) : isSign c = false := by
  rw [Bool.eq_false_iff]
  intro hs
  rw [isSign,Bool.or_eq_true,decide_eq_true_eq,decide_eq_true_eq] at hs
  rcases hs with rfl | rfl
  · exact absurd h (by decide)
  · exact absurd h (by decide)

theorem two_unsigned (n : Fin 100) : ∀ c ∈ two n, isSign c = false := by
  simp [two,isSign_of_isDigit,isDigit_digitChar,show (n : ℕ)/10 < 10 by omega,
    show (n : ℕ)%10 < 10 by omega]

theorem four_unsigned (n : Fin 10000) : ∀ c ∈ four n, isSign c = false := by
  simp [four,isSign_of_isDigit,isDigit_digitChar,show (n : ℕ)/1000 < 10 by omega,
    show (n : ℕ)/100%10 < 10 by omega,show (n : ℕ)/10%10 < 10 by omega,
    show (n : ℕ)%10 < 10 by omega]

theorem fractionText_unsigned (f : Option (Fin 1000)) :
    ∀ c ∈ fractionText f, isSign c = false := by
  cases f with
  | none => exact nofun
  | some n =>
    have hdot : isSign '.'.toUInt8 = false := by decide
    simp [fractionText,three,hdot,isSign_of_isDigit,isDigit_digitChar,
      show (n : ℕ)/100 < 10 by omega,show (n : ℕ)/10%10 < 10 by omega,
      show (n : ℕ)%10 < 10 by omega]

theorem stamp_unsigned (stamp : Stamp) : ∀ c ∈ stamp.text, isSign c = false := by
  have happend : ∀ {s u : Text}, (∀ c ∈ s, isSign c = false) → (∀ c ∈ u, isSign c = false) →
      ∀ c ∈ s ++ u, isSign c = false :=
    fun hs hu c hc => (List.mem_append.mp hc).elim (hs c) (hu c)
  cases stamp with
  | generalized year month day hour clock =>
    refine happend (four_unsigned _) (happend (two_unsigned _) (happend (two_unsigned _)
      (happend (two_unsigned _) ?_)))
    match clock with
    | none => exact nofun
    | some (minute,none) => exact two_unsigned _
    | some (minute,some (second,f)) =>
      exact happend (two_unsigned _) (happend (two_unsigned _) (fractionText_unsigned f))
  | utc year month day hour minute second =>
    refine happend (two_unsigned _) (happend (two_unsigned _) (happend (two_unsigned _)
      (happend (two_unsigned _) (happend (two_unsigned _) ?_))))
    cases second with
    | none => exact nofun
    | some second => exact two_unsigned _

/-- What there is from the first sign on. -/
theorem dropWhile_time (t : Time) (extra : Text) :
    (t.text ++ extra).dropWhile (!isSign ·) = (zoneText t.zone ++ extra).dropWhile (!isSign ·) := by
  rw [Time.text,List.append_assoc,List.dropWhile_append_of_pos fun c hc => by
    rw [stamp_unsigned t.stamp c hc]; rfl]

theorem dropWhile_offset (minus : Bool) (hours minutes : Fin 100) (extra : Text) :
    ((zoneText (some (.offset minus hours minutes)) ++ extra).dropWhile (!isSign ·)).length =
      5+extra.length := by
  have hsign : isSign (signChar minus) = true := by cases minus <;> decide
  simp [zoneText,hsign,two]
  omega

theorem dropWhile_zone (z : Option Zone) : ((zoneText z).dropWhile (!isSign ·)).length ≤ 5 := by
  match z with
  | none => decide
  | some .utc => decide
  | some (.offset minus hours minutes) =>
    have := dropWhile_offset minus hours minutes []
    rw [List.append_nil] at this
    rw [this]
    exact Nat.le_refl _

/-- Behind an offset a time has nothing. -/
theorem no_extra {t t' : Time} {extra : Text} (h : t.text ++ extra = t'.text)
    (he : MayFollow t.zone extra) : extra = [] := by
  rcases he with he | ⟨minus,hours,minutes,hz⟩
  · exact he
  · have hlen := congrArg (fun s => (s.dropWhile (!isSign ·)).length) h
    have hright := dropWhile_time t' []
    simp only [List.append_nil] at hright
    simp only [dropWhile_time,hz,dropWhile_offset,hright] at hlen
    have := dropWhile_zone t'.zone
    exact List.eq_nil_of_length_eq_zero (by omega)

/-! Which texts are read as the grammar has them. -/

/-- The text is a time of the type, and stands for the instant. -/
def Denotes (type : Asn1Type) (s : Text) (r : ℤ) : Prop :=
  ∃ t : Time, t.stamp.type = type ∧ s = t.text ∧ r = t.instant

/-- Times give their instants, all other texts nothing. -/
structure Meets (type : Asn1Type) (s : Text) : Prop where
  time : ∀ r, Denotes type s r → convertAsn1TimeToPpVar type s = some r
  other : (∀ r, ¬Denotes type s r) → convertAsn1TimeToPpVar type s = none

/-- A time with an offset, followed by something, or west of UTC by not only whole hours. -/
def BadOffset (type : Asn1Type) (s : Text) : Prop :=
  ∃ (t : Time) (minus : Bool) (hours minutes : Fin 100) (extra : Text), t.stamp.type = type ∧
    t.zone = some (.offset minus hours minutes) ∧ s = t.text ++ extra ∧
    (extra ≠ [] ∨ minus = true ∧ minutes ≠ 0)

theorem readInstant_eq_iff (t : Time) : readInstant t.stamp t.zone = t.instant ↔
    ∀ hours minutes, t.zone = some (.offset true hours minutes) → minutes = 0 := by
  unfold readInstant Time.instant
  match hz : t.zone with
  | none => simp [readOffset,zoneValue]
  | some .utc => simp [readOffset,zoneValue]
  | some (.offset false hours minutes) => simp [readOffset,zoneValue]
  | some (.offset true hours minutes) =>
    have hminutes : number minutes = 0 ↔ minutes = 0 := by
      rw [number,Int.natCast_eq_zero,Fin.ext_iff]
      rfl
    simp only [readOffset,zoneValue,if_true,Option.some.injEq,Zone.offset.injEq,true_and]
    constructor
    · rintro he _ _ ⟨rfl,rfl⟩
      exact hminutes.mp (by omega)
    · intro he
      have := hminutes.mpr (he hours minutes ⟨rfl,rfl⟩)
      omega

theorem convert_asn1_time_iff (type : Asn1Type) (s : Text) :
    Meets type s ↔ ¬BadOffset type s := by
  constructor
  · rintro hm ⟨t,minus,hours,minutes,extra,htype,hz,hs,hbad⟩
    have hfollow : MayFollow t.zone extra := Or.inr ⟨minus,hours,minutes,hz⟩
    have hread := convert_iff.mpr ⟨t,extra,htype,hfollow,hs,rfl⟩
    rcases hbad with hextra | ⟨rfl,hminutes⟩
    · have hnone := hm.other fun r ⟨t',_,hs',_⟩ =>
        hextra (no_extra (hs.symm.trans hs') hfollow)
      rw [hread] at hnone
      cases hnone
    · cases extra with
      | cons c extra =>
        have hnone := hm.other fun r ⟨t',_,hs',_⟩ =>
          absurd (no_extra (hs.symm.trans hs') hfollow) (List.cons_ne_nil c extra)
        rw [hread] at hnone
        cases hnone
      | nil =>
        have htime := hm.time t.instant ⟨t,htype,by rw [hs,List.append_nil],rfl⟩
        rw [hread] at htime
        exact hminutes ((readInstant_eq_iff t).mp (Option.some.inj htime) hours minutes hz)
  · intro hgood
    refine ⟨fun r ⟨t,htype,hs,hr⟩ => ?_,fun hnot => ?_⟩
    · have hinstant : readInstant t.stamp t.zone = t.instant := by
        refine (readInstant_eq_iff t).mpr fun hours minutes hz => ?_
        by_contra hne
        exact hgood ⟨t,true,hours,minutes,[],htype,hz,by rw [hs,List.append_nil],
          Or.inr ⟨rfl,hne⟩⟩
      rw [hr,← hinstant]
      exact convert_iff.mpr ⟨t,[],htype,Or.inl rfl,by rw [hs,List.append_nil],rfl⟩
    · by_contra hne
      obtain ⟨r,hr⟩ := Option.ne_none_iff_exists'.mp hne
      obtain ⟨t,extra,htype,hfollow,hs,_⟩ := convert_iff.mp hr
      rcases hfollow with rfl | ⟨minus,hours,minutes,hz⟩
      · exact hnot _ ⟨t,htype,by rw [hs,List.append_nil],rfl⟩
      · by_cases hextra : extra = []
        · exact hnot _ ⟨t,htype,by rw [hs,hextra,List.append_nil],rfl⟩
        · exact hgood ⟨t,minus,hours,minutes,extra,htype,hz,hs,Or.inl hextra⟩

/-- Midnight of the first day, half an hour west of UTC. -/
def halfHourWest : Time :=
  ⟨.utc 70 1 1 0 0 none,some (.offset true 0 30),fun _ => rfl⟩

theorem halfHourWest_misread :
    ¬∀ (type : Asn1Type) (s : Text), Meets type s := by
  intro h
  have hinstant : halfHourWest.instant = 1800000 := by
    simp only [halfHourWest,Time.instant,Stamp.value,← timegm_eq]
    decide
  have hm := (h .utcTime (bytes "7001010000-0030")).time 1800000
    ⟨halfHourWest,rfl,by decide,hinstant.symm⟩
  exact absurd hm (by decide)

end X509Certificate
end FreshPlayer
