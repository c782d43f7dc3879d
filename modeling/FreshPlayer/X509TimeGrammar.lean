import FreshPlayer.X509Time

/-! The grammar of the times, with the instant that each of them stands for. -/
namespace FreshPlayer
namespace X509Certificate

open CText

/-! Fields of digits. -/

def digitChar (n : ℕ) : UInt8 := UInt8.ofNat ('0'.toNat+n)

def two (n : Fin 100) : Text := [digitChar (n/10),digitChar (n%10)]
def three (n : Fin 1000) : Text := [digitChar (n/100),digitChar (n/10%10),digitChar (n%10)]
def four (n : Fin 10000) : Text :=
  [digitChar (n/1000),digitChar (n/100%10),digitChar (n/10%10),digitChar (n%10)]

theorem digitChar_toNat {n : ℕ} (h : n < 10) : (digitChar n).toNat = 48+n := by
  have : (digitChar n).toNat = (48+n) % 2^8 := UInt8.toNat_ofNat'
  rw [this]
  omega

theorem isDigit_digitChar {n : ℕ} (h : n < 10) : isDigit (digitChar n) = true := by
  rw [isDigit_iff,digitChar_toNat h]
  omega

theorem digit_digitChar {n : ℕ} (h : n < 10) : digit (digitChar n) = n := by
  have hz : '0'.toNat = 48 := rfl
  rw [digit,digitChar_toNat h,hz]
  omega

theorem digit_lt {c : UInt8} (h : isDigit c = true) : digit c < 10 := by
  have hz : '0'.toNat = 48 := rfl
  rw [isDigit_iff] at h
  rw [digit,hz]
  omega

theorem digitChar_digit {c : UInt8} (h : isDigit c = true) : digitChar (digit c) = c := by
  have hz : '0'.toNat = 48 := rfl
  have hlt := digit_lt h
  rw [isDigit_iff] at h
  rw [← UInt8.toNat_inj,digitChar_toNat hlt,digit,hz]
  omega

theorem twoDigits_two (n : Fin 100) (rest : Text) :
    twoDigits (two n ++ rest) = some (((n : ℕ) : ℤ),rest) := by
  have h1 : (n : ℕ)/10 < 10 := by omega
  have h2 : (n : ℕ)%10 < 10 := by omega
  have hn : 10*((n : ℕ)/10)+(n : ℕ)%10 = n := by omega
  simp [twoDigits,two,isDigit_digitChar h1,isDigit_digitChar h2,digit_digitChar h1,
    digit_digitChar h2]
  omega

theorem twoDigits_some {s rest : Text} {n : ℤ} (h : twoDigits s = some (n,rest)) :
    ∃ k : Fin 100, n = ((k : ℕ) : ℤ) ∧ s = two k ++ rest := by
  unfold twoDigits at h
  split at h
  · rename_i a b s
    split_ifs at h with hd
    rw [Bool.and_eq_true] at hd
    have ha := digit_lt hd.1
    have hb := digit_lt hd.2
    cases h
    refine ⟨⟨10*digit a+digit b,by omega⟩,rfl,?_⟩
    have h1 : (10*digit a+digit b)/10 = digit a := by omega
    have h2 : (10*digit a+digit b)%10 = digit b := by omega
    simp [two,h1,h2,digitChar_digit hd.1,digitChar_digit hd.2]
  · cases h

theorem fourDigits_four (n : Fin 10000) (rest : Text) :
    fourDigits (four n ++ rest) = some (((n : ℕ) : ℤ),rest) := by
  have h1 : (n : ℕ)/1000 < 10 := by omega
  have h2 : (n : ℕ)/100%10 < 10 := by omega
  have h3 : (n : ℕ)/10%10 < 10 := by omega
  have h4 : (n : ℕ)%10 < 10 := by omega
  simp [fourDigits,four,isDigit_digitChar,digit_digitChar,h1,h2,h3,h4]
  omega

theorem fourDigits_some {s rest : Text} {n : ℤ} (h : fourDigits s = some (n,rest)) :
    ∃ k : Fin 10000, n = ((k : ℕ) : ℤ) ∧ s = four k ++ rest := by
  unfold fourDigits at h
  split at h
  · rename_i a b c d s
    split_ifs at h with hd
    simp only [Bool.and_eq_true] at hd
    obtain ⟨⟨⟨ha,hb⟩,hc⟩,hd⟩ := hd
    have ha' := digit_lt ha
    have hb' := digit_lt hb
    have hc' := digit_lt hc
    have hd' := digit_lt hd
    cases h
    refine ⟨⟨1000*digit a+100*digit b+10*digit c+digit d,by omega⟩,rfl,?_⟩
    have h1 : (1000*digit a+100*digit b+10*digit c+digit d)/1000 = digit a := by omega
    have h2 : (1000*digit a+100*digit b+10*digit c+digit d)/100%10 = digit b := by omega
    have h3 : (1000*digit a+100*digit b+10*digit c+digit d)/10%10 = digit c := by omega
    have h4 : (1000*digit a+100*digit b+10*digit c+digit d)%10 = digit d := by omega
    simp [four,h1,h2,h3,h4,digitChar_digit,ha,hb,hc,hd]
  · cases h

/-! What the fields mean. -/

/-- Seconds since the beginning of 1970. Fields out of range are carried over. -/
def civilSeconds (year month day hour minute second : ℤ) : ℤ :=
  let y := year+(month-1)/12
  let days := Calendar.daysOfYears 1970 y+Calendar.daysOfMonths y ((month-1) % 12).toNat+(day-1)
  days*86400+hour*3600+minute*60+second

theorem timegm_eq (year month day hour minute second : ℤ) :
    timegm ⟨year-1900,month-1,day,hour,minute,second⟩ =
      civilSeconds year month day hour minute second := by
  have hmonth : ((month-1) % 12).toNat < 12 := by omega
  have hyear : 1900+(year-1900) = year := by omega
  simp only [timegm,civilSeconds,Calendar.daysOfYears_eq,Calendar.daysOfMonths_eq _ hmonth,hyear]
  omega

/-- Minutes, seconds and their fraction, of which each needs the one before. -/
abbrev Clock := Option (Fin 100 × Option (Fin 100 × Option (Fin 1000)))

/-- A local time of one of the two forms. -/
inductive Stamp
  | generalized (year : Fin 10000) (month day hour : Fin 100) (clock : Clock)
  | utc (year month day hour minute : Fin 100) (second : Option (Fin 100))

inductive Zone
  | utc
  | offset (minus : Bool) (hours minutes : Fin 100)

def fractionText : Option (Fin 1000) → Text
  | none => []
  | some f => '.'.toUInt8::three f

def secondText : Option (Fin 100) → Text
  | none => []
  | some second => two second

def clockText : Clock → Text
  | none => []
  | some (minute,none) => two minute
  | some (minute,some (second,f)) => two minute ++ (two second ++ fractionText f)

def Stamp.type : Stamp → Asn1Type
  | .generalized .. => .generalizedTime
  | .utc .. => .utcTime

def Stamp.text : Stamp → Text
  | .generalized year month day hour clock =>
    four year ++ (two month ++ (two day ++ (two hour ++ clockText clock)))
  | .utc year month day hour minute second =>
    two year ++ (two month ++ (two day ++ (two hour ++ (two minute ++ secondText second))))

def signChar (minus : Bool) : UInt8 := if minus then '-'.toUInt8 else '+'.toUInt8

def zoneText : Option Zone → Text
  | none => []
  | some .utc => ['Z'.toUInt8]
  | some (.offset minus hours minutes) => signChar minus::(two hours ++ two minutes)

def number {n : ℕ} (k : Fin n) : ℤ := (k : ℕ)

def fractionValue : Option (Fin 1000) → ℤ
  | none => 0
  | some f => number f

def secondValue : Option (Fin 100) → ℤ
  | none => 0
  | some second => number second

/-- Minutes, seconds and thousandths. -/
def clockValue : Clock → ℤ × ℤ × ℤ
  | none => (0,0,0)
  | some (minute,none) => (number minute,0,0)
  | some (minute,some (second,f)) => (number minute,number second,fractionValue f)

/-- Years of two digits are those from 1970 to 2069. -/
def fullYear (year : Fin 100) : ℤ := if number year < 70 then 2000+number year else 1900+number year

/-- Milliseconds, as if in UTC. -/
def Stamp.value : Stamp → ℤ
  | .generalized year month day hour clock =>
    let c := clockValue clock
    civilSeconds (number year) (number month) (number day) (number hour) c.1 c.2.1*1000+c.2.2
  | .utc year month day hour minute second =>
    civilSeconds (fullYear year) (number month) (number day) (number hour) (number minute)
      (secondValue second)*1000

/-- Seconds ahead of UTC. -/
def zoneValue : Option Zone → ℤ
  | some (.offset minus hours minutes) =>
    (if minus then -1 else 1)*(number hours*3600+number minutes*60)
  | _ => 0

/-- A time as the grammar has it; of the two forms only one can go without a zone. -/
structure Time where
  stamp : Stamp
  zone : Option Zone
  zoned : stamp.type = .utcTime → zone.isSome = true

def Time.text (t : Time) : Text := t.stamp.text ++ zoneText t.zone

def Time.instant (t : Time) : ℤ := t.stamp.value-zoneValue t.zone*1000

end X509Certificate
end FreshPlayer
