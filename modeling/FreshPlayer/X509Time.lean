import FreshPlayer.CText
import FreshPlayer.Calendar

/-! Times in certificates, as `convert_asn1_time_to_pp_var` reads them. Instants are in
milliseconds since the beginning of 1970. -/
namespace FreshPlayer
namespace X509Certificate

open CText

/-- The fields of `struct tm` that are set. -/
structure Tm where
  tmYear : ℤ
  tmMon : ℤ
  tmMday : ℤ
  tmHour : ℤ
  tmMin : ℤ
  tmSec : ℤ
  deriving DecidableEq, Repr

/-- Months beyond a year are carried over to it, all else is added up. -/
def timegm (t : Tm) : ℤ :=
  let year := 1900+t.tmYear+t.tmMon/12
  let mon := (t.tmMon % 12).toNat
  let days := Calendar.daysBeforeYear year-Calendar.daysBeforeYear 1970+
    Calendar.daysBeforeMonth (Calendar.isLeap year) mon+(t.tmMday-1)
  ((days*24+t.tmHour)*60+t.tmMin)*60+t.tmSec

def convertTmToPpVar (t : Tm) (subsec hofs mofs : ℤ) : ℤ :=
  (timegm t-hofs*3600-mofs*60)*1000+subsec

inductive Asn1Type
  | generalizedTime | utcTime | other
  deriving DecidableEq, Repr

/-- Two digits at the front, and what is behind them. -/
def twoDigits : Text → Option (ℤ × Text)
  | a::b::s => if isDigit a && isDigit b then some ((10*digit a+digit b : ℕ),s) else none
  | _ => none

def fourDigits : Text → Option (ℤ × Text)
  | a::b::c::d::s =>
    if isDigit a && isDigit b && isDigit c && isDigit d then
      some ((1000*digit a+100*digit b+10*digit c+digit d : ℕ),s)
    else none
  | _ => none

/-- There are two characters, of which the first is a digit. -/
def beginsField : Text → Bool
  | a::_::_ => isDigit a
  | _ => false

/-- Seconds are left as they are when they do not begin here. -/
def seconds (t : Tm) (s : Text) : Option (Tm × Text) :=
  if beginsField s then (twoDigits s).map fun (sec,s) => ({ t with tmSec := sec },s)
  else some (t,s)

/-- `.fff` -/
def fraction : Text → ℤ × Text
  | p::a::b::c::s =>
    if p = '.'.toUInt8 && isDigit a && isDigit b && isDigit c then
      ((100*digit a+10*digit b+digit c : ℕ),s)
    else (0,p::a::b::c::s)
  | s => (0,s)

/-- The fraction is looked for when there have been seconds. -/
def minutes (t : Tm) (s : Text) : Option (Tm × ℤ × Text) :=
  if beginsField s then
    (twoDigits s).bind fun (min,s) =>
    if beginsField s then
      (twoDigits s).map fun (sec,s) => ({ t with tmMin := min, tmSec := sec },fraction s)
    else some ({ t with tmMin := min },0,s)
  else some (t,0,s)

/-- What follows the minutes of the offset is not looked at. -/
def zoneOffset : Text → Option (ℤ × ℤ)
  | [] => none
  | c::s =>
    if c ≠ '+'.toUInt8 && c ≠ '-'.toUInt8 then none
    else
      let tzSign : ℤ := if c = '+'.toUInt8 then 1 else -1
      (twoDigits s).bind fun (tzHours,s) =>
      (twoDigits s).map fun (tzMinutes,_) => (tzSign*tzHours,tzMinutes)

def zoneOfGeneralizedTime : Text → Option (ℤ × ℤ)
  | [] => some (0,0)
  | [c] => if c = 'Z'.toUInt8 then some (0,0) else none
  | s => zoneOffset s

def zoneOfUtcTime (s : Text) : Option (ℤ × ℤ) :=
  if s = ['Z'.toUInt8] then some (0,0) else zoneOffset s

def convertGeneralizedTime (s : Text) : Option ℤ :=
  (fourDigits s).bind fun (year,s) =>
  (twoDigits s).bind fun (mon,s) =>
  (twoDigits s).bind fun (mday,s) =>
  (twoDigits s).bind fun (hour,s) =>
  (minutes ⟨year-1900,mon-1,mday,hour,0,0⟩ s).bind fun (t,subsec,s) =>
  (zoneOfGeneralizedTime s).map fun (hofs,mofs) => convertTmToPpVar t subsec hofs mofs

def convertUtcTime (s : Text) : Option ℤ :=
  (twoDigits s).bind fun (year,s) =>
  (twoDigits s).bind fun (mon,s) =>
  (twoDigits s).bind fun (mday,s) =>
  (twoDigits s).bind fun (hour,s) =>
  (twoDigits s).bind fun (min,s) =>
  (seconds ⟨year+if year < 70 then 100 else 0,mon-1,mday,hour,min,0⟩ s).bind fun (t,s) =>
  (zoneOfUtcTime s).map fun (hofs,mofs) => convertTmToPpVar t 0 hofs mofs

/-- `none` stands for a null var. -/
def convertAsn1TimeToPpVar (type : Asn1Type) (s : Text) : Option ℤ :=
  match type with
  | .generalizedTime => convertGeneralizedTime s
  | .utcTime => convertUtcTime s
  | .other => none

end X509Certificate
end FreshPlayer
