import FreshPlayer.MessageLoopOrder

/-! Due times with the arithmetic of 64-bit integers: what a post stores, and when an activation
of the loop takes a task that is stored so. -/
namespace FreshPlayer
namespace MessageLoop

/-- A result of signed 64-bit arithmetic, wrapped. -/
def int64 (n : ℤ) : ℤ := n.bmod (2^64)

/-- The carry loop of the posting function. -/
def carry64 : ℕ → Timespec → Timespec
  | 0, t => t
  | n+1, t =>
    if 1000*1000*1000 ≤ t.tvNsec then
      carry64 n ⟨int64 (t.tvSec+1),int64 (t.tvNsec-1000*1000*1000)⟩
    else t

/-- Absolute time a callback should be run at, as it is stored. -/
def whenPosted (now : Timespec) (delayMs : ℤ) : Timespec :=
  let t : Timespec := ⟨int64 (now.tvSec + delayMs.tdiv 1000),
    int64 (now.tvNsec + delayMs.tmod 1000*1000*1000)⟩
  carry64 (t.tvNsec/(1000*1000*1000)).toNat t

/-- What `clock_gettime` may read. -/
structure Clock (t : Timespec) : Prop where
  normal : t.Normal
  lower : -2^63 ≤ t.tvSec
  upper : t.tvSec < 2^63

/-- Some activation whose first task this is takes it when the clock shows this time. -/
def StartsAt (x : Task) (now : Timespec) : Prop :=
  ∃ s f fs, findFirstTaskWithAppropriateDepth s.intQ f.depth = some x ∧
    (runIntIterate s f fs now).taken = s.taken ++ [x]

/-- Microseconds between two times, as seconds and nanoseconds give them. -/
def micros (now when : Timespec) : ℤ :=
  (when.tvSec - now.tvSec)*1000*1000 + (when.tvNsec - now.tvNsec).tdiv 1000

/-! The time stored. -/

theorem int64_of_bounds {n : ℤ} (h0 : -2^63 ≤ n) (h : n < 2^63) : int64 n = n := by
  rw [int64,Int.bmod_def]
  omega

theorem int64_bounds (n : ℤ) : -2^63 ≤ int64 n ∧ int64 n < 2^63 := by
  rw [int64,Int.bmod_def]
  omega

theorem carry64_eq (n : ℕ) (sec : ℤ) {nsec : ℤ} (h0 : 0 ≤ nsec) (h : nsec < 2^63) :
    carry64 n ⟨int64 sec,nsec⟩ =
      ⟨int64 (carry n ⟨sec,nsec⟩).tvSec,(carry n ⟨sec,nsec⟩).tvNsec⟩ := by
  induction n generalizing sec nsec with
  | zero => rfl
  | succ n ih =>
    have hsec : int64 (int64 sec+1) = int64 (sec+1) := Int.bmod_add_bmod
    by_cases hle : 1000*1000*1000 ≤ nsec
    · have hnsec : int64 (nsec-1000*1000*1000) = nsec-1000*1000*1000 :=
        int64_of_bounds (by omega) (by omega)
      rw [carry64,carry,if_pos hle,if_pos hle,hsec,hnsec,ih _ (by omega) (by omega)]
    · rw [carry64,carry,if_neg hle,if_neg hle]

theorem postedNsec_bounds {now : Timespec} {delayMs : ℤ} (hn : now.Normal) (h : 0 ≤ delayMs) :
    0 ≤ postedNsec now delayMs ∧ postedNsec now delayMs < 2*(1000*1000*1000) := by
  obtain ⟨hn0,hn⟩ := hn
  have hmod0 : 0 ≤ delayMs.tmod 1000 := Int.tmod_nonneg 1000 h
  have hmod : delayMs.tmod 1000 < 1000 := Int.tmod_lt_of_pos delayMs (by decide)
  unfold postedNsec
  omega

/-- Seconds may wrap, nanoseconds do not. -/
theorem whenPosted_eq {now : Timespec} {delayMs : ℤ} (hn : now.Normal) (h : 0 ≤ delayMs) :
    whenPosted now delayMs =
      ⟨int64 (dueTime now delayMs).tvSec,(dueTime now delayMs).tvNsec⟩ := by
  obtain ⟨h0,hlt⟩ := postedNsec_bounds hn h
  have hnsec : int64 (postedNsec now delayMs) = postedNsec now delayMs :=
    int64_of_bounds (by omega) (by omega)
  change carry64 (int64 (postedNsec now delayMs)/(1000*1000*1000)).toNat
    ⟨int64 (now.tvSec+delayMs.tdiv 1000),int64 (postedNsec now delayMs)⟩ = _
  rw [hnsec]
  exact carry64_eq _ _ h0 (by omega)

theorem dueTime_lower {now : Timespec} {delayMs : ℤ} (hn : Clock now) (h : 0 ≤ delayMs) :
    -2^63 ≤ (dueTime now delayMs).tvSec := by
  have hlower := hn.lower
  have hnow := hn.normal.1
  have hinstant := dueTime_instant now delayMs
  have hnormal := (dueTime_normal (postedNsec_bounds hn.normal h).1).2
  unfold Timespec.instant at hinstant
  omega

/-- The time stored is the due time unless its seconds overflow. -/
theorem whenPosted_instant {now : Timespec} {delayMs : ℤ} (hn : Clock now) (h : 0 ≤ delayMs) :
    (whenPosted now delayMs).instant = now.instant+delayMs*(1000*1000) ↔
      now.instant+delayMs*(1000*1000) < 2^63*(1000*1000*1000) := by
  have hlower := dueTime_lower hn h
  have hnormal := dueTime_normal (postedNsec_bounds hn.normal h).1
  rw [whenPosted_eq hn.normal h,← dueTime_instant]
  generalize dueTime now delayMs = due at *
  obtain ⟨h0,hlt⟩ := hnormal
  have hbounds := int64_bounds due.tvSec
  unfold Timespec.instant
  dsimp only
  constructor
  · intro heq
    omega
  · intro hle
    rw [int64_of_bounds hlower (by omega)]

/-! The time at which a task is taken. -/

theorem runIntIterate_taken {s : State} {f : Frame} {fs : List Frame} {now : Timespec} {x : Task}
    (hx : findFirstTaskWithAppropriateDepth s.intQ f.depth = some x) :
    (runIntIterate s f fs now).taken = if timeoutOf x now ≤ 0 then s.taken ++ [x] else s.taken := by
  rw [runIntIterate,hx]
  dsimp only
  split
  · rw [runIntDue_ledger]
    rfl
  · rfl

theorem startsAt_iff {x : Task} {now : Timespec} :
    StartsAt x now ↔ int64 (micros now x.when) ≤ 0 := by
  constructor
  · rintro ⟨s,f,fs,hx,htaken⟩
    rw [runIntIterate_taken hx] at htaken
    by_contra hlate
    rw [if_neg (show ¬timeoutOf x now ≤ 0 from hlate)] at htaken
    exact absurd (List.self_eq_append_right.mp htaken) (List.cons_ne_nil x [])
  · intro hdue
    -- a queue with nothing else in it, at the depth of the task
    let s : State := { State.create 1 with intQ := KeyTree.empty.insert x }
    let f : Frame := ⟨⟨true,true,false⟩,false,false,false,false,x.depth,.looping,.loop,none⟩
    have hx : findFirstTaskWithAppropriateDepth s.intQ f.depth = some x := by
      have happropriate : taskTreeTraverseFunc x.depth x = true := by simp [taskTreeTraverseFunc]
      exact List.find?_cons_of_pos happropriate
    exact ⟨s,f,[],hx,(runIntIterate_taken hx).trans (if_pos hdue)⟩

theorem tdiv_thousand (n : ℤ) : n.tdiv 1000 = if 0 ≤ n then n/1000 else -(-n/1000) := by
  split
  next h => exact Int.tdiv_eq_ediv_of_nonneg h
  next h =>
    rw [← Int.tdiv_eq_ediv_of_nonneg (by omega : 0 ≤ -n),Int.neg_tdiv,neg_neg]

/-- Truncation is off by less than a microsecond, in either direction. -/
theorem micros_bounds (now when : Timespec) :
    when.instant-now.instant ≤ 1000*micros now when+999 ∧
      1000*micros now when ≤ when.instant-now.instant+999 := by
  unfold micros Timespec.instant
  rw [tdiv_thousand]
  split <;> omega

/-- Later there is less to wait, also across the seconds. -/
theorem micros_antitone {now now' when : Timespec} (hn : now.Normal) (hn' : now'.Normal)
    (hw : when.Normal) (h : now.instant ≤ now'.instant) :
    micros now' when ≤ micros now when := by
  obtain ⟨hn0,hn1⟩ := hn
  obtain ⟨hn0',hn1'⟩ := hn'
  obtain ⟨hw0,hw1⟩ := hw
  unfold Timespec.instant at h
  unfold micros
  rw [tdiv_thousand,tdiv_thousand]
  split <;> split <;> omega

/-- The clock reading of an instant. -/
def ofInstant (n : ℤ) : Timespec := ⟨n/(1000*1000*1000),n % (1000*1000*1000)⟩

theorem ofInstant_normal (n : ℤ) : (ofInstant n).Normal := by
  unfold Timespec.Normal ofInstant
  dsimp only
  omega

theorem instant_ofInstant (n : ℤ) : (ofInstant n).instant = n := by
  unfold Timespec.instant ofInstant
  dsimp only
  omega

theorem clock_of_between {a b t : Timespec} (ha : Clock a) (hb : Clock b) (ht : t.Normal)
    (hat : a.instant ≤ t.instant) (htb : t.instant ≤ b.instant) : Clock t := by
  obtain ⟨⟨ha0,ha1⟩,halower,_⟩ := ha
  obtain ⟨⟨hb0,hb1⟩,_,hbupper⟩ := hb
  unfold Timespec.instant at hat htb
  exact ⟨ht,by obtain ⟨ht0,ht1⟩ := ht; omega,by obtain ⟨ht0,ht1⟩ := ht; omega⟩

/-- From a time that is far from the due time, the clock comes to one at which the difference
wraps. -/
theorem exists_wrap {when earliest : Timespec} (hw : Clock when) (he : Clock earliest)
    (hfar : 2^63 ≤ micros earliest when) :
    ∃ now, Clock now ∧ earliest.instant ≤ now.instant ∧ micros now when = 2^63 := by
  by_cases heq : micros earliest when = 2^63
  · exact ⟨earliest,he,le_rfl,heq⟩
  · -- it is `2^63` microseconds before the due time, and not before the earliest time
    have hbounds := micros_bounds earliest when
    have hinstant := instant_ofInstant (when.instant-2^63*1000)
    have hnormal := ofInstant_normal (when.instant-2^63*1000)
    generalize ofInstant (when.instant-2^63*1000) = now at *
    have hle : earliest.instant ≤ now.instant := by omega
    have hmicros := micros_bounds now when
    exact ⟨now,clock_of_between he hw hnormal hle (by omega),hle,by omega⟩

/-- A task is early if it is a microsecond or more before its time. -/
def NeverEarly (x : Task) (earliest : Timespec) : Prop :=
  ∀ now, Clock now → earliest.instant ≤ now.instant → StartsAt x now →
    x.when.instant-now.instant < 1000

theorem neverEarly_iff {x : Task} {earliest : Timespec} (hx : Clock x.when)
    (he : Clock earliest) : NeverEarly x earliest ↔ micros earliest x.when < 2^63 := by
  constructor
  · intro hnever
    by_contra hfar
    obtain ⟨now,hclock,hle,hwrap⟩ := exists_wrap hx he (not_lt.mp hfar)
    have hstarts : StartsAt x now := startsAt_iff.mpr (by rw [hwrap]; decide)
    have hearly := hnever now hclock hle hstarts
    have hbounds := micros_bounds now x.when
    omega
  · intro hnear now hnow hle hstarts
    by_contra hearly
    have hbounds := micros_bounds now x.when
    have hmono := micros_antitone he.normal hnow.normal hx.normal hle
    have hstarts := startsAt_iff.mp hstarts
    rw [int64_of_bounds (by omega) (by omega)] at hstarts
    omega

/-- The microseconds from a post to its due time. -/
theorem micros_posted {posted : Timespec} {delayMs : ℤ} :
    micros posted (dueTime posted delayMs) = delayMs*1000 := by
  have hinstant := dueTime_instant posted delayMs
  have hbounds := micros_bounds posted (dueTime posted delayMs)
  omega

/-- Where the seconds do not overflow, a time that `clock_gettime` may read is stored. -/
theorem whenPosted_of_lt {posted : Timespec} {delayMs : ℤ} (hp : Clock posted) (h0 : 0 ≤ delayMs)
    (hlt : posted.instant+delayMs*(1000*1000) < 2^63*(1000*1000*1000)) :
    whenPosted posted delayMs = dueTime posted delayMs ∧ Clock (dueTime posted delayMs) := by
  have hlower := dueTime_lower hp h0
  have hnormal := dueTime_normal (postedNsec_bounds hp.normal h0).1
  rw [whenPosted_eq hp.normal h0]
  rw [← dueTime_instant] at hlt
  generalize dueTime posted delayMs = due at *
  have hupper : due.tvSec < 2^63 := by
    obtain ⟨hnsec,_⟩ := hnormal
    unfold Timespec.instant at hlt
    omega
  rw [int64_of_bounds hlower hupper]
  exact ⟨rfl,hnormal,hlower,hupper⟩

/-- The time stored is normalised and the due time, and the task is never taken early by a clock
that shows no less than the earliest time, exactly if the seconds of the due time do not overflow
and it is less than `2^63` microseconds after the earliest time. -/
theorem dueTime_law {posted earliest : Timespec} {delayMs : ℤ} {x : Task} (hp : Clock posted)
    (he : Clock earliest) (h0 : 0 ≤ delayMs) (hx : x.when = whenPosted posted delayMs) :
    (x.when.Normal ∧ x.when.instant = posted.instant+delayMs*(1000*1000) ∧
      NeverEarly x earliest) ↔
    posted.instant+delayMs*(1000*1000) < 2^63*(1000*1000*1000) ∧
      micros earliest (dueTime posted delayMs) < 2^63 := by
  have hinstant := whenPosted_instant hp h0
  rw [← hx] at hinstant
  constructor
  · rintro ⟨_,heq,hnever⟩
    have hlt := hinstant.mp heq
    obtain ⟨hwhen,hclock⟩ := whenPosted_of_lt hp h0 hlt
    rw [← hwhen,← hx] at hclock ⊢
    exact ⟨hlt,(neverEarly_iff hclock he).mp hnever⟩
  · rintro ⟨hlt,hnear⟩
    obtain ⟨hwhen,hclock⟩ := whenPosted_of_lt hp h0 hlt
    rw [← hwhen,← hx] at hclock hnear
    exact ⟨hclock.normal,hinstant.mpr hlt,(neverEarly_iff hclock he).mpr hnear⟩

/-- A task that does nothing but become due. -/
def timer (when : Timespec) : Task := ⟨0,when,false,0,⟨some 0,0⟩,0,false,.loop⟩

def reading : Timespec := ⟨1700000000,999999999⟩

theorem clock_reading : Clock reading := ⟨by decide,by decide,by decide⟩

/-- A second and a half, with a carry, by a clock that is not set back. -/
theorem timer_law :
    (timer (whenPosted reading 1500)).when.Normal ∧
      (timer (whenPosted reading 1500)).when.instant = reading.instant+1500*(1000*1000) ∧
      NeverEarly (timer (whenPosted reading 1500)) reading :=
  (dueTime_law clock_reading clock_reading (by decide) rfl).mpr
    ⟨by decide,by rw [micros_posted]; decide⟩

/-- With the longest delay, and with the least one whose microseconds overflow, a task is taken
when it is posted. -/
theorem timer_early :
    (StartsAt (timer (whenPosted reading (2^63-1))) reading ∧
      (whenPosted reading (2^63-1)).instant-reading.instant = (2^63-1)*(1000*1000)) ∧
    StartsAt (timer (whenPosted reading 9223372036854776)) reading ∧
      (whenPosted reading 9223372036854776).instant-reading.instant =
        9223372036854776*(1000*1000) := by
  refine ⟨⟨startsAt_iff.mpr ?_,?_⟩,startsAt_iff.mpr ?_,?_⟩ <;> decide

end MessageLoop
end FreshPlayer
