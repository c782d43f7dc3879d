import FreshPlayer.AsyncNetworkSections

/-! The connect task of a TCP socket, from the addresses of its host on. Its sections are taken
one by one, and between two of them the rest of the network changes in whatever way, as long
as the socket stays there. -/
namespace FreshPlayer
namespace AsyncNetwork

/-- How an attempt to connect to one address goes. -/
inductive Outcome
  | immediate (e : Errno) (h : e ≠ .einprogress)
  | refused (e : Errno)
  | timeout (e : Errno)
  | connected (atOnce : Bool)

def Outcome.isConnected : Outcome → Bool
  | .connected _ => true
  | _ => false

def Outcome.isImmediate : Outcome → Bool
  | .immediate _ _ => true
  | _ => false

/-- What `connect` returns. -/
def Outcome.connects : Outcome → Returned
  | .immediate e _ => ⟨-1,e⟩
  | .connected true => ⟨0,.other⟩
  | _ => ⟨-1,.einprogress⟩

def Outcome.timesOut : Outcome → Bool
  | .timeout _ => true
  | _ => false

/-- What `getpeername` returns when the socket is ready; after a timeout `errno` is whatever
was there. -/
def Outcome.getpeername : Outcome → Returned
  | .refused e | .timeout e | .immediate e _ => ⟨-1,e⟩
  | .connected _ => ⟨0,.other⟩

/-- The task while it is there, with the addresses attempted and the results posted. -/
structure Connecting where
  task : Option Task
  attempts : List ℕ
  reported : List ℤ

/-- What the calls of the next section return. -/
def Task.connectReturned (pattern : ℕ → Outcome) (t : Task) : Returned :=
  match t.pc with
  | .stage3 => (pattern t.addrPtr).connects
  | _ => (pattern t.addrPtr).getpeername

/-- The next section in a state of the network, or the event the task waits for. -/
def connectSection (pattern : ℕ → Outcome) (s : State) (c : Connecting) : Connecting :=
  match c.task with
  | none => c
  | some t =>
    match t.pc.occur (.event (pattern t.addrPtr).timesOut) with
    | some pc => { c with task := some { t with pc := pc, onWorker := true } }
    | none =>
      match runTask s t (t.connectReturned pattern) with
      | none => c
      | some (s',t') =>
        let calls := s'.calls.take (s'.calls.length-s.calls.length)
        { task := t'
          attempts := c.attempts ++ (calls.filter (·.call = .connect)).map fun _ => t.addrPtr
          reported := c.reported ++ (s'.posted.drop s.posted.length).map Completion.result }

/-- So many sections, from the `k`-th state of the network on. -/
def connectSections (pattern : ℕ → Outcome) (net : ℕ → State) : ℕ → ℕ → Connecting → Connecting
  | _, 0, c => c
  | k, n+1, c => connectSections pattern net (k+1) n (connectSection pattern (net k) c)

/-- The resource of a socket is there, and its descriptor is open. -/
def State.SocketThere (s : State) (resource : ℕ) (sock : ℤ) : Prop :=
  sock ∈ s.fds ∧ ∃ ts, s.acquire resource .tcpSocket = some ts ∧ ts.sock = sock

/-- The task when its addresses have been found. -/
structure Task.Resolved (t : Task) (n : ℕ) : Prop where
  operation : t.operation ≠ none
  pc : ∃ type, type ≠ .other ∧ t.pc = .dnsCall .handleTcpConnectStage2 ⟨true,type,n⟩

/-- The task has one result, which is success if an address is connected; the addresses are
attempted in order, and all of them before an error. -/
structure TriesEvery (pattern : ℕ → Outcome) (n : ℕ) (c : Connecting) : Prop where
  ended : c.task = none
  reported : ∃ result, c.reported = [result] ∧
    (result = ppOk ↔ ∃ i < n, (pattern i).isConnected) ∧
    (result ≠ ppOk → c.attempts = List.range n)
  attempts : ∃ m ≤ n, c.attempts = List.range m

/-- No address but the last fails at once, unless one before it is connected. -/
def ImmediateLast (pattern : ℕ → Outcome) (n : ℕ) : Prop :=
  ∀ i < n, i+1 < n → (pattern i).isImmediate → ∃ j < i, (pattern j).isConnected

instance (pattern : ℕ → Outcome) (n : ℕ) : Decidable (ImmediateLast pattern n) := by
  unfold ImmediateLast
  infer_instance

/-! Sections. -/

variable {pattern : ℕ → Outcome} {net : ℕ → State} {s : State} {t : Task} {i n resource : ℕ}
  {sock : ℤ}

/-- The task is about to attempt an address, none of those before having been connected. -/
structure AtAddress (n i : ℕ) (resource : ℕ) (sock : ℤ) (t : Task) : Prop where
  operation : t.operation ≠ none
  resource : t.resource = resource
  sock : t.sock = sock
  addrPtr : t.addrPtr = i
  addrCount : t.addrCount = n
  addrType : t.addrType ≠ .other

theorem getPpErrno_ne_ok (e : Errno) : getPpErrno e ≠ ppOk := by cases e <;> decide

theorem connectSections_ended (k m : ℕ) {c : Connecting} (h : c.task = none) :
    connectSections pattern net k m c = c := by
  induction m generalizing k with
  | zero => rfl
  | succ m ih =>
    have hsection : connectSection pattern (net k) c = c := by
      unfold connectSection
      rw [h]
    rw [connectSections,hsection,ih]

theorem connectSections_add (k a b : ℕ) (c : Connecting) :
    connectSections pattern net k (a+b) c =
      connectSections pattern net (k+a) b (connectSections pattern net k a c) := by
  induction a generalizing k c with
  | zero => rw [Nat.zero_add]; rfl
  | succ a ih =>
    rw [Nat.succ_add,connectSections,connectSections,ih]
    congr 1
    omega

/-- A section in which the thread has the task in hand. -/
theorem connectSection_run {c : Connecting} {s' : State} {t' : Option Task}
    {calls : List Syscall} {posted : List Completion} (hc : c.task = some t)
    (ho : t.pc.occur (.event (pattern t.addrPtr).timesOut) = none)
    (hr : runTask s t (t.connectReturned pattern) = some (s',t'))
    (hcalls : s'.calls = calls ++ s.calls) (hposted : s'.posted = s.posted ++ posted) :
    connectSection pattern s c =
      ⟨t',c.attempts ++ (calls.filter (·.call = .connect)).map fun _ => t.addrPtr,
        c.reported ++ posted.map Completion.result⟩ := by
  unfold connectSection
  rw [hc]
  dsimp only
  rw [ho]
  dsimp only
  rw [hr]
  dsimp only
  rw [hcalls,hposted,List.length_append,Nat.add_sub_cancel,List.take_left',List.drop_left]
  rfl

theorem returns_open {fd : ℤ} (h : fd ∈ s.fds) (r : Returned) : s.returns fd r = r := if_pos h

theorem Outcome.connects_error {o : Outcome} :
    (o.connects.ret ≠ 0 ∧ o.connects.errno ≠ .einprogress) ↔ o.isImmediate = true := by
  cases o with
  | immediate e h => exact iff_of_true ⟨(by decide : (-1 : ℤ) ≠ 0),h⟩ rfl
  | refused e => exact iff_of_false (fun h => h.2 rfl) nofun
  | timeout e => exact iff_of_false (fun h => h.2 rfl) nofun
  | connected atOnce => cases atOnce <;> exact iff_of_false (by decide) nofun

/-- What tells `handle_tcp_connect_stage4` that the socket is connected. -/
theorem Outcome.isConnected_eq (o : Outcome) :
    (!o.timesOut && decide (o.getpeername.ret = 0)) = o.isConnected := by
  cases o <;> rfl

theorem Outcome.not_connected {o : Outcome} (h : o.isImmediate = true) : o.isConnected = false := by
  cases o with
  | connected atOnce => cases h
  | _ => rfl

theorem connectReturned_stage3 (h : t.pc = .stage3) (hi : t.addrPtr = i) :
    t.connectReturned pattern = (pattern i).connects := by
  rw [Task.connectReturned,h,hi]

theorem connectReturned_event {ev : Event} {timeout : Bool} (h : t.pc = .eventCall ev timeout)
    (hi : t.addrPtr = i) : t.connectReturned pattern = (pattern i).getpeername := by
  rw [Task.connectReturned,h,hi]

/-- An attempt that fails at once ends the task. -/
theorem section_stage3_immediate {c : Connecting} (h : AtAddress n i resource sock t)
    (hs : s.SocketThere resource sock) (hc : c.task = some t) (hpc : t.pc = .stage3)
    (hi : (pattern i).isImmediate = true) : ∃ e, connectSection pattern s c =
      ⟨none,c.attempts ++ [i],c.reported ++ [getPpErrno e]⟩ := by
  obtain ⟨op,hop⟩ := Option.ne_none_iff_exists'.mp h.operation
  refine ⟨(pattern i).connects.errno,?_⟩
  have herror := Outcome.connects_error.mpr hi
  have hr : handleTcpConnectStage3 s t (pattern i).connects =
      finish (s.called .connect t t.sock) t (getPpErrno (pattern i).connects.errno) := by
    unfold handleTcpConnectStage3
    have hret := returns_open (h.sock ▸ hs.1) (pattern i).connects
    cases htype : t.addrType with
    | ipv4A => simp only [hret,if_pos herror]
    | ipv6Aaaa => simp only [hret,if_pos herror]
    | other => exact absurd htype h.addrType
  have hrun : runTask s t (t.connectReturned pattern) =
      some ((s.called .connect t t.sock).post t (getPpErrno (pattern i).connects.errno),none) := by
    rw [connectReturned_stage3 hpc h.addrPtr,runTask,hpc]
    exact congrArg some hr
  have hcalls : ((s.called .connect t t.sock).post t
      (getPpErrno (pattern i).connects.errno)).calls =
      [⟨.connect,t.resource,t.sock⟩] ++ s.calls := rfl
  have hposted : ((s.called .connect t t.sock).post t
      (getPpErrno (pattern i).connects.errno)).posted =
      s.posted ++ [⟨op,getPpErrno (pattern i).connects.errno⟩] := by
    simp [State.post,State.called,hop]
  rw [connectSection_run hc (by rw [hpc]; rfl) hrun hcalls hposted,h.addrPtr]
  rfl

/-- Any other attempt goes on to wait. -/
theorem section_stage3 {c : Connecting} (h : AtAddress n i resource sock t)
    (hs : s.SocketThere resource sock) (hc : c.task = some t) (hpc : t.pc = .stage3)
    (hi : (pattern i).isImmediate = false) : connectSection pattern s c =
      ⟨some { t with pc := .mapping ⟨some t.sock,.handleTcpConnectStage4⟩ },c.attempts ++ [i],
        c.reported⟩ := by
  have herror : ¬((pattern i).connects.ret ≠ 0 ∧ (pattern i).connects.errno ≠ .einprogress) := by
    rw [Outcome.connects_error,hi]
    nofun
  have hr : handleTcpConnectStage3 s t (pattern i).connects =
      goOn (s.called .connect t t.sock) t (.mapping ⟨some t.sock,.handleTcpConnectStage4⟩) := by
    unfold handleTcpConnectStage3
    have hret := returns_open (h.sock ▸ hs.1) (pattern i).connects
    cases htype : t.addrType with
    | ipv4A => simp only [hret,if_neg herror]
    | ipv6Aaaa => simp only [hret,if_neg herror]
    | other => exact absurd htype h.addrType
  have hrun : runTask s t (t.connectReturned pattern) = some (s.called .connect t t.sock,
      some { t with pc := .mapping ⟨some t.sock,.handleTcpConnectStage4⟩ }) := by
    rw [connectReturned_stage3 hpc h.addrPtr,runTask,hpc]
    exact congrArg some hr
  have hcalls : (s.called .connect t t.sock).calls =
      [⟨.connect,t.resource,t.sock⟩] ++ s.calls := rfl
  have hposted : (s.called .connect t t.sock).posted = s.posted ++ [] := (List.append_nil _).symm
  rw [connectSection_run hc (by rw [hpc]; rfl) hrun hcalls hposted,h.addrPtr]
  simp

/-- The event is mapped and added, and comes. -/
theorem sections_event {c : Connecting} (k : ℕ) (hs : ∀ k, (net k).SocketThere resource sock)
    (hc : c.task = some t) (hpc : t.pc = .mapping ⟨some sock,.handleTcpConnectStage4⟩) :
    connectSections pattern net k 3 c = { c with task := some { t with
      mapped := true, onWorker := true
      pc := .eventCall ⟨some sock,.handleTcpConnectStage4⟩ (pattern t.addrPtr).timesOut } } := by
  let ev : Event := ⟨some sock,.handleTcpConnectStage4⟩
  let adding : Task := { t with mapped := true, pc := .adding ev }
  let waiting : Task := { adding with pc := .waiting ev, onWorker := false }
  have hmap : connectSection pattern (net k) c = { c with task := some adding } := by
    have hrun : runTask (net k) t (t.connectReturned pattern) = some (net k,some adding) := by
      rw [runTask,hpc]
      rfl
    rw [connectSection_run hc (by rw [hpc]; rfl) hrun (List.nil_append _).symm
      (List.append_nil _).symm]
    simp
  have hadd : connectSection pattern (net (k+1)) { c with task := some adding } =
      { c with task := some waiting } := by
    have hopen : sock ∈ ((net (k+1)).called .eventAdd adding sock).fds := (hs (k+1)).1
    have hrun : runTask (net (k+1)) adding (adding.connectReturned pattern) =
        some ((net (k+1)).called .eventAdd adding sock,some waiting) := by
      refine congrArg some ?_
      simp only [adding,ev,eventAdd]
      rw [if_pos hopen]
      rfl
    have hcalls : ((net (k+1)).called .eventAdd adding sock).calls =
        [⟨.eventAdd,t.resource,sock⟩] ++ (net (k+1)).calls := rfl
    have hposted : ((net (k+1)).called .eventAdd adding sock).posted =
        (net (k+1)).posted ++ [] := (List.append_nil _).symm
    rw [connectSection_run rfl rfl hrun hcalls hposted]
    simp
  simp only [connectSections]
  rw [hmap,hadd]
  rfl

/-- A socket that is connected is the success of the task. -/
theorem section_stage4_connected {c : Connecting} {ev : Event}
    (h : AtAddress n i resource sock t) (hs : s.SocketThere resource sock) (hc : c.task = some t)
    (hev : ev.callback = .handleTcpConnectStage4)
    (hpc : t.pc = .eventCall ev (pattern i).timesOut) (hi : (pattern i).isConnected = true) :
    connectSection pattern s c = ⟨none,c.attempts,c.reported ++ [ppOk]⟩ := by
  obtain ⟨op,hop⟩ := Option.ne_none_iff_exists'.mp h.operation
  obtain ⟨ts,hts,hsock⟩ := hs.2
  have hret : s.returns ts.sock (pattern i).getpeername = (pattern i).getpeername :=
    returns_open (hsock ▸ hs.1) _
  let marked := (s.called .getpeername t ts.sock).put t.resource
    (some { ts with isConnected := true })
  have hrun : runTask s t (t.connectReturned pattern) = some (marked.post t ppOk,none) := by
    rw [connectReturned_event hpc h.addrPtr,runTask,hpc]
    have hintime : (pattern i).timesOut = false := by
      cases hpi : pattern i with
      | timeout e => rw [hpi] at hi; cases hi
      | _ => rfl
    simp only [eventCall,hev,handleTcpConnectStage4,h.resource,hts,hret]
    rw [Outcome.isConnected_eq,hi,hintime]
    simp [finish,marked,h.resource]
  have hcalls : (marked.post t ppOk).calls = [⟨.getpeername,t.resource,ts.sock⟩] ++ s.calls := rfl
  have hposted : (marked.post t ppOk).posted = s.posted ++ [⟨op,ppOk⟩] := by
    simp [marked,State.post,State.put,State.called,hop]
  rw [connectSection_run hc (by rw [hpc]; rfl) hrun hcalls hposted]
  simp

/-- A later failure leaves the next address, or the error. -/
theorem section_stage4_failed {c : Connecting} {ev : Event}
    (h : AtAddress n i resource sock t) (hs : s.SocketThere resource sock) (hc : c.task = some t)
    (hev : ev.callback = .handleTcpConnectStage4)
    (hpc : t.pc = .eventCall ev (pattern i).timesOut) (hi : (pattern i).isConnected = false) :
    connectSection pattern s c =
      if i+1 < n then ⟨some { t with addrPtr := i+1, pc := .stage3 },c.attempts,c.reported⟩
      else ⟨none,c.attempts,c.reported ++ [getPpErrno (pattern i).getpeername.errno]⟩ := by
  obtain ⟨op,hop⟩ := Option.ne_none_iff_exists'.mp h.operation
  obtain ⟨ts,hts,hsock⟩ := hs.2
  have hret : s.returns ts.sock (pattern i).getpeername = (pattern i).getpeername :=
    returns_open (hsock ▸ hs.1) _
  let called := if (pattern i).timesOut then s else s.called .getpeername t ts.sock
  let marked := called.put t.resource (some { ts with isConnected := false })
  let new : List Syscall :=
    if (pattern i).timesOut then [] else [⟨.getpeername,t.resource,ts.sock⟩]
  have hcalls : marked.calls = new ++ s.calls := by
    simp only [marked,called,new,State.put]
    split <;> rfl
  have hposted : marked.posted = s.posted := by
    simp only [marked,called,State.put]
    split <;> rfl
  have hnew : (new.filter (·.call = .connect)) = [] := by
    simp only [new]
    split <;> rfl
  have hrun : runTask s t (t.connectReturned pattern) = some
      (if i+1 < n then (marked,some { t with addrPtr := i+1, pc := .stage3 })
        else (marked.post t (getPpErrno (pattern i).getpeername.errno),none)) := by
    rw [connectReturned_event hpc h.addrPtr,runTask,hpc]
    refine congrArg some ?_
    simp only [eventCall,hev,handleTcpConnectStage4,h.resource,hts,hret]
    rw [Outcome.isConnected_eq,hi]
    simp only [Bool.false_eq_true,if_false,h.addrPtr,h.addrCount]
    split <;> simp [goOn,finish,marked,called,h.resource,State.post]
  by_cases hn : i+1 < n
  · rw [if_pos hn] at hrun ⊢
    rw [connectSection_run hc (by rw [hpc]; rfl) hrun hcalls
      (hposted.trans (List.append_nil _).symm),hnew]
    simp
  · rw [if_neg hn] at hrun ⊢
    have hpost : (marked.post t (getPpErrno (pattern i).getpeername.errno)).posted =
        s.posted ++ [⟨op,getPpErrno (pattern i).getpeername.errno⟩] := by
      simp [State.post,hop,hposted]
    rw [connectSection_run hc (by rw [hpc]; rfl) hrun hcalls hpost,hnew]
    simp

/-! Addresses. -/

/-- The event of an attempt, with the task as it finds it. -/
theorem sections_wait {c : Connecting} (k : ℕ) (h : AtAddress n i resource sock t)
    (hs : ∀ k, (net k).SocketThere resource sock) (hc : c.task = some t) (hpc : t.pc = .stage3)
    (hi : (pattern i).isImmediate = false) :
    ∃ t', AtAddress n i resource sock t' ∧
      t'.pc = .eventCall ⟨some sock,.handleTcpConnectStage4⟩ (pattern i).timesOut ∧
      connectSections pattern net k 4 c = ⟨some t',c.attempts ++ [i],c.reported⟩ := by
  obtain ⟨hop,hresource,rfl,rfl,hcount,htype⟩ := h
  have hfirst := section_stage3 ⟨hop,hresource,rfl,rfl,hcount,htype⟩ (hs k) hc hpc hi
  let mapping : Task := { t with pc := .mapping ⟨some t.sock,.handleTcpConnectStage4⟩ }
  have hevent : connectSections pattern net (k+1) 3
      ⟨some mapping,c.attempts ++ [t.addrPtr],c.reported⟩ = _ := sections_event (k+1) hs rfl rfl
  refine ⟨{ t with
      mapped := true, onWorker := true
      pc := .eventCall ⟨some t.sock,.handleTcpConnectStage4⟩ (pattern t.addrPtr).timesOut },
    ⟨hop,hresource,rfl,rfl,hcount,htype⟩,rfl,?_⟩
  rw [connectSections,hfirst]
  exact hevent

/-- Five sections deal with an address. -/
theorem sections_address {c : Connecting} (k : ℕ) (h : AtAddress n i resource sock t)
    (hs : ∀ k, (net k).SocketThere resource sock) (hc : c.task = some t) (hpc : t.pc = .stage3) :
    (∃ result, connectSections pattern net k 5 c =
        ⟨none,c.attempts ++ [i],c.reported ++ [result]⟩ ∧
      (result = ppOk ↔ (pattern i).isConnected = true) ∧
      (i+1 < n → (pattern i).isConnected = true ∨ (pattern i).isImmediate = true)) ∨
    (∃ t', AtAddress n (i+1) resource sock t' ∧ t'.pc = .stage3 ∧ i+1 < n ∧
      (pattern i).isConnected = false ∧ (pattern i).isImmediate = false ∧
      connectSections pattern net k 5 c = ⟨some t',c.attempts ++ [i],c.reported⟩) := by
  cases himm : (pattern i).isImmediate with
  | true =>
    obtain ⟨e,he⟩ := section_stage3_immediate h (hs k) hc hpc himm
    refine Or.inl ⟨getPpErrno e,?_,?_,fun _ => Or.inr rfl⟩
    · rw [connectSections,he,connectSections_ended _ _ rfl]
    · refine iff_of_false (getPpErrno_ne_ok e) ?_
      rw [Outcome.not_connected himm]
      nofun
  | false =>
    obtain ⟨t',hat,hpc',hwait⟩ := sections_wait k h hs hc hpc himm
    have hfive : connectSections pattern net k 5 c =
        connectSection pattern (net (k+4)) ⟨some t',c.attempts ++ [i],c.reported⟩ := by
      rw [show 5 = 4+1 from rfl,connectSections_add,hwait]
      rfl
    rw [hfive]
    cases hconn : (pattern i).isConnected with
    | true =>
      have hend := section_stage4_connected (c := ⟨some t',c.attempts ++ [i],c.reported⟩) hat
        (hs (k+4)) rfl rfl hpc' hconn
      exact Or.inl ⟨ppOk,hend,iff_of_true rfl rfl,fun _ => Or.inl rfl⟩
    | false =>
      have hend := section_stage4_failed (c := ⟨some t',c.attempts ++ [i],c.reported⟩) hat
        (hs (k+4)) rfl rfl hpc' hconn
      by_cases hn : i+1 < n
      · rw [if_pos hn] at hend
        refine Or.inr ⟨_,?_,rfl,hn,rfl,rfl,hend⟩
        exact ⟨hat.operation,hat.resource,hat.sock,rfl,hat.addrCount,hat.addrType⟩
      · rw [if_neg hn] at hend
        exact Or.inl ⟨_,hend,iff_of_false (getPpErrno_ne_ok _) nofun,fun hlt => absurd hlt hn⟩

/-- None of the first addresses is connected or fails at once. -/
def FailedBefore (pattern : ℕ → Outcome) (i : ℕ) : Prop :=
  ∀ j < i, (pattern j).isConnected = false ∧ (pattern j).isImmediate = false

theorem FailedBefore.succ (h : FailedBefore pattern i) (hc : (pattern i).isConnected = false)
    (hi : (pattern i).isImmediate = false) : FailedBefore pattern (i+1) := by
  intro j hj
  by_cases he : j = i
  · exact he ▸ ⟨hc,hi⟩
  · exact h j (by omega)

theorem FailedBefore.connected_le (h : FailedBefore pattern i) {j : ℕ}
    (hj : (pattern j).isConnected = true) : i ≤ j := by
  by_contra hlt
  rw [(h j (by omega)).1] at hj
  cases hj

theorem FailedBefore.immediate_le (h : FailedBefore pattern i) {j : ℕ}
    (hj : (pattern j).isImmediate = true) : i ≤ j := by
  by_contra hlt
  rw [(h j (by omega)).2] at hj
  cases hj

/-- A task that ends at an address, those before having failed later. -/
theorem tries_every_ended {result : ℤ} (hi : i < n) (hfailed : FailedBefore pattern i)
    (hok : result = ppOk ↔ (pattern i).isConnected = true)
    (hlast : i+1 < n → (pattern i).isConnected = true ∨ (pattern i).isImmediate = true) :
    TriesEvery pattern n ⟨none,List.range (i+1),[result]⟩ ↔ ImmediateLast pattern n := by
  constructor
  · intro ht j hj hjn hji
    by_contra hnone
    have hij : i ≤ j := hfailed.immediate_le hji
    have hne : result ≠ ppOk := fun he => by
      have hconn := hok.mp he
      by_cases hlt : i < j
      · exact hnone ⟨i,hlt,hconn⟩
      · have hle : i = j := by omega
        rw [hle,Outcome.not_connected hji] at hconn
        cases hconn
    obtain ⟨result',he,_,hall⟩ := ht.reported
    cases he
    have hlen : (List.range (i+1)).length = (List.range n).length := congrArg _ (hall hne)
    rw [List.length_range,List.length_range] at hlen
    omega
  · intro hcond
    -- it stops short of the last address only when this one is connected
    have hstop : i+1 < n → (pattern i).isConnected = true := fun hlt => by
      rcases hlast hlt with hconn | himm
      · exact hconn
      · obtain ⟨j,hj,hconn⟩ := hcond i hi hlt himm
        exact absurd (hfailed.connected_le hconn) (by omega)
    refine ⟨rfl,⟨result,rfl,?_,fun hne => ?_⟩,i+1,by omega,rfl⟩
    · rw [hok]
      refine ⟨fun hconn => ⟨i,hi,hconn⟩,fun ⟨j,hj,hconn⟩ => ?_⟩
      by_cases hlt : i+1 < n
      · exact hstop hlt
      · have hle : i ≤ j := hfailed.connected_le hconn
        have he : j = i := by omega
        exact he ▸ hconn
    · have hall : i+1 = n := by
        by_contra hlt
        exact hne (hok.mpr (hstop (by omega)))
      exact congrArg List.range hall

/-- From an address on. -/
theorem sections_addresses {c : Connecting} {m : ℕ} (k : ℕ) (h : AtAddress n i resource sock t)
    (hs : ∀ k, (net k).SocketThere resource sock) (hc : c.task = some t) (hpc : t.pc = .stage3)
    (hi : i < n) (hfailed : FailedBefore pattern i)
    (ha : c.attempts = List.range i) (hr : c.reported = []) (hm : 5*(n-i) ≤ m) :
    TriesEvery pattern n (connectSections pattern net k m c) ↔ ImmediateLast pattern n := by
  induction hleft : n-i generalizing i k m c t with
  | zero => omega
  | succ left ih =>
    obtain ⟨m',rfl⟩ : ∃ m', m = 5+m' := ⟨m-5,by omega⟩
    rw [connectSections_add]
    rcases sections_address k h hs hc hpc with
      ⟨result,hend,hok,hlast⟩ | ⟨t',hat,hpc',hn,hconn,himm,hnext⟩
    · rw [hend,connectSections_ended _ _ rfl,ha,hr,← List.range_succ]
      exact tries_every_ended hi hfailed hok hlast
    · rw [hnext]
      have ha' : c.attempts ++ [i] = List.range (i+1) := by rw [List.range_succ,ha]
      exact ih (k+5) hat rfl hpc' hn (hfailed.succ hconn himm) ha' hr (by omega) (by omega)

/-- The connect task of a socket that stays there has a result in the end; it tries the
addresses as it should exactly if none but the last fails at once, unless one before it is
connected. -/
theorem connect_tries_every_iff (hn : 0 < n) (ht : t.Resolved n)
    (hs : ∀ k, (net k).SocketThere t.resource t.sock) {m : ℕ} (hm : 5*n+1 ≤ m) :
    TriesEvery pattern n (connectSections pattern net 0 m ⟨some t,[],[]⟩) ↔
      ImmediateLast pattern n := by
  obtain ⟨type,htype,hpc⟩ := ht.pc
  obtain ⟨m',rfl⟩ : ∃ m', m = m'+1 := ⟨m-1,by omega⟩
  let resolved : Task := { t with addrCount := n, addrPtr := 0, addrType := type, pc := .stage3 }
  have hrun : runTask (net 0) t (t.connectReturned pattern) =
      some ((net 0).called .fcntl t t.sock,some resolved) := by
    rw [runTask,hpc]
    refine congrArg some ?_
    have hfound : ¬((⟨true,type,n⟩ : DnsResult).ok = false ∨ n < 1) := by
      rintro (hfalse | hlt)
      · cases hfalse
      · omega
    simp only [dnsCall,handleTcpConnectStage2]
    rw [if_neg hfound]
    cases type with
    | ipv4A => rfl
    | ipv6Aaaa => rfl
    | other => exact absurd rfl htype
  have hcalls : ((net 0).called .fcntl t t.sock).calls =
      [⟨.fcntl,t.resource,t.sock⟩] ++ (net 0).calls := rfl
  have hposted : ((net 0).called .fcntl t t.sock).posted = (net 0).posted ++ [] :=
    (List.append_nil _).symm
  have hstart : connectSection pattern (net 0) ⟨some t,[],[]⟩ = ⟨some resolved,[],[]⟩ := by
    rw [connectSection_run rfl (by rw [hpc]; rfl) hrun hcalls hposted]
    rfl
  rw [connectSections,hstart]
  have hat : AtAddress n 0 t.resource t.sock resolved := ⟨ht.operation,rfl,rfl,rfl,rfl,htype⟩
  have hnone : FailedBefore pattern 0 := fun j hj => absurd hj (Nat.not_lt_zero j)
  have hleft : 5*(n-0) ≤ m' := by omega
  exact sections_addresses 1 hat hs rfl rfl hn hnone rfl rfl hleft

def connecting : Task :=
  { type := .tcpConnect, operation := some ⟨0,7,0⟩, resource := 1, sock := 5
    hostIsAddress := false, netaddr := .other, addrPtr := 0, addrType := .other, addrCount := 0
    mapped := false, onWorker := true
    pc := .dnsCall .handleTcpConnectStage2 ⟨true,.ipv4A,2⟩ }

/-- Its socket stays there. -/
def opened : State :=
  { resources := Function.update (fun _ => none) 1 (some
      { resourceType := .tcpSocket, refCnt := 1, sock := 5, isConnected := false
        seenEof := false, destroyed := false, bound := false })
    resTblNext := 2, fds := [5], tasks := [], accepted := [⟨0,7,0⟩], posted := [], calls := [] }

theorem opened_there : opened.SocketThere 1 5 := ⟨by decide,_,rfl,rfl⟩

theorem connecting_resolved : connecting.Resolved 2 := ⟨by decide,.ipv4A,by decide,rfl⟩

/-- The first address is refused later, the second is connected. -/
def refusedFirst (i : ℕ) : Outcome := if i = 0 then .refused .econnrefused else .connected false

theorem refusedFirst_tried :
    TriesEvery refusedFirst 2 (connectSections refusedFirst (fun _ => opened) 0 11
      ⟨some connecting,[],[]⟩) :=
  (connect_tries_every_iff (by decide) connecting_resolved (fun _ => opened_there)
    (by decide)).mpr (by decide)

/-- The first address is refused at once, the second would be connected. -/
def refusedAtOnce (i : ℕ) : Outcome :=
  if i = 0 then .immediate .econnrefused (by decide) else .connected false

/-- The second is never tried. -/
theorem refusedAtOnce_untried :
    ¬∀ (pattern : ℕ → Outcome) (net : ℕ → State) (t : Task) (n : ℕ), 0 < n → t.Resolved n →
      (∀ k, (net k).SocketThere t.resource t.sock) →
      ∃ m, TriesEvery pattern n (connectSections pattern net 0 m ⟨some t,[],[]⟩) := by
  intro hall
  obtain ⟨m,ht⟩ := hall refusedAtOnce (fun _ => opened) connecting 2 (by decide)
    connecting_resolved fun _ => opened_there
  have hend : connectSections refusedAtOnce (fun _ => opened) 0 2 ⟨some connecting,[],[]⟩ =
      ⟨none,[0],[ppErrorConnectionRefused]⟩ := rfl
  have hthree : connectSections refusedAtOnce (fun _ => opened) 0 (m+2)
      ⟨some connecting,[],[]⟩ = ⟨none,[0],[ppErrorConnectionRefused]⟩ := by
    rw [Nat.add_comm,connectSections_add,hend,connectSections_ended _ _ rfl]
  rw [connectSections_add,connectSections_ended _ _ ht.ended] at hthree
  rw [hthree] at ht
  obtain ⟨result,hr,_,hrange⟩ := ht.reported
  cases hr
  exact absurd (hrange (by decide)) (by decide)

end AsyncNetwork
end FreshPlayer
