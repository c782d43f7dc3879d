import FreshPlayer.Transition
import Mathlib.Algebra.Order.Ring.Int

/-! Asynchronous network operations. A request makes a task, which its thread takes up to
a DNS request or a registered event; from there the network thread goes on with it, one
callback at a time. Each step is one section of a task. -/
namespace FreshPlayer
namespace AsyncNetwork

inductive Errno
  | eacces | eperm | eaddrinuse | econnrefused | enetunreach | etimedout | enotconn | econnreset
  | eagain | ebadf | einprogress | other
  deriving DecidableEq, Repr

def ppOk : ℤ := 0
def ppOkCompletionpending : ℤ := -1
def ppErrorFailed : ℤ := -2
def ppErrorAborted : ℤ := -3
def ppErrorBadargument : ℤ := -4
def ppErrorBadresource : ℤ := -5
def ppErrorNoaccess : ℤ := -7
def ppErrorConnectionClosed : ℤ := -100
def ppErrorConnectionReset : ℤ := -101
def ppErrorConnectionRefused : ℤ := -102
def ppErrorConnectionTimedout : ℤ := -105
def ppErrorAddressUnreachable : ℤ := -107
def ppErrorAddressInUse : ℤ := -108
def ppErrorNameNotResolved : ℤ := -110

def getPpErrno : Errno → ℤ
  | .eacces | .eperm => ppErrorNoaccess
  | .eaddrinuse => ppErrorAddressInUse
  | .econnrefused => ppErrorConnectionRefused
  | .enetunreach => ppErrorAddressUnreachable
  | .etimedout => ppErrorConnectionTimedout
  | .enotconn => ppErrorConnectionClosed
  | .econnreset => ppErrorConnectionReset
  | .eagain | .ebadf | .einprogress | .other => ppErrorFailed

inductive TaskType
  | tcpConnect | tcpConnectWithNetaddress | tcpRead | tcpWrite | udpRecv | udpSend | disconnect
  | hostResolve
  deriving DecidableEq, Repr

inductive ResourceType
  | tcpSocket | udpSocket | hostResolver
  deriving DecidableEq, Repr

structure Resource where
  resourceType : ResourceType
  refCnt : ℕ
  sock : ℤ
  isConnected : Bool
  seenEof : Bool
  destroyed : Bool
  bound : Bool
  deriving DecidableEq, Repr

inductive AddrType
  | ipv4A | ipv6Aaaa | other
  deriving DecidableEq, Repr

/-- The arguments evdns calls back with; `ok` stands for `DNS_ERR_NONE`. -/
structure DnsResult where
  ok : Bool
  type : AddrType
  count : ℕ
  deriving DecidableEq, Repr

inductive DnsCallback
  | handleTcpConnectStage2 | handleHostResolveStage2
  deriving DecidableEq, Repr

inductive EventCallback
  | handleTcpConnectStage4 | handleTcpReadStage2 | handleTcpWriteStage2 | handleUdpRecvStage2
  | handleUdpSendStage2 | handleDisconnectStage2
  deriving DecidableEq, Repr

/-- A timer has no descriptor. -/
structure Event where
  fd : Option ℤ
  callback : EventCallback
  deriving DecidableEq, Repr

/-- Where a task is. In `push`, `dnsCall`, `stage3`, `mapping`, `adding` and `eventCall` a
thread has it in hand; `freed` is a task freed while its thread was about to add its event;
`unheard` has an event that could not be added. -/
inductive Pc
  | push
  | dns (callback : DnsCallback)
  | dnsCall (callback : DnsCallback) (result : DnsResult)
  | stage3
  | mapping (ev : Event)
  | adding (ev : Event)
  | freed (ev : Event)
  | waiting (ev : Event)
  | unheard (ev : Event)
  | eventCall (ev : Event) (timeout : Bool)
  deriving DecidableEq, Repr

/-- An accepted request with its callback; `number` is a ghost, the order of acceptance. -/
structure Operation where
  number : ℕ
  callback : ℕ
  callbackMl : ℕ
  deriving DecidableEq, Repr

structure Completion where
  operation : Operation
  result : ℤ
  deriving DecidableEq, Repr

/-- A task, with whether it is in `tasks_ht`, and whether the network thread has it in
hand. `hostIsAddress` tells whether `inet_pton` takes the host, `netaddr` the kind of
address by its size. A disconnect has no operation. -/
structure Task where
  type : TaskType
  operation : Option Operation
  resource : ℕ
  sock : ℤ
  hostIsAddress : Bool
  netaddr : AddrType
  addrPtr : ℕ
  addrType : AddrType
  addrCount : ℕ
  mapped : Bool
  onWorker : Bool
  pc : Pc
  deriving DecidableEq, Repr

inductive Call
  | fcntl | connect | getpeername | send | recv | eventAdd | close
  deriving DecidableEq, Repr

/-- A call of a network task for a resource on a descriptor. -/
structure Syscall where
  call : Call
  resource : ℕ
  fd : ℤ
  deriving DecidableEq, Repr

/-- Ghosts are the operations accepted, and the calls of network tasks, newest first. -/
structure State where
  resources : ℕ → Option Resource
  resTblNext : ℕ
  fds : List ℤ
  tasks : List Task
  accepted : List Operation
  posted : List Completion
  calls : List Syscall

/-- What a call of the system returns. -/
structure Returned where
  ret : ℤ
  errno : Errno
  deriving DecidableEq, Repr

/-- A call on a descriptor that is not open fails. -/
def State.returns (s : State) (fd : ℤ) (r : Returned) : Returned :=
  if fd ∈ s.fds then r else ⟨-1,.ebadf⟩

def State.called (s : State) (call : Call) (t : Task) (fd : ℤ) : State :=
  { s with calls := ⟨call,t.resource,fd⟩::s.calls }

def State.acquire (s : State) (resource : ℕ) (type : ResourceType) : Option Resource :=
  (s.resources resource).filter (·.resourceType = type)

def State.put (s : State) (resource : ℕ) (r : Option Resource) : State :=
  { s with resources := fun k => if k = resource then r else s.resources k }

def State.post (s : State) (t : Task) (result : ℤ) : State :=
  { s with posted := s.posted ++ (t.operation.map (⟨·,result⟩)).toList }

/-- Post the result and destroy the task. -/
def finish (s : State) (t : Task) (result : ℤ) : State × Option Task := (s.post t result,none)

/-- The task goes on in the hands of the same thread. -/
def goOn (s : State) (t : Task) (pc : Pc) : State × Option Task := (s,some { t with pc := pc })

/-- The thread leaves the task to evdns or libevent. -/
def park (s : State) (t : Task) (pc : Pc) : State × Option Task :=
  (s,some { t with pc := pc, onWorker := false })

def addEventMapping (s : State) (t : Task) (ev : Event) : State × Option Task :=
  goOn s { t with mapped := true } (.adding ev)

def eventAdd (s : State) (t : Task) (ev : Event) : State × Option Task :=
  match ev.fd with
  | none => park s t (.waiting ev)
  | some fd =>
    let s := s.called .eventAdd t fd
    if fd ∈ s.fds then park s t (.waiting ev) else park s t (.unheard ev)

/-- `event_add` on the freed event of a freed task. -/
def eventAddFreed (s : State) (t : Task) (ev : Event) : State × Option Task :=
  (ev.fd.elim s (s.called .eventAdd t),none)

def handleTcpConnectStage4 (s : State) (t : Task) (timeout : Bool) (r : Returned) :
    State × Option Task :=
  match s.acquire t.resource .tcpSocket with
  | none => (s,none)
  | some ts =>
    let r := s.returns ts.sock r
    let s := if timeout then s else s.called .getpeername t ts.sock
    let isConnected := !timeout && r.ret = 0
    let s := s.put t.resource (some { ts with isConnected := isConnected })
    if isConnected then finish s t ppOk
    else
      let t := { t with addrPtr := t.addrPtr+1 }
      if t.addrPtr < t.addrCount then goOn s t .stage3 else finish s t (getPpErrno r.errno)

def handleTcpConnectStage3 (s : State) (t : Task) (r : Returned) : State × Option Task :=
  let (s,r) := match t.addrType with
    | .ipv4A | .ipv6Aaaa => (s.called .connect t t.sock,s.returns t.sock r)
    | .other => (s,⟨-1,r.errno⟩)
  if r.ret ≠ 0 ∧ r.errno ≠ .einprogress then finish s t (getPpErrno r.errno)
  else goOn s t (.mapping ⟨some t.sock,.handleTcpConnectStage4⟩)

def handleTcpConnectStage2 (s : State) (t : Task) (result : DnsResult) : State × Option Task :=
  if result.ok = false ∨ result.count < 1 then finish s t ppErrorNameNotResolved
  else
    let s := s.called .fcntl t t.sock
    let t := { t with addrCount := result.count, addrPtr := 0, addrType := result.type }
    match result.type with
    | .ipv4A | .ipv6Aaaa => goOn s t .stage3
    | .other => finish s t ppErrorFailed

/-- A DNS request, which `evdns_base_resolve_ipv4` can refuse. -/
def queueDnsRequest (s : State) (t : Task) (callback : DnsCallback) (r : Returned) :
    State × Option Task :=
  if r.ret = 0 then finish s t ppErrorNameNotResolved else park s t (.dns callback)

def handleTcpConnectStage1 (s : State) (t : Task) (r : Returned) : State × Option Task :=
  if t.hostIsAddress then goOn s t (.dnsCall .handleTcpConnectStage2 ⟨true,.ipv4A,1⟩)
  else queueDnsRequest s t .handleTcpConnectStage2 r

def handleTcpConnectWithNetAddress (s : State) (t : Task) : State × Option Task :=
  match t.netaddr with
  | .ipv4A => goOn s t (.dnsCall .handleTcpConnectStage2 ⟨true,.ipv4A,1⟩)
  | .ipv6Aaaa => goOn s t (.dnsCall .handleTcpConnectStage2 ⟨true,.ipv6Aaaa,1⟩)
  | .other => finish s t ppErrorNameNotResolved

/-- An event on the descriptor of the resource; the task is destroyed without it. -/
def newSocketEvent (s : State) (t : Task) (type : ResourceType) (callback : EventCallback) :
    State × Option Task :=
  match s.acquire t.resource type with
  | none => (s,none)
  | some rs => goOn s t (.mapping ⟨some rs.sock,callback⟩)

def handleTcpReadStage1 (s : State) (t : Task) : State × Option Task :=
  newSocketEvent s t .tcpSocket .handleTcpReadStage2

def handleTcpWriteStage1 (s : State) (t : Task) : State × Option Task :=
  newSocketEvent s t .tcpSocket .handleTcpWriteStage2

def handleUdpRecvStage1 (s : State) (t : Task) : State × Option Task :=
  newSocketEvent s t .udpSocket .handleUdpRecvStage2

def handleDisconnectStage1 (s : State) (t : Task) : State × Option Task :=
  goOn s t (.mapping ⟨none,.handleDisconnectStage2⟩)

def handleUdpSendStage1 (s : State) (t : Task) (r : Returned) : State × Option Task :=
  match s.acquire t.resource .udpSocket with
  | none => (s,none)
  | some us =>
    let r := s.returns us.sock r
    let s := s.called .send t us.sock
    if 0 ≤ r.ret then finish s t r.ret
    else goOn s t (.mapping ⟨some us.sock,.handleUdpSendStage2⟩)

/-- The bytes a transfer moved, or its error. -/
def Returned.transferred (r : Returned) : ℤ := if r.ret < 0 then getPpErrno r.errno else r.ret

/-- A receive of nothing marks the resource. -/
def State.noteEof (s : State) (resource : ℕ) (type : ResourceType) (r : Returned) : State :=
  match s.acquire resource type with
  | some rs => if r.ret = 0 then s.put resource (some { rs with seenEof := true }) else s
  | none => s

def handleTcpReadStage2 (s : State) (t : Task) (sock : ℤ) (r : Returned) : State × Option Task :=
  let r := s.returns sock r
  finish ((s.called .recv t sock).noteEof t.resource .tcpSocket r) t r.transferred

/-- A send when the socket is ready. -/
def sendReady (s : State) (t : Task) (sock : ℤ) (r : Returned) : State × Option Task :=
  finish (s.called .send t sock) t (s.returns sock r).transferred

def handleTcpWriteStage2 := sendReady

def handleUdpSendStage2 := sendReady

def handleUdpRecvStage2 (s : State) (t : Task) (sock : ℤ) (r : Returned) : State × Option Task :=
  match s.acquire t.resource .udpSocket with
  | none => (s,none)
  | some _ =>
    let r := s.returns sock r
    finish ((s.called .recv t sock).noteEof t.resource .udpSocket r) t r.transferred

/-- Whether `handle_disconnect_stage2` aborts the task. -/
def Task.abortedBy (u t : Task) : Bool := u.mapped && u.resource == t.resource

/-- What is left of an aborted task is a thread about to add its event. -/
def Task.leftover (u : Task) : Option Task :=
  match u.pc with
  | .adding ev => some { u with operation := none, mapped := false, pc := .freed ev }
  | _ => none

def State.abort (s : State) (t : Task) : State :=
  let aborted := s.tasks.filter (·.abortedBy t)
  { s with tasks := aborted.filterMap Task.leftover ++ s.tasks.filter fun u => !u.abortedBy t
           posted := s.posted ++ (aborted.filterMap Task.operation).map (⟨·,ppErrorAborted⟩) }

def State.close (s : State) (t : Task) (fd : ℤ) : State :=
  if fd ∈ s.fds then { s.called .close t fd with fds := s.fds.erase fd } else s

def handleDisconnectStage2 (s : State) (t : Task) : State × Option Task :=
  ((s.abort t).close t t.sock,none)

def handleHostResolveStage1 (s : State) (t : Task) (r : Returned) : State × Option Task :=
  queueDnsRequest s t .handleHostResolveStage2 r

def handleHostResolveStage2 (s : State) (t : Task) (result : DnsResult) : State × Option Task :=
  if result.ok = false ∨ result.count < 1 then finish s t ppErrorNameNotResolved
  else match s.acquire t.resource .hostResolver with
    | none => (s,none)
    | some _ => match result.type with
      | .ipv4A | .ipv6Aaaa => finish s t ppOk
      | .other => finish s t ppErrorFailed

def asyncNetworkTaskPush (s : State) (t : Task) (r : Returned) : State × Option Task :=
  match t.type with
  | .tcpConnect => handleTcpConnectStage1 s t r
  | .tcpConnectWithNetaddress => handleTcpConnectWithNetAddress s t
  | .disconnect => handleDisconnectStage1 s t
  | .tcpRead => handleTcpReadStage1 s t
  | .tcpWrite => handleTcpWriteStage1 s t
  | .udpRecv => handleUdpRecvStage1 s t
  | .udpSend => handleUdpSendStage1 s t r
  | .hostResolve => handleHostResolveStage1 s t r

def dnsCall (s : State) (t : Task) (callback : DnsCallback) (result : DnsResult) :
    State × Option Task :=
  match callback with
  | .handleTcpConnectStage2 => handleTcpConnectStage2 s t result
  | .handleHostResolveStage2 => handleHostResolveStage2 s t result

def eventCall (s : State) (t : Task) (ev : Event) (timeout : Bool) (r : Returned) :
    State × Option Task :=
  let sock := ev.fd.getD (-1)
  match ev.callback with
  | .handleTcpConnectStage4 => handleTcpConnectStage4 s t timeout r
  | .handleTcpReadStage2 => handleTcpReadStage2 s t sock r
  | .handleTcpWriteStage2 => handleTcpWriteStage2 s t sock r
  | .handleUdpRecvStage2 => handleUdpRecvStage2 s t sock r
  | .handleUdpSendStage2 => handleUdpSendStage2 s t sock r
  | .handleDisconnectStage2 => handleDisconnectStage2 s t

/-- The next section of a task in the hands of a thread. -/
def runTask (s : State) (t : Task) (r : Returned) : Option (State × Option Task) :=
  match t.pc with
  | .push => some (asyncNetworkTaskPush s t r)
  | .dnsCall callback result => some (dnsCall s t callback result)
  | .stage3 => some (handleTcpConnectStage3 s t r)
  | .mapping ev => some (addEventMapping s t ev)
  | .adding ev => some (eventAdd s t ev)
  | .freed ev => some (eventAddFreed s t ev)
  | .eventCall ev timeout => some (eventCall s t ev timeout r)
  | .dns _ | .waiting _ | .unheard _ => none

/-- The answer to a DNS request, or the event of a task. -/
inductive Occurrence
  | dns (result : DnsResult)
  | event (timeout : Bool)
  deriving DecidableEq, Repr

def Pc.occur : Pc → Occurrence → Option Pc
  | .dns callback, .dns result => some (.dnsCall callback result)
  | .waiting ev, .event timeout => some (.eventCall ev timeout)
  | _, _ => none

def Task.create (type : TaskType) (operation : Option Operation) (resource : ℕ) (sock : ℤ) : Task :=
  ⟨type,operation,resource,sock,false,.other,0,.other,0,false,false,.push⟩

/-- A request is accepted: its task goes to `async_network_task_push`. -/
def State.push (s : State) (t : Task) (callback callbackMl : ℕ) : State × ℤ :=
  let operation := ⟨s.accepted.length,callback,callbackMl⟩
  ({ s with tasks := { t with operation := some operation }::s.tasks
            accepted := operation::s.accepted },ppOkCompletionpending)

def ppbTcpSocketConnect (s : State) (tcpSocket : ℕ) (hostIsAddress : Bool)
    (callback callbackMl : ℕ) : State × ℤ :=
  match s.acquire tcpSocket .tcpSocket with
  | none => (s,ppErrorBadresource)
  | some ts => s.push
      { Task.create .tcpConnect none tcpSocket ts.sock with hostIsAddress := hostIsAddress }
      callback callbackMl

def ppbTcpSocketConnectWithNetAddress (s : State) (tcpSocket : ℕ) (addr : AddrType)
    (callback callbackMl : ℕ) : State × ℤ :=
  match s.acquire tcpSocket .tcpSocket with
  | none => (s,ppErrorBadresource)
  | some ts => s.push
      { Task.create .tcpConnectWithNetaddress none tcpSocket ts.sock with netaddr := addr }
      callback callbackMl

def ppbTcpSocketRead (s : State) (tcpSocket : ℕ) (bytesToRead : ℤ) (callback callbackMl : ℕ) :
    State × ℤ :=
  if bytesToRead ≤ 0 then (s,ppErrorBadargument)
  else match s.acquire tcpSocket .tcpSocket with
    | none => (s,ppErrorBadresource)
    | some ts =>
      if !ts.isConnected then (s,ppErrorFailed)
      else if ts.seenEof then (s,ppErrorFailed)
      else s.push (Task.create .tcpRead none tcpSocket 0) callback callbackMl

def ppbTcpSocketWrite (s : State) (tcpSocket : ℕ) (bytesToWrite : ℤ) (callback callbackMl : ℕ) :
    State × ℤ :=
  if bytesToWrite ≤ 0 then (s,ppErrorBadargument)
  else match s.acquire tcpSocket .tcpSocket with
    | none => (s,ppErrorBadresource)
    | some ts =>
      if !ts.isConnected then (s,ppErrorFailed)
      else s.push (Task.create .tcpWrite none tcpSocket 0) callback callbackMl

def ppbUdpSocketBind (s : State) (udpSocket : ℕ) (callback callbackMl : ℕ) (r : Returned) :
    State × ℤ :=
  match s.acquire udpSocket .udpSocket with
  | none => (s,ppErrorBadresource)
  | some us =>
    if (s.returns us.sock r).ret ≠ 0 then (s,ppErrorFailed)
    else
      let operation := ⟨s.accepted.length,callback,callbackMl⟩
      let s := s.put udpSocket (some { us with bound := true })
      ({ s with accepted := operation::s.accepted, posted := s.posted ++ [⟨operation,ppOk⟩] },
        ppOkCompletionpending)

def ppbUdpSocketRecvFrom (s : State) (udpSocket : ℕ) (callback callbackMl : ℕ) : State × ℤ :=
  match s.acquire udpSocket .udpSocket with
  | none => (s,ppErrorBadresource)
  | some _ => s.push (Task.create .udpRecv none udpSocket 0) callback callbackMl

def ppbUdpSocketSendTo (s : State) (udpSocket : ℕ) (callback callbackMl : ℕ) : State × ℤ :=
  match s.acquire udpSocket .udpSocket with
  | none => (s,ppErrorBadresource)
  | some _ => s.push (Task.create .udpSend none udpSocket 0) callback callbackMl

def ppbHostResolverResolve (s : State) (hostResolver : ℕ) (callback callbackMl : ℕ) : State × ℤ :=
  match s.acquire hostResolver .hostResolver with
  | none => (s,ppErrorBadresource)
  | some _ => s.push (Task.create .hostResolve none hostResolver 0) callback callbackMl

/-- The disconnect task of a socket, made once. -/
def disconnectTask (selfId : ℕ) (rs : Resource) : List Task :=
  if rs.destroyed then [] else [Task.create .disconnect none selfId rs.sock]

def ppbTcpSocketDestroy (s : State) (selfId : ℕ) (ts : Resource) : State × Resource :=
  ({ s with tasks := disconnectTask selfId ts ++ s.tasks },
    if ts.destroyed then ts else { ts with destroyed := true, isConnected := false })

def ppbUdpSocketDestroy (s : State) (selfId : ℕ) (us : Resource) : State × Resource :=
  ({ s with tasks := disconnectTask selfId us ++ s.tasks },{ us with destroyed := true })

def ppbTcpSocketDisconnect (s : State) (tcpSocket : ℕ) : State :=
  match s.acquire tcpSocket .tcpSocket with
  | none => s
  | some ts =>
    let (s,ts) := ppbTcpSocketDestroy s tcpSocket ts
    s.put tcpSocket (some ts)

def ppbUdpSocketClose (s : State) (udpSocket : ℕ) : State :=
  match s.acquire udpSocket .udpSocket with
  | none => s
  | some us =>
    let (s,us) := ppbUdpSocketDestroy s udpSocket us
    s.put udpSocket (some us)

def ppResourceAllocate (s : State) (type : ResourceType) (sock : ℤ) : State :=
  { s.put s.resTblNext (some ⟨type,1,sock,false,false,false,false⟩) with
    resTblNext := s.resTblNext+1 }

/-- A socket resource; `socket` returns a new descriptor, or -1. -/
def createSocket (s : State) (type : ResourceType) (sock : ℤ) : Option State :=
  if sock = -1 then some (ppResourceAllocate s type sock)
  else if 0 ≤ sock ∧ sock ∉ s.fds then
    some (ppResourceAllocate { s with fds := sock::s.fds } type sock)
  else none

def ppResourceRef (s : State) (resource : ℕ) : State :=
  match s.resources resource with
  | none => s
  | some rs => s.put resource (some { rs with refCnt := rs.refCnt+1 })

def ppResourceUnref (s : State) (resource : ℕ) : State :=
  match s.resources resource with
  | none => s
  | some rs =>
    if 1 < rs.refCnt then s.put resource (some { rs with refCnt := rs.refCnt-1 })
    else
      let s := s.put resource none
      match rs.resourceType with
      | .tcpSocket => (ppbTcpSocketDestroy s resource rs).1
      | .udpSocket => (ppbUdpSocketDestroy s resource rs).1
      | .hostResolver => s

inductive Request
  | tcpConnect (hostIsAddress : Bool)
  | tcpConnectWithNetAddress (addr : AddrType)
  | tcpRead (bytesToRead : ℤ)
  | tcpWrite (bytesToWrite : ℤ)
  | udpBind (r : Returned)
  | udpRecvFrom
  | udpSendTo
  | hostResolve
  deriving DecidableEq, Repr

def request (s : State) (resource : ℕ) (callback callbackMl : ℕ) : Request → State × ℤ
  | .tcpConnect hostIsAddress => ppbTcpSocketConnect s resource hostIsAddress callback callbackMl
  | .tcpConnectWithNetAddress addr =>
    ppbTcpSocketConnectWithNetAddress s resource addr callback callbackMl
  | .tcpRead n => ppbTcpSocketRead s resource n callback callbackMl
  | .tcpWrite n => ppbTcpSocketWrite s resource n callback callbackMl
  | .udpBind r => ppbUdpSocketBind s resource callback callbackMl r
  | .udpRecvFrom => ppbUdpSocketRecvFrom s resource callback callbackMl
  | .udpSendTo => ppbUdpSocketSendTo s resource callback callbackMl
  | .hostResolve => ppbHostResolverResolve s resource callback callbackMl

/-- `run` is the next section of a task and `occur` what the network thread is called back
with; they name the task by its place in the list. `openFile` is any other file of the
process. -/
inductive Action
  | createTcpSocket (sock : ℤ)
  | createUdpSocket (sock : ℤ)
  | createHostResolver
  | openFile (fd : ℤ)
  | ref (resource : ℕ)
  | unref (resource : ℕ)
  | request (resource : ℕ) (callback callbackMl : ℕ) (r : Request)
  | tcpDisconnect (resource : ℕ)
  | udpClose (resource : ℕ)
  | run (i : ℕ) (r : Returned)
  | occur (i : ℕ) (o : Occurrence)
  deriving DecidableEq, Repr

def runAt (s : State) (i : ℕ) (r : Returned) : Option State :=
  s.tasks[i]?.bind fun t => (runTask { s with tasks := s.tasks.eraseIdx i } t r).map fun p =>
    { p.1 with tasks := p.2.toList ++ p.1.tasks }

/-- A callback starts on the network thread when it has no task in hand. -/
def occurAt (s : State) (i : ℕ) (o : Occurrence) : Option State :=
  if s.tasks.any (·.onWorker) then none
  else s.tasks[i]?.bind fun t => (t.pc.occur o).map fun pc =>
    { s with tasks := { t with pc := pc, onWorker := true }::s.tasks.eraseIdx i }

def step (s : State) : Action → Option State
  | .createTcpSocket sock => createSocket s .tcpSocket sock
  | .createUdpSocket sock => createSocket s .udpSocket sock
  | .createHostResolver => some (ppResourceAllocate s .hostResolver 0)
  | .openFile fd => if 0 ≤ fd ∧ fd ∉ s.fds then some { s with fds := fd::s.fds } else none
  | .ref resource => some (ppResourceRef s resource)
  | .unref resource => some (ppResourceUnref s resource)
  | .request resource callback callbackMl r => some (request s resource callback callbackMl r).1
  | .tcpDisconnect resource => some (ppbTcpSocketDisconnect s resource)
  | .udpClose resource => some (ppbUdpSocketClose s resource)
  | .run i r => runAt s i r
  | .occur i o => occurAt s i o

def machine : Machine State Action := ⟨⟨fun _ => none,1,[],[],[],[],[]⟩,step⟩

end AsyncNetwork
end FreshPlayer
