import Mathlib.Data.List.Basic
import Mathlib.Data.Nat.Notation
import Mathlib.Tactic.Common
import Mathlib.Tactic.Ring

/-! Network addresses, which are compared as the bytes of a socket address. Ports and scopes
are in network order, families in the order of the host, which is little endian here. -/
namespace FreshPlayer
namespace NetAddress

/-! Numbers in network order. -/

def bigEndian : ℕ → ℕ → List UInt8
  | 0, _ => []
  | n+1, v => UInt8.ofNat (v/256^n)::bigEndian n v

def ofBigEndian (l : List UInt8) : ℕ := l.foldl (fun v b => v*256+b.toNat) 0

@[simp] theorem length_bigEndian (n v : ℕ) : (bigEndian n v).length = n := by
  induction n with
  | zero => rfl
  | succ n ih => rw [bigEndian,List.length_cons,ih]

theorem foldl_bigEndian (n v a : ℕ) :
    (bigEndian n v).foldl (fun v b => v*256+b.toNat) a = a*256^n + v % 256^n := by
  induction n generalizing a with
  | zero => simp [bigEndian,Nat.mod_one]
  | succ n ih =>
    rw [bigEndian,List.foldl_cons,ih,Nat.pow_succ,Nat.mod_mul,UInt8.toNat_ofNat']
    ring

theorem ofBigEndian_bigEndian (n v : ℕ) : ofBigEndian (bigEndian n v) = v % 256^n := by
  rw [ofBigEndian,foldl_bigEndian,Nat.zero_mul,Nat.zero_add]

theorem bigEndian_inj {n v w : ℕ} (hv : v < 256^n) (hw : w < 256^n) :
    bigEndian n v = bigEndian n w ↔ v = w := by
  refine ⟨fun h => ?_,congrArg _⟩
  have heq := congrArg ofBigEndian h
  rwa [ofBigEndian_bigEndian,ofBigEndian_bigEndian,Nat.mod_eq_of_lt hv,Nat.mod_eq_of_lt hw] at heq

/-! Addresses. -/

def afInet : ℕ := 2
def afInet6 : ℕ := 10

/-- `struct sockaddr_in`, with the family and the port it is given. -/
def sockaddrIn (sinFamily : ℕ) (sinPort : UInt16) (sinAddr : Vector UInt8 4) : List UInt8 :=
  [UInt8.ofNat sinFamily,0] ++ (bigEndian 2 sinPort.toNat ++ (sinAddr.toList ++
    List.replicate 8 0))

/-- `struct sockaddr_in6`. No producer sets its flow information. -/
def sockaddrIn6 (sin6Family : ℕ) (sin6Port : UInt16) (sin6Addr : Vector UInt8 16)
    (sin6ScopeId : UInt32) : List UInt8 :=
  [UInt8.ofNat sin6Family,0] ++ (bigEndian 2 sin6Port.toNat ++ (List.replicate 4 0 ++
    (sin6Addr.toList ++ bigEndian 4 sin6ScopeId.toNat)))

def sizeofSockaddrIn : ℕ := 16
def sizeofSockaddrIn6 : ℕ := 28

/-- `struct PP_NetAddress_Private`. -/
structure Address where
  size : ℕ
  data : List UInt8
  length_data : data.length = 128

@[simp] theorem length_sockaddrIn (f : ℕ) (p : UInt16) (ip : Vector UInt8 4) :
    (sockaddrIn f p ip).length = sizeofSockaddrIn := by
  simp [sockaddrIn,sizeofSockaddrIn]

@[simp] theorem length_sockaddrIn6 (f : ℕ) (p : UInt16) (ip : Vector UInt8 16) (scope : UInt32) :
    (sockaddrIn6 f p ip scope).length = sizeofSockaddrIn6 := by
  simp [sockaddrIn6,sizeofSockaddrIn6]

/-- `memcpy` of a socket address over the data of an address. -/
def Address.store (a : Address) (sockaddr : List UInt8) (h : sockaddr.length ≤ 128) : Address :=
  ⟨sockaddr.length,sockaddr ++ a.data.drop sockaddr.length,by
    rw [List.length_append,List.length_drop,a.length_data]
    omega⟩

/-- Memory set to zero. -/
def zeroed : Address := ⟨0,List.replicate 128 0,List.length_replicate⟩

def createFromIpv4Address (ip : Vector UInt8 4) (port : UInt16) : Address :=
  zeroed.store (sockaddrIn 0 port ip) (by rw [length_sockaddrIn]; decide)

def createFromIpv6Address (ip : Vector UInt8 16) (scopeId : UInt32) (port : UInt16) : Address :=
  zeroed.store (sockaddrIn6 0 port ip scopeId) (by rw [length_sockaddrIn6]; decide)

/-- The rest of the data stays as it is. -/
def getAnyAddress (isIpv6 : Bool) (addr : Address) : Address :=
  if isIpv6 then
    addr.store (sockaddrIn6 0 0 (Vector.replicate 16 0) 0) (by rw [length_sockaddrIn6]; decide)
  else addr.store (sockaddrIn 0 0 (Vector.replicate 4 0)) (by rw [length_sockaddrIn]; decide)

/-- The addresses of an answer to a query, by its type. -/
inductive Answer
  | ipv4 (addresses : List (Vector UInt8 4))
  | ipv6 (addresses : List (Vector UInt8 16))

/-- What the host resolver makes of an answer. -/
def handleHostResolveStage2 (port : UInt16) : Answer → List Address
  | .ipv4 addresses => addresses.map fun ip =>
    zeroed.store (sockaddrIn afInet port ip) (by rw [length_sockaddrIn]; decide)
  | .ipv6 addresses => addresses.map fun ip =>
    zeroed.store (sockaddrIn6 afInet6 port ip 0) (by rw [length_sockaddrIn6]; decide)

/-- The port is at the same place in both kinds of socket address. -/
def Address.setPort (a : Address) (port : UInt16) : Address :=
  { a with
    data := a.data.take 2 ++ (bigEndian 2 port.toNat ++ a.data.drop 4)
    length_data := by simp [a.length_data] }

def replacePort (srcAddr : Address) (port : UInt16) : Bool × Address :=
  if srcAddr.size = sizeofSockaddrIn then (true,srcAddr.setPort port)
  else if srcAddr.size = sizeofSockaddrIn6 then (true,srcAddr.setPort port)
  else (false,srcAddr)

def areEqual (addr1 addr2 : Address) : Bool :=
  addr1.size = addr2.size && addr1.data.take addr1.size = addr2.data.take addr1.size

def slice (a : Address) (offset length : ℕ) : List UInt8 := (a.data.drop offset).take length

def areHostsEqual (addr1 addr2 : Address) : Bool :=
  if addr1.size ≠ addr2.size then false
  else if addr1.size = sizeofSockaddrIn then slice addr1 4 4 = slice addr2 4 4
  else if addr1.size = sizeofSockaddrIn6 then slice addr1 8 16 = slice addr2 8 16
  else false

inductive Family
  | ipv4 | ipv6 | unspecified
  deriving DecidableEq, Repr

def getFamily (addr : Address) : Family :=
  if addr.size = sizeofSockaddrIn then .ipv4
  else if addr.size = sizeofSockaddrIn6 then .ipv6
  else .unspecified

def getPort (addr : Address) : ℕ :=
  if addr.size = sizeofSockaddrIn then ofBigEndian (slice addr 2 2)
  else if addr.size = sizeofSockaddrIn6 then ofBigEndian (slice addr 2 2)
  else 0

/-- The bytes of the host, if there is room for them. -/
def getAddress (addr : Address) (addressSize : ℕ) : Option (List UInt8) :=
  if addr.size = sizeofSockaddrIn then
    if 4 ≤ addressSize then some (slice addr 4 4) else none
  else if addr.size = sizeofSockaddrIn6 then
    if 16 ≤ addressSize then some (slice addr 8 16) else none
  else none

def getScopeId (addr : Address) : ℕ :=
  if addr.size = sizeofSockaddrIn6 then ofBigEndian (slice addr 24 4) else 0

/-- The addresses the functions produce, and whether they come from the host resolver. -/
inductive Produced : Bool → Address → Prop
  | ipv4 (ip : Vector UInt8 4) (port : UInt16) : Produced false (createFromIpv4Address ip port)
  | ipv6 (ip : Vector UInt8 16) (scopeId : UInt32) (port : UInt16) :
      Produced false (createFromIpv6Address ip scopeId port)
  | any (isIpv6 : Bool) (addr : Address) : Produced false (getAnyAddress isIpv6 addr)
  | resolved {port : UInt16} {answer : Answer} {a : Address} :
      a ∈ handleHostResolveStage2 port answer → Produced true a
  | replaced {resolved : Bool} {a : Address} (port : UInt16) :
      Produced resolved a → Produced resolved (replacePort a port).2

/-! What an address holds. -/

/-- The family field, which only the resolver sets. -/
def familyField (resolved : Bool) (af : ℕ) : ℕ := if resolved then af else 0

/-- The address of a socket address, whatever is behind it. -/
def Holds (a : Address) (sockaddr : List UInt8) : Prop :=
  a.size = sockaddr.length ∧ ∃ rest, a.data = sockaddr ++ rest

variable {a b : Address} {l m : List UInt8}

theorem holds_store {sockaddr : List UInt8} (h : sockaddr.length ≤ 128) :
    Holds (a.store sockaddr h) sockaddr := ⟨rfl,_,rfl⟩

theorem slice_of_holds (h : Holds a l) {offset length : ℕ} (hle : offset+length ≤ l.length) :
    slice a offset length = (l.drop offset).take length := by
  obtain ⟨_,rest,hdata⟩ := h
  have hdrop : offset ≤ l.length := by omega
  have htake : length ≤ (l.drop offset).length := by
    rw [List.length_drop]
    omega
  rw [slice,hdata,List.drop_append_of_le_length hdrop,List.take_append_of_le_length htake]

/-- Equality of addresses is that of the socket addresses. -/
theorem areEqual_iff (ha : Holds a l) (hb : Holds b m) : areEqual a b = true ↔ l = m := by
  obtain ⟨hsize,rest,hdata⟩ := ha
  obtain ⟨hsize',rest',hdata'⟩ := hb
  unfold areEqual
  rw [Bool.and_eq_true_iff,decide_eq_true_iff,decide_eq_true_iff,hsize,hsize',hdata,hdata']
  constructor
  · rintro ⟨hlen,htake⟩
    rwa [List.take_left,hlen,List.take_left] at htake
  · rintro rfl
    exact ⟨rfl,by rw [List.take_left,List.take_left]⟩

/-- What has the port in its third and fourth bytes still has everything else there. -/
theorem holds_setPort {front tail : List UInt8} {port port' : UInt16} (hfront : front.length = 2)
    (h : Holds a (front ++ (bigEndian 2 port.toNat ++ tail))) :
    Holds (a.setPort port') (front ++ (bigEndian 2 port'.toNat ++ tail)) := by
  obtain ⟨hsize,rest,hdata⟩ := h
  refine ⟨hsize.trans (by simp),rest,?_⟩
  have hfour : (front ++ bigEndian 2 port.toNat).length = 4 := by simp [hfront]
  have hdata' : a.data = (front ++ bigEndian 2 port.toNat) ++ (tail ++ rest) := by
    simpa using hdata
  have htwo : a.data.take 2 = front := by
    rw [hdata,List.append_assoc,List.take_left' hfront]
  have hset : (a.setPort port').data = a.data.take 2 ++ (bigEndian 2 port'.toNat ++ a.data.drop 4) :=
    rfl
  rw [hset,htwo,hdata',List.drop_left' hfour]
  simp

theorem sockaddrIn_inj {r r' : Bool} {port port' : UInt16} {ip ip' : Vector UInt8 4} :
    sockaddrIn (familyField r afInet) port ip = sockaddrIn (familyField r' afInet) port' ip' ↔
      r = r' ∧ port = port' ∧ ip = ip' := by
  have hport : bigEndian 2 port.toNat = bigEndian 2 port'.toNat ↔ port = port' :=
    (bigEndian_inj port.toNat_lt port'.toNat_lt).trans UInt16.toNat_inj
  refine ⟨fun h => ?_,fun ⟨hr,hp,hip⟩ => by rw [hr,hp,hip]⟩
  obtain ⟨hf,h⟩ := List.append_inj h rfl
  obtain ⟨hp,h⟩ := List.append_inj h (by simp)
  obtain ⟨hip,_⟩ := List.append_inj h (by simp)
  refine ⟨?_,hport.mp hp,Vector.toList_inj.mp hip⟩
  cases r <;> cases r' <;> first | rfl | exact absurd hf (by decide)

theorem sockaddrIn6_inj {r r' : Bool} {port port' : UInt16} {ip ip' : Vector UInt8 16}
    {scope scope' : UInt32} :
    sockaddrIn6 (familyField r afInet6) port ip scope =
        sockaddrIn6 (familyField r' afInet6) port' ip' scope' ↔
      r = r' ∧ port = port' ∧ ip = ip' ∧ scope = scope' := by
  have hport : bigEndian 2 port.toNat = bigEndian 2 port'.toNat ↔ port = port' :=
    (bigEndian_inj port.toNat_lt port'.toNat_lt).trans UInt16.toNat_inj
  have hscope : bigEndian 4 scope.toNat = bigEndian 4 scope'.toNat ↔ scope = scope' :=
    (bigEndian_inj scope.toNat_lt scope'.toNat_lt).trans UInt32.toNat_inj
  refine ⟨fun h => ?_,fun ⟨hr,hp,hip,hs⟩ => by rw [hr,hp,hip,hs]⟩
  obtain ⟨hf,h⟩ := List.append_inj h rfl
  obtain ⟨hp,h⟩ := List.append_inj h (by simp)
  obtain ⟨_,h⟩ := List.append_inj h rfl
  obtain ⟨hip,hs⟩ := List.append_inj h (by simp)
  refine ⟨?_,hport.mp hp,Vector.toList_inj.mp hip,hscope.mp hs⟩
  cases r <;> cases r' <;> first | rfl | exact absurd hf (by decide)

/-! What the functions read from a socket address of each kind. -/

variable {r : Bool} {port : UInt16}

theorem ofBigEndian_port : ofBigEndian (bigEndian 2 port.toNat) = port.toNat := by
  rw [ofBigEndian_bigEndian,Nat.mod_eq_of_lt (show port.toNat < 256^2 from port.toNat_lt)]

theorem slice_port {front tail : List UInt8} (hfront : front.length = 2)
    (h : Holds a (front ++ (bigEndian 2 port.toNat ++ tail))) :
    slice a 2 2 = bigEndian 2 port.toNat := by
  rw [slice_of_holds h (by simp [hfront]; omega),List.drop_left' hfront,
    List.take_left' (length_bigEndian 2 _)]

/-- The fields of an IPv4 address, whoever made it. -/
structure Ipv4 (a : Address) (port : UInt16) (ip : Vector UInt8 4) : Prop where
  size : a.size = sizeofSockaddrIn
  host : slice a 4 4 = ip.toList
  family : getFamily a = .ipv4
  getPort : getPort a = port.toNat
  address : getAddress a 16 = some ip.toList
  scopeId : getScopeId a = 0

theorem ipv4_of_holds {ip : Vector UInt8 4}
    (h : Holds a (sockaddrIn (familyField r afInet) port ip)) : Ipv4 a port ip := by
  have hsize : a.size = sizeofSockaddrIn := h.1.trans (length_sockaddrIn ..)
  have hhost : slice a 4 4 = ip.toList := by
    have hfront : sockaddrIn (familyField r afInet) port ip =
        ([UInt8.ofNat (familyField r afInet),0] ++ bigEndian 2 port.toNat) ++
          (ip.toList ++ List.replicate 8 0) := by simp [sockaddrIn]
    rw [slice_of_holds h (by rw [length_sockaddrIn]; decide),hfront,
      List.drop_left' (by simp),List.take_left' (by simp)]
  refine ⟨hsize,hhost,if_pos hsize,?_,?_,?_⟩
  · rw [NetAddress.getPort,if_pos hsize,slice_port rfl h,ofBigEndian_port]
  · rw [getAddress,if_pos hsize,if_pos (by decide),hhost]
  · rw [getScopeId,if_neg (by rw [hsize]; decide)]

/-- The fields of an IPv6 address, whoever made it. -/
structure Ipv6 (a : Address) (port : UInt16) (ip : Vector UInt8 16) (scope : UInt32) : Prop where
  size : a.size = sizeofSockaddrIn6
  host : slice a 8 16 = ip.toList
  family : getFamily a = .ipv6
  getPort : getPort a = port.toNat
  address : getAddress a 16 = some ip.toList
  scopeId : getScopeId a = scope.toNat

theorem ipv6_of_holds {ip : Vector UInt8 16} {scope : UInt32}
    (h : Holds a (sockaddrIn6 (familyField r afInet6) port ip scope)) : Ipv6 a port ip scope := by
  have hsize : a.size = sizeofSockaddrIn6 := h.1.trans (length_sockaddrIn6 ..)
  have hne : a.size ≠ sizeofSockaddrIn := by
    rw [hsize]
    decide
  have hhost : slice a 8 16 = ip.toList := by
    have hfront : sockaddrIn6 (familyField r afInet6) port ip scope =
        ([UInt8.ofNat (familyField r afInet6),0] ++ bigEndian 2 port.toNat ++
          List.replicate 4 0) ++ (ip.toList ++ bigEndian 4 scope.toNat) := by
      simp [sockaddrIn6]
    rw [slice_of_holds h (by rw [length_sockaddrIn6]; decide),hfront,
      List.drop_left' (by simp),List.take_left' (by simp)]
  have hscope : slice a 24 4 = bigEndian 4 scope.toNat := by
    have hfront : sockaddrIn6 (familyField r afInet6) port ip scope =
        ([UInt8.ofNat (familyField r afInet6),0] ++ bigEndian 2 port.toNat ++
          List.replicate 4 0 ++ ip.toList) ++ bigEndian 4 scope.toNat := by
      simp [sockaddrIn6]
    rw [slice_of_holds h (by rw [length_sockaddrIn6]; decide),hfront,
      List.drop_left' (by simp),List.take_of_length_le (by simp)]
  refine ⟨hsize,hhost,?_,?_,?_,?_⟩
  · rw [getFamily,if_neg hne,if_pos hsize]
  · rw [NetAddress.getPort,if_neg hne,if_pos hsize,slice_port rfl h,ofBigEndian_port]
  · rw [getAddress,if_neg hne,if_pos hsize,if_pos (by decide),hhost]
  · rw [getScopeId,if_pos hsize,hscope,ofBigEndian_bigEndian,
      Nat.mod_eq_of_lt (show scope.toNat < 256^4 from scope.toNat_lt)]

theorem replacePort_of_ipv4 {ip : Vector UInt8 4} (port' : UInt16)
    (h : Holds a (sockaddrIn (familyField r afInet) port ip)) :
    replacePort a port' = (true,a.setPort port') ∧
      Holds (a.setPort port') (sockaddrIn (familyField r afInet) port' ip) :=
  ⟨if_pos (ipv4_of_holds h).size,holds_setPort rfl h⟩

theorem replacePort_of_ipv6 {ip : Vector UInt8 16} {scope : UInt32} (port' : UInt16)
    (h : Holds a (sockaddrIn6 (familyField r afInet6) port ip scope)) :
    replacePort a port' = (true,a.setPort port') ∧
      Holds (a.setPort port') (sockaddrIn6 (familyField r afInet6) port' ip scope) := by
  have hsize := (ipv6_of_holds h).size
  refine ⟨?_,holds_setPort rfl h⟩
  rw [replacePort,if_neg (by rw [hsize]; decide),if_pos hsize]

/-- All producers make one of two socket addresses, with the family of the resolver or none. -/
theorem produced_holds (h : Produced r a) :
    (∃ port ip, Holds a (sockaddrIn (familyField r afInet) port ip)) ∨
    ∃ port ip scope, Holds a (sockaddrIn6 (familyField r afInet6) port ip scope) := by
  induction h with
  | ipv4 ip port => exact Or.inl ⟨port,ip,holds_store _⟩
  | ipv6 ip scopeId port => exact Or.inr ⟨port,ip,scopeId,holds_store _⟩
  | any isIpv6 addr =>
    cases isIpv6 with
    | false => exact Or.inl ⟨0,_,rfl,_,rfl⟩
    | true => exact Or.inr ⟨0,_,0,rfl,_,rfl⟩
  | @resolved port answer a hm =>
    cases answer with
    | ipv4 addresses =>
      obtain ⟨ip,_,rfl⟩ := List.mem_map.mp hm
      exact Or.inl ⟨port,ip,holds_store _⟩
    | ipv6 addresses =>
      obtain ⟨ip,_,rfl⟩ := List.mem_map.mp hm
      exact Or.inr ⟨port,ip,0,holds_store _⟩
  | @replaced r a port _ ih =>
    rcases ih with ⟨port',ip,h⟩ | ⟨port',ip,scope,h⟩
    · obtain ⟨he,h⟩ := replacePort_of_ipv4 port h
      exact Or.inl ⟨port,ip,he ▸ h⟩
    · obtain ⟨he,h⟩ := replacePort_of_ipv6 port h
      exact Or.inr ⟨port,ip,scope,he ▸ h⟩

/-! Equality. -/

def SameHost (a b : Address) : Prop :=
  getFamily a = getFamily b ∧ getAddress a 16 = getAddress b 16

/-- The scope of an IPv4 address is 0. -/
def Same (a b : Address) : Prop :=
  SameHost a b ∧ getPort a = getPort b ∧ getScopeId a = getScopeId b

/-- The new address has that port, and differs in the bytes of the port only. -/
def ReplacesPort (a : Address) (port : UInt16) : Prop :=
  (replacePort a port).1 = true ∧ (replacePort a port).2.size = a.size ∧
  getPort (replacePort a port).2 = port.toNat ∧
  ∀ k, k ≠ 2 → k ≠ 3 → (replacePort a port).2.data[k]? = a.data[k]?

variable {r' : Bool}

theorem SameHost.symm (h : SameHost a b) : SameHost b a := ⟨h.1.symm,h.2.symm⟩

section
variable {p p' : UInt16} {ip4 ip4' : Vector UInt8 4} {ip6 ip6' : Vector UInt8 16}
  {scope scope' : UInt32}

theorem Ipv4.sameHost_iff (ha : Ipv4 a p ip4) (hb : Ipv4 b p' ip4') :
    SameHost a b ↔ ip4 = ip4' := by
  rw [SameHost,ha.family,hb.family,ha.address,hb.address,Option.some_inj,Vector.toList_inj]
  exact and_iff_right rfl

theorem Ipv4.same_iff (ha : Ipv4 a p ip4) (hb : Ipv4 b p' ip4') :
    Same a b ↔ ip4 = ip4' ∧ p = p' := by
  rw [Same,ha.sameHost_iff hb,ha.getPort,hb.getPort,ha.scopeId,hb.scopeId,UInt16.toNat_inj]
  exact and_congr_right fun _ => and_iff_left rfl

theorem Ipv6.sameHost_iff (ha : Ipv6 a p ip6 scope) (hb : Ipv6 b p' ip6' scope') :
    SameHost a b ↔ ip6 = ip6' := by
  rw [SameHost,ha.family,hb.family,ha.address,hb.address,Option.some_inj,Vector.toList_inj]
  exact and_iff_right rfl

theorem Ipv6.same_iff (ha : Ipv6 a p ip6 scope) (hb : Ipv6 b p' ip6' scope') :
    Same a b ↔ ip6 = ip6' ∧ p = p' ∧ scope = scope' := by
  rw [Same,ha.sameHost_iff hb,ha.getPort,hb.getPort,ha.scopeId,hb.scopeId,UInt16.toNat_inj,
    UInt32.toNat_inj]

theorem Ipv4.not_sameHost (ha : Ipv4 a p ip4) (hb : Ipv6 b p' ip6' scope') : ¬SameHost a b := by
  intro h
  have hfamily : getFamily a = getFamily b := h.1
  rw [ha.family,hb.family] at hfamily
  cases hfamily

end

theorem sockaddrIn_ne_sockaddrIn6 {f f' : ℕ} {p p' : UInt16} {ip : Vector UInt8 4}
    {ip' : Vector UInt8 16} {scope : UInt32} :
    sockaddrIn f p ip ≠ sockaddrIn6 f' p' ip' scope := by
  intro h
  have hlength := congrArg List.length h
  rw [length_sockaddrIn,length_sockaddrIn6] at hlength
  exact absurd hlength (by decide)

/-- Equal addresses have equal fields, and were both made by the resolver or both not. -/
theorem produced_areEqual (ha : Produced r a) (hb : Produced r' b) :
    areEqual a b = true ↔ r = r' ∧ Same a b := by
  rcases produced_holds ha with ⟨p,ip,ha⟩ | ⟨p,ip,scope,ha⟩ <;>
    rcases produced_holds hb with ⟨p',ip',hb⟩ | ⟨p',ip',scope',hb⟩ <;> rw [areEqual_iff ha hb]
  · rw [sockaddrIn_inj,(ipv4_of_holds ha).same_iff (ipv4_of_holds hb),and_comm (a := p = p')]
  · exact iff_of_false sockaddrIn_ne_sockaddrIn6 fun h =>
      (ipv4_of_holds ha).not_sameHost (ipv6_of_holds hb) h.2.1
  · exact iff_of_false sockaddrIn_ne_sockaddrIn6.symm fun h =>
      (ipv4_of_holds hb).not_sameHost (ipv6_of_holds ha) h.2.1.symm
  · rw [sockaddrIn6_inj,(ipv6_of_holds ha).same_iff (ipv6_of_holds hb),
      and_left_comm (a := p = p')]

theorem produced_areHostsEqual (ha : Produced r a) (hb : Produced r' b) :
    areHostsEqual a b = true ↔ SameHost a b := by
  have hne : sizeofSockaddrIn ≠ sizeofSockaddrIn6 := by decide
  unfold areHostsEqual
  rcases produced_holds ha with ⟨p,ip,ha⟩ | ⟨p,ip,scope,ha⟩ <;>
    rcases produced_holds hb with ⟨p',ip',hb⟩ | ⟨p',ip',scope',hb⟩
  · have hfa := ipv4_of_holds ha
    have hfb := ipv4_of_holds hb
    rw [hfa.sameHost_iff hfb,hfa.size,hfb.size,hfa.host,hfb.host]
    simp [Vector.toList_inj]
  · have hfa := ipv4_of_holds ha
    have hfb := ipv6_of_holds hb
    rw [hfa.size,hfb.size,if_pos hne]
    exact iff_of_false Bool.false_ne_true (hfa.not_sameHost hfb)
  · have hfa := ipv6_of_holds ha
    have hfb := ipv4_of_holds hb
    rw [hfa.size,hfb.size,if_pos hne.symm]
    exact iff_of_false Bool.false_ne_true fun h => hfb.not_sameHost hfa h.symm
  · have hfa := ipv6_of_holds ha
    have hfb := ipv6_of_holds hb
    rw [hfa.sameHost_iff hfb,hfa.size,hfb.size,hfa.host,hfb.host]
    simp [hne.symm,Vector.toList_inj]

/-- Outside of the two bytes of the port, the data stay. -/
theorem getElem?_setPort (a : Address) (port : UInt16) {k : ℕ} (h2 : k ≠ 2) (h3 : k ≠ 3) :
    (a.setPort port).data[k]? = a.data[k]? := by
  have hset : (a.setPort port).data = a.data.take 2 ++ (bigEndian 2 port.toNat ++ a.data.drop 4) :=
    rfl
  have hlen : (a.data.take 2).length = 2 := by
    rw [List.length_take,a.length_data]
    decide
  rw [hset]
  by_cases hk : k < 2
  · rw [List.getElem?_append_left (by omega),List.getElem?_take_of_lt hk]
  · rw [List.getElem?_append_right (by omega),hlen,List.getElem?_append_right (by simp; omega),
      length_bigEndian,List.getElem?_drop]
    congr 1
    omega

theorem produced_replacesPort (ha : Produced r a) (port : UInt16) : ReplacesPort a port := by
  rcases produced_holds ha with ⟨p,ip,ha⟩ | ⟨p,ip,scope,ha⟩
  · obtain ⟨he,h⟩ := replacePort_of_ipv4 port ha
    unfold ReplacesPort
    rw [he]
    exact ⟨rfl,rfl,(ipv4_of_holds h).getPort,fun k h2 h3 => getElem?_setPort a port h2 h3⟩
  · obtain ⟨he,h⟩ := replacePort_of_ipv6 port ha
    unfold ReplacesPort
    rw [he]
    exact ⟨rfl,rfl,(ipv6_of_holds h).getPort,fun k h2 h3 => getElem?_setPort a port h2 h3⟩

/-- Equality is that of the fields exactly if the resolver made both addresses or neither, or
their fields differ anyway. Equality of hosts and the replacement of ports are right throughout. -/
theorem addresses_equality {r r' : Bool} {a b : Address} (ha : Produced r a) (hb : Produced r' b)
    (port : UInt16) :
    ((areEqual a b = true ↔ Same a b) ∧ (areHostsEqual a b = true ↔ SameHost a b) ∧
      ReplacesPort a port) ↔ r = r' ∨ ¬Same a b := by
  rw [and_iff_left ⟨produced_areHostsEqual ha hb,produced_replacesPort ha port⟩,
    produced_areEqual ha hb,and_iff_right_iff_imp]
  exact imp_iff_or_not

def loopback : Vector UInt8 4 := #v[127,0,0,1]

/-- The address of a host as the resolver gives it. -/
def resolved : Address :=
  zeroed.store (sockaddrIn afInet 80 loopback) (by rw [length_sockaddrIn]; decide)

theorem produced_resolved : Produced true resolved :=
  .resolved (show resolved ∈ handleHostResolveStage2 80 (.ipv4 [loopback]) from List.mem_cons_self)

/-- The condition holds of two answers of the resolver. -/
theorem resolved_equality :
    (areEqual resolved resolved = true ↔ Same resolved resolved) ∧
      (areHostsEqual resolved resolved = true ↔ SameHost resolved resolved) ∧
      ReplacesPort resolved 443 :=
  (addresses_equality produced_resolved produced_resolved 443).mpr (Or.inl rfl)

/-- The resolver's address differs from the one the plugin makes of the same host and port. -/
theorem resolved_ne_created :
    Same resolved (createFromIpv4Address loopback 80) ∧
      areEqual resolved (createFromIpv4Address loopback 80) = false := by
  have hresolved : Ipv4 resolved 80 loopback :=
    ipv4_of_holds (show Holds _ (sockaddrIn (familyField true afInet) 80 loopback) from holds_store _)
  have hcreated : Ipv4 (createFromIpv4Address loopback 80) 80 loopback :=
    ipv4_of_holds (show Holds _ (sockaddrIn (familyField false afInet) 80 loopback) from holds_store _)
  have hne : areEqual resolved (createFromIpv4Address loopback 80) ≠ true := fun h =>
    Bool.noConfusion ((produced_areEqual produced_resolved (.ipv4 loopback 80)).mp h).1
  refine ⟨⟨⟨?_,?_⟩,?_,?_⟩,Bool.eq_false_iff.mpr hne⟩
  · rw [hresolved.family,hcreated.family]
  · rw [hresolved.address,hcreated.address]
  · rw [hresolved.getPort,hcreated.getPort]
  · rw [hresolved.scopeId,hcreated.scopeId]

end NetAddress
end FreshPlayer
