import FreshPlayer.CText
import FreshPlayer.NetAddress

/-! Network addresses as texts and as the structures of the resource interface, whose ports
are kept in network order. -/
namespace FreshPlayer
namespace NetAddress

open CText

/-! The resource interface. -/

/-- `ntohs`, which is `htons` too. -/
def ntohs (v : UInt16) : UInt16 := UInt16.ofNat (v.toNat % 256*256+v.toNat/256)

theorem toNat_ntohs (v : UInt16) : (ntohs v).toNat = v.toNat % 256*256+v.toNat/256 := by
  have hv := v.toNat_lt
  rw [ntohs,UInt16.toNat_ofNat',Nat.mod_eq_of_lt (by omega)]

theorem ntohs_ntohs (v : UInt16) : ntohs (ntohs v) = v := by
  have hv := v.toNat_lt
  rw [← UInt16.toNat_inj,toNat_ntohs,toNat_ntohs]
  omega

structure PPNetAddressIPv4 where
  port : UInt16
  addr : Vector UInt8 4
  deriving DecidableEq

structure PPNetAddressIPv6 where
  port : UInt16
  addr : Vector UInt8 16
  deriving DecidableEq

/-- Two bytes as they are in memory. -/
def portField (a : Address) : UInt16 :=
  UInt16.ofNat (ofBigEndian (slice a 2 2).reverse)

theorem size_slice (a : Address) (offset length : ℕ) (h : offset+length ≤ 128) :
    (slice a offset length).toArray.size = length := by
  simp [slice,a.length_data]
  omega

def hostField (a : Address) (offset length : ℕ) (h : offset+length ≤ 128) : Vector UInt8 length :=
  ⟨(slice a offset length).toArray,size_slice a offset length h⟩

/-- With the instance, if it exists, and the structure, unless there is none. -/
def ppbNetAddressCreateFromIpv4Address (instanceAlive : Bool)
    (ipv4Addr : Option PPNetAddressIPv4) : Option Address :=
  ipv4Addr.bind fun v =>
    if instanceAlive then some (createFromIpv4Address v.addr (ntohs v.port)) else none

def ppbNetAddressCreateFromIpv6Address (instanceAlive : Bool)
    (ipv6Addr : Option PPNetAddressIPv6) : Option Address :=
  ipv6Addr.bind fun v =>
    if instanceAlive then some (createFromIpv6Address v.addr 0 (ntohs v.port)) else none

/-- With the address of the resource, if there is one, and whether there is room for the answer. -/
def ppbNetAddressDescribeAsIpv4Address (na : Option Address) (room : Bool) :
    Option PPNetAddressIPv4 :=
  if !room then none
  else na.bind fun a =>
    if a.size ≠ sizeofSockaddrIn then none
    else some ⟨portField a,hostField a 4 4 (by decide)⟩

def ppbNetAddressDescribeAsIpv6Address (na : Option Address) (room : Bool) :
    Option PPNetAddressIPv6 :=
  if !room then none
  else na.bind fun a =>
    if a.size ≠ sizeofSockaddrIn6 then none
    else some ⟨portField a,hostField a 8 16 (by decide)⟩

/-! Texts. -/

def colon : UInt8 := ':'.toUInt8
def period : UInt8 := '.'.toUInt8

/-- Numbers with a character between them. -/
def printAll (base : ℕ) (separator : UInt8) (ns : List ℕ) : Text :=
  List.intercalate [separator] (ns.map (printDigits base))

/-- The 16-bit numbers of the host, converted from network order. -/
def groups : List UInt8 → List ℕ
  | x::y::host => ofBigEndian [x,y]::groups host
  | _ => []

/-- The text of the var; undefined for other sizes. -/
def describe (a : Address) (includePort : Bool) : Option Text :=
  if a.size = sizeofSockaddrIn then
    let ip := printAll 10 period ((slice a 4 4).map UInt8.toNat)
    let port := printDigits 10 (ofBigEndian (slice a 2 2))
    some (if includePort then ip ++ colon::port else ip)
  else if a.size = sizeofSockaddrIn6 then
    let ip := printAll 16 colon (groups (slice a 8 16))
    let port := printDigits 10 (ofBigEndian (slice a 2 2))
    some (if includePort then '['.toUInt8::ip ++ ']'.toUInt8::colon::port else ip)
  else none

example : describe (createFromIpv4Address #v[192,168,1,2] 1234) true =
    some (bytes "192.168.1.2:1234") := by decide

/-! What is read back. -/

/-- The accessors give what an address was made from. -/
structure ReadsBack (a : Address) (family : Family) (host : List UInt8) (port : UInt16)
    (scopeId : UInt32) : Prop where
  family : getFamily a = family
  address : ∀ n, host.length ≤ n → getAddress a n = some host
  port : getPort a = port.toNat
  scopeId : getScopeId a = scopeId.toNat

variable {a b : Address} {p p' : UInt16} {ip : Vector UInt8 4} {ip6 : Vector UInt8 16}
  {scope scope' : UInt32} {r r' : Bool}

theorem Ipv4.readsBack (h : Ipv4 a p ip) : ReadsBack a .ipv4 ip.toList p 0 := by
  refine ⟨h.family,fun n hn => ?_,h.getPort,h.scopeId⟩
  rw [Vector.length_toList] at hn
  rw [getAddress,if_pos h.size,if_pos hn,h.host]

theorem Ipv6.readsBack (h : Ipv6 a p ip6 scope) : ReadsBack a .ipv6 ip6.toList p scope := by
  have hne : a.size ≠ sizeofSockaddrIn := by
    rw [h.size]
    decide
  refine ⟨h.family,fun n hn => ?_,h.getPort,h.scopeId⟩
  rw [Vector.length_toList] at hn
  rw [getAddress,if_neg hne,if_pos h.size,if_pos hn,h.host]

theorem portField_eq (h : slice a 2 2 = bigEndian 2 p.toNat) : portField a = ntohs p := by
  have hp := p.toNat_lt
  rw [portField,h,← UInt16.toNat_inj,toNat_ntohs,UInt16.toNat_ofNat']
  simp only [bigEndian,ofBigEndian,List.reverse_cons,List.reverse_nil,List.nil_append,
    List.cons_append,List.foldl_cons,List.foldl_nil,UInt8.toNat_ofNat',Nat.pow_zero,Nat.pow_one,
    Nat.div_one,Nat.zero_mul,Nat.zero_add]
  have hhigh : p.toNat/256 < 256 := by omega
  have hlow : p.toNat % 256 < 256 := by omega
  rw [Nat.mod_eq_of_lt hhigh,Nat.mod_eq_of_lt (by omega)]

theorem hostField_eq {offset length : ℕ} {v : Vector UInt8 length} (h : offset+length ≤ 128)
    (hv : slice a offset length = v.toList) : hostField a offset length h = v := by
  rw [← Vector.toList_inj,← hv]
  rfl

theorem describeAsIpv4_eq (hport : slice a 2 2 = bigEndian 2 p.toNat) (h : Ipv4 a p ip) :
    ppbNetAddressDescribeAsIpv4Address (some a) true = some ⟨ntohs p,ip⟩ ∧
      ppbNetAddressDescribeAsIpv6Address (some a) true = none := by
  have hne : a.size ≠ sizeofSockaddrIn6 := by
    rw [h.size]
    decide
  constructor
  · simp [ppbNetAddressDescribeAsIpv4Address,h.size,portField_eq hport,hostField_eq _ h.host]
  · simp [ppbNetAddressDescribeAsIpv6Address,hne]

theorem describeAsIpv6_eq (hport : slice a 2 2 = bigEndian 2 p.toNat) (h : Ipv6 a p ip6 scope) :
    ppbNetAddressDescribeAsIpv6Address (some a) true = some ⟨ntohs p,ip6⟩ ∧
      ppbNetAddressDescribeAsIpv4Address (some a) true = none := by
  have hne : a.size ≠ sizeofSockaddrIn := by
    rw [h.size]
    decide
  constructor
  · simp [ppbNetAddressDescribeAsIpv6Address,h.size,portField_eq hport,hostField_eq _ h.host]
  · simp [ppbNetAddressDescribeAsIpv4Address,hne]

theorem created_ipv4 (ip : Vector UInt8 4) (port : UInt16) :
    Ipv4 (createFromIpv4Address ip port) port ip ∧
      slice (createFromIpv4Address ip port) 2 2 = bigEndian 2 port.toNat := by
  have h : Holds (createFromIpv4Address ip port) (sockaddrIn (familyField false afInet) port ip) :=
    holds_store _
  exact ⟨ipv4_of_holds h,slice_port rfl h⟩

theorem created_ipv6 (ip : Vector UInt8 16) (scopeId : UInt32) (port : UInt16) :
    Ipv6 (createFromIpv6Address ip scopeId port) port ip scopeId ∧
      slice (createFromIpv6Address ip scopeId port) 2 2 = bigEndian 2 port.toNat := by
  have h : Holds (createFromIpv6Address ip scopeId port)
      (sockaddrIn6 (familyField false afInet6) port ip scopeId) := holds_store _
  exact ⟨ipv6_of_holds h,slice_port rfl h⟩

/-! Texts tell addresses apart. -/

theorem mem_intercalate {c separator : UInt8} {ls : List Text}
    (h : c ∈ List.intercalate [separator] ls) : c = separator ∨ ∃ l ∈ ls, c ∈ l := by
  induction ls with
  | nil => cases h
  | cons l ls ih =>
    cases ls with
    | nil => exact .inr ⟨l,List.mem_cons_self,by simpa using h⟩
    | cons m ls =>
      rw [List.intercalate_cons_cons,List.mem_append,List.mem_append,List.mem_singleton] at h
      rcases h with (h | h) | h
      · exact .inr ⟨l,List.mem_cons_self,h⟩
      · exact .inl h
      · exact (ih h).imp_right fun ⟨k,hk,hc⟩ => ⟨k,List.mem_cons_of_mem l hk,hc⟩

/-- A character that is a digit of no base. -/
def NoDigit (c : UInt8) : Prop := ∀ d < 16, d.digitChar.toUInt8 ≠ c

instance (c : UInt8) : Decidable (NoDigit c) := inferInstanceAs (Decidable (∀ d < 16, _))

variable {base : ℕ} {separator : UInt8}

theorem not_mem_printAll (hb : 1 < base) (hbase : base ≤ 16) {c : UInt8} (hc : NoDigit c)
    (hne : c ≠ separator) (ns : List ℕ) : c ∉ printAll base separator ns := by
  intro h
  rcases mem_intercalate h with h | ⟨l,hl,hcl⟩
  · exact hne h
  · obtain ⟨n,_,rfl⟩ := List.mem_map.mp hl
    exact not_mem_printDigits hb hbase hc n hcl

theorem separator_mem_printAll {ns : List ℕ} (h : 2 ≤ ns.length) :
    separator ∈ printAll base separator ns := by
  match ns with
  | n::m::ns => simp [printAll]

/-- The separators tell where the numbers end. -/
theorem printAll_inj (hb : 1 < base) (hbase : base ≤ 16) (hs : NoDigit separator) {ns ms : List ℕ}
    (hns : ns ≠ []) (hms : ms ≠ []) (h : printAll base separator ns = printAll base separator ms) :
    ns = ms := by
  have hsplit : ∀ l : List ℕ, l ≠ [] →
      (printAll base separator l).splitOn separator = l.map (printDigits base) := by
    intro l hl
    refine List.splitOn_intercalate separator (fun t ht => ?_) (by simpa using hl)
    obtain ⟨n,_,rfl⟩ := List.mem_map.mp ht
    exact not_mem_printDigits hb hbase hs n
  have hmap := (hsplit ns hns).symm.trans ((congrArg _ h).trans (hsplit ms hms))
  exact List.map_injective_iff.mpr (fun _ _ => printDigits_inj hb hbase) hmap

theorem flatMap_groups (host : List UInt8) (h : host.length % 2 = 0) :
    (groups host).flatMap (bigEndian 2) = host := by
  match host with
  | [] => rfl
  | [_] => cases h
  | x::y::host =>
    have hx := x.toNat_lt
    have hy := y.toNat_lt
    have hpair : bigEndian 2 (ofBigEndian [x,y]) = [x,y] := by
      simp only [bigEndian,ofBigEndian,List.foldl_cons,List.foldl_nil,List.cons.injEq,
        ← UInt8.toNat_inj,UInt8.toNat_ofNat',and_true]
      omega
    have hrest : host.length % 2 = 0 := by
      simp only [List.length_cons] at h
      omega
    rw [groups,List.flatMap_cons,hpair,flatMap_groups host hrest]
    rfl

theorem length_groups (host : List UInt8) : (groups host).length = host.length/2 := by
  match host with
  | [] => rfl
  | [_] => simp [groups]
  | x::y::host =>
    rw [groups,List.length_cons,length_groups host,List.length_cons,List.length_cons]
    omega

def ipv4Text (ip : Vector UInt8 4) : Text := printAll 10 period (ip.toList.map UInt8.toNat)

def ipv6Text (ip : Vector UInt8 16) : Text := printAll 16 colon (groups ip.toList)

theorem ipv4Text_inj {ip ip' : Vector UInt8 4} (h : ipv4Text ip = ipv4Text ip') : ip = ip' := by
  have hne : ∀ v : Vector UInt8 4, v.toList.map UInt8.toNat ≠ [] := by
    intro v hv
    have := congrArg List.length hv
    simp at this
  have hmap := printAll_inj (by decide) (by decide) (by decide) (hne ip) (hne ip') h
  exact Vector.toList_inj.mp (List.map_injective_iff.mpr (fun _ _ => UInt8.toNat_inj.mp) hmap)

theorem length_groups_host (ip : Vector UInt8 16) : (groups ip.toList).length = 8 := by
  rw [length_groups,Vector.length_toList]

theorem ipv6Text_inj {ip ip' : Vector UInt8 16} (h : ipv6Text ip = ipv6Text ip') : ip = ip' := by
  have hne : ∀ v : Vector UInt8 16, groups v.toList ≠ [] := by
    intro v hv
    have := length_groups_host v
    rw [hv] at this
    cases this
  have hgroups := printAll_inj (by decide) (by decide) (by decide) (hne ip) (hne ip') h
  have heven : ∀ v : Vector UInt8 16, v.toList.length % 2 = 0 := fun v => by simp
  rw [← Vector.toList_inj,← flatMap_groups _ (heven ip),hgroups,flatMap_groups _ (heven ip')]

theorem colon_mem_ipv6Text (ip : Vector UInt8 16) : colon ∈ ipv6Text ip :=
  separator_mem_printAll (by rw [length_groups_host]; decide)

/-- An address with its port, or without. -/
def withPort (front back ip : Text) (includePort : Bool) (port : UInt16) : Text :=
  if includePort then front ++ ip ++ back ++ colon::printDigits 10 port.toNat else ip

theorem describe_ipv4 (h : Ipv4 a p ip) (includePort : Bool) :
    describe a includePort = some (withPort [] [] (ipv4Text ip) includePort p) := by
  have hport := h.getPort
  rw [NetAddress.getPort,if_pos h.size] at hport
  rw [describe,if_pos h.size,h.host,hport]
  simp [withPort,ipv4Text]

theorem describe_ipv6 (h : Ipv6 a p ip6 scope) (includePort : Bool) :
    describe a includePort =
      some (withPort ['['.toUInt8] [']'.toUInt8] (ipv6Text ip6) includePort p) := by
  have hne : a.size ≠ sizeofSockaddrIn := by
    rw [h.size]
    decide
  have hport := h.getPort
  rw [NetAddress.getPort,if_neg hne,if_pos h.size] at hport
  rw [describe,if_neg hne,if_pos h.size,h.host,hport]
  simp [withPort,ipv6Text]

theorem printPort_inj {port port' : UInt16}
    (h : printDigits 10 port.toNat = printDigits 10 port'.toNat) : port = port' :=
  UInt16.toNat_inj.mp (printDigits_inj (by decide) (by decide) h)

theorem colon_not_mem_ipv4Text (ip : Vector UInt8 4) : colon ∉ ipv4Text ip :=
  not_mem_printAll (by decide) (by decide) (by decide) (by decide) _

theorem not_mem_printPort {c : UInt8} (hc : NoDigit c) (port : UInt16) :
    c ∉ printDigits 10 port.toNat := not_mem_printDigits (by decide) (by decide) hc _

theorem ipv4_withPort_iff {ip ip' : Vector UInt8 4} {port port' : UInt16} {includePort : Bool} :
    withPort [] [] (ipv4Text ip) includePort port =
        withPort [] [] (ipv4Text ip') includePort port' ↔
      ip = ip' ∧ (includePort = true → port = port') := by
  cases includePort with
  | false =>
    simp only [withPort,Bool.false_eq_true,if_false,false_imp_iff,and_true]
    exact ⟨ipv4Text_inj,congrArg ipv4Text⟩
  | true =>
    simp only [withPort,if_true,List.nil_append,List.append_nil,true_imp_iff]
    rw [List.append_cons_inj_of_notMem (colon_not_mem_ipv4Text ip)
      (not_mem_printPort (by decide) port)]
    constructor
    · rintro ⟨hip,_,hport⟩
      exact ⟨ipv4Text_inj hip,printPort_inj hport⟩
    · rintro ⟨rfl,rfl⟩
      exact ⟨rfl,rfl,rfl⟩

theorem ipv6_withPort_iff {ip ip' : Vector UInt8 16} {port port' : UInt16} {includePort : Bool} :
    withPort ['['.toUInt8] [']'.toUInt8] (ipv6Text ip) includePort port =
        withPort ['['.toUInt8] [']'.toUInt8] (ipv6Text ip') includePort port' ↔
      ip = ip' ∧ (includePort = true → port = port') := by
  have hfree : ']'.toUInt8 ∉ ipv6Text ip :=
    not_mem_printAll (by decide) (by decide) (by decide) (by decide) _
  have hback : ']'.toUInt8 ∉ colon::printDigits 10 port.toNat :=
    List.not_mem_cons_of_ne_of_not_mem (by decide) (not_mem_printPort (by decide) port)
  cases includePort with
  | false =>
    simp only [withPort,Bool.false_eq_true,if_false,false_imp_iff,and_true]
    exact ⟨ipv6Text_inj,congrArg ipv6Text⟩
  | true =>
    simp only [withPort,if_true,List.append_assoc,List.cons_append,List.nil_append,true_imp_iff,
      List.cons.injEq,true_and]
    rw [List.append_cons_inj_of_notMem hfree hback]
    constructor
    · rintro ⟨hip,_,hport⟩
      exact ⟨ipv6Text_inj hip,printPort_inj (List.tail_eq_of_cons_eq hport)⟩
    · rintro ⟨rfl,rfl⟩
      exact ⟨rfl,rfl,rfl⟩

/-- Without a port the colons tell the families apart, with one the bracket. -/
theorem ipv4_ne_ipv6 {ip : Vector UInt8 4} {ip' : Vector UInt8 16} {port port' : UInt16}
    {includePort : Bool} : withPort [] [] (ipv4Text ip) includePort port ≠
      withPort ['['.toUInt8] [']'.toUInt8] (ipv6Text ip') includePort port' := by
  intro h
  cases includePort with
  | false =>
    have hcolon := colon_mem_ipv6Text ip'
    rw [show ipv6Text ip' = ipv4Text ip from h.symm] at hcolon
    exact colon_not_mem_ipv4Text ip hcolon
  | true =>
    have hbracket : '['.toUInt8 ∈ withPort [] [] (ipv4Text ip) true port := by
      rw [h]
      exact List.mem_cons_self
    have hip : '['.toUInt8 ∉ ipv4Text ip :=
      not_mem_printAll (by decide) (by decide) (by decide) (by decide) _
    have hport : '['.toUInt8 ∉ printDigits 10 port.toNat := not_mem_printPort (by decide) port
    have hne : '['.toUInt8 ≠ colon := by decide
    simp [withPort,hip,hport,hne] at hbracket

/-- The same texts for the same hosts, and with the port the same ports. -/
theorem describe_eq_iff (ha : Produced r a) (hb : Produced r' b) (includePort : Bool) :
    describe a includePort = describe b includePort ↔
      SameHost a b ∧ (includePort = true → getPort a = getPort b) := by
  rcases produced_holds ha with ⟨q,v,ha⟩ | ⟨q,v,scope,ha⟩ <;>
    rcases produced_holds hb with ⟨q',v',hb⟩ | ⟨q',v',scope',hb⟩
  · have ha := ipv4_of_holds ha
    have hb := ipv4_of_holds hb
    rw [describe_ipv4 ha,describe_ipv4 hb,Option.some_inj,ipv4_withPort_iff,ha.sameHost_iff hb,
      ha.getPort,hb.getPort,UInt16.toNat_inj]
  · have ha := ipv4_of_holds ha
    have hb := ipv6_of_holds hb
    rw [describe_ipv4 ha,describe_ipv6 hb,Option.some_inj]
    exact iff_of_false ipv4_ne_ipv6 fun h => ha.not_sameHost hb h.1
  · have ha := ipv6_of_holds ha
    have hb := ipv4_of_holds hb
    rw [describe_ipv6 ha,describe_ipv4 hb,Option.some_inj]
    exact iff_of_false ipv4_ne_ipv6.symm fun h => hb.not_sameHost ha h.1.symm
  · have ha := ipv6_of_holds ha
    have hb := ipv6_of_holds hb
    rw [describe_ipv6 ha,describe_ipv6 hb,Option.some_inj,ipv6_withPort_iff,ha.sameHost_iff hb,
      ha.getPort,hb.getPort,UInt16.toNat_inj]

theorem describe_isSome (ha : Produced r a) (includePort : Bool) :
    (describe a includePort).isSome = true := by
  rcases produced_holds ha with ⟨q,v,ha⟩ | ⟨q,v,scope,ha⟩
  · rw [describe_ipv4 (ipv4_of_holds ha)]
    rfl
  · rw [describe_ipv6 (ipv6_of_holds ha)]
    rfl

/-- A structure of the resource interface goes through an address unchanged. -/
theorem resource_ipv4 (v : PPNetAddressIPv4) :
    ∃ a, ppbNetAddressCreateFromIpv4Address true (some v) = some a ∧
      ReadsBack a .ipv4 v.addr.toList (ntohs v.port) 0 ∧
      ppbNetAddressDescribeAsIpv4Address (some a) true = some v ∧
      ppbNetAddressDescribeAsIpv6Address (some a) true = none := by
  obtain ⟨h,hport⟩ := created_ipv4 v.addr (ntohs v.port)
  have hdescribe := describeAsIpv4_eq hport h
  rw [ntohs_ntohs] at hdescribe
  exact ⟨_,rfl,h.readsBack,hdescribe⟩

theorem resource_ipv6 (v : PPNetAddressIPv6) :
    ∃ a, ppbNetAddressCreateFromIpv6Address true (some v) = some a ∧
      ReadsBack a .ipv6 v.addr.toList (ntohs v.port) 0 ∧
      ppbNetAddressDescribeAsIpv6Address (some a) true = some v ∧
      ppbNetAddressDescribeAsIpv4Address (some a) true = none := by
  obtain ⟨h,hport⟩ := created_ipv6 v.addr 0 (ntohs v.port)
  have hdescribe := describeAsIpv6_eq hport h
  rw [ntohs_ntohs] at hdescribe
  exact ⟨_,rfl,h.readsBack,hdescribe⟩

/-- What addresses are made from is read back by all accessors, structures of the resource
interface having their ports in network order; and the texts of any two addresses are equal
exactly if their families and hosts are, with the port also their ports. -/
theorem addresses_read_and_described {r r' : Bool} {a b : Address} (ha : Produced r a)
    (hb : Produced r' b) :
    (∀ ip port, ReadsBack (createFromIpv4Address ip port) .ipv4 ip.toList port 0 ∧
      ppbNetAddressDescribeAsIpv4Address (some (createFromIpv4Address ip port)) true =
        some ⟨ntohs port,ip⟩) ∧
    (∀ ip scopeId port,
      ReadsBack (createFromIpv6Address ip scopeId port) .ipv6 ip.toList port scopeId ∧
      ppbNetAddressDescribeAsIpv6Address (some (createFromIpv6Address ip scopeId port)) true =
        some ⟨ntohs port,ip⟩) ∧
    (∀ v, ∃ c, ppbNetAddressCreateFromIpv4Address true (some v) = some c ∧
      ReadsBack c .ipv4 v.addr.toList (ntohs v.port) 0 ∧
      ppbNetAddressDescribeAsIpv4Address (some c) true = some v) ∧
    (∀ v, ∃ c, ppbNetAddressCreateFromIpv6Address true (some v) = some c ∧
      ReadsBack c .ipv6 v.addr.toList (ntohs v.port) 0 ∧
      ppbNetAddressDescribeAsIpv6Address (some c) true = some v) ∧
    (describe a true).isSome = true ∧ (describe a false).isSome = true ∧
    (describe a true = describe b true ↔ SameHost a b ∧ getPort a = getPort b) ∧
    (describe a false = describe b false ↔ SameHost a b) := by
  refine ⟨fun ip port => ?_,fun ip scopeId port => ?_,fun v => ?_,fun v => ?_,
    describe_isSome ha true,describe_isSome ha false,?_,?_⟩
  · obtain ⟨h,hport⟩ := created_ipv4 ip port
    exact ⟨h.readsBack,(describeAsIpv4_eq hport h).1⟩
  · obtain ⟨h,hport⟩ := created_ipv6 ip scopeId port
    exact ⟨h.readsBack,(describeAsIpv6_eq hport h).1⟩
  · obtain ⟨c,hc,hread,hdescribe,_⟩ := resource_ipv4 v
    exact ⟨c,hc,hread,hdescribe⟩
  · obtain ⟨c,hc,hread,hdescribe,_⟩ := resource_ipv6 v
    exact ⟨c,hc,hread,hdescribe⟩
  · rw [describe_eq_iff ha hb]
    simp
  · rw [describe_eq_iff ha hb]
    simp

/-- Two hosts whose numbers have the same digits. -/
theorem described_hosts : describe (createFromIpv4Address #v[1,11,1,1] 80) true ≠
    describe (createFromIpv4Address #v[11,1,1,1] 80) true := by
  intro h
  have hsame := ((addresses_read_and_described (.ipv4 #v[1,11,1,1] 80)
    (.ipv4 #v[11,1,1,1] 80)).2.2.2.2.2.2.1).mp h
  exact absurd hsame.1.2 (by decide)

end NetAddress
end FreshPlayer
