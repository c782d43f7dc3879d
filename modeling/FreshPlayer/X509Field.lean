import FreshPlayer.ResourceTable
import FreshPlayer.X509Time

/-! The fields of a certificate. A call holds the lock of its resource and a reference on it
until the only release at its end, which the returns on a missing number or time skip. -/
namespace FreshPlayer
namespace X509Certificate

open CText ResourceTable

inductive Nid
  | commonName | localityName | stateOrProvinceName | countryName | organizationName
  | organizationalUnitName | distinguishedName
  deriving DecidableEq, Repr

inductive Field
  | issuerCommonName | issuerLocalityName | issuerStateOrProvinceName | issuerCountryName
  | issuerOrganizationName | issuerOrganizationUnitName | issuerUniqueId
  | subjectCommonName | subjectLocalityName | subjectStateOrProvinceName | subjectCountryName
  | subjectOrganizationName | subjectOrganizationUnitName | subjectUniqueId
  | version | serialNumber | signatureAlgorithmOid | signatureAlgorithmParamatersRaw
  | validityNotBefore | validityNotAfter | subjectPublicKeyAlgorithmOid | subjectPublicKey
  | raw | issuerDistinguishedName | subjectDistinguishedName | unknown
  deriving DecidableEq, Repr

/-- An `X509_NAME`: the data of the entry that is found first under an identifier. -/
abbrev XName := Nid → Option Text

/-- What the accessors answer for the certificate of a resource, `none` for `NULL`, and the
data it was made from. -/
structure Answers where
  issuerName : Option XName
  subjectName : Option XName
  serialNumber : Option Text
  notBefore : Option (Asn1Type × Text)
  notAfter : Option (Asn1Type × Text)
  rawData : Option Text

/-- The vars made of fields; times are in milliseconds. -/
inductive FieldVar
  | null | string (data : Text) | arrayBuffer (data : Text) | double (time : ℤ)
  deriving DecidableEq, Repr

def getXnameFieldValue (xname : XName) (nid : Nid) : FieldVar :=
  match xname nid with
  | none => .null
  | some data => .string data

def getCertNameFieldValue (xname : Option XName) (nid : Nid) : FieldVar :=
  match xname with
  | none => .null
  | some xname => getXnameFieldValue xname nid

def getCertIssuerFieldValue (cert : Answers) (nid : Nid) : FieldVar :=
  getCertNameFieldValue cert.issuerName nid

def getCertSubjectFieldValue (cert : Answers) (nid : Nid) : FieldVar :=
  getCertNameFieldValue cert.subjectName nid

def timeVar (time : Asn1Type × Text) : FieldVar :=
  match convertAsn1TimeToPpVar time.1 time.2 with
  | none => .null
  | some t => .double t

/-- How the dispatch ends: at the label in front of the release, or at once. -/
inductive Exit
  | done (var : FieldVar) | returned (var : FieldVar)
  deriving DecidableEq, Repr

def Exit.ofAnswer {α : Type} (answer : Option α) (var : α → FieldVar) : Exit :=
  match answer with
  | none => .returned .null
  | some x => .done (var x)

def dispatch (cert : Answers) : Field → Exit
  | .issuerCommonName => .done (getCertIssuerFieldValue cert .commonName)
  | .issuerLocalityName => .done (getCertIssuerFieldValue cert .localityName)
  | .issuerStateOrProvinceName => .done (getCertIssuerFieldValue cert .stateOrProvinceName)
  | .issuerCountryName => .done (getCertIssuerFieldValue cert .countryName)
  | .issuerOrganizationName => .done (getCertIssuerFieldValue cert .organizationName)
  | .issuerOrganizationUnitName => .done (getCertIssuerFieldValue cert .organizationalUnitName)
  | .issuerUniqueId => .done .null
  | .subjectCommonName => .done (getCertSubjectFieldValue cert .commonName)
  | .subjectLocalityName => .done (getCertSubjectFieldValue cert .localityName)
  | .subjectStateOrProvinceName => .done (getCertSubjectFieldValue cert .stateOrProvinceName)
  | .subjectCountryName => .done (getCertSubjectFieldValue cert .countryName)
  | .subjectOrganizationName => .done (getCertSubjectFieldValue cert .organizationName)
  | .subjectOrganizationUnitName => .done (getCertSubjectFieldValue cert .organizationalUnitName)
  | .subjectUniqueId => .done .null
  | .version => .done .null
  | .serialNumber => .ofAnswer cert.serialNumber .arrayBuffer
  | .signatureAlgorithmOid => .done .null
  | .signatureAlgorithmParamatersRaw => .done .null
  | .validityNotBefore => .ofAnswer cert.notBefore timeVar
  | .validityNotAfter => .ofAnswer cert.notAfter timeVar
  | .subjectPublicKeyAlgorithmOid => .done .null
  | .subjectPublicKey => .done .null
  | .raw => .done (cert.rawData.elim .null .arrayBuffer)
  | .issuerDistinguishedName => .done (getCertIssuerFieldValue cert .distinguishedName)
  | .subjectDistinguishedName => .done (getCertSubjectFieldValue cert .distinguishedName)
  | .unknown => .done .null

/-! The resource around the dispatch. -/

def ppResourceX509Certificate : ℕ := 28

/-- What acquiring a resource comes to, as long as nobody else uses the table. -/
inductive Attempt
  | acquired | null | blocked
  deriving DecidableEq, Repr

def attempt (s : State) (resource : ℤ) (type : ℕ) : Attempt :=
  match s.resTbl.lookup resource with
  | none => .null
  | some gr => if gr.resourceType ≠ type then .null else if gr.lock then .blocked else .acquired

/-- Both sections of a release, the thread's own frame between them. -/
def ppResourceRelease (destructors : ℕ → Option ℕ) (s : State) (a : Acquisition) : State :=
  let t := unlockSection { s with acquired := s.acquired.erase a } a.thread a.resource
  unrefSection destructors (t.pop a.thread) a.thread a.resource

/-- `none` where the call waits for the lock for ever. -/
def ppbX509CertificateGetField (destructors : ℕ → Option ℕ) (cert : Answers) (s : State) (t : ℕ)
    (resource : ℤ) (field : Field) : Option (State × FieldVar) :=
  match attempt s resource ppResourceX509Certificate with
  | .null => some (s,.null)
  | .blocked => none
  | .acquired =>
    let s₁ := acquireBy s t resource ppResourceX509Certificate
    match dispatch cert field with
    | .returned var => some (s₁,var)
    | .done var =>
      some (ppResourceRelease destructors s₁ ⟨t,resource,ppResourceX509Certificate⟩,var)

/-! References are positive, however long the run. -/

def Positive (resTbl : AList fun _ : ℤ => Resource) : Prop :=
  ∀ id r, resTbl.lookup id = some r → 0 < r.refCnt

theorem Positive.insert {resTbl : AList fun _ : ℤ => Resource} (h : Positive resTbl) (id : ℤ)
    {r : Resource} (hr : 0 < r.refCnt) : Positive (resTbl.insert id r) := by
  intro k v hv
  obtain ⟨_,rfl⟩ | ⟨_,hl⟩ := lookup_insert_cases hv
  · exact hr
  · exact h k v hl

theorem Positive.unref {s : State} (h : Positive s.resTbl) (destructors : ℕ → Option ℕ) (t : ℕ)
    (resource : ℤ) : Positive (unrefSection destructors s t resource).resTbl := by
  unfold unrefSection
  split
  · exact h
  · dsimp only
    split_ifs with hle
    · intro k v hv
      by_cases hk : k = resource
      · subst hk
        simp at hv
      · exact h k v ((AList.lookup_erase_ne hk).symm.trans hv)
    · exact h.insert resource (not_le.mp hle)

theorem Positive.step {destructors : ℕ → Option ℕ} {s u : State} {a : Action}
    (h : Positive s.resTbl) (hu : ResourceTable.step destructors s a = some u) :
    Positive u.resTbl := by
  cases a with
  | allocate t type =>
    obtain ⟨_,hu⟩ := Option.ite_none_right_eq_some.mp hu
    cases hu
    exact h.insert _ one_pos
  | ref t resource =>
    obtain ⟨_,hu⟩ := Option.ite_none_right_eq_some.mp hu
    cases hu
    unfold refBy ppResourceRef
    cases hr : s.resTbl.lookup resource with
    | none => exact h
    | some r => exact h.insert resource (Int.lt_add_one_of_le (le_of_lt (h _ r hr)))
  | unref t resource =>
    obtain ⟨_,hu⟩ := Option.ite_none_right_eq_some.mp hu
    cases hu
    apply Positive.unref
    exact h
  | acquire t resource type =>
    obtain ⟨_,hu⟩ := Option.ite_none_right_eq_some.mp hu
    cases hu
    rcases acquireBy_cases s t resource type with he | ⟨r,hr,_,_,he⟩ <;> rw [he]
    · exact h
    · exact h.insert resource (Int.lt_add_one_of_le (le_of_lt (h _ r hr)))
  | release a =>
    obtain ⟨_,hu⟩ := Option.ite_none_right_eq_some.mp hu
    cases hu
    unfold unlockSection
    dsimp only
    split
    · exact h
    · rename_i r hr
      exact h.insert a.resource (h _ r hr)
  | releaseUnref t =>
    simp only [ResourceTable.step] at hu
    split at hu <;> cases hu
    apply Positive.unref
    exact h
  | destroy t =>
    simp only [ResourceTable.step] at hu
    split at hu <;> cases hu
    exact h
  | destructorReturns t =>
    simp only [ResourceTable.step] at hu
    split at hu <;> cases hu
    exact h

theorem positive_of_reachable {destructors : ℕ → Option ℕ} {s : State}
    (h : (machine destructors).Reachable s) : Positive s.resTbl :=
  h.invariant (fun s => Positive s.resTbl) (fun id r hr => by simp [machine,State.create] at hr)
    fun _ _ _ hp _ hu => hp.step hu

/-! Taking a resource and giving it back. -/

/-- Each entry, with its count and lock, is what it was, and so are the acquisitions; who waits
for the certificate next does not wait for ever. -/
structure Balanced (s t : State) (resource : ℤ) : Prop where
  entries : ∀ id, t.resTbl.lookup id = s.resTbl.lookup id
  acquired : t.acquired = s.acquired
  available : attempt t resource ppResourceX509Certificate ≠ .blocked

theorem attempt_acquired {s : State} {resource : ℤ} {type : ℕ}
    (h : attempt s resource type = .acquired) : ∃ gr, s.resTbl.lookup resource = some gr ∧
      gr.resourceType = type ∧ gr.lock = false := by
  unfold attempt at h
  cases hl : s.resTbl.lookup resource with
  | none => simp [hl] at h
  | some gr =>
    rw [hl] at h
    dsimp only at h
    split_ifs at h with htype hlock
    exact ⟨gr,rfl,not_not.mp htype,by simpa using hlock⟩

theorem acquireBy_eq {s : State} {resource : ℤ} {type : ℕ} {gr : Resource} (t : ℕ)
    (hl : s.resTbl.lookup resource = some gr) (htype : gr.resourceType = type)
    (hlock : gr.lock = false) : acquireBy s t resource type =
      { s.put resource { gr with refCnt := gr.refCnt+1, lock := true } with
        acquired := ⟨t,resource,type⟩::s.acquired } := by
  simp [acquireBy,ppResourceAcquire,hl,htype,hlock]

/-- A release undoes the acquisition before it, as long as references are positive. -/
theorem release_acquire (destructors : ℕ → Option ℕ) {s : State} {resource : ℤ} {type : ℕ} (t : ℕ)
    (hpos : Positive s.resTbl) (h : attempt s resource type = .acquired) {u : State}
    (hu : u = ppResourceRelease destructors (acquireBy s t resource type)
      ⟨t,resource,type⟩) :
    (∀ id, u.resTbl.lookup id = s.resTbl.lookup id) ∧ u.acquired = s.acquired := by
  obtain ⟨gr,hl,htype,hlock⟩ := attempt_acquired h
  have hgr : ¬gr.refCnt ≤ 0 := not_le.mpr (hpos resource gr hl)
  have hsame : ({ gr with lock := false } : Resource) = gr := by rw [← hlock]
  rw [acquireBy_eq t hl htype hlock] at hu
  have hres : u.resTbl = s.resTbl.insert resource gr ∧ u.acquired = s.acquired := by
    rw [← hsame]
    simp [hu,ppResourceRelease,unlockSection,unrefSection,State.put,State.pop,hgr]
  refine ⟨fun id => ?_,hres.2⟩
  rw [hres.1]
  by_cases hid : id = resource
  · rw [hid,hl,AList.lookup_insert]
  · exact AList.lookup_insert_ne hid

/-- Without the release the lock stays with the call. -/
theorem attempt_acquire {s : State} {resource : ℤ} {type : ℕ} (t : ℕ)
    (h : attempt s resource type = .acquired) :
    attempt (acquireBy s t resource type) resource type = .blocked := by
  obtain ⟨gr,hl,htype,hlock⟩ := attempt_acquired h
  rw [acquireBy_eq t hl htype hlock]
  simp [attempt,State.put,htype]

/-- The accessor for the field has no answer. -/
def LacksAnswer (cert : Answers) (field : Field) : Prop :=
  field = .serialNumber ∧ cert.serialNumber = none ∨
  field = .validityNotBefore ∧ cert.notBefore = none ∨
  field = .validityNotAfter ∧ cert.notAfter = none

theorem dispatch_returned_iff {cert : Answers} {field : Field} :
    (∃ var, dispatch cert field = .returned var) ↔ LacksAnswer cert field := by
  have hanswer : ∀ {α : Type} (answer : Option α) (f : α → FieldVar),
      (∃ var, Exit.ofAnswer answer f = .returned var) ↔ answer = none := by
    intro α answer f
    cases answer <;> simp [Exit.ofAnswer]
  cases field <;> simp [dispatch,LacksAnswer,hanswer]

/-- The call leaves its resource as it was exactly if it is not for a field of a certificate
whose accessor has no answer. -/
theorem getField_balanced_iff {destructors : ℕ → Option ℕ} {s : State}
    (h : (machine destructors).Reachable s) (cert : Answers) (t : ℕ) (resource : ℤ) (field : Field)
    {u : State} {var : FieldVar}
    (hu : ppbX509CertificateGetField destructors cert s t resource field = some (u,var)) :
    Balanced s u resource ↔
      ¬(attempt s resource ppResourceX509Certificate = .acquired ∧ LacksAnswer cert field) := by
  unfold ppbX509CertificateGetField at hu
  cases ha : attempt s resource ppResourceX509Certificate with
  | null =>
    rw [ha] at hu
    cases hu
    exact iff_of_true ⟨fun _ => rfl,rfl,by simp [ha]⟩ (by simp)
  | blocked => simp [ha] at hu
  | acquired =>
    rw [ha] at hu
    dsimp only at hu
    cases hd : dispatch cert field with
    | returned v =>
      have hlacks : LacksAnswer cert field := dispatch_returned_iff.mp ⟨v,hd⟩
      rw [hd] at hu
      cases hu
      exact iff_of_false (fun hb => hb.available (attempt_acquire t ha)) (not_not.mpr ⟨rfl,hlacks⟩)
    | done v =>
      have hanswer : ¬LacksAnswer cert field := by
        intro hlacks
        obtain ⟨w,hw⟩ := dispatch_returned_iff.mpr hlacks
        rw [hd] at hw
        cases hw
      rw [hd] at hu
      cases hu
      obtain ⟨hentries,hacquired⟩ :=
        release_acquire destructors t (positive_of_reachable h) ha rfl
      have havailable : attempt (ppResourceRelease destructors
          (acquireBy s t resource ppResourceX509Certificate)
          ⟨t,resource,ppResourceX509Certificate⟩) resource ppResourceX509Certificate =
            .acquired := by
        rw [← ha,attempt,attempt,hentries]
      refine iff_of_true ⟨hentries,hacquired,?_⟩ fun hc => hanswer hc.2
      rw [havailable]
      decide

/-- A certificate without a serial number. -/
def noSerialNumber : Answers := ⟨none,none,none,none,none,none⟩

/-- Its version is asked for. -/
theorem version_balanced : ∃ s u : State,
    (machine fun _ => some 0).exec (machine fun _ => some 0).start [.allocate 1 28] = some s ∧
    ppbX509CertificateGetField (fun _ => some 0) noSerialNumber s 1 1 .version = some (u,.null) ∧
    Balanced s u 1 := by
  obtain ⟨s,u,hs,hu⟩ : ∃ s u : State,
      (machine fun _ => some 0).exec (machine fun _ => some 0).start [.allocate 1 28] = some s ∧
      ppbX509CertificateGetField (fun _ => some 0) noSerialNumber s 1 1 .version = some (u,.null) :=
    ⟨_,_,rfl,rfl⟩
  have hs' := Machine.reachable_of_exec hs
  refine ⟨s,u,hs,hu,(getField_balanced_iff hs' noSerialNumber 1 1 .version hu).mpr ?_⟩
  rintro ⟨_,⟨h,_⟩ | ⟨h,_⟩ | ⟨h,_⟩⟩ <;> cases h

/-- Asked for the number, it is never available again. -/
theorem serialNumber_blocks : ¬∀ (destructors : ℕ → Option ℕ) (cert : Answers) (s u : State) (t : ℕ)
    (resource : ℤ) (field : Field) (var : FieldVar), (machine destructors).Reachable s →
    ppbX509CertificateGetField destructors cert s t resource field = some (u,var) →
    Balanced s u resource := by
  intro h
  obtain ⟨s,u,hs,hu,hblocked⟩ : ∃ s u : State,
      (machine fun _ => some 0).exec (machine fun _ => some 0).start [.allocate 1 28] = some s ∧
      ppbX509CertificateGetField (fun _ => some 0) noSerialNumber s 1 1 .serialNumber =
        some (u,.null) ∧ attempt u 1 ppResourceX509Certificate = .blocked := ⟨_,_,rfl,rfl,rfl⟩
  have hb := h (fun _ => some 0) noSerialNumber s u 1 1 .serialNumber .null
    (Machine.reachable_of_exec hs) hu
  exact hb.available hblocked

end X509Certificate
end FreshPlayer
