import FreshPlayer.PostData
import FreshPlayer.UriParser

/-! Handing the request of a loader to the browser. The result of `url_loader_open_ptac`
comes back in a struct that nobody clears, and one of its paths does not set it. -/
namespace FreshPlayer
namespace UrlLoaderOpen

open PostData UriParser

variable {τ : Type*}

def ppOk : ℤ := 0
def ppOkCompletionpending : ℤ := -1
def ppErrorFailed : ℤ := -2
def ppErrorBadresource : ℤ := -5

def nperrNoError : ℤ := 0
def nperrInvalidInstanceError : ℤ := 2

inductive Method
  | unknown | get | post
  deriving DecidableEq, Repr

structure RequestInfo (τ : Type*) where
  url : Text
  isImmediateJavascript : Bool
  method : Method
  headers : Option Text
  customReferrerUrl : Option Text
  customContentTransferEncoding : Option Text
  customUserAgent : Option Text
  postData : List (PostDataItem τ)

/-- `url` is also left NULL by a redirect to nowhere. -/
structure Loader (τ : Type*) where
  url : Option Text
  redirectUrl : Option Text
  method : Method
  requestHeaders : Option Text
  customReferrerUrl : Option Text
  customContentTransferEncoding : Option Text
  customUserAgent : Option Text
  target : Option Text
  postData : Option (List (PostDataItem τ))

/-- A call of `NPN_GetURL`, `NPN_PostURL` and their notifying variants. -/
inductive BrowserCall
  | getUrl (url : Option Text) (target : Text)
  | getUrlNotify (url : Option Text)
  | postUrl (url : Option Text) (target buf : Text)
  | postUrlNotify (url : Option Text) (buf : Text)
  deriving DecidableEq, Repr

/-- What the code finds: whether the instance is there, with the URL its document is
relative to; whether the loop of the calling thread takes the task; what the browser
answers; and what is in the field `retval` of the struct when it is allocated. -/
structure Surroundings (τ : Type*) where
  instanceUrl : Option Text
  files : Files τ
  accepted : Bool
  browser : BrowserCall → ℤ
  stale : ℤ

/-- What has been done: requests handed to the browser, the references on the loader taken
and dropped, and the quits posted. -/
structure Effects where
  handed : List BrowserCall
  taken : ℕ
  dropped : ℕ
  quits : ℕ
  deriving DecidableEq, Repr

def nothing : Effects := ⟨[],0,0,0⟩

/-- The loader is kept until it has been opened. -/
def loaderHeld : Effects := { nothing with taken := 1 }

/-- The label `quit`. -/
def quit (e : Effects) : Effects := { e with dropped := e.dropped+1, quits := e.quits+1 }

def crlf : Text := [13,10]

def headerLines (l : Loader τ) (postLen : ℕ) : List Text :=
  l.requestHeaders.toList ++
    (l.customReferrerUrl.map (bytes "Referer: " ++ ·)).toList ++
    (l.customContentTransferEncoding.map (bytes "Content-Transfer-Encoding: " ++ ·)).toList ++
    (l.customUserAgent.map (bytes "User-Agent: " ++ ·)).toList ++
    if 0 < postLen then [bytes "Content-Length: " ++ bytes (toString postLen)] else []

/-- The header block with the empty line behind it. -/
def headerBlock (l : Loader τ) (postLen : ℕ) : Text :=
  let lines := headerLines l postLen
  lines.flatMap (· ++ crlf) ++ if lines ≠ [] then crlf else []

def hand (w : Surroundings τ) (e : Effects) (c : BrowserCall) : Effects × ℤ :=
  (quit { e with handed := e.handed ++ [c] },w.browser c)

def postRequest (w : Surroundings τ) (e : Effects) (l : Loader τ) (buf : Text) : Effects × ℤ :=
  match l.target with
  | some target => hand w e (.postUrl l.url target buf)
  | none => hand w e (.postUrlNotify l.url buf)

def getRequest (w : Surroundings τ) (e : Effects) (l : Loader τ) : Effects × ℤ :=
  match l.target with
  | some target => hand w e (.getUrl l.url target)
  | none => hand w e (.getUrlNotify l.url)

/-- The end of both functions; without a callback they wait for the end of the load. -/
def openResult (callback : Bool) (retval : ℤ) : ℤ :=
  if retval ≠ nperrNoError then ppErrorFailed
  else if callback then ppOkCompletionpending else ppOk

/-- Pending only with an accepted request, failed without one, and the reference and the
quit are dealt with once. -/
structure Answered (w : Surroundings τ) (r : Effects × ℤ) : Prop where
  pending : r.2 = ppOkCompletionpending → ∃ c ∈ r.1.handed, w.browser c = nperrNoError
  failed : (∀ c ∈ r.1.handed, w.browser c ≠ nperrNoError) → r.2 = ppErrorFailed
  dropped : r.1.dropped = 1
  quits : r.1.quits = 1

theorem answered_hand (w : Surroundings τ) (c : BrowserCall) :
    Answered w ((hand w loaderHeld c).1,openResult true (hand w loaderHeld c).2) := by
  by_cases hc : w.browser c = nperrNoError
  · refine ⟨fun _ => ⟨c,List.mem_singleton_self c,hc⟩,fun h => ?_,rfl,rfl⟩
    exact absurd hc (h c (List.mem_singleton_self c))
  · refine ⟨fun h => ?_,fun _ => if_pos hc,rfl,rfl⟩
    rw [hand,openResult,if_pos hc] at h
    cases h

theorem answered_postRequest (w : Surroundings τ) (l : Loader τ) (buf : Text) :
    Answered w ((postRequest w loaderHeld l buf).1,
      openResult true (postRequest w loaderHeld l buf).2) := by
  unfold postRequest
  cases l.target with
  | none => exact answered_hand w _
  | some target => exact answered_hand w _

theorem answered_getRequest (w : Surroundings τ) (l : Loader τ) :
    Answered w ((getRequest w loaderHeld l).1,openResult true (getRequest w loaderHeld l).2) := by
  unfold getRequest
  cases l.target with
  | none => exact answered_hand w _
  | some target => exact answered_hand w _

/-- Where nothing is handed to the browser the result decides. -/
theorem answered_quit {w : Surroundings τ} {retval : ℤ} :
    Answered w (quit loaderHeld,openResult true retval) ↔ retval ≠ nperrNoError := by
  constructor
  · intro h he
    have hfailed := h.failed fun c hc => absurd hc List.not_mem_nil
    rw [openResult,if_neg (not_not.mpr he)] at hfailed
    cases hfailed
  · intro h
    refine ⟨fun hp => ?_,fun _ => if_pos h,rfl,rfl⟩
    rw [openResult,if_pos h] at hp
    cases hp

-- times are compared only
variable [DecidableEq τ] [Zero τ]

/-- With the value of `retval`, which a POST whose data has no length leaves as it was;
`none` as long as so many turns do not end the copying of its files. -/
def urlLoaderOpenPtac (turns : ℕ) (w : Surroundings τ) (e : Effects) (l : Loader τ) :
    Option (Effects × ℤ) :=
  if w.instanceUrl = none then some (quit e,nperrInvalidInstanceError)
  else if l.method = .post then
    match l.postData with
    | none => some (postRequest w e l (headerBlock l 0))
    | some postData =>
      let postLen := postDataGetAllItemLength w.files postData
      if postLen = sizeError then some (quit e,w.stale)
      else (writePostData turns w.files postData (headerBlock l postLen)).map (postRequest w e l)
  else some (getRequest w e l)

/-- The synchronous call of `url_loader_open_ptac`. A task that the loop does not take is not
run, and the wait for it ends without. -/
def urlLoaderOpen (turns : ℕ) (w : Surroundings τ) (l : Loader τ) : Option (Effects × ℤ) :=
  if w.accepted then urlLoaderOpenPtac turns w loaderHeld l else some (loaderHeld,w.stale)

def trimNl (s : Text) : Text := s.rdropWhile fun c => c = 10 || c = 13

/-- The URL is resolved with that of the document. -/
def fullUrl (w : Surroundings τ) (ri : RequestInfo τ) : Text :=
  if ri.isImmediateJavascript then ri.url
  else (w.instanceUrl.map (uriParserMergeUris · ri.url)).getD []

/-- `first` is set for the loader that is kept for the stream with the plugin content. -/
def ppbUrlLoaderOpenTarget (turns : ℕ) (w : Surroundings τ) (loader : Option (Loader τ))
    (requestInfo : Option (RequestInfo τ)) (first callback : Bool) (target : Option Text) :
    Option (Effects × ℤ) :=
  match loader, requestInfo with
  | some ul, some ri =>
    let ul := { ul with
      url := some (fullUrl w ri), method := ri.method
      requestHeaders := ri.headers.map trimNl
      customReferrerUrl := ri.customReferrerUrl.map trimNl
      customContentTransferEncoding := ri.customContentTransferEncoding.map trimNl
      customUserAgent := ri.customUserAgent.map trimNl
      target := target, postData := some ri.postData }
    if first then some (nothing,ppOkCompletionpending)
    else (urlLoaderOpen turns w ul).map fun r => (r.1,openResult callback r.2)
  | _, _ => some (nothing,ppErrorBadresource)

def ppbUrlLoaderFollowRedirect (turns : ℕ) (w : Surroundings τ) (loader : Option (Loader τ))
    (callback : Bool) : Option (Effects × ℤ) :=
  match loader with
  | some ul =>
    let ul := { ul with
      url := ul.redirectUrl, redirectUrl := none, requestHeaders := none, method := .get
      target := none, postData := none }
    (urlLoaderOpen turns w ul).map fun r => (r.1,openResult callback r.2)
  | none => some (nothing,ppErrorBadresource)

/-! Outcomes. -/

/-- The request is not one that is kept; its task is taken; a POST whose data has no length
finds an error in the struct; and its files are copied in the end. -/
structure Settles (w : Surroundings τ) (ri : RequestInfo τ) (first : Bool) : Prop where
  handedOn : first = false
  accepted : w.accepted = true
  stale : w.instanceUrl ≠ none → ri.method = .post →
    postDataGetAllItemLength w.files ri.postData = sizeError → w.stale ≠ nperrNoError
  ends : w.instanceUrl ≠ none → ri.method = .post →
    postDataGetAllItemLength w.files ri.postData ≠ sizeError →
    ∀ pdi ∈ ri.postData, WriteEnds w.files pdi

/-- A loader opened with this answer of the task. -/
def Opened (w : Surroundings τ) (f : ℕ → Option (Effects × ℤ)) : Prop :=
  ∃ turns r, f turns = some r ∧ Answered w (r.1,openResult true r.2)

omit [DecidableEq τ] [Zero τ] in
theorem opened_const {w : Surroundings τ} {r : Effects × ℤ} :
    Opened w (fun _ => some r) ↔ Answered w (r.1,openResult true r.2) := by
  simp [Opened]

/-- A POST with data is answered if the result is set and the copying ends. -/
theorem ptac_post_opened_iff {w : Surroundings τ} {l : Loader τ} {items : List (PostDataItem τ)}
    (hi : w.instanceUrl ≠ none) (hm : l.method = .post) (hd : l.postData = some items) :
    Opened w (urlLoaderOpenPtac · w loaderHeld l) ↔
      (postDataGetAllItemLength w.files items = sizeError → w.stale ≠ nperrNoError) ∧
      (postDataGetAllItemLength w.files items ≠ sizeError →
        ∀ pdi ∈ items, WriteEnds w.files pdi) := by
  by_cases hlen : postDataGetAllItemLength w.files items = sizeError
  · have hf : (urlLoaderOpenPtac · w loaderHeld l) = fun _ => some (quit loaderHeld,w.stale) := by
      funext n
      simp [urlLoaderOpenPtac,hi,hm,hd,hlen]
    rw [hf,opened_const,answered_quit]
    exact ⟨fun h => ⟨fun _ => h,fun hne => absurd hlen hne⟩,fun h => h.1 hlen⟩
  · have hf : (urlLoaderOpenPtac · w loaderHeld l) = fun n =>
        (writePostData n w.files items
          (headerBlock l (postDataGetAllItemLength w.files items))).map
          (postRequest w loaderHeld l) := by
      funext n
      simp [urlLoaderOpenPtac,hi,hm,hd,hlen]
    rw [hf]
    constructor
    · rintro ⟨n,r,hr,_⟩
      obtain ⟨t,ht,_⟩ := Option.map_eq_some_iff.mp hr
      exact ⟨fun h => absurd h hlen,fun _ => (writePostData_ends_iff ..).mp ⟨n,t,ht⟩⟩
    · rintro ⟨_,h⟩
      obtain ⟨n,t,ht⟩ := (writePostData_ends_iff ..).mpr (h hlen)
      exact ⟨n,_,Option.map_eq_some_iff.mpr ⟨t,ht,rfl⟩,answered_postRequest w l t⟩

/-- The other paths of `url_loader_open_ptac` set the result. -/
theorem ptac_opened_iff (w : Surroundings τ) (l : Loader τ) :
    Opened w (urlLoaderOpenPtac · w loaderHeld l) ↔
      (w.instanceUrl ≠ none → l.method = .post → ∀ items ∈ l.postData,
        (postDataGetAllItemLength w.files items = sizeError → w.stale ≠ nperrNoError) ∧
        (postDataGetAllItemLength w.files items ≠ sizeError →
          ∀ pdi ∈ items, WriteEnds w.files pdi)) := by
  by_cases hi : w.instanceUrl = none
  · have hf : (urlLoaderOpenPtac · w loaderHeld l) =
        fun _ => some (quit loaderHeld,nperrInvalidInstanceError) := by
      funext n
      exact if_pos hi
    rw [hf,opened_const]
    exact iff_of_true (answered_quit.mpr (by decide)) fun h => absurd hi h
  · by_cases hm : l.method = .post
    · cases hd : l.postData with
      | none =>
        have hf : (urlLoaderOpenPtac · w loaderHeld l) =
            fun _ => some (postRequest w loaderHeld l (headerBlock l 0)) := by
          funext n
          simp [urlLoaderOpenPtac,hi,hm,hd]
        rw [hf,opened_const]
        exact iff_of_true (answered_postRequest w l _) fun _ _ _ h => (by cases h)
      | some items =>
        rw [ptac_post_opened_iff hi hm hd]
        exact ⟨fun h _ _ items' he => Option.some.inj he ▸ h,fun h => h hi hm items rfl⟩
    · have hf : (urlLoaderOpenPtac · w loaderHeld l) =
          fun _ => some (getRequest w loaderHeld l) := by
        funext n
        simp [urlLoaderOpenPtac,hi,hm]
      rw [hf,opened_const]
      exact iff_of_true (answered_getRequest w l) fun _ h => absurd h hm

/-- A task that is not taken drops no reference. -/
theorem open_opened_iff (w : Surroundings τ) (l : Loader τ) :
    Opened w (urlLoaderOpen · w l) ↔
      w.accepted = true ∧ Opened w (urlLoaderOpenPtac · w loaderHeld l) := by
  unfold urlLoaderOpen
  cases ha : w.accepted with
  | true => simp
  | false =>
    simp only [Bool.false_eq_true,if_false,false_and,iff_false,opened_const]
    intro h
    exact absurd h.dropped Nat.zero_ne_one

/-- No file can be queried, and the struct is cleared when it is allocated. -/
def clearStruct : Surroundings ℕ := ⟨some [],fun _ => none,true,fun _ => 0,0⟩

/-- A POST of a file. -/
def postFile : RequestInfo ℕ :=
  ⟨[],false,.post,none,none,none,none,[⟨[],1,0,-1,0,noData_lt,toTheEnd_lt⟩]⟩

end UrlLoaderOpen
end FreshPlayer
