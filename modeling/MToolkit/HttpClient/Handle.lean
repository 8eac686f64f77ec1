import MToolkit.HttpClient.Options

/-!
# What a request depends on

The options of the handle that a request performs are a function of a few fields of the client
(`HTTPClient.requested`), and tell them all (`HTTPClient.requestHandle_eq_iff`): two clients
perform equal handles just when they agree on what there is in this table.

| field | how it counts |
|---|---|
| the proxy, with its type | only where it is enabled, with its credentials where they are not empty |
| the headers | all of them, in their order |
| the two timeouts | 0 is 3 |
| the URL, the credentials, the file of certificates | as C strings, where they are not empty |
| the parameters | for `Put` and `Post`, as a C string, where they are not empty |
| the kind of request | for `Request`, as a C string |
| whether redirections are followed | |

All others do not count: the user and the password apart from the credentials made of them, the
cookie, the user agent, the verbosity, the counters, and what is left of a response.
-/

namespace MToolkit

open Settings Strings

/-- **What a request is made of.** -/
structure Requested where
  /-- The host, its type and the credentials, where there is a proxy. -/
  proxy : Option (List Char × CurlProxyType × Option (List Char))
  headers : List (List Char)
  timeout : Int64
  receiveTimeout : Int64
  url : Option (List Char)
  login : Option (List Char)
  caFile : Option (List Char)
  params : Option (List Char)
  requestOption : Option (List Char)
  skip : Bool
  deriving DecidableEq

/-- A text that counts where it is not empty. -/
def textOf (s : List Char) : Option (List Char) := if s.isEmpty then none else some (c_str s)

/-- A timeout, which is three seconds where none is given. -/
def timeoutOf (timeout : Int64) : Int64 := if timeout = 0 then 3 else timeout

/-- The handle of a request. -/
def Requested.handle (r : Requested) (option : HttpOptionType) : CurlOption → Option CurlValue
  | .share => some .shareHandle
  | .dnsCacheTimeout => some (.long 300)
  | .proxy => r.proxy.map fun p => .text p.1
  | .proxyType => r.proxy.map fun p => .proxyType p.2.1
  | .proxyAuth => r.proxy.map fun _ => .long curlauthAny
  | .proxyUserpwd => (r.proxy.bind fun p => p.2.2).map .text
  | .httpHeader => if r.headers = [] then none else some (.headers r.headers)
  | .connectTimeout => some (.long r.timeout)
  | .timeout => some (.long r.receiveTimeout)
  | .url => r.url.map .text
  | .userpwd => r.login.map .text
  | .sslVerifyPeer => some (.long (if r.caFile = none then 0 else 1))
  | .sslVerifyHost => some (.long (if r.caFile = none then 0 else 2))
  | .caInfo => r.caFile.map .text
  | .put => if option = .put then some (.long 1) else none
  | .post => if option = .post then some (.long 1) else none
  | .postFields => r.params.map .text
  | .customRequest => r.requestOption.map .text
  | .verbose => some (.long 1)
  | .debugFunction => some .askHeaderFunction
  | .debugData => some .client
  | .writeData => some .client
  | .writeFunction => some .writeFunction
  | .headerData => some .client
  | .headerFunction => some .headerFunction
  | .noSignal => some (.long 1)
  | .maxRedirs => some (.long 3)
  | .forbidReuse => some (.long 1)
  | .followLocation => if r.skip then some (.long 1) else none
  | .cookie => none
  | .userAgent => none
  | .httpAuth => some (.long curlauthBasic)
  | .username => some (.text [])
  | .password => some (.text [])

/-- The handle tells what the request is made of. -/
theorem Requested.handle_injective (option : HttpOptionType) :
    Function.Injective fun r : Requested => r.handle option := by
  rintro r r' h
  have hk : ∀ k, r.handle option k = r'.handle option k := fun k => congrFun h k
  have htext : Function.Injective CurlValue.text := fun _ _ h => CurlValue.text.inj h
  have hproxy : r.proxy = r'.proxy := by
    have hhost := hk .proxy
    have htype := hk .proxyType
    have hlogin := hk .proxyUserpwd
    simp only [handle] at hhost htype hlogin
    cases hp : r.proxy with
    | none =>
      cases hp' : r'.proxy with
      | none => rfl
      | some p' => simp [hp, hp'] at hhost
    | some p =>
      cases hp' : r'.proxy with
      | none => simp [hp, hp'] at hhost
      | some p' =>
        rw [hp, hp'] at hhost htype hlogin
        simp only [Option.map_some, Option.some.injEq, CurlValue.text.injEq] at hhost
        simp only [Option.map_some, Option.some.injEq, CurlValue.proxyType.injEq] at htype
        have hcredentials := Option.map_injective htext hlogin
        exact congrArg some (Prod.ext hhost (Prod.ext htype hcredentials))
  have hheaders : r.headers = r'.headers := by
    have h := hk .httpHeader
    simp only [handle] at h
    split_ifs at h with hnil hnil' hnil'
    · rw [hnil, hnil']
    · exact CurlValue.headers.inj (Option.some.inj h)
  have hskip : r.skip = r'.skip := by
    have h := hk .followLocation
    simp only [handle] at h
    cases hs : r.skip <;> cases hs' : r'.skip <;> simp [hs, hs'] at h ⊢
  have htimeout := CurlValue.long.inj (Option.some.inj (hk .connectTimeout))
  have hreceive := CurlValue.long.inj (Option.some.inj (hk .timeout))
  have hurl := Option.map_injective htext (hk .url)
  have hlogin := Option.map_injective htext (hk .userpwd)
  have hcaFile := Option.map_injective htext (hk .caInfo)
  have hparams := Option.map_injective htext (hk .postFields)
  have hoption := Option.map_injective htext (hk .customRequest)
  cases r
  cases r'
  simp_all only

namespace HTTPClient

/-- **What a client requests.** -/
def requested (s : HTTPClient) (option : HttpOptionType) : Requested where
  proxy :=
    if s.proxy.enable then some (c_str s.proxy.host, s.proxy.type, textOf s.proxy.login) else none
  headers := s.session.headers
  timeout := timeoutOf s.session.timeout
  receiveTimeout := timeoutOf s.session.receiveTimeout
  url := textOf s.session.url
  login := textOf s.session.login
  caFile := textOf s.session.caFile
  params := if option = .put ∨ option = .post then textOf s.session.params else none
  requestOption := if option = .other then some (c_str s.session.requestOption) else none
  skip := s.session.skip

variable {k : CurlOption}

/-! ### The blocks of options -/

/-- Options that are set on a condition. -/
theorem settled_when (p : Bool) (ws : List (CurlOption × CurlValue)) (k : CurlOption) :
    settled (when p ws) k = if p then settled ws k else none := by
  cases p <;> rfl

/-- What one call writes, apart from the user name and the password. -/
theorem settled_setopt (w : CurlOption × CurlValue) (huser : k ≠ .username)
    (hpass : k ≠ .password) : settled (setopt w) k = settled [w] k := by
  unfold setopt
  split
  · next login =>
    have hkeys : ∀ w ∈ credentialsOf login, w.1 ≠ k := by
      intro w hw
      unfold credentialsOf at hw
      split at hw <;> simp only [List.mem_cons, List.not_mem_nil, or_false] at hw <;>
        rcases hw with rfl | rfl <;> first | exact huser.symm | exact hpass.symm
    rw [settled_cons, settled_eq_none hkeys, settled_cons, settled_nil]
  · rfl

/-- **The other options are those of the calls.** -/
theorem settled_flatMap_setopt (ws : List (CurlOption × CurlValue)) (huser : k ≠ .username)
    (hpass : k ≠ .password) : settled (ws.flatMap setopt) k = settled ws k := by
  induction ws with
  | nil => rfl
  | cons w ws ih =>
    rw [List.flatMap_cons, settled_append, ih, settled_setopt w huser hpass, ← settled_append,
      List.singleton_append]

/-- The options of the kind of request, as conditions. -/
theorem kindOptions_eq (s : HTTPSession) (option : HttpOptionType) :
    kindOptions s option =
      when (option = .put) [(.put, .long 1)] ++ when (option = .post) [(.post, .long 1)] ++
        when ((option = .put ∨ option = .post) && !s.params.isEmpty)
          [(.postFields, .text (c_str s.params))] ++
        when (option = .other) [(.customRequest, .text (c_str s.requestOption))] := by
  cases option <;> simp [kindOptions, when]

theorem launchOptions_eq (s : HTTPClient) (option : HttpOptionType) :
    s.launchOptions option =
      setShareDNSCache ++ s.setProxyOptions ++ (sessionOptions s.session ++
        kindOptions s.session option ++ transferOptions s.session ++ staticOptions) :=
  rfl

/-- **The handle of a launch.** -/
theorem launchHandle_eq (s : HTTPClient) (option : HttpOptionType) :
    s.launchHandle option = (s.requested option).handle option := by
  funext k
  by_cases huser : k = .username
  · rw [huser, (launchHandle_credentials s option).1]
    rfl
  by_cases hpass : k = .password
  · rw [hpass, (launchHandle_credentials s option).2]
    rfl
  rw [launchHandle, settled_flatMap_setopt _ huser hpass, launchOptions_eq, kindOptions_eq]
  cases k <;> simp [setShareDNSCache, setProxyOptions, sessionOptions, transferOptions,
    callbackOptions, staticOptions, staticCredentials, staticCookie, settled_append, settled_cons,
    settled_when, Requested.handle, requested, textOf, timeoutOf]
  case neg.username => exact absurd rfl huser
  case neg.password => exact absurd rfl hpass
  case neg.sslVerifyPeer => exact (em _).symm
  case neg.sslVerifyHost => exact (em _).symm
  all_goals split_ifs <;> simp_all

/-- The kind that `Get`, `Put` and `Post` set is not looked at. -/
theorem requestHandle_eq_handle (s : HTTPClient) (option : HttpOptionType) :
    s.requestHandle option = (s.requested option).handle option := by
  cases option <;> exact launchHandle_eq _ _

/-- **Two requests are performed with equal handles** just when the clients request the same. -/
theorem requestHandle_eq_iff (s u : HTTPClient) (option : HttpOptionType) :
    s.requestHandle option = u.requestHandle option ↔ s.requested option = u.requested option := by
  rw [requestHandle_eq_handle, requestHandle_eq_handle]
  exact (Requested.handle_injective option).eq_iff

end HTTPClient

end MToolkit
