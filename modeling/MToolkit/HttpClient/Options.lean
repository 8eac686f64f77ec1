import MToolkit.HttpClient.Response
import MToolkit.Library.Settings
import MToolkit.Library.Strings

/-!
# What a request is launched with

`HTTPClient::Launch` sets the options of a new handle one after the other, from the fields of the
client and from local variables that are empty. `CURLOPT_USERPWD` sets a user name and a password,
and is followed by `CURLOPT_USERNAME` and `CURLOPT_PASSWORD` with the empty ones
(`HTTPClient.options_username`); the cookie and the user agent of the session are not set at all.
So what is given to the setters reaches the request only if it is nothing
(`HTTPClient.reaches_iff`).
-/

namespace MToolkit

open Settings Strings

/-- The options that are set. -/
inductive CurlOption where
  | share
  | dnsCacheTimeout
  | proxy
  | proxyType
  | proxyAuth
  | proxyUserpwd
  | httpHeader
  | connectTimeout
  | timeout
  | url
  | userpwd
  | sslVerifyPeer
  | sslVerifyHost
  | caInfo
  | put
  | post
  | postFields
  | customRequest
  | verbose
  | debugFunction
  | debugData
  | writeData
  | writeFunction
  | headerData
  | headerFunction
  | noSignal
  | maxRedirs
  | forbidReuse
  | followLocation
  | cookie
  | userAgent
  | httpAuth
  | username
  | password
  deriving DecidableEq, Repr

/-- What an option is set to. -/
inductive CurlValue where
  | long (n : Int64) : CurlValue
  | text (s : List Char) : CurlValue
  | headers (s : List (List Char)) : CurlValue
  | proxyType (type : CurlProxyType) : CurlValue
  /-- The shared DNS cache. -/
  | shareHandle
  /-- The client itself. -/
  | client
  | askHeaderFunction
  | writeFunction
  | headerFunction
  deriving DecidableEq, Repr

/-- `HTTP_OPTION_TYPE` -/
inductive HttpOptionType where
  | get
  | put
  | post
  | other
  deriving DecidableEq, Repr

/-- `CURLAUTH_ANY`, which is all bits but one. -/
def curlauthAny : Int64 := -17

/-- `CURLAUTH_BASIC` -/
def curlauthBasic : Int64 := 1

/-- The credentials that `CURLOPT_USERPWD` sets: a user name up to the first colon, and a password
behind it. -/
def credentialsOf (login : List Char) : List (CurlOption × CurlValue) :=
  match find login ':' 0 with
  | none => [(.username, .text login), (.password, .text [])]
  | some pos => [(.username, .text (login.take pos)), (.password, .text (login.drop (pos + 1)))]

/-- **What a call of `curl_easy_setopt` writes.** -/
def setopt (w : CurlOption × CurlValue) : List (CurlOption × CurlValue) :=
  match w with
  | (.userpwd, .text login) => (.userpwd, .text login) :: credentialsOf login
  | w => [w]

namespace HTTPClient

/-! ### The options, in their order -/

/-- `HTTPClient::SetShareDNSCache` -/
def setShareDNSCache : List (CurlOption × CurlValue) :=
  [(.share, .shareHandle), (.dnsCacheTimeout, .long (60 * 5))]

/-- The calls of an `if` without an `else`. -/
def when (p : Bool) (ws : List (CurlOption × CurlValue)) : List (CurlOption × CurlValue) :=
  if p then ws else []

/-- `HTTPClient::SetProxy` without arguments. -/
def setProxyOptions (s : HTTPClient) : List (CurlOption × CurlValue) :=
  when s.proxy.enable <|
    [(.proxy, .text (c_str s.proxy.host)), (.proxyType, .proxyType s.proxy.type),
      (.proxyAuth, .long curlauthAny)] ++
    when (!s.proxy.login.isEmpty) [(.proxyUserpwd, .text (c_str s.proxy.login))]

/-- The options of the session in `HTTPClient::SetSession`, up to the kind of request. -/
def sessionOptions (s : HTTPSession) : List (CurlOption × CurlValue) :=
  let timeout := if s.timeout = 0 then 3 else s.timeout
  let receiveTimeout := if s.receiveTimeout = 0 then 3 else s.receiveTimeout
  when (!s.headers.isEmpty) [(.httpHeader, .headers s.headers)] ++
  [(.connectTimeout, .long timeout), (.timeout, .long receiveTimeout)] ++
  when (!s.url.isEmpty) [(.url, .text (c_str s.url))] ++
  when (!s.login.isEmpty) [(.userpwd, .text (c_str s.login))] ++
  when s.caFile.isEmpty [(.sslVerifyPeer, .long 0), (.sslVerifyHost, .long 0)] ++
  when (!s.caFile.isEmpty)
    [(.caInfo, .text (c_str s.caFile)), (.sslVerifyPeer, .long 1), (.sslVerifyHost, .long 2)]

/-- The options of the kind of request. -/
def kindOptions (s : HTTPSession) : HttpOptionType → List (CurlOption × CurlValue)
  | .get => []
  | .put => [(.put, .long 1)] ++ when (!s.params.isEmpty) [(.postFields, .text (c_str s.params))]
  | .post => [(.post, .long 1)] ++ when (!s.params.isEmpty) [(.postFields, .text (c_str s.params))]
  | .other => [(.customRequest, .text (c_str s.requestOption))]

/-- The callbacks and what follows them. -/
def callbackOptions : List (CurlOption × CurlValue) :=
  [(.verbose, .long 1), (.debugFunction, .askHeaderFunction), (.debugData, .client),
    (.writeData, .client), (.writeFunction, .writeFunction), (.headerData, .client),
    (.headerFunction, .headerFunction), (.noSignal, .long 1), (.maxRedirs, .long 3),
    (.forbidReuse, .long 1)]

/-- The options of the transfer, up to the last block. -/
def transferOptions (s : HTTPSession) : List (CurlOption × CurlValue) :=
  callbackOptions ++ when s.skip [(.followLocation, .long 1)]

/-- The static variable `name` of `HTTPClient::SetSession`, which is never written. -/
def staticName : List Char := []

/-- The static variable `pass`. -/
def staticPass : List Char := []

/-- The static variable `cookie`. -/
def staticCookie : List Char := []

/-- What ends the last block of `HTTPClient::SetSession`. -/
def staticCredentials : List (CurlOption × CurlValue) :=
  [(.httpAuth, .long curlauthBasic), (.username, .text (c_str staticName)),
    (.password, .text (c_str staticPass))]

/-- The last block of `HTTPClient::SetSession`. -/
def staticOptions : List (CurlOption × CurlValue) :=
  when (!staticCookie.isEmpty) [(.cookie, .text (c_str staticCookie))] ++ staticCredentials

/-- `HTTPClient::SetSession` -/
def setSession (s : HTTPSession) (option : HttpOptionType) : List (CurlOption × CurlValue) :=
  sessionOptions s ++ kindOptions s option ++ transferOptions s ++ staticOptions

/-- The calls of `curl_easy_setopt` in `HTTPClient::Launch`, before `curl_easy_perform`. -/
def launchOptions (s : HTTPClient) (option : HttpOptionType) : List (CurlOption × CurlValue) :=
  let s := { s with session := { s.session with count := s.session.count + 1 } }
  let s := (s.initializeClient true).2
  setShareDNSCache ++ s.setProxyOptions ++ setSession s.session option

/-- **The options of the handle** that `HTTPClient::Launch` performs. -/
def launchHandle (s : HTTPClient) (option : HttpOptionType) : CurlOption → Option CurlValue :=
  settled ((s.launchOptions option).flatMap setopt)

/-- The handle that a request performs: `Get`, `Put`, `Post` or `Request`. -/
def requestHandle (s : HTTPClient) : HttpOptionType → CurlOption → Option CurlValue
  | .get => (s.setRequestOption ['G', 'E', 'T']).launchHandle .get
  | .put => (s.setRequestOption ['P', 'U', 'T']).launchHandle .put
  | .post => (s.setRequestOption ['P', 'O', 'S', 'T']).launchHandle .post
  | .other => s.launchHandle .other

/-! ### What they are in the end -/

variable {s : HTTPClient} {k : CurlOption} {ws ws' : List (CurlOption × CurlValue)}

/-- The option is in none of the writes. -/
def Unset (k : CurlOption) (ws : List (CurlOption × CurlValue)) : Prop := ∀ w ∈ ws, w.1 ≠ k

@[simp] theorem unset_nil : Unset k [] := fun _ h => absurd h List.not_mem_nil

@[simp] theorem unset_cons {w : CurlOption × CurlValue} :
    Unset k (w :: ws) ↔ w.1 ≠ k ∧ Unset k ws := List.forall_mem_cons

@[simp] theorem unset_append : Unset k (ws ++ ws') ↔ Unset k ws ∧ Unset k ws' :=
  List.forall_mem_append

@[simp] theorem unset_when {p : Bool} : Unset k (when p ws) ↔ (p = true → Unset k ws) := by
  cases p <;> simp [when]

/-- A call writes an option other than its own only where it sets credentials. -/
theorem Unset.flatMap_setopt (h : Unset k ws) (huser : k ≠ .username) (hpass : k ≠ .password) :
    Unset k (ws.flatMap setopt) := by
  intro w hw
  obtain ⟨u, hu, hwu⟩ := List.mem_flatMap.mp hw
  have hne := h u hu
  unfold setopt at hwu
  split at hwu
  · next login =>
    have hkeys : w.1 = .userpwd ∨ w.1 = .username ∨ w.1 = .password := by
      unfold credentialsOf at hwu
      split at hwu <;> simp only [List.mem_cons, List.not_mem_nil, or_false] at hwu <;>
        rcases hwu with rfl | rfl | rfl <;> simp
    rcases hkeys with h | h | h <;> rw [h]
    · exact hne
    · exact huser.symm
    · exact hpass.symm
  · rw [List.mem_singleton.mp hwu]
    exact hne

/-- The options of a launch end with those of the last block. -/
theorem exists_launchOptions (s : HTTPClient) (option : HttpOptionType) :
    ∃ ws, s.launchOptions option = ws ++ staticOptions := by
  rw [launchOptions, setSession, ← List.append_assoc]
  exact ⟨_, rfl⟩

/-- **The user name and the password are the empty ones** of the last block. -/
theorem launchHandle_credentials (s : HTTPClient) (option : HttpOptionType) :
    s.launchHandle option .username = some (.text []) ∧
      s.launchHandle option .password = some (.text []) := by
  obtain ⟨ws, hws⟩ := exists_launchOptions s option
  have hsplit : (s.launchOptions option).flatMap setopt =
      ws.flatMap setopt ++ [(.httpAuth, .long curlauthBasic)] ++ [(.username, .text [])] ++
        [(.password, .text [])] := by
    rw [hws, List.flatMap_append, List.append_assoc, List.append_assoc]
    rfl
  constructor
  · rw [launchHandle, hsplit, settled_append_of_forall _ (by simp), settled_concat_self]
  · rw [launchHandle, hsplit, settled_concat_self]

/-- **No cookie and no user agent are set.** -/
theorem unset_setSession (s : HTTPSession) (option : HttpOptionType)
    (hk : k = .cookie ∨ k = .userAgent) : Unset k (setSession s option) := by
  have hsession : Unset k (sessionOptions s) := by
    rcases hk with rfl | rfl <;> simp [sessionOptions]
  have hkind : Unset k (kindOptions s option) := by
    rcases hk with rfl | rfl <;> cases option <;> simp [kindOptions]
  have htransfer : Unset k (transferOptions s) := by
    rcases hk with rfl | rfl <;> simp [transferOptions, callbackOptions]
  have hstatic : Unset k staticOptions := by
    rcases hk with rfl | rfl <;> simp [staticOptions, staticCredentials, staticCookie]
  exact unset_append.mpr ⟨unset_append.mpr ⟨unset_append.mpr ⟨hsession, hkind⟩, htransfer⟩, hstatic⟩

theorem launchHandle_eq_none (s : HTTPClient) (option : HttpOptionType)
    (hk : k = .cookie ∨ k = .userAgent) : s.launchHandle option k = none := by
  have hshare : Unset k setShareDNSCache := by
    rcases hk with rfl | rfl <;> simp [setShareDNSCache]
  have hproxy : ∀ s : HTTPClient, Unset k s.setProxyOptions := by
    intro s
    rcases hk with rfl | rfl <;> simp [setProxyOptions]
  have hunset : Unset k (s.launchOptions option) :=
    unset_append.mpr ⟨unset_append.mpr ⟨hshare, hproxy _⟩, unset_setSession _ option hk⟩
  refine settled_eq_none (hunset.flatMap_setopt ?_ ?_)
  · rcases hk with rfl | rfl <;> nofun
  · rcases hk with rfl | rfl <;> nofun

/-! ### What has been given to the setters -/

/-- What has been given to the setters last, and not been cleared since. -/
structure Given where
  user : List Char := []
  pass : List Char := []
  cookie : List Char := []
  userAgent : List Char := []

/-- What a call gives. -/
def Given.note (g : Given) : Call → Given
  | .setLogin user pass => { g with user := user, pass := pass }
  | .setCookie cookie => { g with cookie := cookie }
  | .setUserAgent userAgent => { g with userAgent := userAgent }
  | .clear => {}
  | .clearSession => {}
  | _ => g

def given (calls : List Call) : Given := calls.foldl Given.note {}

/-- What the session keeps of it. -/
def kept (s : HTTPClient) : Given where
  user := s.session.user
  pass := s.session.pass
  cookie := s.session.cookie
  userAgent := s.session.userAgent

/-- A launch leaves it alone. -/
theorem kept_launch (s : HTTPClient) (exchange : Option Exchange) :
    (s.launch exchange).2.kept = s.kept := by
  cases exchange with
  | none => rfl
  | some exchange =>
    rw [launch, perform_eq rfl, conclude]
    split_ifs <;> rfl

/-- **The session keeps what is given**, call by call. -/
theorem kept_call (s : HTTPClient) (c : Call) : (s.call c).kept = s.kept.note c := by
  cases c with
  | get exchange => exact kept_launch _ exchange
  | put exchange => exact kept_launch _ exchange
  | post exchange => exact kept_launch _ exchange
  | request exchange => exact kept_launch _ exchange
  | _ => rfl

theorem kept_after (calls : List Call) : (after calls).kept = given calls := by
  induction calls using List.reverseRecOn with
  | nil => rfl
  | append_singleton calls c ih =>
    rw [after, given, List.foldl_append, List.foldl_append]
    rw [after, given] at ih
    rw [← ih]
    exact kept_call _ c

/-- **What is given reaches the handle**: the user name and the password, of a user without a colon,
the cookie and the user agent, each if it is not empty. -/
structure Reaches (g : Given) (handle : CurlOption → Option CurlValue) : Prop where
  username : ':' ∉ g.user → g.user ≠ [] → handle .username = some (.text g.user)
  password : ':' ∉ g.user → g.pass ≠ [] → handle .password = some (.text g.pass)
  cookie : g.cookie ≠ [] → handle .cookie = some (.text g.cookie)
  userAgent : g.userAgent ≠ [] → handle .userAgent = some (.text g.userAgent)

/-- There is **nothing to reach** the request. -/
structure Given.Nothing (g : Given) : Prop where
  login : ':' ∉ g.user → g.user = [] ∧ g.pass = []
  cookie : g.cookie = []
  userAgent : g.userAgent = []

theorem requestHandle_eq (s : HTTPClient) (option : HttpOptionType) :
    ∃ u, s.requestHandle option = launchHandle u option := by
  cases option <;> exact ⟨_, rfl⟩

/-- An option that is not set, or set to the empty text, is what is given when nothing is. -/
theorem eq_nil_iff_of_lost {value : Option CurlValue} {x : List Char}
    (h : value = none ∨ value = some (.text [])) : (x ≠ [] → value = some (.text x)) ↔ x = [] := by
  constructor
  · intro hx
    by_contra hne
    have hvalue := hx hne
    rcases h with h | h
    · rw [h] at hvalue
      cases hvalue
    · rw [h, Option.some.injEq, CurlValue.text.injEq] at hvalue
      exact hne hvalue.symm
  · exact fun hnil hne => absurd hnil hne

/-- **Settings reach the request** just when nothing has been given that could, although the session
keeps them. -/
theorem reaches_iff (calls : List Call) (option : HttpOptionType) :
    (after calls).kept = given calls ∧
      (Reaches (given calls) ((after calls).requestHandle option) ↔ (given calls).Nothing) := by
  refine ⟨kept_after calls, ?_⟩
  obtain ⟨u, hu⟩ := requestHandle_eq (after calls) option
  obtain ⟨huser, hpass⟩ := launchHandle_credentials u option
  have hcookie := launchHandle_eq_none u option (k := .cookie) (.inl rfl)
  have hagent := launchHandle_eq_none u option (k := .userAgent) (.inr rfl)
  rw [hu]
  generalize given calls = g
  have huser' := eq_nil_iff_of_lost (x := g.user) (.inr huser)
  have hpass' := eq_nil_iff_of_lost (x := g.pass) (.inr hpass)
  have hcookie' := eq_nil_iff_of_lost (x := g.cookie) (.inl hcookie)
  have hagent' := eq_nil_iff_of_lost (x := g.userAgent) (.inl hagent)
  constructor
  · intro h
    exact
      { login := fun hcolon => ⟨huser'.mp (h.username hcolon), hpass'.mp (h.password hcolon)⟩
        cookie := hcookie'.mp h.cookie
        userAgent := hagent'.mp h.userAgent }
  · intro h
    exact
      { username := fun hcolon => huser'.mpr (h.login hcolon).1
        password := fun hcolon => hpass'.mpr (h.login hcolon).2
        cookie := hcookie'.mpr h.cookie
        userAgent := hagent'.mpr h.userAgent }

/-- A user and a password: the request is performed with empty ones. -/
theorem reaches_login :
    ¬Reaches (given [.setLogin ['u'] ['p']])
      ((after [.setLogin ['u'] ['p']]).requestHandle .get) := by
  intro h
  obtain ⟨u, hu⟩ := requestHandle_eq (after [.setLogin ['u'] ['p']]) .get
  have hname := h.username (by decide) (by decide)
  rw [hu, (launchHandle_credentials u .get).1] at hname
  exact absurd hname (by decide)

end HTTPClient

end MToolkit
