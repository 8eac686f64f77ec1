import MToolkit.HttpClient.Handle
import Mathlib.Data.List.DropRight

/-!
# What is forgotten, and what is counted

`HTTPClient::Clear` makes a client that acts as a new one (`HTTPClient.clear_forgets`): the later
calls return the same and perform the same handles. What is left over of the calls before it is a
part of the response: its URL until the next `SetUrl`, and the address and the length of a body
until the next exchange with a body.

The counters of the session are those of the requests since the last `Clear` or `ClearSession`
(`HTTPClient.counters_after`), each of which is counted as one launch, and as one success, one
failure or one error.
-/

namespace MToolkit

open Settings

/-- The address and the length of a body, as a response has them. -/
def HTTPResponse.origin (r : HTTPResponse) : List Char × UInt64 := (r.host, r.contentLengthZip)

namespace HTTPClient

/-- What a request of a call comes to, where the call is a request. -/
def Call.launches : Call → Option (Option Exchange)
  | .get exchange => some exchange
  | .put exchange => some exchange
  | .post exchange => some exchange
  | .request exchange => some exchange
  | _ => none

variable {s u : HTTPClient}

/-! ### What a clear forgets -/

/-- A client with other remains of earlier responses. -/
def leaving (s : HTTPClient) (url host : List Char) (zip : UInt64) : HTTPClient :=
  { s with response := { s.response with url := url, host := host, contentLengthZip := zip } }

/-- **Clients that act alike**: they differ in what `HTTPResponse::Clear` leaves alone. -/
def Alike (s u : HTTPClient) : Prop := ∃ url host zip, s = u.leaving url host zip

/-- A launch. -/
theorem Alike.launch (h : Alike s u) (exchange : Option Exchange) :
    (s.launch exchange).1 = (u.launch exchange).1 ∧
      Alike (s.launch exchange).2 (u.launch exchange).2 := by
  obtain ⟨url, host, zip, rfl⟩ := h
  cases exchange with
  | none => exact ⟨rfl, url, host, zip, rfl⟩
  | some exchange =>
    rw [HTTPClient.launch, HTTPClient.launch, perform_eq rfl, perform_eq rfl]
    have hreceived : ∃ url' host' zip',
        exchange.received (u.leaving url host zip).response.clear =
          { exchange.received u.response.clear with
            url := url', host := host', contentLengthZip := zip' } := by
      rw [Exchange.received, Exchange.received]
      split_ifs
      · exact ⟨url, host, zip, rfl⟩
      · exact ⟨url, exchange.primaryIp, exchange.sizeDownload, rfl⟩
    obtain ⟨url', host', zip', hreceived⟩ := hreceived
    simp only [initializeClient, if_pos, hreceived, conclude]
    split_ifs
    · exact ⟨rfl, url', host', zip', rfl⟩
    · exact ⟨rfl, url', host', zip', rfl⟩

/-- **One call.** -/
theorem Alike.call (h : Alike s u) (c : Call) : Alike (s.call c) (u.call c) := by
  have hoption : ∀ option, Alike (s.setRequestOption option) (u.setRequestOption option) := by
    obtain ⟨url, host, zip, rfl⟩ := h
    exact fun option => ⟨url, host, zip, rfl⟩
  cases c with
  | get exchange => exact ((hoption _).launch exchange).2
  | put exchange => exact ((hoption _).launch exchange).2
  | post exchange => exact ((hoption _).launch exchange).2
  | request exchange => exact (h.launch exchange).2
  | setUrl url' =>
    obtain ⟨url, host, zip, rfl⟩ := h
    exact ⟨url', host, zip, rfl⟩
  | _ =>
    obtain ⟨url, host, zip, rfl⟩ := h
    exact ⟨url, host, zip, rfl⟩

/-- The calls of a run. -/
theorem Alike.foldl (h : Alike s u) (calls : List Call) :
    Alike (calls.foldl HTTPClient.call s) (calls.foldl HTTPClient.call u) := by
  induction calls generalizing s u with
  | nil => exact h
  | cons c calls ih => exact ih (h.call c)

/-- What is cleared acts as what is new. -/
theorem alike_clear (s : HTTPClient) : Alike s.clear init :=
  ⟨s.response.url, s.response.host, s.response.contentLengthZip, rfl⟩

/-- Clients that act alike perform equal handles. -/
theorem Alike.requestHandle (h : Alike s u) (option : HttpOptionType) :
    s.requestHandle option = u.requestHandle option := by
  obtain ⟨url, host, zip, rfl⟩ := h
  exact (requestHandle_eq_iff _ _ option).mpr rfl

/-! ### What is left over -/

/-- The URL that a call sets. -/
def Call.url : Call → Option (List Char)
  | .setUrl url => some url
  | _ => none

/-- The address and the length of the body that a call receives. -/
def Call.received (c : Call) : Option (List Char × UInt64) :=
  c.launches.join.bind fun exchange =>
    if exchange.body = [] then none else some (exchange.primaryIp, exchange.sizeDownload)

/-- What a launch makes of the response. -/
theorem remains_launch (s : HTTPClient) (exchange : Option Exchange) :
    (s.launch exchange).2.response.url = s.response.url ∧
      (s.launch exchange).2.response.origin =
        (exchange.bind fun e => if e.body = [] then none else
          some (e.primaryIp, e.sizeDownload)).getD s.response.origin := by
  cases exchange with
  | none => exact ⟨rfl, rfl⟩
  | some exchange =>
    rw [response_launch, Exchange.received, Option.bind_some]
    split_ifs
    · exact ⟨rfl, rfl⟩
    · exact ⟨rfl, rfl⟩

/-- **The URL and the origin** of the response, call by call. -/
theorem remains_call (s : HTTPClient) (c : Call) :
    (s.call c).response.url = c.url.getD s.response.url ∧
      (s.call c).response.origin = c.received.getD s.response.origin := by
  cases c with
  | get exchange => exact remains_launch (s.setRequestOption _) exchange
  | put exchange => exact remains_launch (s.setRequestOption _) exchange
  | post exchange => exact remains_launch (s.setRequestOption _) exchange
  | request exchange => exact remains_launch s exchange
  | _ => exact ⟨rfl, rfl⟩

theorem remains_foldl (s : HTTPClient) (calls : List Call) :
    (calls.foldl call s).response.url =
        calls.foldl (fun url c => c.url.getD url) s.response.url ∧
      (calls.foldl call s).response.origin =
        calls.foldl (fun origin c => c.received.getD origin) s.response.origin := by
  induction calls generalizing s with
  | nil => exact ⟨rfl, rfl⟩
  | cons c calls ih =>
    obtain ⟨hurl, horigin⟩ := remains_call s c
    rw [List.foldl_cons, List.foldl_cons, List.foldl_cons, ← hurl, ← horigin]
    exact ih (s.call c)

/-- Clients that act alike have the same response when they have the same remains. -/
theorem Alike.response_eq_iff (h : Alike s u) :
    s.response = u.response ↔
      s.response.url = u.response.url ∧ s.response.origin = u.response.origin := by
  constructor
  · rintro h
    rw [h]
    exact ⟨rfl, rfl⟩
  · rintro ⟨hurl, horigin⟩
    obtain ⟨url, host, zip, rfl⟩ := h
    obtain ⟨hhost, hzip⟩ := Prod.mk.inj horigin
    change ({ u.response with url := url, host := host, contentLengthZip := zip } : HTTPResponse) =
      u.response
    rw [show url = _ from hurl, show host = _ from hhost, show zip = _ from hzip]

/-- **One client acts as another**: in its proxy, its session and its error, in the handles that its
requests perform and in what they return. -/
structure ActsAs (s u : HTTPClient) : Prop where
  proxy : s.proxy = u.proxy
  session : s.session = u.session
  errorCode : s.errorCode = u.errorCode
  requestHandle : ∀ option, s.requestHandle option = u.requestHandle option
  launch : ∀ exchange, (s.launch exchange).1 = (u.launch exchange).1

theorem Alike.actsAs (h : Alike s u) : ActsAs s u where
  proxy := by
    obtain ⟨url, host, zip, rfl⟩ := h
    rfl
  session := by
    obtain ⟨url, host, zip, rfl⟩ := h
    rfl
  errorCode := by
    obtain ⟨url, host, zip, rfl⟩ := h
    rfl
  requestHandle := h.requestHandle
  launch := fun exchange => (h.launch exchange).1

/-- **A cleared client acts as a new one**, whatever has been called before, after all calls that
follow. Its response is that of the new one just when there was no URL before or one has been set
since, and there was no address and no length of a body before or a body has been received since. -/
theorem clear_forgets (history calls : List Call) :
    ActsAs (after (history ++ .clear :: calls)) (after calls) ∧
      ((after (history ++ .clear :: calls)).response = (after calls).response ↔
        ((after history).response.url = [] ∨ ∃ c ∈ calls, c.url.isSome) ∧
          ((after history).response.origin = ([], 0) ∨ ∃ c ∈ calls, c.received.isSome)) := by
  have hsplit : after (history ++ .clear :: calls) = calls.foldl call (after history).clear := by
    rw [after, List.foldl_append, List.foldl_cons]
    rfl
  have halike : Alike (after (history ++ .clear :: calls)) (after calls) := by
    rw [hsplit]
    exact (alike_clear _).foldl calls
  refine ⟨halike.actsAs, ?_⟩
  have hurl : (after calls).response.url = _ := (remains_foldl init calls).1
  have horigin : (after calls).response.origin = _ := (remains_foldl init calls).2
  rw [halike.response_eq_iff, hsplit, (remains_foldl _ calls).1, (remains_foldl _ calls).2, hurl,
    horigin, foldl_getD_eq_iff, foldl_getD_eq_iff]
  rfl

/-! ### The counters -/

/-- The calls since the counters were 0 for the last time. -/
def sinceClear (calls : List Call) : List Call :=
  calls.rtakeWhile fun c => match c with
    | .clear => false
    | .clearSession => false
    | _ => true

/-- How many requests have come to something. -/
def counted (p : Option Exchange → Bool) (calls : List Call) : UInt32 :=
  UInt32.ofNat (calls.countP fun c => c.launches.any p)

/-- Requests that are counted. -/
structure Counted (s : HTTPClient) (calls : List Call) : Prop where
  count : s.session.count = counted (fun _ => true) calls
  success : s.session.successCount = counted (fun exchange => exchange.any (·.result == 0)) calls
  failed : s.session.failedCount = counted (fun exchange => exchange.any (·.result != 0)) calls
  error : s.session.errorCount = counted (fun exchange => exchange.isNone) calls

theorem counted_concat (p : Option Exchange → Bool) (calls : List Call) (c : Call) :
    counted p (calls ++ [c]) = counted p calls + if c.launches.any p then 1 else 0 := by
  rw [counted, counted, List.countP_append, List.countP_singleton]
  split_ifs
  · exact UInt32.ofNat_add _ _
  · exact (UInt32.add_zero _).symm

/-- What a launch makes of the session. -/
theorem session_launch (s : HTTPClient) (exchange : Option Exchange) :
    (s.launch exchange).2.session =
      { s.session with
        count := s.session.count + 1
        successCount := s.session.successCount + if exchange.any (·.result == 0) then 1 else 0
        failedCount := s.session.failedCount + if exchange.any (·.result != 0) then 1 else 0
        errorCount := s.session.errorCount + if exchange.isNone then 1 else 0 } := by
  cases exchange with
  | none => simp [launch, initializeClient]
  | some exchange =>
    rw [launch, perform_eq rfl, conclude]
    by_cases hresult : exchange.result = 0
    · simp [hresult, initializeClient]
    · simp [hresult, initializeClient]

/-- A request is counted. -/
theorem Counted.launch {calls : List Call} {c : Call} {exchange : Option Exchange}
    (h : Counted s calls) (hc : c.launches = some exchange) :
    Counted (s.launch exchange).2 (calls ++ [c]) := by
  obtain ⟨hcount, hsuccess, hfailed, herror⟩ := h
  constructor <;> rw [counted_concat, hc, session_launch, Option.any_some]
  · exact congrArg (· + 1) hcount
  · rw [hsuccess]
  · rw [hfailed]
  · rw [herror]

/-- A call that is no request. -/
theorem Counted.of_not_launches {calls : List Call} {c : Call} (h : Counted s calls)
    (hc : c.launches = none) : Counted s (calls ++ [c]) := by
  obtain ⟨hcount, hsuccess, hfailed, herror⟩ := h
  constructor <;> rw [counted_concat, hc, Option.any_none, if_neg Bool.false_ne_true,
    UInt32.add_zero] <;> assumption

/-- **The counters are those of the requests** since the last `Clear` or `ClearSession`: all of
them, those that return true, those that fail, and those without a handle. -/
theorem counters_after (calls : List Call) : Counted (after calls) (sinceClear calls) := by
  induction calls using List.reverseRecOn with
  | nil => exact ⟨rfl, rfl, rfl, rfl⟩
  | append_singleton calls c ih =>
    rw [after, List.foldl_append, List.foldl_cons, List.foldl_nil, sinceClear,
      List.rtakeWhile_concat]
    have hoption : ∀ option, Counted ((after calls).setRequestOption option) (sinceClear calls) :=
      fun _ => ⟨ih.count, ih.success, ih.failed, ih.error⟩
    cases c with
    | clear => exact ⟨rfl, rfl, rfl, rfl⟩
    | clearSession => exact ⟨rfl, rfl, rfl, rfl⟩
    | get exchange => exact (hoption _).launch rfl
    | put exchange => exact (hoption _).launch rfl
    | post exchange => exact (hoption _).launch rfl
    | request exchange => exact ih.launch rfl
    | _ => exact Counted.of_not_launches ⟨ih.count, ih.success, ih.failed, ih.error⟩ rfl

end HTTPClient

end MToolkit
