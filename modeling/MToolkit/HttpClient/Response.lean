import MToolkit.HttpClient.Client

/-!
# What a response describes

`HTTPClient::Initialize` clears the response, but not its `host` and `contentLengthZip`, and
they and the code are read only when the first piece of the body arrives
(`HTTPClient.response_launch`). Where there is no body, the code stays 0, and the other two are
those of an earlier exchange (`HTTPClient.own_iff`).
-/

namespace MToolkit

namespace Exchange

/-- The status, as `_response.code` takes it. -/
def code (exchange : Exchange) : UInt32 := exchange.responseCode.toUInt64.toUInt32

/-- The response after the callbacks of an exchange. -/
def received (exchange : Exchange) (r : HTTPResponse) : HTTPResponse :=
  let r :=
    { r with
      askHeader := exchange.asked.getLastD r.askHeader
      header := r.header ++ exchange.headers.flatten }
  if exchange.body = [] then r
  else
    { r with
      code := exchange.code
      contentLength := exchange.contentLengthDownload
      contentLengthZip := exchange.sizeDownload
      host := exchange.primaryIp
      content := r.content ++ exchange.body.flatten }

end Exchange

namespace HTTPClient

variable {s : HTTPClient} {exchange : Exchange}

/-! ### The callbacks -/

theorem foldl_askHeaderFunction (s : HTTPClient) (asked : List (List Char)) :
    asked.foldl askHeaderFunction s =
      { s with
        response := { s.response with askHeader := asked.getLastD s.response.askHeader } } := by
  induction asked generalizing s with
  | nil => rfl
  | cons buffer asked ih => rw [List.foldl_cons, ih, List.getLastD_cons, askHeaderFunction]

theorem foldl_headerFunction (s : HTTPClient) (headers : List (List Char)) :
    headers.foldl headerFunction s =
      { s with
        response := { s.response with header := s.response.header ++ headers.flatten } } := by
  induction headers generalizing s with
  | nil => simp
  | cons buffer headers ih =>
    rw [List.foldl_cons, ih, List.flatten_cons, ← List.append_assoc, headerFunction]

/-- The pieces of the body that are not the first. -/
theorem foldl_writeFunction (hfirst : s.isFirstWrite = false) (body : List (List Char)) :
    body.foldl (writeFunction exchange) s =
      { s with response := { s.response with content := s.response.content ++ body.flatten } } := by
  induction body generalizing s with
  | nil => simp
  | cons buffer body ih =>
    have hstep : writeFunction exchange s buffer =
        { s with response := { s.response with content := s.response.content ++ buffer } } := by
      simp [writeFunction, hfirst]
    rw [List.foldl_cons, hstep, List.flatten_cons, ← List.append_assoc]
    exact ih hfirst

/-- **The callbacks of an exchange.** -/
theorem perform_eq (hfirst : s.isFirstWrite = true) :
    s.perform exchange =
      { s with
        isFirstWrite := exchange.body.isEmpty
        errorCode := exchange.result
        response := exchange.received s.response } := by
  rw [perform, foldl_askHeaderFunction, foldl_headerFunction, Exchange.received]
  cases hbody : exchange.body with
  | nil => simp [hfirst]
  | cons buffer body =>
    rw [List.foldl_cons, foldl_writeFunction (by simp [writeFunction, hfirst, parseResponseCode,
      parseResponseLength])]
    simp [writeFunction, hfirst, parseResponseCode, parseResponseLength, Exchange.code]

@[simp] theorem response_conclude (s : HTTPClient) : s.conclude.2.response = s.response := by
  rw [conclude]
  split_ifs <;> rfl

/-- **The response after a launch.** -/
theorem response_launch (s : HTTPClient) (exchange : Exchange) :
    (s.launch (some exchange)).2.response = exchange.received s.response.clear := by
  rw [launch, response_conclude, perform_eq rfl]
  rfl

/-! ### Its own exchange -/

/-- A response that describes an exchange and no other. -/
structure Own (exchange : Exchange) (r : HTTPResponse) : Prop where
  code : r.code = exchange.code
  header : r.header = exchange.headers.flatten
  content : r.content = exchange.body.flatten
  host : r.host = exchange.primaryIp ∨ r.host = []
  contentLengthZip : r.contentLengthZip = exchange.sizeDownload ∨ r.contentLengthZip = 0

/-- With a body, the response is all of its exchange. -/
theorem own_of_body (hbody : exchange.body ≠ []) (r : HTTPResponse) :
    Own exchange (exchange.received r.clear) := by
  rw [Exchange.received, if_neg hbody]
  exact ⟨rfl, rfl, rfl, .inl rfl, .inl rfl⟩

/-- Without one, it is in part that of an earlier exchange. -/
theorem own_iff_of_nil (hbody : exchange.body = []) (r : HTTPResponse) :
    Own exchange (exchange.received r.clear) ↔
      exchange.code = 0 ∧ (r.host = exchange.primaryIp ∨ r.host = []) ∧
        (r.contentLengthZip = exchange.sizeDownload ∨ r.contentLengthZip = 0) := by
  rw [Exchange.received, if_pos hbody]
  constructor
  · rintro ⟨hcode, -, -, hhost, hzip⟩
    exact ⟨hcode.symm, hhost, hzip⟩
  · rintro ⟨hcode, hhost, hzip⟩
    refine ⟨hcode.symm, rfl, ?_, hhost, hzip⟩
    rw [hbody]
    rfl

/-- Two responses to one exchange. -/
theorem received_eq_iff (exchange : Exchange) (r r' : HTTPResponse) :
    exchange.received r.clear = exchange.received r'.clear ↔
      r.url = r'.url ∧ (exchange.body ≠ [] ∨
        r.host = r'.host ∧ r.contentLengthZip = r'.contentLengthZip) := by
  simp only [Exchange.received, HTTPResponse.clear]
  by_cases hbody : exchange.body = []
  · simp [hbody]
  · simp [hbody]

/-- **A response describes only its own exchange** just when the exchange has a body, or has
no status and nothing of another exchange is left from before; and two clients are left with
equal responses just when these have the same URL and, where there is no body, had the same
`host` and `contentLengthZip` before. -/
theorem own_iff (history : List Call) (exchange : Exchange) :
    (Own exchange ((after history).launch (some exchange)).2.response ↔
      exchange.body ≠ [] ∨ exchange.code = 0 ∧
        ((after history).response.host = exchange.primaryIp ∨
          (after history).response.host = []) ∧
        ((after history).response.contentLengthZip = exchange.sizeDownload ∨
          (after history).response.contentLengthZip = 0)) ∧
    ∀ history' : List Call,
      (((after history).launch (some exchange)).2.response =
          ((after history').launch (some exchange)).2.response ↔
        (after history).response.url = (after history').response.url ∧
          (exchange.body ≠ [] ∨
            (after history).response.host = (after history').response.host ∧
            (after history).response.contentLengthZip =
              (after history').response.contentLengthZip)) := by
  constructor
  · rw [response_launch]
    by_cases hbody : exchange.body = []
    · rw [own_iff_of_nil hbody]
      exact ⟨.inr, fun h => h.resolve_left (not_not_intro hbody)⟩
    · exact ⟨fun _ => .inl hbody, fun _ => own_of_body hbody _⟩
  · intro history'
    rw [response_launch, response_launch]
    exact received_eq_iff exchange _ _

/-- A page, with its status, from a server. -/
def page : Exchange where
  asked := []
  headers := [['O', 'K']]
  body := [['p', 'a', 'g', 'e']]
  body_ne_nil := by decide
  responseCode := 200
  contentLengthDownload := 0
  sizeDownload := 4
  primaryIp := ['1', '0', '.', '0', '.', '0', '.', '1']
  result := 0

/-- An answer without a body, with the status 204, from another server. -/
def noContent : Exchange where
  asked := []
  headers := [['N', 'o']]
  body := []
  body_ne_nil := by decide
  responseCode := 204
  contentLengthDownload := 0
  sizeDownload := 0
  primaryIp := ['1', '0', '.', '0', '.', '0', '.', '2']
  result := 0

/-- After the page, the answer without a body has the status 0 and the address of the server
of the page, and a client that has not asked for the page is left with another response. -/
theorem own_noContent :
    ((after [.get (some page)]).launch (some noContent)).1 = true ∧
      ¬Own noContent ((after [.get (some page)]).launch (some noContent)).2.response ∧
      ((after [.get (some page)]).launch (some noContent)).2.response.code = 0 ∧
      ((after [.get (some page)]).launch (some noContent)).2.response.host = page.primaryIp ∧
      ((after [.get (some page)]).launch (some noContent)).2.response ≠
        ((after [.get (some noContent)]).launch (some noContent)).2.response := by
  refine ⟨by decide, ?_, by decide, by decide, ?_⟩
  · intro h
    exact absurd h.code (by decide)
  · intro h
    exact absurd (congrArg HTTPResponse.host h) (by decide)

end HTTPClient

end MToolkit
