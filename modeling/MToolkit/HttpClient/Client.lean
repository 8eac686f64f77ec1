import MToolkit.Library.Lts

/-!
# The HTTP client

The class `HTTPClient` (`http_client/http_client.cpp`) with what it keeps about its proxy, its
session and the last response. A `std::string` is a list of characters, and a `double` is given
by its bits. What libcurl does is an `Exchange`: the calls that it makes of the callbacks, and
what it answers when it is asked about them. It may be any, whatever the options are that are set
before it.
-/

namespace MToolkit

/-- `curl_proxytype` -/
inductive CurlProxyType where
  | http
  | http10
  | https
  | socks4
  | socks5
  | socks4a
  | socks5Hostname
  deriving DecidableEq, Repr

/-- The class `HTTPProxy`. -/
structure HTTPProxy where
  enable : Bool := false
  host : List Char := []
  user : List Char := []
  pass : List Char := []
  login : List Char := []
  type : CurlProxyType := .http

/-- The class `HTTPSession`. -/
structure HTTPSession where
  count : UInt32 := 0
  verbose : UInt32 := 0
  errorCount : UInt32 := 0
  failedCount : UInt32 := 0
  successCount : UInt32 := 0
  skip : Bool := true
  timeout : Int64 := 0
  receiveTimeout : Int64 := 0
  url : List Char := []
  user : List Char := []
  pass : List Char := []
  login : List Char := []
  caFile : List Char := []
  params : List Char := []
  cookie : List Char := []
  userAgent : List Char := []
  requestOption : List Char := []
  headers : List (List Char) := []

/-- The class `HTTPResponse`. -/
structure HTTPResponse where
  code : UInt32 := 0
  url : List Char := []
  host : List Char := []
  header : List Char := []
  content : List Char := []
  askHeader : List Char := []
  totalTime : UInt64 := 0
  contentLength : UInt64 := 0
  contentLengthZip : UInt64 := 0

/-- What libcurl does for one `curl_easy_perform`. -/
structure Exchange where
  /-- What `AskHeaderFunction` is called with, for `CURLINFO_HEADER_OUT`. -/
  asked : List (List Char)
  /-- What `HeaderFunction` is called with. -/
  headers : List (List Char)
  /-- What `WriteFunction` is called with, never for nothing. -/
  body : List (List Char)
  body_ne_nil : ∀ chunk ∈ body, chunk ≠ []
  /-- `CURLINFO_RESPONSE_CODE`, a `long` -/
  responseCode : Int64
  /-- `CURLINFO_CONTENT_LENGTH_DOWNLOAD` -/
  contentLengthDownload : UInt64
  /-- `CURLINFO_SIZE_DOWNLOAD` -/
  sizeDownload : UInt64
  /-- `CURLINFO_PRIMARY_IP` -/
  primaryIp : List Char
  /-- What `curl_easy_perform` returns, where 0 is `CURLE_OK`. -/
  result : UInt32

/-- The fields of an `HTTPClient`, apart from `_curl`, which is null between the calls. -/
structure HTTPClient where
  /-- `_isFirstWrite` -/
  isFirstWrite : Bool := true
  /-- `_errorCode` -/
  errorCode : UInt32 := 0
  /-- `_proxy` -/
  proxy : HTTPProxy := {}
  /-- `_session` -/
  session : HTTPSession := {}
  /-- `_response` -/
  response : HTTPResponse := {}

/-- `CURLE_FAILED_INIT` -/
def curleFailedInit : UInt32 := 2

/-- `HTTPProxy::Clear` -/
def HTTPProxy.clear (s : HTTPProxy) : HTTPProxy :=
  { s with enable := false, host := [], user := [], pass := [], login := [], type := .http }

/-- `HTTPSession::Clear` -/
def HTTPSession.clear (s : HTTPSession) : HTTPSession :=
  { s with
    count := 0, verbose := 0, errorCount := 0, failedCount := 0, successCount := 0,
    timeout := 0, receiveTimeout := 0, skip := true,
    url := [], user := [], pass := [], login := [], caFile := [], params := [], cookie := [],
    userAgent := [], requestOption := [], headers := [] }

/-- `HTTPResponse::Clear` -/
def HTTPResponse.clear (s : HTTPResponse) : HTTPResponse :=
  { s with
    code := 0, header := [], content := [], askHeader := [], totalTime := 0, contentLength := 0 }

namespace HTTPClient

/-! ### Settings -/

/-- `HTTPClient::SetUrl` -/
def setUrl (s : HTTPClient) (url : List Char) : HTTPClient :=
  { s with session := { s.session with url := url }, response := { s.response with url := url } }

/-- `HTTPClient::SetLogin` -/
def setLogin (s : HTTPClient) (user pass : List Char) : HTTPClient :=
  { s with
    session :=
      { s.session with
        user := user
        pass := pass
        login := if user ≠ [] ∨ pass ≠ [] then user ++ [':'] ++ pass else s.session.login } }

/-- `HTTPClient::SetProxy` with arguments. -/
def setProxy (s : HTTPClient) (host user pass : List Char) (type : CurlProxyType) : HTTPClient :=
  { s with
    proxy :=
      { type := type
        host := host
        user := user
        pass := pass
        enable := true
        login := if user ≠ [] ∨ pass ≠ [] then user ++ [':'] ++ pass else s.proxy.login } }

/-- `HTTPClient::SetParam` -/
def setParam (s : HTTPClient) (param : List Char) : HTTPClient :=
  { s with session := { s.session with params := param } }

/-- `HTTPClient::SetSkip` -/
def setSkip (s : HTTPClient) (skip : Bool) : HTTPClient :=
  { s with session := { s.session with skip := skip } }

/-- `HTTPClient::SetCAFile` -/
def setCAFile (s : HTTPClient) (caFile : List Char) : HTTPClient :=
  { s with session := { s.session with caFile := caFile } }

/-- `HTTPClient::SetCookie` -/
def setCookie (s : HTTPClient) (cookie : List Char) : HTTPClient :=
  { s with session := { s.session with cookie := cookie } }

/-- `HTTPClient::AddHeader` -/
def addHeader (s : HTTPClient) (header : List Char) : HTTPClient :=
  { s with session := { s.session with headers := s.session.headers ++ [header] } }

/-- `HTTPClient::SetHeader` -/
def setHeader (s : HTTPClient) (header : List Char) : HTTPClient :=
  { s with session := { s.session with headers := [] } }.addHeader header

/-- `HTTPClient::SetUserAgent` -/
def setUserAgent (s : HTTPClient) (userAgent : List Char) : HTTPClient :=
  { s with session := { s.session with userAgent := userAgent } }

/-- `HTTPClient::SetConnectTimeout` -/
def setConnectTimeout (s : HTTPClient) (timeout : Int64) : HTTPClient :=
  { s with session := { s.session with timeout := timeout } }

/-- `HTTPClient::SetReceiveTimeout` -/
def setReceiveTimeout (s : HTTPClient) (timeout : Int64) : HTTPClient :=
  { s with session := { s.session with receiveTimeout := timeout } }

/-- `HTTPClient::SetRequestOption` -/
def setRequestOption (s : HTTPClient) (requestOption : List Char) : HTTPClient :=
  { s with session := { s.session with requestOption := requestOption } }

/-- `HTTPClient::AddParam` -/
def addParam (s : HTTPClient) (param : List Char) : HTTPClient :=
  { s with session := { s.session with params := s.session.params ++ param } }

/-- `HTTPClient::ClearProxy` -/
def clearProxy (s : HTTPClient) : HTTPClient := { s with proxy := s.proxy.clear }

/-- `HTTPClient::ClearSession` -/
def clearSession (s : HTTPClient) : HTTPClient := { s with session := s.session.clear }

/-- `HTTPClient::ClearResponse` -/
def clearResponse (s : HTTPClient) : HTTPClient := { s with response := s.response.clear }

/-- `HTTPClient::Clear` -/
def clear (s : HTTPClient) : HTTPClient :=
  { s.clearProxy.clearSession.clearResponse with errorCode := 0, isFirstWrite := true }

/-- `HTTPClient::EnableVerbose` -/
def enableVerbose (s : HTTPClient) : HTTPClient :=
  { s with session := { s.session with verbose := 1 } }

/-- `HTTPClient::DisableVerbose` -/
def disableVerbose (s : HTTPClient) : HTTPClient :=
  { s with session := { s.session with verbose := 0 } }

/-! ### Requests -/

/-- `HTTPClient::ParseResponseCode`; the field has the 32 lower bits of the number. -/
def parseResponseCode (s : HTTPClient) (exchange : Exchange) : HTTPClient :=
  { s with response := { s.response with code := exchange.responseCode.toUInt64.toUInt32 } }

/-- `HTTPClient::ParseResponseLength` -/
def parseResponseLength (s : HTTPClient) (exchange : Exchange) : HTTPClient :=
  { s with
    response :=
      { s.response with
        contentLength := exchange.contentLengthDownload
        contentLengthZip := exchange.sizeDownload
        host := exchange.primaryIp } }

/-- `HTTPClient::AskHeaderFunction` -/
def askHeaderFunction (s : HTTPClient) (buffer : List Char) : HTTPClient :=
  { s with response := { s.response with askHeader := buffer } }

/-- `HTTPClient::HeaderFunction` -/
def headerFunction (s : HTTPClient) (buffer : List Char) : HTTPClient :=
  { s with response := { s.response with header := s.response.header ++ buffer } }

/-- `HTTPClient::WriteFunction` -/
def writeFunction (exchange : Exchange) (s : HTTPClient) (buffer : List Char) : HTTPClient :=
  let s :=
    if s.isFirstWrite then
      ({ s with isFirstWrite := false }.parseResponseCode exchange).parseResponseLength exchange
    else s
  { s with response := { s.response with content := s.response.content ++ buffer } }

/-- `HTTPClient::Initialize`; `ready` is whether `curl_easy_init` gives a handle. -/
def initializeClient (s : HTTPClient) (ready : Bool) : Bool × HTTPClient :=
  let s := { s with response := s.response.clear, errorCode := 0, isFirstWrite := true }
  if ready then (true, s)
  else
    (false,
      { s with
        errorCode := curleFailedInit
        session := { s.session with errorCount := s.session.errorCount + 1 } })

/-- The callbacks of `curl_easy_perform`, and what it returns. -/
def perform (s : HTTPClient) (exchange : Exchange) : HTTPClient :=
  let s := exchange.asked.foldl askHeaderFunction s
  let s := exchange.headers.foldl headerFunction s
  let s := exchange.body.foldl (writeFunction exchange) s
  { s with errorCode := exchange.result }

/-- The end of `HTTPClient::Launch`: the launch is counted, and what is returned. -/
def conclude (s : HTTPClient) : Bool × HTTPClient :=
  if s.errorCode = 0 then
    (true, { s with session := { s.session with successCount := s.session.successCount + 1 } })
  else
    (false, { s with session := { s.session with failedCount := s.session.failedCount + 1 } })

/-- `HTTPClient::Launch`, where there is no exchange if `curl_easy_init` gives no handle. -/
def launch (s : HTTPClient) (exchange : Option Exchange) : Bool × HTTPClient :=
  let s := { s with session := { s.session with count := s.session.count + 1 } }
  match exchange with
  | none => s.initializeClient false
  | some exchange => ((s.initializeClient true).2.perform exchange).conclude

/-- `HTTPClient::Get` -/
def get (s : HTTPClient) (exchange : Option Exchange) : Bool × HTTPClient :=
  (s.setRequestOption ['G', 'E', 'T']).launch exchange

/-- `HTTPClient::Put` -/
def put (s : HTTPClient) (exchange : Option Exchange) : Bool × HTTPClient :=
  (s.setRequestOption ['P', 'U', 'T']).launch exchange

/-- `HTTPClient::Post` -/
def post (s : HTTPClient) (exchange : Option Exchange) : Bool × HTTPClient :=
  (s.setRequestOption ['P', 'O', 'S', 'T']).launch exchange

/-- `HTTPClient::Request` -/
def request (s : HTTPClient) (exchange : Option Exchange) : Bool × HTTPClient :=
  s.launch exchange

/-! ### Calls -/

/-- A call of a method that changes the client. -/
inductive Call where
  | setUrl (url : List Char) : Call
  | setLogin (user pass : List Char) : Call
  | setProxy (host user pass : List Char) (type : CurlProxyType) : Call
  | setParam (param : List Char) : Call
  | setSkip (skip : Bool) : Call
  | setCAFile (caFile : List Char) : Call
  | setCookie (cookie : List Char) : Call
  | setHeader (header : List Char) : Call
  | setUserAgent (userAgent : List Char) : Call
  | setConnectTimeout (timeout : Int64) : Call
  | setReceiveTimeout (timeout : Int64) : Call
  | setRequestOption (requestOption : List Char) : Call
  | addParam (param : List Char) : Call
  | addHeader (header : List Char) : Call
  | clear
  | clearProxy
  | clearSession
  | clearResponse
  | enableVerbose
  | disableVerbose
  | get (exchange : Option Exchange) : Call
  | put (exchange : Option Exchange) : Call
  | post (exchange : Option Exchange) : Call
  | request (exchange : Option Exchange) : Call

/-- The client after a call. -/
def call (s : HTTPClient) : Call → HTTPClient
  | .setUrl url => s.setUrl url
  | .setLogin user pass => s.setLogin user pass
  | .setProxy host user pass type => s.setProxy host user pass type
  | .setParam param => s.setParam param
  | .setSkip skip => s.setSkip skip
  | .setCAFile caFile => s.setCAFile caFile
  | .setCookie cookie => s.setCookie cookie
  | .setHeader header => s.setHeader header
  | .setUserAgent userAgent => s.setUserAgent userAgent
  | .setConnectTimeout timeout => s.setConnectTimeout timeout
  | .setReceiveTimeout timeout => s.setReceiveTimeout timeout
  | .setRequestOption requestOption => s.setRequestOption requestOption
  | .addParam param => s.addParam param
  | .addHeader header => s.addHeader header
  | .clear => s.clear
  | .clearProxy => s.clearProxy
  | .clearSession => s.clearSession
  | .clearResponse => s.clearResponse
  | .enableVerbose => s.enableVerbose
  | .disableVerbose => s.disableVerbose
  | .get exchange => (s.get exchange).2
  | .put exchange => (s.put exchange).2
  | .post exchange => (s.post exchange).2
  | .request exchange => (s.request exchange).2

/-- The constructor without a URL. -/
def init : HTTPClient := {}

/-- The constructor with a URL. -/
def ofUrl (url : List Char) : HTTPClient := init.setUrl url

/-- A client after the calls that have been made on it. -/
def after (calls : List Call) : HTTPClient := calls.foldl call init

end HTTPClient

end MToolkit
