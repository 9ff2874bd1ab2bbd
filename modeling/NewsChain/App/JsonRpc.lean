import NewsChain.App.Json

/-!
# Calls by JSON

`json_rpc_plugin::call`: the text of a request, or of several, to the text of the answers. The methods of
the registered interfaces are a parameter, and so is what the log makes of an exception.
-/

namespace NewsChain

/-- The exceptions of `fc` that the handlers tell apart. -/
inductive FcKind
  | assert
  | parseError
  | badCast
  | other
deriving DecidableEq

/-- An `fc::exception`, by the format of its message. -/
structure FcExc where
  kind : FcKind
  format : String
deriving DecidableEq

/-- What a method throws. -/
inductive RpcExc
  /-- `chainbase::lock_exception` -/
  | lock (what : Text)
  | fc (e : FcExc)
  | std (what : Text)
  | unknown

/-- The exception of the JSON parser, as a handler sees it. -/
def JsonExc.toFc : JsonExc → FcExc
  | .eof => ⟨.other, "unexpected end of file"⟩
  | .parseError format => ⟨.parseError, format⟩
  | .assertion format => ⟨.assert, format⟩
  | .exhausted => ⟨.other, "the scanner went on for too long"⟩

namespace JsonRpc

variable {δ ω : Type}

/-- `e.to_string()`, and the exception as a `variant`. -/
structure Rendering (δ : Type) where
  text : FcExc → Text
  variant : FcExc → Variant δ

/-- `api_method`, on a state of the node. -/
abbrev ApiMethod (δ ω : Type) := Variant δ → EStateM RpcExc ω (Variant δ)

/-- `_registered_apis`. -/
abbrev RegisteredApis (δ ω : Type) := Text → Option (Text → Option (ApiMethod δ ω))

/-! ## Responses -/

/-- The codes of the errors. -/
inductive ErrorCode
  | parseError
  | invalidRequest
  | methodNotFound
  | serverError
  | noParams
  | parseParamsError
  | errorDuringCall
deriving DecidableEq

def ErrorCode.toInt32 : ErrorCode → Int32
  | .parseError => -32700
  | .invalidRequest => -32600
  | .methodNotFound => -32601
  | .serverError => -32000
  | .noParams => -32001
  | .parseParamsError => -32002
  | .errorDuringCall => -32003

/-- `json_rpc_error`. -/
structure JsonRpcError (δ : Type) where
  code : ErrorCode
  message : Text
  data : Option (Variant δ) := none

/-- `json_rpc_response`. -/
structure JsonRpcResponse (δ : Type) where
  jsonrpc : Text := "2.0".toList
  result : Option (Variant δ) := none
  error : Option (JsonRpcError δ) := none
  id : Variant δ := .null

/-- `to_variant` of an error. -/
def JsonRpcError.toVariant (e : JsonRpcError δ) : Variant δ :=
  .object [("code".toList, .int64 e.code.toInt32.toInt64), ("message".toList, .string e.message),
    ("data".toList, e.data.getD .null)]

/-- `to_variant` of a response. -/
def JsonRpcResponse.toVariant (r : JsonRpcResponse δ) : Variant δ :=
  .object [("jsonrpc".toList, .string r.jsonrpc), ("result".toList, r.result.getD .null),
    ("error".toList, (r.error.map JsonRpcError.toVariant).getD .null), ("id".toList, r.id)]

/-- An error with its exception. -/
def errorOf (rendering : Rendering δ) (code : ErrorCode) (e : FcExc) : JsonRpcError δ :=
  ⟨code, rendering.text e, some (rendering.variant e)⟩

/-! ## Requests -/

/-- A `variant_object`. -/
abbrev Request (δ : Type) := List (Text × Variant δ)

/-- `variant_object::operator[]`, of a key that is there. -/
def Request.get? (request : Request δ) (key : String) : Option (Variant δ) :=
  (request.find? fun e => e.1 = key.toList).map (·.2)

/-- `variant::as_string`. -/
def asString [Doubles δ] : Variant δ → Except FcExc Text
  | .string s => .ok s
  | .double d => .ok (Doubles.toText d)
  | .int64 i => .ok (Json.int64Text i)
  | .uint64 n => .ok (decimalText n)
  | .bool b => .ok (Json.boolText b)
  | .null => .ok []
  | _ => .error ⟨.badCast, "Invalid cast from ${type} to string"⟩

/-- `find_api_method`. -/
def findApiMethod (apis : RegisteredApis δ ω) (api method : Text) : Except FcExc (ApiMethod δ ω) :=
  match apis api with
  | none => .error ⟨.assert, "Could not find API ${api}"⟩
  | some methods =>
    match methods method with
    | none => .error ⟨.assert, "Could not find method ${method}"⟩
    | some f => .ok f

/-- `boost::split` at points. -/
def splitAtPoints (s : Text) : List Text := s.splitOn '.'

/-- `process_params`. -/
def processParams [Doubles δ] (apis : RegisteredApis δ ω) (method : Text) (request : Request δ) :
    Except FcExc (ApiMethod δ ω × Variant δ) :=
  if method = "call".toList then
    match request.get? "params" with
    | none => .error ⟨.assert, "request.contains( \"params\" )"⟩
    | some (.array [api, name]) => do
      let api ← asString api
      let name ← asString name
      let f ← findApiMethod apis api name
      pure (f, .object [])
    | some (.array [api, name, args]) => do
      let api ← asString api
      let name ← asString name
      let f ← findApiMethod apis api name
      pure (f, args)
    | some _ => .error ⟨.assert, "params should be \x7b\"api\", \"method\", \"args\""⟩
  else
    match splitAtPoints method with
    | [api, name] => do
      let f ← findApiMethod apis api name
      pure (f, (request.get? "params").getD (.object []))
    | _ => .error ⟨.assert, "method specification invalid. Should be api.method"⟩

/-! ## One request -/

/-- The response as far as it is made, and the state of the node. -/
structure RpcState (δ ω : Type) where
  response : JsonRpcResponse δ := {}
  world : ω

abbrev RpcM (δ ω : Type) := EStateM RpcExc (RpcState δ ω)

def setError (e : JsonRpcError δ) : RpcM δ ω Unit :=
  modify fun s => { s with response := { s.response with error := some e } }

def setResult (v : Variant δ) : RpcM δ ω Unit :=
  modify fun s => { s with response := { s.response with result := some v } }

/-- What throws an `fc::exception`. -/
def liftFc {α : Type} : Except FcExc α → RpcM δ ω α
  | .ok a => pure a
  | .error e => throw (.fc e)

/-- `catch( fc::assert_exception& e )`: an error, and an answer in place of the one that is missing. -/
def onAssert {α : Type} (rendering : Rendering δ) (code : ErrorCode) (a : α) : RpcExc → RpcM δ ω α
  | .fc e =>
    if e.kind = .assert then do
      setError (errorOf rendering code e)
      pure a
    else throw (.fc e)
  | e => throw e

/-- `rpc_id`. -/
def rpcId (request : Request δ) : RpcM δ ω Unit :=
  match request.get? "id" with
  | none => pure ()
  | some id =>
    match id with
    | .int64 _ | .uint64 _ | .string _ =>
      modify fun s => { s with response := { s.response with id := id } }
    | _ => setError ⟨.invalidRequest, "Only integer value or string is allowed for member \"id\"".toList,
        none⟩

/-- The call in `rpc_jsonrpc`, with its handlers. -/
def runMethod (rendering : Rendering δ) (f : ApiMethod δ ω) (args : Variant δ) : RpcM δ ω Unit :=
  tryCatch
    (do
      let v ← onPart (·.world) (fun w s => { s with world := w }) (f args)
      setResult v)
    fun
      | .lock what => setError ⟨.errorDuringCall, what, none⟩
      | e => onAssert rendering .errorDuringCall () e

/-- The part of `rpc_jsonrpc` for a request with a method. -/
def rpcMethod [Doubles δ] (rendering : Rendering δ) (apis : RegisteredApis δ ω) (request : Request δ)
    (method : Text) : RpcM δ ω Unit :=
  tryCatch
    (if (method = "call".toList ∧ (request.get? "params").isSome) ∨ method ≠ "call".toList then do
      let call ← tryCatch (some <$> liftFc (processParams apis method request))
        (onAssert rendering .parseParamsError none)
      match call with
      | some (f, args) => runMethod rendering f args
      | none => pure ()
    else setError ⟨.noParams, "A member \"params\" does not exist".toList, none⟩)
    (onAssert rendering .methodNotFound ())

/-- `rpc_jsonrpc`. -/
def rpcJsonrpc [Doubles δ] (rendering : Rendering δ) (apis : RegisteredApis δ ω) (request : Request δ) :
    RpcM δ ω Unit :=
  match request.get? "jsonrpc" with
  | some (.string version) =>
    if version = "2.0".toList then
      match request.get? "method" with
      | some (.string method) => rpcMethod rendering apis request method
      | _ => setError ⟨.invalidRequest, "A member \"method\" does not exist".toList, none⟩
    else setError ⟨.invalidRequest, "jsonrpc value is not \"2.0\"".toList, none⟩
  | _ => setError ⟨.invalidRequest, "jsonrpc value is not \"2.0\"".toList, none⟩

/-- The last handlers of `rpc`. -/
def onAny (rendering : Rendering δ) : RpcExc → RpcM δ ω Unit
  | .fc e => setError (errorOf rendering .serverError e)
  | .lock what | .std what =>
    setError ⟨.serverError, "Unknown error - parsing rpc message failed".toList, some (.string what)⟩
  | .unknown => setError ⟨.serverError, "Unknown error - parsing rpc message failed".toList, none⟩

/-- The handlers for what is thrown before the request is known. -/
def onMessage (rendering : Rendering δ) : RpcExc → RpcM δ ω Unit
  | .fc e =>
    if e.kind = .parseError ∨ e.kind = .badCast then setError (errorOf rendering .parseError e)
    else onAny rendering (.fc e)
  | e => onAny rendering e

/-- `get_object`. -/
def getObject : Variant δ → Except FcExc (Request δ)
  | .object request => .ok request
  | _ => .error ⟨.badCast, "Invalid cast from type '${type}' to Object"⟩

/-- The body of `rpc`. -/
def rpcBody [Doubles δ] (rendering : Rendering δ) (apis : RegisteredApis δ ω) (message : Variant δ) :
    RpcM δ ω Unit :=
  tryCatch
    (do
      let request ← liftFc (getObject message)
      rpcId request
      tryCatch
        (do
          if (← get).response.error.isNone then rpcJsonrpc rendering apis request else pure ())
        (onAny rendering))
    (onMessage rendering)

/-- `rpc`. -/
def rpc [Doubles δ] (rendering : Rendering δ) (apis : RegisteredApis δ ω) (message : Variant δ) (w : ω) :
    JsonRpcResponse δ × ω :=
  let s := finalState ((rpcBody rendering apis message).run { world := w })
  (s.response, s.world)

/-! ## The text of requests -/

/-- The loop of `call` over the requests. -/
def rpcAll [Doubles δ] (rendering : Rendering δ) (apis : RegisteredApis δ ω) :
    List (Variant δ) → ω → List (JsonRpcResponse δ) × ω
  | [], w => ([], w)
  | message :: messages, w =>
    let (response, w) := rpc rendering apis message w
    let (responses, w) := rpcAll rendering apis messages w
    (response :: responses, w)

/-- What `call` prints. -/
def answer [Doubles δ] (rendering : Rendering δ) (apis : RegisteredApis δ ω) (body : Text) (w : ω) :
    Variant δ × ω :=
  match Json.fromString .legacyParser body with
  | .error e => (JsonRpcResponse.toVariant { error := some (errorOf rendering .serverError e.toFc) }, w)
  | .ok (.array messages) =>
    if messages = [] then
      (JsonRpcResponse.toVariant { error := some ⟨.serverError, "Array is invalid".toList, none⟩ }, w)
    else
      let (responses, w) := rpcAll rendering apis messages w
      (.array (responses.map JsonRpcResponse.toVariant), w)
  | .ok message =>
    let (response, w) := rpc rendering apis message w
    (response.toVariant, w)

/-- `json_rpc_plugin::call`. -/
def call [Doubles δ] (rendering : Rendering δ) (apis : RegisteredApis δ ω) (body : Text) (w : ω) :
    Text × ω :=
  let (v, w) := answer rendering apis body w
  (Json.toString .stringifyLargeIntsAndDoubles v, w)

end JsonRpc

end NewsChain
