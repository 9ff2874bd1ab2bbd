import NewsChain.App.JsonRpc
import NewsChain.Laws.Json

/-!
# Each request is answered

`target` says which method a request calls, if any. A response has the request's identifier and either a
result or an error: the result of that method, where it is called and returns. The state of the node is
changed by the methods that are called and by nothing else, one after the other (`call_answers`).
-/

namespace NewsChain

open EStateM (Result)

namespace JsonRpc

variable {δ ω : Type} {rendering : Rendering δ} {apis : RegisteredApis δ ω} {s : RpcState δ ω}
  {f : ApiMethod δ ω} {args : Variant δ} {request : Request δ}

/-! ## What a request asks for -/

/-- The identifier of a request: none, or one that may be. -/
def fittingId (request : Request δ) : Option (Variant δ) :=
  match request.get? "id" with
  | none => some .null
  | some (.int64 i) => some (.int64 i)
  | some (.uint64 n) => some (.uint64 n)
  | some (.string t) => some (.string t)
  | some _ => none

/-- The method that a request names, and the arguments. -/
def methodOf [Doubles δ] (apis : RegisteredApis δ ω) (request : Request δ) :
    Option (ApiMethod δ ω × Variant δ) :=
  match request.get? "jsonrpc", request.get? "method" with
  | some (.string version), some (.string method) =>
    if version = "2.0".toList then (processParams apis method request).toOption else none
  | _, _ => none

/-- The method that a message calls, and the arguments. -/
def target [Doubles δ] (apis : RegisteredApis δ ω) : Variant δ → Option (ApiMethod δ ω × Variant δ)
  | .object request => if (fittingId request).isSome then methodOf apis request else none
  | _ => none

/-- The identifier of the response. -/
def responseId : Variant δ → Variant δ
  | .object request => (fittingId request).getD .null
  | _ => .null

/-- A response to a message, and what the message did to the node. -/
structure Answers [Doubles δ] (apis : RegisteredApis δ ω) (w : ω) (message : Variant δ)
    (r : JsonRpcResponse δ) (w' : ω) : Prop where
  jsonrpc : r.jsonrpc = "2.0".toList
  id : r.id = responseId message
  code : ∀ e, r.error = some e → e.code ≠ .methodNotFound
  refused : target apis message = none → r.result = none ∧ r.error.isSome ∧ w' = w
  returned : ∀ f args v w₁, target apis message = some (f, args) → (f args).run w = .ok v w₁ →
    r.result = some v ∧ r.error = none ∧ w' = w₁
  threw : ∀ f args e w₁, target apis message = some (f, args) → (f args).run w = .error e w₁ →
    r.result = none ∧ r.error.isSome ∧ w' = w₁

/-- The responses to messages, one after the other. -/
inductive AnswersAll [Doubles δ] (apis : RegisteredApis δ ω) :
    ω → List (Variant δ) → List (JsonRpcResponse δ) → ω → Prop
  | nil (w : ω) : AnswersAll apis w [] [] w
  | cons {w w₁ w' : ω} {message : Variant δ} {messages : List (Variant δ)} {r : JsonRpcResponse δ}
      {rs : List (JsonRpcResponse δ)} (h : Answers apis w message r w₁)
      (hs : AnswersAll apis w₁ messages rs w') : AnswersAll apis w (message :: messages) (r :: rs) w'

/-! ## A request with a method -/

/-- The response is an error. -/
def RpcState.failed (e : JsonRpcError δ) (s : RpcState δ ω) : RpcState δ ω :=
  { s with response := { s.response with error := some e } }

/-- An `fc::assert_exception`. -/
def RpcExc.IsAssert : RpcExc → Prop
  | .fc e => e.kind = .assert
  | _ => False

/-- A run that failed in the state `s`: its response is an error, or what it throws is no
`fc::assert_exception`. -/
def Failed (s : RpcState δ ω) (r : Result RpcExc (RpcState δ ω) Unit) : Prop :=
  (∃ e, e.code ≠ .methodNotFound ∧ r = .ok () (s.failed e)) ∨ ∃ e, ¬ RpcExc.IsAssert e ∧ r = .error e s

/-- The method was called. -/
structure Called (s : RpcState δ ω) (f : ApiMethod δ ω) (args : Variant δ)
    (r : Result RpcExc (RpcState δ ω) Unit) : Prop where
  returned : ∀ v w, (f args).run s.world = .ok v w →
    r = .ok () { s with world := w, response := { s.response with result := some v } }
  threw : ∀ e w, (f args).run s.world = .error e w → Failed { s with world := w } r

theorem failed_setError (e : JsonRpcError δ) (h : e.code ≠ .methodNotFound) (s : RpcState δ ω) :
    Failed s ((setError e).run s) :=
  .inl ⟨e, h, rfl⟩

theorem run_onAssert {α : Type} (rendering : Rendering δ) (code : ErrorCode) (a : α) (e : RpcExc)
    (s : RpcState δ ω) :
    (∃ e', e'.code = code ∧ (onAssert rendering code a e).run s = .ok a (s.failed e')) ∨
      ¬ RpcExc.IsAssert e ∧ (onAssert rendering code a e : RpcM δ ω α).run s = .error e s := by
  cases e with
  | fc e =>
    rw [onAssert]
    split
    · exact .inl ⟨errorOf rendering code e, rfl, rfl⟩
    · rename_i hkind
      exact .inr ⟨hkind, rfl⟩
  | _ => exact .inr ⟨id, rfl⟩

theorem failed_onAssert (rendering : Rendering δ) {code : ErrorCode} (hcode : code ≠ .methodNotFound)
    (e : RpcExc) (s : RpcState δ ω) : Failed s ((onAssert rendering code () e).run s) := by
  rcases run_onAssert rendering code () e s with ⟨e', heq, hrun⟩ | ⟨he, hrun⟩
  · exact .inl ⟨e', by rw [heq]; exact hcode, hrun⟩
  · exact .inr ⟨e, he, hrun⟩

theorem called_runMethod (f : ApiMethod δ ω) (args : Variant δ) (s : RpcState δ ω) :
    Called s f args ((runMethod rendering f args).run s) := by
  rw [runMethod, run_tryCatch, EStateM.run_bind]
  constructor
  · intro v w h
    rw [run_onPart_ok h]
    rfl
  · intro e w h
    rw [run_onPart_error h]
    dsimp only
    cases e with
    | lock what => exact failed_setError _ (by nofun) _
    | _ => exact failed_onAssert rendering (by nofun) _ _

/-! ## The handlers around it -/

/-- The outer handler of `fc::assert_exception` has nothing to do. -/
theorem Failed.onAssert {m : RpcM δ ω Unit} {t : RpcState δ ω} (code : ErrorCode)
    (h : Failed t (m.run s)) : Failed t ((tryCatch m (onAssert rendering code ())).run s) := by
  rw [run_tryCatch]
  rcases h with ⟨e, hcode, heq⟩ | ⟨e, he, heq⟩
  · rw [heq]
    exact .inl ⟨e, hcode, rfl⟩
  · rw [heq]
    refine .inr ⟨e, he, ?_⟩
    cases e with
    | fc e =>
      show (JsonRpc.onAssert rendering code () (.fc e)).run t = .error (.fc e) t
      rw [JsonRpc.onAssert, if_neg (show ¬ e.kind = .assert from he)]
      rfl
    | _ => rfl

theorem Called.onAssert {m : RpcM δ ω Unit} (code : ErrorCode) (h : Called s f args (m.run s)) :
    Called s f args ((tryCatch m (onAssert rendering code ())).run s) where
  returned := by
    intro v w hrun
    rw [run_tryCatch, h.returned v w hrun]
  threw := fun e w hrun => (h.threw e w hrun).onAssert code

theorem run_onAny (rendering : Rendering δ) (e : RpcExc) (s : RpcState δ ω) :
    ∃ e', e'.code = .serverError ∧ (onAny rendering e).run s = .ok () (s.failed e') := by
  cases e <;> exact ⟨_, rfl, rfl⟩

/-- What is thrown is put into the response. -/
theorem Failed.onAny {m : RpcM δ ω Unit} {t : RpcState δ ω} (rendering : Rendering δ)
    (h : Failed t (m.run s)) :
    ∃ e, e.code ≠ .methodNotFound ∧ (tryCatch m (onAny rendering)).run s = .ok () (t.failed e) := by
  rw [run_tryCatch]
  rcases h with ⟨e, hcode, heq⟩ | ⟨e, _, heq⟩
  · exact ⟨e, hcode, by rw [heq]⟩
  · obtain ⟨e', hcode, hrun⟩ := run_onAny rendering e t
    rw [heq]
    exact ⟨e', by rw [hcode]; exact nofun, hrun⟩

/-! ## The identifier -/

theorem responseId_object {id : Variant δ} (h : fittingId request = some id) :
    responseId (.object request) = id := by
  rw [responseId, h]
  rfl

/-- A fitting identifier goes into a response that has none. -/
theorem run_rpcId {id : Variant δ} (h : fittingId request = some id) {s : RpcState δ ω}
    (hnull : s.response.id = .null) :
    (rpcId request).run s = .ok () { s with response := { s.response with id := id } } := by
  rw [fittingId] at h
  rw [rpcId]
  cases hget : request.get? "id" with
  | none =>
    rw [hget] at h
    cases h
    rw [← hnull]
    rfl
  | some v =>
    rw [hget] at h
    cases v with
    | int64 i | uint64 n | string t =>
      cases h
      rfl
    | _ => cases h

/-- Another identifier is an error. -/
theorem run_rpcId_none (h : fittingId request = none) (s : RpcState δ ω) :
    ∃ e, e.code ≠ .methodNotFound ∧ (rpcId request).run s = .ok () (s.failed e) := by
  rw [fittingId] at h
  rw [rpcId]
  cases hget : request.get? "id" with
  | none =>
    rw [hget] at h
    cases h
  | some v =>
    rw [hget] at h
    cases v with
    | int64 i | uint64 n | string t => cases h
    | _ => exact ⟨_, by nofun, rfl⟩

variable [Doubles δ]

/-- A call without parameters has none that could be made out. -/
theorem processParams_none (apis : RegisteredApis δ ω) {method : Text}
    (h : ¬ ((method = "call".toList ∧ (request.get? "params").isSome) ∨ method ≠ "call".toList)) :
    ∃ e, processParams apis method request = .error e := by
  obtain ⟨hcall, hparams⟩ := not_or.mp h
  have hmethod : method = "call".toList := not_not.mp hparams
  cases hget : request.get? "params" with
  | none =>
    rw [processParams, if_pos hmethod, hget]
    exact ⟨_, rfl⟩
  | some v => exact absurd ⟨hmethod, by rw [hget]; rfl⟩ hcall

theorem called_rpcMethod {method : Text} (h : processParams apis method request = .ok (f, args)) :
    Called s f args ((rpcMethod rendering apis request method).run s) := by
  refine Called.onAssert _ ?_
  by_cases hparams : (method = "call".toList ∧ (request.get? "params").isSome) ∨
      method ≠ "call".toList
  · rw [if_pos hparams, EStateM.run_bind, run_tryCatch, h]
    exact called_runMethod f args s
  · obtain ⟨e, he⟩ := processParams_none apis hparams
    rw [h] at he
    cases he

theorem failed_rpcMethod {method : Text} {e : FcExc}
    (h : processParams apis method request = .error e) :
    Failed s ((rpcMethod rendering apis request method).run s) := by
  refine Failed.onAssert _ ?_
  by_cases hparams : (method = "call".toList ∧ (request.get? "params").isSome) ∨
      method ≠ "call".toList
  · rw [if_pos hparams, EStateM.run_bind, run_tryCatch, h]
    have hlift : (some <$> liftFc (.error e) : RpcM δ ω (Option (ApiMethod δ ω × Variant δ))).run s =
        .error (.fc e) s := rfl
    rw [hlift]
    dsimp only
    rcases run_onAssert rendering .parseParamsError
      (none : Option (ApiMethod δ ω × Variant δ)) (.fc e) s with ⟨e', hcode, hrun⟩ | ⟨he, hrun⟩
    · rw [hrun]
      exact .inl ⟨e', by rw [hcode]; exact nofun, rfl⟩
    · rw [hrun]
      exact .inr ⟨_, he, rfl⟩
  · rw [if_neg hparams]
    exact failed_setError _ (by nofun) s

/-! ## A request -/

theorem called_rpcJsonrpc (rendering : Rendering δ) (h : methodOf apis request = some (f, args)) :
    Called s f args ((rpcJsonrpc rendering apis request).run s) := by
  unfold methodOf at h
  split at h
  · rename_i version method hversion hmethod
    split at h
    · rename_i heq
      have hparams : processParams apis method request = .ok (f, args) := by
        cases hcase : processParams apis method request with
        | ok call =>
          rw [hcase] at h
          rw [Option.some.inj h]
        | error e =>
          rw [hcase] at h
          cases h
      rw [rpcJsonrpc, hversion]
      simp only [if_pos heq, hmethod]
      exact called_rpcMethod hparams
    · cases h
  · cases h

theorem failed_rpcJsonrpc (rendering : Rendering δ) (h : methodOf apis request = none) :
    Failed s ((rpcJsonrpc rendering apis request).run s) := by
  rw [rpcJsonrpc]
  cases hversion : request.get? "jsonrpc" with
  | none => exact failed_setError _ (by nofun) s
  | some v =>
    cases v with
    | string version =>
      dsimp only
      split
      · rename_i heq
        cases hmethod : request.get? "method" with
        | none => exact failed_setError _ (by nofun) s
        | some m =>
          cases m with
          | string method =>
            rw [methodOf, hversion, hmethod] at h
            simp only [if_pos heq] at h
            cases hparams : processParams apis method request with
            | ok call =>
              rw [hparams] at h
              cases h
            | error e => exact failed_rpcMethod hparams
          | _ => exact failed_setError _ (by nofun) s
      · exact failed_setError _ (by nofun) s
    | _ => exact failed_setError _ (by nofun) s

theorem target_object {id : Variant δ} (h : fittingId request = some id) :
    target apis (.object request) = methodOf apis request := by
  rw [target, h]
  rfl

/-- A request with a fitting identifier is what `rpc_jsonrpc` makes of it, and an error where that
throws. -/
theorem run_rpcBody (rendering : Rendering δ) (apis : RegisteredApis δ ω) {id : Variant δ}
    (h : fittingId request = some id) (w : ω) :
    (rpcBody rendering apis (.object request)).run { world := w } =
      (tryCatch (rpcJsonrpc rendering apis request) (onAny rendering)).run
        { response := { id := id }, world := w } := by
  have hid : (rpcId request).run ({ world := w } : RpcState δ ω) =
      .ok () { response := { id := id }, world := w } := run_rpcId h rfl
  have hbody : (do
      if (← get).response.error.isNone then rpcJsonrpc rendering apis request else pure () :
        RpcM δ ω Unit).run { response := { id := id }, world := w } =
      (rpcJsonrpc rendering apis request).run { response := { id := id }, world := w } := rfl
  rw [rpcBody, run_tryCatch, EStateM.run_bind, getObject]
  have hlift : (liftFc (.ok request) : RpcM δ ω (Request δ)).run { world := w } =
      .ok request { world := w } := rfl
  rw [hlift]
  dsimp only
  rw [EStateM.run_bind, hid]
  dsimp only
  rw [run_tryCatch, run_tryCatch, hbody]
  cases (rpcJsonrpc rendering apis request).run { response := { id := id }, world := w } with
  | ok u s' => rfl
  | error e s' =>
    obtain ⟨e', _, hrun⟩ := run_onAny rendering e s'
    dsimp only
    rw [hrun]

/-- The method was called, and returned. -/
theorem Answers.of_ok {message v : Variant δ} {w w₁ : ω} (h : target apis message = some (f, args))
    (hcall : (f args).run w = .ok v w₁) :
    Answers apis w message { result := some v, id := responseId message } w₁ where
  jsonrpc := rfl
  id := rfl
  code := nofun
  refused := by
    intro hnone
    rw [h] at hnone
    cases hnone
  returned := by
    intro f' args' v' w' hsome hcall'
    rw [h] at hsome
    cases hsome
    rw [hcall] at hcall'
    cases hcall'
    exact ⟨rfl, rfl, rfl⟩
  threw := by
    intro f' args' e w' hsome hcall'
    rw [h] at hsome
    cases hsome
    rw [hcall] at hcall'
    cases hcall'

/-- The method was called, and threw. -/
theorem Answers.of_error {message : Variant δ} {w w₁ : ω} {e : RpcExc}
    (h : target apis message = some (f, args)) (hcall : (f args).run w = .error e w₁)
    {e' : JsonRpcError δ} (hcode : e'.code ≠ .methodNotFound) :
    Answers apis w message { error := some e', id := responseId message } w₁ where
  jsonrpc := rfl
  id := rfl
  code := by
    rintro _ ⟨⟩
    exact hcode
  refused := by
    intro hnone
    rw [h] at hnone
    cases hnone
  returned := by
    intro f' args' v w' hsome hcall'
    rw [h] at hsome
    cases hsome
    rw [hcall] at hcall'
    cases hcall'
  threw := by
    intro f' args' e₁ w' hsome hcall'
    rw [h] at hsome
    cases hsome
    rw [hcall] at hcall'
    cases hcall'
    exact ⟨rfl, rfl, rfl⟩

/-- A response with an error answers a message that calls nothing. -/
theorem Answers.of_none {message : Variant δ} (h : target apis message = none) {e : JsonRpcError δ}
    (hcode : e.code ≠ .methodNotFound) (w : ω) :
    Answers apis w message { error := some e, id := responseId message } w where
  jsonrpc := rfl
  id := rfl
  code := by
    rintro _ ⟨⟩
    exact hcode
  refused := fun _ => ⟨rfl, rfl, rfl⟩
  returned := by
    intro f args v w₁ hsome
    rw [h] at hsome
    cases hsome
  threw := by
    intro f args e w₁ hsome
    rw [h] at hsome
    cases hsome

/-- A request with a fitting identifier is answered. -/
theorem answers_object {id : Variant δ} (h : fittingId request = some id) (w : ω) :
    Answers apis w (.object request) (rpc rendering apis (.object request) w).1
      (rpc rendering apis (.object request) w).2 := by
  rw [rpc, run_rpcBody rendering apis h w]
  cases hmethod : methodOf apis request with
  | none =>
    obtain ⟨e, hcode, he⟩ := (failed_rpcJsonrpc rendering
      (s := { response := { id := id }, world := w }) hmethod).onAny rendering
    rw [he, ← responseId_object h]
    exact .of_none ((target_object h).trans hmethod) hcode w
  | some call =>
    obtain ⟨f, args⟩ := call
    have htarget : target apis (.object request) = some (f, args) := (target_object h).trans hmethod
    have hcalled := called_rpcJsonrpc rendering (s := { response := { id := id }, world := w }) hmethod
    cases hcall : (f args).run w with
    | ok v w₁ =>
      rw [run_tryCatch, hcalled.returned v w₁ hcall, ← responseId_object h]
      exact .of_ok htarget hcall
    | error e w₁ =>
      obtain ⟨e', hcode, he⟩ := (hcalled.threw e w₁ hcall).onAny rendering
      rw [he, ← responseId_object h]
      exact .of_error htarget hcall hcode

/-- A request is refused for its identifier. -/
theorem answers_object_none (h : fittingId request = none) (w : ω) :
    Answers apis w (.object request) (rpc rendering apis (.object request) w).1
      (rpc rendering apis (.object request) w).2 := by
  have htarget : target apis (.object request) = none := by
    rw [target, h]
    rfl
  have hid : responseId (.object request) = .null := by
    rw [responseId, h]
    rfl
  obtain ⟨e, hcode, hrun⟩ := run_rpcId_none h ({ world := w } : RpcState δ ω)
  have hbody : (rpcBody rendering apis (.object request)).run { world := w } =
      .ok () (RpcState.failed e { world := w }) := by
    have hlift : (liftFc (.ok request) : RpcM δ ω (Request δ)).run { world := w } =
        .ok request { world := w } := rfl
    rw [rpcBody, run_tryCatch, EStateM.run_bind, getObject, hlift]
    dsimp only
    rw [EStateM.run_bind, hrun]
    rfl
  rw [rpc, hbody]
  have hanswer : Answers apis w (.object request) _ w := .of_none htarget hcode w
  rw [hid] at hanswer
  exact hanswer

/-- **A message is answered**, and its method is called where it has one. -/
theorem rpc_answers (rendering : Rendering δ) (apis : RegisteredApis δ ω) (message : Variant δ) (w : ω) :
    Answers apis w message (rpc rendering apis message w).1 (rpc rendering apis message w).2 := by
  cases message with
  | object request =>
    cases h : fittingId request with
    | none => exact answers_object_none h w
    | some id => exact answers_object h w
  | _ => exact .of_none rfl (by nofun) w

/-- The messages of an array are answered one after the other. -/
theorem rpcAll_answers (rendering : Rendering δ) (apis : RegisteredApis δ ω) (messages : List (Variant δ))
    (w : ω) : AnswersAll apis w messages (rpcAll rendering apis messages w).1
      (rpcAll rendering apis messages w).2 := by
  induction messages generalizing w with
  | nil => exact .nil w
  | cons message messages ih => exact .cons (rpc_answers rendering apis message w) (ih _)

/-! ## The text -/

/-- What is printed for a text, and what the text did to the node. -/
inductive Served (apis : RegisteredApis δ ω) (w : ω) (body : Text) : Variant δ → ω → Prop
  /-- The text is no value. -/
  | unreadable {e : JsonExc} {error : JsonRpcError δ}
      (h : (Json.fromString .legacyParser body : Except JsonExc (Variant δ)) = .error e)
      (hcode : error.code = .serverError) :
      Served apis w body (JsonRpcResponse.toVariant { error := some error }) w
  /-- There are no messages. -/
  | empty {error : JsonRpcError δ}
      (h : (Json.fromString .legacyParser body : Except JsonExc (Variant δ)) = .ok (.array []))
      (hcode : error.code = .serverError) :
      Served apis w body (JsonRpcResponse.toVariant { error := some error }) w
  /-- There is one message. -/
  | message {message : Variant δ} {r : JsonRpcResponse δ} {w' : ω}
      (h : Json.fromString .legacyParser body = .ok message)
      (hmessage : ∀ messages, message ≠ .array messages) (hr : Answers apis w message r w') :
      Served apis w body r.toVariant w'
  /-- There are some messages. -/
  | messages {messages : List (Variant δ)} {rs : List (JsonRpcResponse δ)} {w' : ω}
      (h : Json.fromString .legacyParser body = .ok (.array messages)) (hmessages : messages ≠ [])
      (hrs : AnswersAll apis w messages rs w') :
      Served apis w body (.array (rs.map JsonRpcResponse.toVariant)) w'

theorem answer_served (rendering : Rendering δ) (apis : RegisteredApis δ ω) (body : Text) (w : ω) :
    Served apis w body (answer rendering apis body w).1 (answer rendering apis body w).2 := by
  rw [answer]
  cases h : (Json.fromString .legacyParser body : Except JsonExc (Variant δ)) with
  | error e => exact .unreadable h rfl
  | ok v =>
    cases v with
    | array messages =>
      dsimp only
      by_cases hnil : messages = []
      · rw [if_pos hnil]
        rw [hnil] at h
        exact .empty h rfl
      · rw [if_neg hnil]
        exact .messages h hnil (rpcAll_answers rendering apis messages w)
    | _ => exact .message h (by nofun) (rpc_answers rendering apis _ w)

/-- **A text is answered.** What is printed is read back; it is the response to the message of the text, or
the responses to its messages one after the other; and the state of the node is what the methods called
made of it. -/
theorem call_answers [LawfulDoubles δ] (rendering : Rendering δ) (apis : RegisteredApis δ ω) (body : Text)
    (w : ω) :
    ∃ printed : Variant δ, Served apis w body printed (call rendering apis body w).2 ∧
      Json.fromString .legacyParser (call rendering apis body w).1 =
        (Json.checkStringDepth (call rendering apis body w).1).map fun _ => Json.reread printed :=
  ⟨(answer rendering apis body w).1, answer_served rendering apis body w, Json.fromString_eq _ _⟩

/-! ## A node that counts -/

/-- A method that counts its calls. -/
def countingMethod : ApiMethod Json.Half Nat := fun args => do
  set ((← get) + 1)
  pure args

/-- It is `a.m`. -/
def countingApis : RegisteredApis Json.Half Nat := fun api =>
  if api = "a".toList then some fun method => if method = "m".toList then some countingMethod else none
  else none

def noRendering : Rendering Json.Half := ⟨fun _ => [], fun _ => .null⟩

/-- A request for `a.m` and one for `a.n`. -/
def twoRequests : Variant Json.Half :=
  .array [.object [("jsonrpc".toList, .string "2.0".toList), ("method".toList, .string "a.m".toList),
      ("id".toList, .uint64 7)],
    .object [("jsonrpc".toList, .string "2.0".toList), ("method".toList, .string "a.n".toList)]]

def twoMessages : Text := Json.toString .stringifyLargeIntsAndDoubles twoRequests

theorem fromString_twoMessages : Json.fromString .legacyParser twoMessages = .ok twoRequests := by
  have hdepth : Json.checkStringDepth twoMessages = .ok () := rfl
  have hplain : Json.reread twoRequests = twoRequests := rfl
  rw [twoMessages, Json.fromString_eq, ← twoMessages, hdepth, hplain]
  rfl

/-- Two requests are answered, and one of them is counted. -/
theorem call_answers_half :
    (∃ printed : Variant Json.Half,
      Served countingApis 0 twoMessages printed (call noRendering countingApis twoMessages 0).2 ∧
      Json.fromString .legacyParser (call noRendering countingApis twoMessages 0).1 =
        (Json.checkStringDepth (call noRendering countingApis twoMessages 0).1).map
          fun _ => Json.reread printed) ∧
      (call noRendering countingApis twoMessages 0).2 = 1 := by
  refine ⟨call_answers noRendering countingApis twoMessages 0, ?_⟩
  rw [call, answer, fromString_twoMessages]
  rfl

end JsonRpc

end NewsChain
