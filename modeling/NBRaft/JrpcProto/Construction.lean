import NBRaft.JrpcProto.Request

/-!
# The ways to build a request

Besides the overloads of `JsonRpcRequestFactory` that take the parameters as a map there are two
variadic ones, and two constructors of `JsonRpcRequest` that take the map themselves. Each of
the three ways builds return calls and notifications.
-/

namespace NBRaft.JrpcProto

open Json

namespace JsonRpcRequest

/-- The loop of the constructors over `kv`. The variable it fills is declared without a type, so
it starts as null. -/
def paramsOf (kv : UnorderedMap Value) : Value :=
  Value.null.assignAll (kv.entries.map fun item => (item.1, item.2))

/-- The constructor of a method call, with parameters as a map. -/
def methodCallOf (jsonrpcVersion methodName : String) (kv : UnorderedMap Value)
    (requestId : String) : JsonRpcRequest where
  m_rpcRequest := (((Value.null.assign "jsonrpc" (.string jsonrpcVersion)).assign
    "method" (.string methodName)).assign "params" (paramsOf kv)).assign "id" (.string requestId)

/-- The constructor of a notification, with parameters as a map. -/
def notificationOf (jsonrpcVersion methodName : String) (kv : UnorderedMap Value) :
    JsonRpcRequest where
  m_rpcRequest := ((Value.null.assign "jsonrpc" (.string jsonrpcVersion)).assign
    "method" (.string methodName)).assign "params" (paramsOf kv)

end JsonRpcRequest

namespace JsonRpcRequestFactory

/-- The arguments of a variadic overload: keys and values in turn. -/
def addParams : Value → List (String × Value) → Value
  | params, [] => params
  | params, (key, value) :: args => addParams (params.assign key value) args

/-- The variadic overload for return calls. -/
def createReturnCallRequestFrom (version method id : String) (args : List (String × Value)) :
    JsonRpcRequest :=
  .methodCall version method (addParams .emptyObject args) id

/-- The variadic overload for notifications. It passes `""` as the fourth argument, so the
constructor of a method call is the one that runs. -/
def createNotifyCallRequestFrom (version method : String) (args : List (String × Value)) :
    JsonRpcRequest :=
  .methodCall version method (addParams .emptyObject args) ""

end JsonRpcRequestFactory

/-- What is called: a method, with an id for the answer, or a notification. -/
inductive CallKind where
  | returnCall (id : String)
  | notification
  deriving DecidableEq

namespace CallKind

/-- The request of the factory's map overload. -/
def byMap (version method : String) (params : UnorderedMap Value) : CallKind → JsonRpcRequest
  | returnCall id => JsonRpcRequestFactory.createReturnCallRequest version method id params
  | notification => JsonRpcRequestFactory.createNotifyCallRequest version method params

/-- The request of the factory's variadic overload. -/
def byArgs (version method : String) (args : List (String × Value)) : CallKind → JsonRpcRequest
  | returnCall id => JsonRpcRequestFactory.createReturnCallRequestFrom version method id args
  | notification => JsonRpcRequestFactory.createNotifyCallRequestFrom version method args

/-- The request of the constructor. -/
def byConstructor (version method : String) (kv : UnorderedMap Value) :
    CallKind → JsonRpcRequest
  | returnCall id => .methodCallOf version method kv id
  | notification => .notificationOf version method kv

/-- The three requests built from one set of parameters; `args` lists it for the variadic
overload. -/
def built (kind : CallKind) (version method : String) (params : UnorderedMap Value)
    (args : List (String × Value)) : List JsonRpcRequest :=
  [kind.byMap version method params, kind.byArgs version method args,
    kind.byConstructor version method params]

end CallKind

/-! ## The parameters they build -/

namespace JsonRpcRequestFactory

theorem addParams_eq_assignAll (params : Value) (args : List (String × Value)) :
    addParams params args = params.assignAll args := by
  induction args generalizing params with
  | nil => rfl
  | cons arg args ih =>
    obtain ⟨key, value⟩ := arg
    exact ih (params.assign key value)

/-- The order of the arguments does not matter. -/
theorem addParams_eq_paramsToJson {params : UnorderedMap Value} {args : List (String × Value)}
    (h : args.Perm (params.entries.map fun item => (item.1, item.2))) :
    addParams .emptyObject args = paramsToJson params := by
  have hentries : (args.map fun arg => (⟨arg.1, arg.2⟩ : Sigma fun _ : String => Value)).Perm
      params.entries := by
    have hmap := h.map fun arg => (⟨arg.1, arg.2⟩ : Sigma fun _ : String => Value)
    rw [List.map_map] at hmap
    simpa only [Function.comp_def, Sigma.eta, List.map_id'] using hmap
  let argMap : UnorderedMap Value :=
    ⟨_, (List.perm_nodupKeys hentries).mpr params.nodupKeys⟩
  have hargs : addParams .emptyObject args = paramsToJson argMap := by
    rw [addParams_eq_assignAll, paramsToJson, List.map_map]
    simp only [Function.comp_def, Prod.mk.eta, List.map_id']
  rw [hargs]
  apply Value.ext_find? (type_paramsToJson _) (type_paramsToJson _)
  intro k
  rw [find?_paramsToJson, find?_paramsToJson]
  exact AList.perm_lookup hentries

end JsonRpcRequestFactory

namespace JsonRpcRequest

open JsonRpcRequestFactory

theorem paramsOf_empty : paramsOf ∅ = .null := rfl

/-- With a first parameter null becomes an object. -/
theorem paramsOf_eq_paramsToJson {kv : UnorderedMap Value} (h : kv ≠ ∅) :
    paramsOf kv = paramsToJson kv := by
  obtain ⟨entries, hnodup⟩ := kv
  cases entries with
  | nil => exact absurd rfl h
  | cons item rest =>
    rw [paramsOf, paramsToJson]
    simp only [List.map_cons, Value.assignAll, List.foldl_cons]
    congr 1

section

variable (version name : String) (params : Value)

@[simp] theorem type_notification :
    (notification version name params).m_rpcRequest.type = .objectValue := by
  simp [notification]

theorem find?_id_notification :
    (notification version name params).m_rpcRequest.find? "id" = none := by
  simp [notification]

end

end JsonRpcRequest

/-! ## Where they agree -/

/-- All three requests are equal as JSON; of a notification each is one; and the text of each is
read back as an equal request. -/
structure BuildersAgree (J : Jsoncpp) (kind : CallKind) (version method : String)
    (params : UnorderedMap Value) (args : List (String × Value)) : Prop where
  equal : ∀ r ∈ kind.built version method params args,
    ∀ r' ∈ kind.built version method params args, r.toJson = r'.toJson
  notifications : kind = .notification →
    ∀ r ∈ kind.built version method params args, r.isNotification = .ok true
  readBack : ∀ r ∈ kind.built version method params args, ∃ r',
    JsonRpcRequestFactory.createFromJsonStr J (r.toJsonStr J) = .ok (some r') ∧
      r'.toJson = r.toJson

section

open JsonRpcRequestFactory

variable {params : UnorderedMap Value} {args : List (String × Value)}

/-- A return call with parameters is the same request whichever way it is built. -/
theorem built_returnCall (version method id : String) (h : params ≠ ∅)
    (hargs : args.Perm (params.entries.map fun item => (item.1, item.2))) :
    (CallKind.returnCall id).built version method params args =
      List.replicate 3 (.methodCall version method (paramsToJson params) id) := by
  simp only [CallKind.built, CallKind.byMap, CallKind.byArgs, CallKind.byConstructor,
    createReturnCallRequest, createReturnCallRequestFrom, addParams_eq_paramsToJson hargs,
    JsonRpcRequest.methodCallOf, JsonRpcRequest.paramsOf_eq_paramsToJson h]
  rfl

/-- The variadic overload gives a notification an id. -/
theorem isNotification_createNotifyCallRequestFrom (version method : String) :
    (createNotifyCallRequestFrom version method args).isNotification = .ok false := by
  rw [createNotifyCallRequestFrom, JsonRpcRequest.isNotification_eq
    (JsonRpcRequest.type_methodCall ..), JsonRpcRequest.find?_id_methodCall]
  rfl

/-- Without parameters the constructor leaves them null, which the factory does not. -/
theorem toJson_returnCall_empty_ne (version method id : String) :
    ((CallKind.returnCall id).byConstructor version method ∅).toJson ≠
      ((CallKind.returnCall id).byMap version method ∅).toJson := by
  intro h
  have hparams := congrArg (fun v => v.find? "params") h
  simp only [CallKind.byConstructor, CallKind.byMap, JsonRpcRequest.toJson,
    JsonRpcRequest.methodCallOf, createReturnCallRequest,
    JsonRpcRequest.find?_params_methodCall, JsonRpcRequest.paramsOf_empty] at hparams
  have hnull := congrArg (Option.map Value.type) hparams
  simp [type_paramsToJson] at hnull

/-- So the three ways never agree on a notification. -/
theorem not_buildersAgree_notification (J : Jsoncpp) (version method : String) :
    ¬ BuildersAgree J .notification version method params args := by
  intro h
  have hnot := h.notifications rfl (createNotifyCallRequestFrom version method args)
    (by simp [CallKind.built, CallKind.byArgs])
  rw [isNotification_createNotifyCallRequestFrom] at hnot
  cases hnot

end

/-- The three ways agree on return calls that have parameters, and on nothing else. -/
theorem buildersAgree_iff (J : Jsoncpp) (kind : CallKind) (version method : String)
    (params : UnorderedMap Value) (args : List (String × Value))
    (hargs : args.Perm (params.entries.map fun item => (item.1, item.2)))
    (hJ : ∀ r ∈ kind.built version method params args,
      J.parseFromStream (r.toJsonStr J) = .ok (some r.toJson)) :
    BuildersAgree J kind version method params args ↔ kind ≠ .notification ∧ params ≠ ∅ := by
  constructor
  · intro h
    cases kind with
    | notification => exact absurd h (not_buildersAgree_notification J version method)
    | returnCall id =>
      refine ⟨nofun, ?_⟩
      rintro rfl
      exact toJson_returnCall_empty_ne version method id
        (h.equal _ (by simp [CallKind.built]) _ (by simp [CallKind.built]))
  · rintro ⟨hkind, hparams⟩
    cases kind with
    | notification => exact absurd rfl hkind
    | returnCall id =>
      have hbuilt := built_returnCall version method id hparams hargs
      rw [hbuilt] at hJ
      constructor
      · intro r hr r' hr'
        rw [hbuilt] at hr hr'
        rw [List.eq_of_mem_replicate hr, List.eq_of_mem_replicate hr']
      · exact fun h => absurd h hkind
      · intro r hr
        rw [hbuilt] at hr
        have hparse := hJ r hr
        obtain rfl := List.eq_of_mem_replicate hr
        refine ⟨_, JsonRpcRequestFactory.createFromJsonStr_eq_some.mpr ⟨hparse, ?_⟩, rfl⟩
        exact JsonRpcRequest.isRequest_methodCall _ _ _ _
          (JsonRpcRequestFactory.type_paramsToJson _)

/-- The text of a call that multiplies two and three. -/
def productText : Bytes :=
  utf8 ("\x7b\n\t\"id\" : \"1\",\n\t\"jsonrpc\" : \"2.0\",\n" ++
    "\t\"method\" : \"product\",\n\t\"params\" : \n\t\x7b\n" ++
    "\t\t\"x\" : 2,\n\t\t\"y\" : 3\n\t\x7d\n\x7d")

def productParams : UnorderedMap Value := (AList.singleton "x" (Value.int 2)).insert "y" (.int 3)

/-- jsoncpp on that text. -/
def productJsoncpp : Jsoncpp where
  parseFromStream text := .ok (if text = productText then some
    (JsonRpcRequestFactory.createReturnCallRequest "2.0" "product" "1" productParams).toJson
    else none)
  writeString _ := productText
  toStyledString _ := productText ++ utf8 "\n"
  valueToString _ := ""

theorem buildersAgree_product :
    BuildersAgree productJsoncpp (.returnCall "1") "2.0" "product" productParams
      [("x", .int 2), ("y", .int 3)] := by
  have hargs : [("x", Value.int 2), ("y", .int 3)].Perm
      (productParams.entries.map fun item => (item.1, item.2)) := List.Perm.swap _ _ _
  have hparams : productParams ≠ ∅ := by
    intro h
    have hempty := congrArg AList.entries h
    exact absurd hempty (List.cons_ne_nil _ _)
  refine (buildersAgree_iff productJsoncpp (.returnCall "1") "2.0" "product" productParams
    [("x", .int 2), ("y", .int 3)] hargs fun r hr => ?_).mpr ⟨nofun, hparams⟩
  rw [built_returnCall "2.0" "product" "1" hparams hargs] at hr
  rw [List.eq_of_mem_replicate hr]
  exact congrArg Except.ok (if_pos rfl)

/-- A notification without parameters, built in the three ways: the variadic overload gives it an
id, and the constructor makes one that the receiver rejects. -/
theorem notification_built_differently :
    (CallKind.byMap "2.0" "tick" ∅ .notification).isNotification = .ok true ∧
      (CallKind.byArgs "2.0" "tick" [] .notification).isNotification = .ok false ∧
      JsonRpcRequestFactory.fieldsExist
        (CallKind.byConstructor "2.0" "tick" ∅ .notification).toJson = .ok false ∧
      ∀ J, ¬ BuildersAgree J .notification "2.0" "tick" ∅ [] := by
  refine ⟨?_, isNotification_createNotifyCallRequestFrom .., ?_,
    fun J => not_buildersAgree_notification J "2.0" "tick"⟩
  · rw [CallKind.byMap, JsonRpcRequestFactory.createNotifyCallRequest,
      JsonRpcRequest.isNotification_eq (JsonRpcRequest.type_notification ..),
      JsonRpcRequest.find?_id_notification]
    rfl
  · simp [CallKind.byConstructor, JsonRpcRequest.notificationOf, JsonRpcRequest.toJson,
      JsonRpcRequestFactory.fieldsExist_eq, JsonRpcRequest.paramsOf_empty, Value.isObject]

end NBRaft.JrpcProto
