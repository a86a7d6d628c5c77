import NBRaft.JrpcProto.Error

/-!
# JSON-RPC requests

`JsonRpcRequest` and `JsonRpcRequestFactory`. A flag of `false` is `none` here: the callers
ignore the empty request that comes with it.

`IsRequest` states in one place what the field checks accept; `fieldsExist_eq_true` connects
it to the code, and the two ends of a call use only that.
-/

namespace NBRaft.JrpcProto

open Json

/-- `v.isMember(k) && test(v[k])`, the shape of every field check of the protocol layer. -/
def memberIs (v : Value) (k : String) (test : Value → Bool) : Except Exception Bool := do
  if ← v.isMember k then
    return test (← v.get k)
  else
    return false

/-- The member exists and passes the test. -/
theorem memberIs_eq {v : Value} (h : v.hasMembers = true) (k : String) (test : Value → Bool) :
    memberIs v k test = .ok ((v.find? k).any test) := by
  cases hk : v.find? k <;>
    simp [memberIs, Value.isMember_eq h, Value.get_eq h, hk, bind, Except.bind, pure, Except.pure]

namespace JsonRpcRequestFactory

def fieldsExist (rpcRequestJson : Value) : Except Exception Bool := do
  unless ← memberIs rpcRequestJson "jsonrpc" Value.isString do return false
  unless ← memberIs rpcRequestJson "method" Value.isString do return false
  unless ← memberIs rpcRequestJson "params" Value.isObject do return false
  return true

end JsonRpcRequestFactory

structure JsonRpcRequest where
  m_rpcRequest : Value

namespace JsonRpcRequest

/-- The constructor from a JSON value. -/
def ofJson (rpcRequest : Value) : Except Exception JsonRpcRequest := do
  if ← JsonRpcRequestFactory.fieldsExist rpcRequest then
    return ⟨rpcRequest⟩
  else
    return ⟨.null⟩

/-- The constructor of a method call, with parameters as a JSON value. -/
def methodCall (jsonrpcVersion methodName : String) (parameters : Value) (requestId : String) :
    JsonRpcRequest where
  m_rpcRequest := (((Value.null.assign "jsonrpc" (.string jsonrpcVersion)).assign
    "method" (.string methodName)).assign "params" parameters).assign "id" (.string requestId)

/-- The constructor of a notification, which has no `id`. -/
def notification (jsonrpcVersion methodName : String) (parameters : Value) : JsonRpcRequest where
  m_rpcRequest := ((Value.null.assign "jsonrpc" (.string jsonrpcVersion)).assign
    "method" (.string methodName)).assign "params" parameters

def toJsonStr (J : Jsoncpp) (request : JsonRpcRequest) : Bytes :=
  J.writeString request.m_rpcRequest

def toJson (request : JsonRpcRequest) : Value := request.m_rpcRequest

/-- The text of a member, or the empty string without it. -/
def memberText (J : Jsoncpp) (v : Value) (k : String) : Except Exception String := do
  if ← v.isMember k then
    (← v.get k).asString J
  else
    return ""

def getMethod (J : Jsoncpp) (request : JsonRpcRequest) : Except Exception String :=
  memberText J request.m_rpcRequest "method"

def getId (J : Jsoncpp) (request : JsonRpcRequest) : Except Exception String :=
  memberText J request.m_rpcRequest "id"

def isNotification (request : JsonRpcRequest) : Except Exception Bool := do
  return !(← request.m_rpcRequest.isMember "id")

def isReturnCall (request : JsonRpcRequest) : Except Exception Bool :=
  request.m_rpcRequest.isMember "id"

end JsonRpcRequest

namespace JsonRpcRequestFactory

/-- `for (const auto& item : params) paramsJson[item.first] = item.second` on an empty object. -/
def paramsToJson (params : UnorderedMap Value) : Value :=
  Value.emptyObject.assignAll (params.entries.map fun item => (item.1, item.2))

/-- The overload that takes the parameters as a map. -/
def createReturnCallRequest (version method id : String) (params : UnorderedMap Value) :
    JsonRpcRequest :=
  .methodCall version method (paramsToJson params) id

def createNotifyCallRequest (version method : String) (params : UnorderedMap Value) :
    JsonRpcRequest :=
  .notification version method (paramsToJson params)

def createFromJsonStr (J : Jsoncpp) (jsonStr : Bytes) :
    Except Exception (Option JsonRpcRequest) := do
  match ← J.parseFromStream jsonStr with
  | none => return none
  | some root =>
    if ← fieldsExist root then
      return some (← JsonRpcRequest.ofJson root)
    else
      return none

end JsonRpcRequestFactory

/-! ## What the field checks accept -/

/-- A JSON object with a string `jsonrpc`, a string `method` and an object `params`. -/
structure IsRequest (v : Value) : Prop where
  type : v.type = .objectValue
  jsonrpc : ∃ version, v.find? "jsonrpc" = some (.string version)
  method : ∃ name, v.find? "method" = some (.string name)
  params : ∃ params, v.find? "params" = some params ∧ params.type = .objectValue

theorem any_isString {o : Option Value} :
    o.any Value.isString = true ↔ ∃ s, o = some (.string s) := by
  cases o with
  | none => simp
  | some v => cases v <;> simp [Value.isString, Value.type]

theorem any_isObject {o : Option Value} :
    o.any Value.isObject = true ↔ ∃ v, o = some v ∧ v.type = .objectValue := by
  cases o <;> simp [Value.isObject]

namespace JsonRpcRequestFactory

/-- On a receiver that allows member access the three checks are a conjunction. -/
theorem fieldsExist_eq {v : Value} (h : v.hasMembers = true) :
    fieldsExist v = .ok ((v.find? "jsonrpc").any Value.isString &&
      ((v.find? "method").any Value.isString && (v.find? "params").any Value.isObject)) := by
  simp only [fieldsExist, memberIs_eq h, bind, Except.bind]
  cases (v.find? "jsonrpc").any Value.isString <;>
    cases (v.find? "method").any Value.isString <;>
    cases (v.find? "params").any Value.isObject <;> rfl

/-- Anything else makes the first `isMember` throw. -/
theorem fieldsExist_of_not {v : Value} (h : v.hasMembers = false) :
    fieldsExist v = .error .logicError := by
  simp [fieldsExist, memberIs, Value.isMember, h, bind, Except.bind]

theorem fieldsExist_eq_true {v : Value} : fieldsExist v = .ok true ↔ IsRequest v := by
  constructor
  · intro h
    cases hm : v.hasMembers with
    | false => simp [fieldsExist_of_not hm] at h
    | true =>
      rw [fieldsExist_eq hm] at h
      simp only [Except.ok.injEq, Bool.and_eq_true, any_isString, any_isObject] at h
      obtain ⟨hj, hmeth, hp⟩ := h
      have ht : v.type = .objectValue := by
        obtain ⟨s, hs⟩ := hj
        cases v <;> simp_all [Value.find?, Value.type]
      exact ⟨ht, hj, hmeth, hp⟩
  · intro h
    rw [fieldsExist_eq (Value.hasMembers_of_object h.type)]
    simp only [Except.ok.injEq, Bool.and_eq_true, any_isString, any_isObject]
    exact ⟨h.jsonrpc, h.method, h.params⟩

/-- A text is accepted exactly as the request object it parses to. -/
theorem createFromJsonStr_eq_some {J : Jsoncpp} {text : Bytes} {request : JsonRpcRequest} :
    createFromJsonStr J text = .ok (some request) ↔
      J.parseFromStream text = .ok (some request.m_rpcRequest) ∧
        IsRequest request.m_rpcRequest := by
  unfold createFromJsonStr
  cases hp : J.parseFromStream text with
  | error e => simp [bind, Except.bind]
  | ok root? =>
    cases root? with
    | none => simp [bind, Except.bind, pure, Except.pure]
    | some root =>
      cases hf : fieldsExist root with
      | error e =>
        have hnot : ¬ IsRequest root := fun h => by simp [fieldsExist_eq_true.mpr h] at hf
        simp only [hf, bind, Except.bind, Except.ok.injEq, Option.some.injEq, reduceCtorEq,
          false_iff, not_and]
        rintro rfl
        exact hnot
      | ok b =>
        cases b with
        | false =>
          have hnot : ¬ IsRequest root := fun h => by simp [fieldsExist_eq_true.mpr h] at hf
          simp only [hf, bind, Except.bind, pure, Except.pure, Bool.false_eq_true, if_false,
            Except.ok.injEq, Option.some.injEq, reduceCtorEq, false_iff, not_and]
          rintro rfl
          exact hnot
        | true =>
          have hreq := fieldsExist_eq_true.mp hf
          obtain ⟨v⟩ := request
          simp only [hf, JsonRpcRequest.ofJson, bind, Except.bind, pure, Except.pure, if_true,
            Except.ok.injEq, Option.some.injEq, JsonRpcRequest.mk.injEq]
          constructor
          · rintro rfl
            exact ⟨rfl, hreq⟩
          · exact And.left

/-- The parameter object has exactly the entries of the map, whatever order they come in. -/
theorem find?_paramsToJson (params : UnorderedMap Value) (k : String) :
    (paramsToJson params).find? k = params.lookup k := by
  have hnd : ((params.entries.map fun item => (item.1, item.2)).map Prod.fst).Nodup := by
    simpa [List.NodupKeys, List.keys, Function.comp_def] using params.nodupKeys
  rw [paramsToJson, Value.find?_assignAll _ hnd]
  have key : ∀ entries : List (Sigma fun _ : String => Value),
      (entries.map fun item => (item.1, item.2)).lookup k = entries.dlookup k := by
    intro entries
    induction entries with
    | nil => rfl
    | cons item rest ih =>
      obtain ⟨name, v⟩ := item
      by_cases hk : k = name
      · subst hk
        simp [List.dlookup_cons_eq]
      · have hbeq : (k == name) = false := by simpa using hk
        rw [List.dlookup_cons_ne _ _ hk]
        simp [List.lookup_cons, hbeq, ih]
  simp [key, AList.lookup]

theorem type_paramsToJson (params : UnorderedMap Value) :
    (paramsToJson params).type = .objectValue :=
  Value.type_assignAll _ rfl

end JsonRpcRequestFactory

/-! ## Reading the members of a call back -/

namespace JsonRpcRequest

section

variable (version name : String) (params : Value) (id : String)

@[simp] theorem type_methodCall :
    (methodCall version name params id).m_rpcRequest.type = .objectValue := by
  simp [methodCall]

@[simp] theorem find?_jsonrpc_methodCall :
    (methodCall version name params id).m_rpcRequest.find? "jsonrpc" = some (.string version) := by
  simp [methodCall]

@[simp] theorem find?_method_methodCall :
    (methodCall version name params id).m_rpcRequest.find? "method" = some (.string name) := by
  simp [methodCall]

@[simp] theorem find?_params_methodCall :
    (methodCall version name params id).m_rpcRequest.find? "params" = some params := by
  simp [methodCall]

@[simp] theorem find?_id_methodCall :
    (methodCall version name params id).m_rpcRequest.find? "id" = some (.string id) := by
  simp [methodCall]

/-- A method call with object parameters passes the field checks of the receiving side. -/
theorem isRequest_methodCall (h : params.type = .objectValue) :
    IsRequest (methodCall version name params id).m_rpcRequest :=
  ⟨type_methodCall .., ⟨version, by simp⟩, ⟨name, by simp⟩, ⟨params, by simp, h⟩⟩

end

/-- The text of a string member. -/
theorem memberText_string (J : Jsoncpp) {v : Value} {k s : String}
    (hv : v.type = .objectValue) (h : v.find? k = some (.string s)) :
    memberText J v k = .ok s := by
  have hm := Value.hasMembers_of_object hv
  simp [memberText, Value.isMember_eq hm, Value.get_eq hm, h, bind, Except.bind, Value.asString]

theorem isReturnCall_eq {request : JsonRpcRequest}
    (h : request.m_rpcRequest.type = .objectValue) :
    request.isReturnCall = .ok (request.m_rpcRequest.find? "id").isSome :=
  Value.isMember_eq (Value.hasMembers_of_object h) "id"

theorem isNotification_eq {request : JsonRpcRequest}
    (h : request.m_rpcRequest.type = .objectValue) :
    request.isNotification = .ok (!(request.m_rpcRequest.find? "id").isSome) := by
  simp [isNotification, Value.isMember_eq (Value.hasMembers_of_object h), bind, Except.bind, pure,
    Except.pure]

end JsonRpcRequest

end NBRaft.JrpcProto
