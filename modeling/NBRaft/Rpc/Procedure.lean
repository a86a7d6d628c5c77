import NBRaft.JrpcProto.Response

/-!
# Registered procedures and their parameter check

`RpcProcedure<Func>`: a callback and the declared parameter types. The result `ρ` of the
callback stands for what calling it does; `invoke` either calls it or throws `InvalidParams`.
-/

namespace NBRaft.Rpc

open Json JrpcProto

structure RpcProcedure (ρ : Type) where
  m_callback : Value → ρ
  m_standardParams : UnorderedMap ValueType

/-- A `ReturnFunc` is modelled by the responses it passes to `done`, in order. -/
abbrev ReturnFunc := List Value

abbrev ProcedureReturn := RpcProcedure ReturnFunc
abbrev ProcedureNotify := RpcProcedure Unit

namespace RpcProcedure

variable {ρ : Type} (p : RpcProcedure ρ)

/-- Every present parameter is declared with exactly its type. -/
def validateGeneric (request : Value) : Except Exception Bool := do
  if !(← request.isMember "params") then
    return false
  let params ← request.get "params"
  return params.allChildren fun key value => p.m_standardParams.lookup key == some value.type

def validateRequest (request : Value) : Except Exception Unit := do
  if !(← p.validateGeneric request) then
    throw JsonRpcErrorCode.InvalidParams.toException

def invoke (request : Value) : Except Exception ρ := do
  p.validateRequest request
  return p.m_callback request

/-- On an object, the loop is a statement about its members. -/
theorem validateGeneric_eq_true {request params : Value}
    (hr : request.hasMembers = true) (hp : request.find? "params" = some params)
    (ht : params.type = .objectValue) :
    p.validateGeneric request = .ok true ↔
      ∀ k w, params.find? k = some w → p.m_standardParams.lookup k = some w.type := by
  simp [validateGeneric, Value.isMember_eq hr, Value.get_eq hr, hp, bind, Except.bind, pure,
    Except.pure, Value.allChildren_object ht]

/-- A request whose parameters validate reaches the callback; there is no other way to it. -/
theorem invoke_eq_ok {request : Value} {r : ρ} :
    p.invoke request = .ok r ↔
      p.validateGeneric request = .ok true ∧ r = p.m_callback request := by
  unfold invoke validateRequest
  cases hv : p.validateGeneric request with
  | error e => simp [bind, Except.bind]
  | ok b =>
    cases b with
    | false => simp [bind, Except.bind, throw, throwThe, MonadExceptOf.throw]
    | true => simp [bind, Except.bind, pure, Except.pure, eq_comm]

/-! ## What the check lets through -/

section

variable {request params : Value}

/-- The parameters are the declared ones, each of exactly its type. -/
structure Exact (params : Value) : Prop where
  names : ∀ k, (params.find? k).isSome ↔ (p.m_standardParams.lookup k).isSome
  types : ∀ k w t, params.find? k = some w → p.m_standardParams.lookup k = some t → w.type = t

/-- The callback gets exactly the requests with the declared parameters, and `InvalidParams` is
thrown for the others. -/
structure ValidatesExactly (request params : Value) : Prop where
  calls : p.invoke request = .ok (p.m_callback request) ↔ p.Exact params
  throws : ¬ p.Exact params →
    p.invoke request = .error JsonRpcErrorCode.InvalidParams.toException

/-- No parameter is present that is undeclared or of another type. This is all the loop tests,
for it runs over the request. -/
def Admits (params : Value) : Prop :=
  ∀ k w, params.find? k = some w → p.m_standardParams.lookup k = some w.type

/-- No declared parameter is missing. -/
def Complete (params : Value) : Prop :=
  ∀ k, (p.m_standardParams.lookup k).isSome → (params.find? k).isSome

/-- The check is one of the two inclusions. -/
theorem exact_iff : p.Exact params ↔ p.Admits params ∧ p.Complete params := by
  constructor
  · intro h
    refine ⟨fun k w hk => ?_, fun k => (h.names k).mpr⟩
    obtain ⟨t, ht⟩ := Option.isSome_iff_exists.mp ((h.names k).mp (by simp [hk]))
    rw [ht, h.types k w t hk ht]
  · rintro ⟨hadmits, hcomplete⟩
    constructor
    · intro k
      refine ⟨fun hk => ?_, hcomplete k⟩
      obtain ⟨w, hw⟩ := Option.isSome_iff_exists.mp hk
      simp [hadmits k w hw]
    · intro k w t hk ht
      have htypes := (hadmits k w hk).symm.trans ht
      exact Option.some.inj htypes

/-- On object parameters there are two outcomes, and `Admits` decides between them. -/
theorem invoke_eq [Decidable (p.Admits params)] (hp : request.find? "params" = some params)
    (ht : params.type = .objectValue) :
    p.invoke request =
      if p.Admits params then .ok (p.m_callback request)
      else .error JsonRpcErrorCode.InvalidParams.toException := by
  have hr := Value.hasMembers_of_find? hp
  have hadmits := p.validateGeneric_eq_true hr hp ht
  obtain ⟨b, hb⟩ : ∃ b, p.validateGeneric request = .ok b :=
    ⟨_, by simp only [validateGeneric, Value.isMember_eq hr, Value.get_eq hr, hp, bind,
      Except.bind, pure, Except.pure]; rfl⟩
  rw [hb, Except.ok.injEq] at hadmits
  split_ifs with h
  · rw [invoke_eq_ok]
    exact ⟨by rw [hb, hadmits.mpr h], rfl⟩
  · obtain rfl : b = false := by simpa using mt hadmits.mp h
    simp [invoke, validateRequest, hb, bind, Except.bind, throw, throwThe, MonadExceptOf.throw]

end

/-- The loop runs over the parameters of the request only: the validation is exact unless all of
them are as declared and another one is declared. -/
theorem validatesExactly_iff (request params : Value) (hp : request.find? "params" = some params)
    (ht : params.type = .objectValue) :
    p.ValidatesExactly request params ↔ (p.Admits params → p.Complete params) := by
  classical
  have hinvoke := p.invoke_eq hp ht
  by_cases hadmits : p.Admits params
  · rw [if_pos hadmits] at hinvoke
    constructor
    · intro h _
      exact (p.exact_iff.mp (h.calls.mp hinvoke)).2
    · intro h
      have hexact := p.exact_iff.mpr ⟨hadmits, h hadmits⟩
      exact ⟨iff_of_true hinvoke hexact, absurd hexact⟩
  · rw [if_neg hadmits] at hinvoke
    have hexact : ¬ p.Exact params := fun h => hadmits (p.exact_iff.mp h).1
    constructor
    · intro _ h
      exact absurd h hadmits
    · intro _
      exact ⟨iff_of_false (by simp [hinvoke]) hexact, fun _ => hinvoke⟩

/-! ## A procedure that relies on its parameters -/

/-- `substractReturnService`: the difference of two parameters it reads without looking whether
they are there. -/
def substract (request : Value) : Except Exception Value := do
  let params ← request.get "params"
  let subtrahend ← (← params.get "subtrahend").asInt
  let minuend ← (← params.get "minuend").asInt
  return .ofInt (minuend - subtrahend)

/-- The procedure that `RpcServerStubSubstractTest` registers. -/
def substractMethod : RpcProcedure (Except Exception Value) where
  m_callback := substract
  m_standardParams := (AList.singleton "subtrahend" ValueType.intValue).insert "minuend" .intValue

/-- A call of it. -/
def substractRequest (params : Value) : Value :=
  (JsonRpcRequest.methodCall "1" "substractMethod" params "1").toJson

@[simp] theorem find?_params_substractRequest (params : Value) :
    (substractRequest params).find? "params" = some params :=
  JsonRpcRequest.find?_params_methodCall ..

/-- With both of them the validation is exact. -/
theorem substractMethod_validates_two :
    let params := (Value.emptyObject.assign "subtrahend" (.int 2)).assign "minuend" (.int 5)
    substractMethod.ValidatesExactly (substractRequest params) params := by
  intro params
  refine (substractMethod.validatesExactly_iff _ params (by simp)
    (by simp [params])).mpr fun _ k hk => ?_
  have hcases : k = "minuend" ∨ k = "subtrahend" := by
    simpa [substractMethod, AList.lookup_isSome, AList.mem_keys, AList.keys_singleton] using hk
  rcases hcases with rfl | rfl <;> simp [params]

/-- Parameters that are missing read as null, and null as the integer `0`. -/
theorem substract_of_missing {params : Value} (ht : params.type = .objectValue)
    (hsub : params.find? "subtrahend" = none) (hmin : params.find? "minuend" = none) :
    substract (substractRequest params) = .ok (.ofInt 0) := by
  have hfind := find?_params_substractRequest params
  have hparams : (substractRequest params).get "params" = .ok params := by
    rw [Value.get_eq (Value.hasMembers_of_find? hfind), hfind, Option.getD_some]
  have hnull : Value.null.asInt = .ok 0 := rfl
  have hm := Value.hasMembers_of_object ht
  rw [substract, hparams]
  simp only [bind, Except.bind, Value.get_eq hm, hsub, hmin, Option.getD_none, hnull, pure,
    Except.pure, Int32.sub_self]

/-- Without any parameters the callback runs all the same, and answers `0`. -/
theorem substractMethod_misses :
    substractMethod.invoke (substractRequest .emptyObject) = .ok (.ok (.ofInt 0)) ∧
      ¬ substractMethod.ValidatesExactly (substractRequest .emptyObject) .emptyObject := by
  classical
  have hadmits : substractMethod.Admits .emptyObject := by simp [RpcProcedure.Admits]
  have hcallback : substractMethod.m_callback (substractRequest .emptyObject) =
      .ok (.ofInt 0) :=
    substract_of_missing rfl (Value.find?_emptyObject _) (Value.find?_emptyObject _)
  have hinvoke := substractMethod.invoke_eq (find?_params_substractRequest .emptyObject)
    Value.type_emptyObject
  rw [if_pos hadmits, hcallback] at hinvoke
  refine ⟨hinvoke, fun h => ?_⟩
  rw [← hcallback] at hinvoke
  have hname := ((h.calls.mp hinvoke).names "minuend").mpr (by simp [substractMethod])
  simp at hname

end RpcProcedure

end NBRaft.Rpc
