import NBRaft.Raft.Struct

/-!
# The Raft adapters against the parameter check

A parameter object that the check accepts and that has all the fields is nothing but its
fields, in the types the table gives them (`Accepted.eq_ofFields`). Encoding, decoding and the
check are compared through that normal form, so each message type needs only its own decoder
evaluated on its own fields.
-/

namespace NBRaft.Raft

open Json Rpc RaftServiceAdapter

theorem bind_eq_ok {α β : Type} {x : Except Exception α} {f : α → Except Exception β} {b : β} :
    x >>= f = .ok b ↔ ∃ a, x = .ok a ∧ f a = .ok b := by
  cases x <;> simp [bind, Except.bind]

/-! ## Tables and fields -/

section Tables

variable {names : List String} {fields : List (String × Value)} {T : List (String × ValueType)}

/-- The names of a list of fields with the types of their values. -/
def types (fields : List (String × Value)) : List (String × ValueType) :=
  fields.map fun f => (f.1, f.2.type)

theorem names_types (fields : List (String × Value)) :
    (types fields).map Prod.fst = fields.map Prod.fst := by
  simp [types]

theorem lookup_types (fields : List (String × Value)) (k : String) :
    (types fields).lookup k = (fields.lookup k).map Value.type := by
  induction fields with
  | nil => rfl
  | cons f fs ih =>
    obtain ⟨n, w⟩ := f
    simp only [types, List.map_cons, List.lookup_cons]
    cases k == n
    · exact ih
    · rfl

theorem lookup_of_mem {f : String × Value} (hnd : (fields.map Prod.fst).Nodup)
    (hf : f ∈ fields) : fields.lookup f.1 = some f.2 := by
  obtain ⟨w, hw⟩ : ∃ w, fields.lookup f.1 = some w := by
    rw [← Option.ne_none_iff_exists', ne_eq, List.lookup_eq_none_iff]
    exact fun h => by simpa using h f hf
  obtain ⟨l₁, l₂, hsplit, _⟩ := List.lookup_eq_some_iff.mp hw
  have hmem : (f.1, w) ∈ fields := by simp [hsplit]
  have heq : (f.1, w) = f := List.inj_on_of_nodup_map hnd hmem hf rfl
  rw [hw, ← congrArg Prod.snd heq]

/-- Fields under the table's names, each with a type the table declares, have its types. -/
theorem types_eq_of_mem (hnd : (T.map Prod.fst).Nodup)
    (hnames : fields.map Prod.fst = T.map Prod.fst)
    (hmem : ∀ f ∈ fields, (f.1, f.2.type) ∈ T) : types fields = T := by
  have hlen : (types fields).length = T.length := by
    simpa [types] using congrArg List.length hnames
  refine List.ext_getElem hlen fun i hi hi' => ?_
  have hif : i < fields.length := by simpa [types] using hi
  have hget : (types fields)[i] = (fields[i].1, fields[i].2.type) := by simp [types]
  rw [hget]
  refine List.inj_on_of_nodup_map hnd (hmem _ (List.getElem_mem hif)) (List.getElem_mem hi') ?_
  have h₁ : (fields.map Prod.fst)[i]? = (T.map Prod.fst)[i]? := by rw [hnames]
  simpa [hif, hi'] using h₁

theorem lookup_typeMap (hnd : (T.map Prod.fst).Nodup) (k : String) :
    (typeMap T).lookup k = T.lookup k := by
  have key : ∀ (T : List (String × ValueType)) (map : UnorderedMap ValueType),
      (T.map Prod.fst).Nodup →
      (T.foldl (fun map e => map.insert e.1 e.2) map).lookup k =
        (T.lookup k).or (map.lookup k) := by
    intro T
    induction T with
    | nil => exact fun _ _ => rfl
    | cons e es ih =>
      intro map hnd
      obtain ⟨n, t⟩ := e
      simp only [List.map_cons, List.nodup_cons] at hnd
      rw [List.foldl_cons, ih _ hnd.2]
      by_cases hk : k = n
      · subst hk
        have hnone : es.lookup k = none := by
          rw [List.lookup_eq_none_iff]
          intro g hg
          have : g.1 ≠ k := fun h => hnd.1 (List.mem_map.mpr ⟨g, hg, h⟩)
          simpa using this.symm
        simp [hnone]
      · have hbeq : (k == n) = false := by simpa using hk
        simp [List.lookup_cons, hbeq, AList.lookup_insert_ne hk]
  simpa [typeMap] using key T ∅ hnd

theorem find?_ofFields (hnd : (fields.map Prod.fst).Nodup) (k : String) :
    (ofFields fields).find? k = fields.lookup k := by
  simp [ofFields, Value.find?_assignAll _ hnd]

theorem type_ofFields (h : fields ≠ []) : (ofFields fields).type = .objectValue := by
  cases fields with
  | nil => exact absurd rfl h
  | cons f fs => exact Value.type_assignAll fs (Value.type_assign _ _ _)

theorem hasFields_eq {v : Value} (h : v.hasMembers = true) (names : List String) :
    hasFields v names = .ok (names.all fun n => (v.find? n).isSome) := by
  induction names with
  | nil => rfl
  | cons n ns ih =>
    cases hn : (v.find? n).isSome <;>
      simp [hasFields, Value.isMember_eq h, hn, ih, bind, Except.bind, pure, Except.pure]

theorem readInt_eq {v : Value} {n : String} {w : Value} (h : v.type = .objectValue)
    (hw : v.find? n = some w) : readInt v n = w.asInt := by
  simp [readInt, Value.get_eq (Value.hasMembers_of_object h), hw, bind, Except.bind]

theorem readBool_eq {v : Value} {n : String} {w : Value} (h : v.type = .objectValue)
    (hw : v.find? n = some w) : readBool v n = w.asBool := by
  simp [readBool, Value.get_eq (Value.hasMembers_of_object h), hw, bind, Except.bind]

end Tables

/-! ## What a peer's parameters have to pass -/

/-- `{"params": params}`. -/
def request (params : Value) : Value := Value.emptyObject.assign "params" params

/-- A procedure built from the table accepts the parameters. -/
def Validates (map : UnorderedMap ValueType) (params : Value) : Prop :=
  (RpcProcedure.mk (fun _ => ()) map).validateGeneric (request params) = .ok true

/-- Both guards of the adapter let the parameter object through. -/
structure Accepted {α : Type} (A : Adapter α) (p : Value) : Prop where
  type : p.type = .objectValue
  validates : Validates A.Map p
  fields : A.FieldsCheck p = .ok true

theorem validates_iff {map : UnorderedMap ValueType} {p : Value} (h : p.type = .objectValue) :
    Validates map p ↔ ∀ k w, p.find? k = some w → map.lookup k = some w.type :=
  RpcProcedure.validateGeneric_eq_true _ (Value.hasMembers_assign _ _ _)
    (Value.find?_assign_self _ _ _) h

section Normal

variable {α : Type} {A : Adapter α} {T : List (String × ValueType)}
  (hmap : A.Map = typeMap T) (hcheck : ∀ v, A.FieldsCheck v = hasFields v (T.map Prod.fst))
  (hnd : (T.map Prod.fst).Nodup)

include hmap hcheck hnd

/-- Fields with the names and types of the table are accepted. -/
theorem accepted_ofFields {fields : List (String × Value)} (hne : fields ≠ [])
    (hT : types fields = T) : Accepted A (ofFields fields) := by
  have hnames : fields.map Prod.fst = T.map Prod.fst := by rw [← hT, names_types]
  have hnd' : (fields.map Prod.fst).Nodup := hnames ▸ hnd
  have ht := type_ofFields hne
  refine ⟨ht, (validates_iff ht).mpr fun k w hk => ?_, ?_⟩
  · rw [find?_ofFields hnd'] at hk
    rw [hmap, lookup_typeMap hnd, ← hT, lookup_types, hk]
    rfl
  · rw [hcheck, hasFields_eq (Value.hasMembers_of_object ht), ← hnames]
    simp only [Except.ok.injEq, List.all_eq_true]
    intro n hn
    obtain ⟨f, hf, rfl⟩ := List.mem_map.mp hn
    rw [find?_ofFields hnd', Option.isSome_iff_ne_none, ne_eq, List.lookup_eq_none_iff]
    exact fun h => by simpa using h f hf

/-- An accepted parameter object consists of the table's fields in the table's types. -/
theorem Accepted.eq_ofFields {p : Value} (h : Accepted A p) (hne : T ≠ []) :
    ∃ fields, types fields = T ∧ p = ofFields fields := by
  have hm := Value.hasMembers_of_object h.type
  have hpresent : ∀ e ∈ T, ∃ w, p.find? e.1 = some w ∧ w.type = e.2 := by
    intro e he
    have hall := h.fields
    rw [hcheck, hasFields_eq hm] at hall
    simp only [Except.ok.injEq, List.all_eq_true] at hall
    obtain ⟨w, hw⟩ := Option.isSome_iff_exists.mp (hall e.1 (List.mem_map.mpr ⟨e, he, rfl⟩))
    have htype := (validates_iff h.type).mp h.validates e.1 w hw
    rw [hmap, lookup_typeMap hnd, List.lookup_eq_some_iff] at htype
    obtain ⟨l₁, l₂, hsplit, _⟩ := htype
    refine ⟨w, hw, ?_⟩
    have hmem : (e.1, w.type) ∈ T := by simp [hsplit]
    have heq : (e.1, w.type) = e := List.inj_on_of_nodup_map hnd hmem he rfl
    exact congrArg Prod.snd heq
  let fields := T.map fun e => (e.1, (p.find? e.1).getD .null)
  have hT : types fields = T := by
    simp only [types, fields, List.map_map]
    conv_rhs => rw [← List.map_id T]
    refine List.map_congr_left fun e he => ?_
    obtain ⟨w, hw, ht⟩ := hpresent e he
    simp [hw, ht]
  have hnd' : (fields.map Prod.fst).Nodup := by
    rw [← names_types, hT]
    exact hnd
  have hne' : fields ≠ [] := by simpa [fields] using hne
  refine ⟨fields, hT, Value.ext_find? h.type (type_ofFields hne') fun k => ?_⟩
  rw [find?_ofFields hnd']
  cases hk : fields.lookup k with
  | some w =>
    obtain ⟨l₁, l₂, hsplit, _⟩ := List.lookup_eq_some_iff.mp hk
    have hmem : (k, w) ∈ fields := by simp [hsplit]
    obtain ⟨e, he, heq⟩ := List.mem_map.mp hmem
    obtain ⟨w', hw', _⟩ := hpresent e he
    simp only [Prod.mk.injEq] at heq
    obtain ⟨rfl, rfl⟩ := heq
    simp [hw']
  | none =>
    -- a name outside the table would have failed the type check
    cases hp : p.find? k with
    | none => rfl
    | some w =>
      have htype := (validates_iff h.type).mp h.validates k w hp
      rw [hmap, lookup_typeMap hnd, ← hT, lookup_types, hk] at htype
      simp at htype

end Normal

/-! ## The tables of the four message types -/

/-- The declared parameters of a message type, in the order of its fields. -/
def MessageType.table : MessageType → List (String × ValueType)
  | RequestVoteArgs => [("term", .intValue), ("candidateId", .intValue),
      ("lastLogIndex", .intValue), ("lastLogTerm", .intValue)]
  | RequestVoteReply => [("term", .intValue), ("voteGranted", .booleanValue)]
  | AppendEntriesArgs => [("term", .intValue), ("leaderId", .intValue),
      ("prevLogIndex", .intValue), ("prevLogTerm", .intValue), ("entries", .arrayValue),
      ("leaderCommit", .intValue)]
  | AppendEntriesReply => [("term", .intValue), ("success", .booleanValue),
      ("expectIndex", .intValue), ("expectTerm", .intValue)]

namespace MessageType

theorem table_nodup (X : MessageType) : (X.table.map Prod.fst).Nodup := by
  cases X <;> decide

theorem table_ne_nil (X : MessageType) : X.table ≠ [] := by
  cases X <;> exact List.cons_ne_nil _ _

theorem map_eq (X : MessageType) : X.adapter.Map = typeMap X.table := by
  cases X <;> rfl

theorem fieldsCheck_eq (X : MessageType) (v : Value) :
    X.adapter.FieldsCheck v = hasFields v (X.table.map Prod.fst) := by
  cases X <;> rfl

/-- The fields an encoder writes. -/
def fieldsOf : (X : MessageType) → X.Message → List (String × Value)
  | RequestVoteArgs, x => [("term", .ofInt x.term), ("candidateId", .ofInt x.candidateId),
      ("lastLogIndex", .ofInt x.lastLogIndex), ("lastLogTerm", .ofInt x.lastLogTerm)]
  | RequestVoteReply, x => [("term", .ofInt x.term), ("voteGranted", .boolean x.voteGranted)]
  | AppendEntriesArgs, x => [("term", .ofInt x.term), ("leaderId", .ofInt x.leaderId),
      ("prevLogIndex", .ofInt x.prevLogIndex), ("prevLogTerm", .ofInt x.prevLogTerm),
      ("entries", x.entries), ("leaderCommit", .ofInt x.leaderCommit)]
  | AppendEntriesReply, x => [("term", .ofInt x.term), ("success", .boolean x.success),
      ("expectIndex", .ofInt x.expectIndex), ("expectTerm", .ofInt x.expectTerm)]

theorem toJson_eq (X : MessageType) (x : X.Message) :
    X.adapter.ToJson x = ofFields (X.fieldsOf x) := by
  cases X <;> rfl

theorem names_fieldsOf (X : MessageType) (x : X.Message) :
    (X.fieldsOf x).map Prod.fst = X.table.map Prod.fst := by
  cases X <;> rfl

/-- The one field whose type the structure leaves open. -/
def EntriesArray : (X : MessageType) → X.Message → Prop
  | AppendEntriesArgs, x => x.entries.type = .arrayValue
  | _, _ => True

theorem types_fieldsOf (X : MessageType) (x : X.Message) :
    types (X.fieldsOf x) = X.table ↔ X.EntriesArray x := by
  cases X <;> simp [types, fieldsOf, table, EntriesArray]

theorem nodup_fieldsOf (X : MessageType) (x : X.Message) :
    ((X.fieldsOf x).map Prod.fst).Nodup := X.names_fieldsOf x ▸ X.table_nodup

theorem fieldsOf_ne_nil (X : MessageType) (x : X.Message) : X.fieldsOf x ≠ [] := by
  cases X <;> exact List.cons_ne_nil _ _

/-- Every decoder undoes its encoder, whatever the entries are. -/
theorem fromJson_toJson (X : MessageType) (x : X.Message) :
    X.adapter.FromJson (X.adapter.ToJson x) = .ok x := by
  have ht := type_ofFields (X.fieldsOf_ne_nil x)
  have hm := Value.hasMembers_of_object ht
  have hfind := find?_ofFields (X.nodup_fieldsOf x)
  have hint : ∀ n (i : Int32), (X.fieldsOf x).lookup n = some (.ofInt i) →
      readInt (ofFields (X.fieldsOf x)) n = .ok i := fun n i h =>
    (readInt_eq ht ((hfind n).trans h)).trans (Value.asInt_ofInt i)
  have hbool : ∀ n b, (X.fieldsOf x).lookup n = some (.boolean b) →
      readBool (ofFields (X.fieldsOf x)) n = .ok b := fun n b h =>
    readBool_eq ht ((hfind n).trans h)
  have hget : ∀ n w, (X.fieldsOf x).lookup n = some w →
      (ofFields (X.fieldsOf x)).get n = .ok w := fun n w h => by
    rw [Value.get_eq hm, hfind, h]; rfl
  rw [toJson_eq]
  cases X with
  | RequestVoteArgs =>
    simp only [adapter, RequestVoteArgsFromJson, bind_eq_ok]
    exact ⟨_, hint _ _ rfl, _, hint _ _ rfl, _, hint _ _ rfl, _, hint _ _ rfl, rfl⟩
  | RequestVoteReply =>
    simp only [adapter, RequestVoteReplyFromJson, bind_eq_ok]
    exact ⟨_, hint _ _ rfl, _, hbool _ _ rfl, rfl⟩
  | AppendEntriesArgs =>
    simp only [adapter, AppendEntriesArgsFromJson, bind_eq_ok]
    exact ⟨_, hint _ _ rfl, _, hint _ _ rfl, _, hint _ _ rfl, _, hint _ _ rfl, _, hget _ _ rfl,
      _, hint _ _ rfl, rfl⟩
  | AppendEntriesReply =>
    simp only [adapter, AppendEntriesReplyFromJson, bind_eq_ok]
    exact ⟨_, hint _ _ rfl, _, hbool _ _ rfl, _, hint _ _ rfl, _, hint _ _ rfl, rfl⟩

end MessageType

/-! ## Encoded messages and the check -/

/-- The four functions of a message type agree on a value: its encoding has the fields, is
accepted by a procedure built from the table, and decodes to the value. -/
structure Agrees (X : MessageType) (x : X.Message) : Prop where
  fields : X.adapter.FieldsCheck (X.adapter.ToJson x) = .ok true
  validates : Validates X.adapter.Map (X.adapter.ToJson x)
  decodes : X.adapter.FromJson (X.adapter.ToJson x) = .ok x

/-- The check looks at every field, so it also sees that the entries are an array. -/
theorem Agrees.entriesArray {X : MessageType} {x : X.Message} (h : Agrees X x) :
    X.EntriesArray x := by
  have hnd := X.nodup_fieldsOf x
  have hval := h.validates
  rw [X.toJson_eq, validates_iff (type_ofFields (X.fieldsOf_ne_nil x)), X.map_eq] at hval
  have hmem : ∀ f ∈ X.fieldsOf x, (f.1, f.2.type) ∈ X.table := by
    intro f hf
    have hlook : (X.fieldsOf x).lookup f.1 = some f.2 := lookup_of_mem hnd hf
    have := hval f.1 f.2 ((find?_ofFields hnd _).trans hlook)
    rw [lookup_typeMap X.table_nodup, List.lookup_eq_some_iff] at this
    obtain ⟨l₁, l₂, hsplit, _⟩ := this
    simp [hsplit]
  exact (X.types_fieldsOf x).mp
    (types_eq_of_mem X.table_nodup (X.names_fieldsOf x) hmem)

theorem agrees_of_entriesArray {X : MessageType} {x : X.Message} (h : X.EntriesArray x) :
    Agrees X x := by
  have hacc := accepted_ofFields X.map_eq X.fieldsCheck_eq X.table_nodup (X.fieldsOf_ne_nil x)
    ((X.types_fieldsOf x).mpr h)
  exact ⟨X.toJson_eq x ▸ hacc.fields, X.toJson_eq x ▸ hacc.validates, X.fromJson_toJson x⟩

/-- The adapters agree on a message exactly when its `entries`, if it has that field, are an
array: the null that a default-constructed message carries is not of the declared type. -/
theorem agrees_iff (X : MessageType) (x : X.Message) : Agrees X x ↔ X.EntriesArray x :=
  ⟨Agrees.entriesArray, agrees_of_entriesArray⟩

/-- The heartbeat, with everything left at its default, is turned away. -/
theorem heartbeat_rejected : ¬ Agrees .AppendEntriesArgs {} := by
  intro h
  simpa [MessageType.EntriesArray] using h.entriesArray

/-! ## Accepted parameters and the decoders -/

/-- The decoder returns a message, and that message encodes to the parameters again. -/
def Decodes (X : MessageType) (p : Value) : Prop :=
  ∃ x, X.adapter.FromJson p = .ok x ∧ X.adapter.ToJson x = p

/-- Every integer member lies in the range of `int`. -/
def IntegersFit (p : Value) : Prop :=
  ∀ k i, p.find? k = some (.int i) → Value.FitsInt i

theorem type_eq_intValue {v : Value} : v.type = .intValue ↔ ∃ i, v = .int i := by
  cases v <;> simp [Value.type]

theorem type_eq_booleanValue {v : Value} : v.type = .booleanValue ↔ ∃ b, v = .boolean b := by
  cases v <;> simp [Value.type]

/-- The integers of an encoded message come from `int` fields; its entries are no integer. -/
theorem MessageType.fitsInt_of_mem (X : MessageType) {x : X.Message} (hx : X.EntriesArray x)
    {k : String} {i : Int64} (h : (k, Value.int i) ∈ X.fieldsOf x) : Value.FitsInt i := by
  have hofInt : ∀ n : Int32, Value.int i = .ofInt n → Value.FitsInt i := by
    intro n hn
    obtain rfl : i = n.toInt64 := by simpa [Value.ofInt] using hn
    exact Value.fitsInt_toInt64 n
  cases X with
  | RequestVoteArgs =>
    simp only [fieldsOf, List.mem_cons, Prod.mk.injEq, List.not_mem_nil, or_false] at h
    rcases h with ⟨_, h⟩ | ⟨_, h⟩ | ⟨_, h⟩ | ⟨_, h⟩ <;> exact hofInt _ h
  | RequestVoteReply =>
    simp only [fieldsOf, List.mem_cons, Prod.mk.injEq, List.not_mem_nil, or_false, reduceCtorEq,
      and_false] at h
    exact hofInt _ h.2
  | AppendEntriesArgs =>
    simp only [fieldsOf, List.mem_cons, Prod.mk.injEq, List.not_mem_nil, or_false] at h
    rcases h with ⟨_, h⟩ | ⟨_, h⟩ | ⟨_, h⟩ | ⟨_, h⟩ | ⟨_, h⟩ | ⟨_, h⟩
    iterate 4 exact hofInt _ h
    · simp [EntriesArray, ← h] at hx
    · exact hofInt _ h
  | AppendEntriesReply =>
    simp only [fieldsOf, List.mem_cons, Prod.mk.injEq, List.not_mem_nil, or_false, reduceCtorEq,
      and_false, false_or] at h
    rcases h with ⟨_, h⟩ | ⟨_, h⟩ | ⟨_, h⟩ <;> exact hofInt _ h

/-- Fields in the table's types whose integers fit are the fields of a message. -/
theorem MessageType.exists_fieldsOf (X : MessageType) {fields : List (String × Value)}
    (hT : types fields = X.table) (hfit : ∀ k i, (k, Value.int i) ∈ fields → Value.FitsInt i) :
    ∃ x, X.fieldsOf x = fields := by
  have hback : ∀ k i, (k, Value.int i) ∈ fields → Value.ofInt i.toInt32 = .int i :=
    fun k i h => congrArg Value.int (Value.toInt64_toInt32 (hfit k i h))
  cases X <;>
    simp only [types, table, List.map_eq_cons_iff, List.map_eq_nil_iff, Prod.mk.injEq,
      type_eq_intValue, type_eq_booleanValue] at hT
  case RequestVoteArgs =>
    obtain ⟨⟨_, _⟩, _, rfl, ⟨rfl, i₁, rfl⟩, ⟨_, _⟩, _, rfl, ⟨rfl, i₂, rfl⟩, ⟨_, _⟩, _, rfl,
      ⟨rfl, i₃, rfl⟩, ⟨_, _⟩, _, rfl, ⟨rfl, i₄, rfl⟩, rfl⟩ := hT
    refine ⟨⟨i₁.toInt32, i₂.toInt32, i₃.toInt32, i₄.toInt32⟩, ?_⟩
    simp only [fieldsOf]
    rw [hback "term" i₁ (by simp), hback "candidateId" i₂ (by simp),
      hback "lastLogIndex" i₃ (by simp), hback "lastLogTerm" i₄ (by simp)]
  case RequestVoteReply =>
    obtain ⟨⟨_, _⟩, _, rfl, ⟨rfl, i₁, rfl⟩, ⟨_, _⟩, _, rfl, ⟨rfl, b, rfl⟩, rfl⟩ := hT
    refine ⟨⟨i₁.toInt32, b⟩, ?_⟩
    simp only [fieldsOf]
    rw [hback "term" i₁ (by simp)]
  case AppendEntriesArgs =>
    obtain ⟨⟨_, _⟩, _, rfl, ⟨rfl, i₁, rfl⟩, ⟨_, _⟩, _, rfl, ⟨rfl, i₂, rfl⟩, ⟨_, _⟩, _, rfl,
      ⟨rfl, i₃, rfl⟩, ⟨_, _⟩, _, rfl, ⟨rfl, i₄, rfl⟩, ⟨_, entries⟩, _, rfl, ⟨rfl, _⟩, ⟨_, _⟩, _,
      rfl, ⟨rfl, i₅, rfl⟩, rfl⟩ := hT
    refine ⟨⟨i₁.toInt32, i₂.toInt32, i₃.toInt32, i₄.toInt32, entries, i₅.toInt32⟩, ?_⟩
    simp only [fieldsOf]
    rw [hback "term" i₁ (by simp), hback "leaderId" i₂ (by simp),
      hback "prevLogIndex" i₃ (by simp), hback "prevLogTerm" i₄ (by simp),
      hback "leaderCommit" i₅ (by simp)]
  case AppendEntriesReply =>
    obtain ⟨⟨_, _⟩, _, rfl, ⟨rfl, i₁, rfl⟩, ⟨_, _⟩, _, rfl, ⟨rfl, b, rfl⟩, ⟨_, _⟩, _, rfl,
      ⟨rfl, i₃, rfl⟩, ⟨_, _⟩, _, rfl, ⟨rfl, i₄, rfl⟩, rfl⟩ := hT
    refine ⟨⟨i₁.toInt32, b, i₃.toInt32, i₄.toInt32⟩, ?_⟩
    simp only [fieldsOf]
    rw [hback "term" i₁ (by simp), hback "expectIndex" i₃ (by simp),
      hback "expectTerm" i₄ (by simp)]

/-- The guards do not look at the range of an integer, and that is all they miss. -/
theorem Accepted.decodes_iff {X : MessageType} {p : Value} (h : Accepted X.adapter p) :
    Decodes X p ↔ IntegersFit p := by
  constructor
  · rintro ⟨x, _, rfl⟩ k i hk
    have hentries : X.EntriesArray x :=
      Agrees.entriesArray ⟨h.fields, h.validates, X.fromJson_toJson x⟩
    rw [X.toJson_eq, find?_ofFields (X.nodup_fieldsOf x)] at hk
    obtain ⟨l₁, l₂, hsplit, _⟩ := List.lookup_eq_some_iff.mp hk
    exact X.fitsInt_of_mem hentries (k := k) (by simp [hsplit])
  · intro hfit
    obtain ⟨fields, hT, rfl⟩ :=
      h.eq_ofFields X.map_eq X.fieldsCheck_eq X.table_nodup X.table_ne_nil
    have hnd : (fields.map Prod.fst).Nodup := by
      rw [← names_types, hT]
      exact X.table_nodup
    obtain ⟨x, rfl⟩ := X.exists_fieldsOf hT fun k i hki =>
      hfit k i ((find?_ofFields hnd k).trans (lookup_of_mem hnd hki))
    exact ⟨x, X.toJson_eq x ▸ X.fromJson_toJson x, X.toJson_eq x⟩

/-- Parameters that pass both guards decode to the message they encode exactly when their
integers fit an `int`; `asInt` throws on the others. -/
theorem accepted_decodes_iff (X : MessageType) (p : Value) :
    (Accepted X.adapter p → Decodes X p) ↔ (Accepted X.adapter p → IntegersFit p) := by
  constructor
  · exact fun h hacc => hacc.decodes_iff.mp (h hacc)
  · exact fun h hacc => hacc.decodes_iff.mpr (h hacc)

/-- A vote from a term past the range of `int`. -/
def farReply : Value := ofFields [("term", .int 2147483648), ("voteGranted", .boolean true)]

theorem farReply_not_decoded :
    ¬ (Accepted MessageType.RequestVoteReply.adapter farReply →
        Decodes .RequestVoteReply farReply) := by
  have hacc : Accepted MessageType.RequestVoteReply.adapter farReply :=
    accepted_ofFields (MessageType.map_eq _) (MessageType.fieldsCheck_eq _)
      (MessageType.table_nodup _) (List.cons_ne_nil _ _) rfl
  intro h
  have hterm : farReply.find? "term" = some (.int 2147483648) :=
    (find?_ofFields (by decide) "term").trans (by simp)
  exact absurd (hacc.decodes_iff.mp (h hacc) "term" _ hterm) (by decide)

end NBRaft.Raft
