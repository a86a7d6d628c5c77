import NBRaft.Rpc.Procedure

/-!
# Raft messages and their JSON adapters

The four message structures of `struct.h` and the functions of `RaftServiceAdapter` on each:
field check, encoder, decoder and the table of parameter types a procedure is built from.
`Adapter` puts the four functions of one message type together.
-/

namespace NBRaft.Raft

open Json

structure RequestVoteArgs where
  term : Int32 := -1
  candidateId : Int32 := -1
  lastLogIndex : Int32 := -1
  lastLogTerm : Int32 := -1

structure RequestVoteReply where
  term : Int32 := -1
  voteGranted : Bool := false

/-- A default-constructed `Json::Value` is null. -/
structure AppendEntriesArgs where
  term : Int32 := -1
  leaderId : Int32 := -1
  prevLogIndex : Int32 := -1
  prevLogTerm : Int32 := -1
  entries : Value := .null
  leaderCommit : Int32 := -1

structure AppendEntriesReply where
  term : Int32 := -1
  success : Bool := false
  expectIndex : Int32 := -1
  expectTerm : Int32 := -1

namespace RaftServiceAdapter

/-- `value.isMember(n₁) && value.isMember(n₂) && ...` -/
def hasFields (value : Value) : List String → Except Exception Bool
  | [] => .ok true
  | n :: ns => do
    if ← value.isMember n then
      hasFields value ns
    else
      return false

/-- `value[n].asInt()`. -/
def readInt (value : Value) (n : String) : Except Exception Int32 := do
  (← value.get n).asInt

/-- `value[n].asBool()`. -/
def readBool (value : Value) (n : String) : Except Exception Bool := do
  (← value.get n).asBool

/-- `map[n₁] = t₁; map[n₂] = t₂; ...` on an empty map. -/
def typeMap (entries : List (String × ValueType)) : UnorderedMap ValueType :=
  entries.foldl (fun map e => map.insert e.1 e.2) ∅

/-- `value[n₁] = v₁; value[n₂] = v₂; ...` on a null value. -/
def ofFields (fields : List (String × Value)) : Value := Value.null.assignAll fields

def RequestVoteFieldsCheck (value : Value) : Except Exception Bool :=
  hasFields value ["term", "candidateId", "lastLogIndex", "lastLogTerm"]

def RequestVoteArgsToJson (args : RequestVoteArgs) : Value :=
  ofFields [("term", .ofInt args.term), ("candidateId", .ofInt args.candidateId),
    ("lastLogIndex", .ofInt args.lastLogIndex), ("lastLogTerm", .ofInt args.lastLogTerm)]

def RequestVoteArgsFromJson (value : Value) : Except Exception RequestVoteArgs := do
  let term ← readInt value "term"
  let candidateId ← readInt value "candidateId"
  let lastLogIndex ← readInt value "lastLogIndex"
  let lastLogTerm ← readInt value "lastLogTerm"
  return { term, candidateId, lastLogIndex, lastLogTerm }

def RequestVoteArgsMap : UnorderedMap ValueType :=
  typeMap [("term", .intValue), ("candidateId", .intValue), ("lastLogIndex", .intValue),
    ("lastLogTerm", .intValue)]

def RequestVoteReplyFieldsCheck (value : Value) : Except Exception Bool :=
  hasFields value ["term", "voteGranted"]

def RequestVoteReplyToJson (reply : RequestVoteReply) : Value :=
  ofFields [("term", .ofInt reply.term), ("voteGranted", .boolean reply.voteGranted)]

def RequestVoteReplyFromJson (value : Value) : Except Exception RequestVoteReply := do
  let term ← readInt value "term"
  let voteGranted ← readBool value "voteGranted"
  return { term, voteGranted }

def RequestVoteReplyMap : UnorderedMap ValueType :=
  typeMap [("term", .intValue), ("voteGranted", .booleanValue)]

def AppendEntriesFieldsCheck (value : Value) : Except Exception Bool :=
  hasFields value
    ["term", "leaderId", "prevLogIndex", "prevLogTerm", "entries", "leaderCommit"]

def AppendEntriesArgsToJson (args : AppendEntriesArgs) : Value :=
  ofFields [("term", .ofInt args.term), ("leaderId", .ofInt args.leaderId),
    ("prevLogIndex", .ofInt args.prevLogIndex), ("prevLogTerm", .ofInt args.prevLogTerm),
    ("entries", args.entries), ("leaderCommit", .ofInt args.leaderCommit)]

def AppendEntriesArgsFromJson (value : Value) : Except Exception AppendEntriesArgs := do
  let term ← readInt value "term"
  let leaderId ← readInt value "leaderId"
  let prevLogIndex ← readInt value "prevLogIndex"
  let prevLogTerm ← readInt value "prevLogTerm"
  let entries ← value.get "entries"
  let leaderCommit ← readInt value "leaderCommit"
  return { term, leaderId, prevLogIndex, prevLogTerm, entries, leaderCommit }

def AppendEntriesArgsMap : UnorderedMap ValueType :=
  typeMap [("term", .intValue), ("leaderId", .intValue), ("prevLogIndex", .intValue),
    ("prevLogTerm", .intValue), ("entries", .arrayValue), ("leaderCommit", .intValue)]

def AppendEntriesReplyFieldsCheck (value : Value) : Except Exception Bool :=
  hasFields value ["term", "success", "expectIndex", "expectTerm"]

def AppendEntriesReplyToJson (reply : AppendEntriesReply) : Value :=
  ofFields [("term", .ofInt reply.term), ("success", .boolean reply.success),
    ("expectIndex", .ofInt reply.expectIndex), ("expectTerm", .ofInt reply.expectTerm)]

def AppendEntriesReplyFromJson (value : Value) : Except Exception AppendEntriesReply := do
  let term ← readInt value "term"
  let success ← readBool value "success"
  let expectIndex ← readInt value "expectIndex"
  let expectTerm ← readInt value "expectTerm"
  return { term, success, expectIndex, expectTerm }

def AppendEntriesReplyMap : UnorderedMap ValueType :=
  typeMap [("term", .intValue), ("success", .booleanValue), ("expectIndex", .intValue),
    ("expectTerm", .intValue)]

end RaftServiceAdapter

/-- The four functions `RaftServiceAdapter` has for one message type. -/
structure Adapter (α : Type) where
  FieldsCheck : Value → Except Exception Bool
  ToJson : α → Value
  FromJson : Value → Except Exception α
  Map : UnorderedMap ValueType

inductive MessageType where
  | RequestVoteArgs | RequestVoteReply | AppendEntriesArgs | AppendEntriesReply
  deriving DecidableEq, Repr

/-- The structure of a message type. -/
abbrev MessageType.Message : MessageType → Type
  | RequestVoteArgs => Raft.RequestVoteArgs
  | RequestVoteReply => Raft.RequestVoteReply
  | AppendEntriesArgs => Raft.AppendEntriesArgs
  | AppendEntriesReply => Raft.AppendEntriesReply

open RaftServiceAdapter in
def MessageType.adapter : (X : MessageType) → Adapter X.Message
  | RequestVoteArgs => ⟨RequestVoteFieldsCheck, RequestVoteArgsToJson, RequestVoteArgsFromJson,
      RequestVoteArgsMap⟩
  | RequestVoteReply => ⟨RequestVoteReplyFieldsCheck, RequestVoteReplyToJson,
      RequestVoteReplyFromJson, RequestVoteReplyMap⟩
  | AppendEntriesArgs => ⟨AppendEntriesFieldsCheck, AppendEntriesArgsToJson,
      AppendEntriesArgsFromJson, AppendEntriesArgsMap⟩
  | AppendEntriesReply => ⟨AppendEntriesReplyFieldsCheck, AppendEntriesReplyToJson,
      AppendEntriesReplyFromJson, AppendEntriesReplyMap⟩

end NBRaft.Raft
