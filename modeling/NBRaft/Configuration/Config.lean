import NBRaft.Json.Container

/-!
# The configuration

`Config` keeps a variable of any type for a name, and finds it again for those who ask for the right
type. `LoadFromConfDir` goes through the files of a directory and registers a variable for each of
their members. When an exception leaves it, what has been registered until then stays.
-/

namespace NBRaft.Configuration

open Json

/-- A `ConfigVar<T>`; its name and description are not read. -/
structure ConfigVar (T : Type) where
  m_val : T
  deriving DecidableEq, Repr

namespace ConfigVar

variable {T : Type}

def getValue (v : ConfigVar T) : T := v.m_val

/-- The comparison is the `operator==` of the type. -/
def setValue [BEq T] (v : ConfigVar T) (val : T) : ConfigVar T :=
  if val == v.m_val then v else { v with m_val := val }

theorem getValue_setValue [BEq T] [EquivBEq T] (v : ConfigVar T) (val : T) :
    ((v.setValue val).getValue == val) = true := by
  unfold setValue
  split
  · rename_i heq
    exact BEq.symm heq
  · exact BEq.rfl

end ConfigVar

/-- What a `ConfigVarBase::ptr` points to. -/
inductive ConfigVarBase where
  | int (v : ConfigVar Int32)
  | string (v : ConfigVar String)
  | intVector (v : ConfigVar (List Int32))
  | stringVector (v : ConfigVar (List String))
  /-- A variable of another type. -/
  | other (typeName : String)
  deriving DecidableEq, Repr

/-- A type of which `LoadFromConfDir` registers variables. -/
class ConfigType (T : Type) where
  upcast : ConfigVar T → ConfigVarBase
  /-- `std::dynamic_pointer_cast`. -/
  dynamicCast : ConfigVarBase → Option (ConfigVar T)
  dynamicCast_eq_some : ∀ {b v}, dynamicCast b = some v ↔ b = upcast v

instance : ConfigType Int32 where
  upcast := .int
  dynamicCast
    | .int v => some v
    | _ => none
  dynamicCast_eq_some {b v} := by cases b <;> simp

instance : ConfigType String where
  upcast := .string
  dynamicCast
    | .string v => some v
    | _ => none
  dynamicCast_eq_some {b v} := by cases b <;> simp

instance : ConfigType (List Int32) where
  upcast := .intVector
  dynamicCast
    | .intVector v => some v
    | _ => none
  dynamicCast_eq_some {b v} := by cases b <;> simp

instance : ConfigType (List String) where
  upcast := .stringVector
  dynamicCast
    | .stringVector v => some v
    | _ => none
  dynamicCast_eq_some {b v} := by cases b <;> simp

abbrev ConfigVarMap := UnorderedMap ConfigVarBase

/-- An entry of a directory. -/
structure DirectoryEntry where
  is_regular_file : Bool := true
  extension : String := ".json"
  is_open : Bool := true
  content : Bytes

namespace Config

variable {T : Type} [ConfigType T]

def Lookup (T : Type) [ConfigType T] (name : String) (datas : ConfigVarMap) :
    Option (ConfigVar T) :=
  (datas.lookup name).bind ConfigType.dynamicCast

def Register (name : String) (default_value : T) (datas : ConfigVarMap) : ConfigVarMap :=
  if (datas.lookup name).isSome then datas
  else datas.insert name (ConfigType.upcast ⟨default_value⟩)

/-- Work on the registered variables that an exception may leave. -/
abbrev Loading := ExceptT Exception (StateM ConfigVarMap)

/-- A member with a value that has been converted. -/
def registerIfMissing (key : String) (val : T) : Loading Unit := do
  -- the variable `configVar` that the source makes of the value is not used
  if (Lookup T key (← get)).isNone then
    modify (Register key val)

/-- `checkJsonArrayItemConsistency`, with `is<T>()` of an item. -/
def checkJsonArrayItemConsistency (is : Value → Bool) (root : Value) : Bool := root.items.all is

/-- The body of the loop over the members. -/
def loadMember (J : Jsoncpp) (key : String) (value : Value) : Loading Unit := do
  if value.isInt then
    let val ← value.asInt
    registerIfMissing key val
  else if value.isString then
    let val ← value.asString J
    registerIfMissing key val
  else if value.isArray then
    if value.size = 0 then return
    if checkJsonArrayItemConsistency Value.isString value then
      let val ← (value.items.mapM (Value.asString J) : Except Exception (List String))
      registerIfMissing key val
    else if checkJsonArrayItemConsistency Value.isInt value then
      let val ← (value.items.mapM Value.asInt : Except Exception (List Int32))
      registerIfMissing key val

/-- The loop over the members. -/
def loadMembers (J : Jsoncpp) (root : Value) : List String → Loading Unit
  | [] => return
  | key :: keys => do
    loadMember J key (← root.get key)
    loadMembers J root keys

/-- The body of the loop over the directory. -/
def loadEntry (J : Jsoncpp) (entry : DirectoryEntry) : Loading Unit := do
  if entry.is_regular_file ∧ entry.extension = ".json" then
    if !entry.is_open then return
    match ← J.parseFromStream entry.content with
    | none => return
    | some root => loadMembers J root (← root.getMemberNames)

def loadEntries (J : Jsoncpp) : List DirectoryEntry → Loading Unit
  | [] => return
  | entry :: entries => do
    loadEntry J entry
    loadEntries J entries

/-- `LoadFromConfDir`: the entries are those of the path in the order of the iteration, `none` if it
is no directory. -/
def LoadFromConfDir (J : Jsoncpp) (path : Option (List DirectoryEntry)) : Loading Unit :=
  match path with
  | none => return
  | some entries => loadEntries J entries

end Config

end NBRaft.Configuration
