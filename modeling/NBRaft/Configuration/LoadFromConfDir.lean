import NBRaft.Configuration.Config
import Mathlib.Data.List.TakeWhile

/-!
# What the files of a directory contribute

A member of a file becomes a variable only if its name is not registered yet, whatever the type of
the variable that is. The files are gone through in the order of the directory, until one of them
makes for an exception that nobody catches.
-/

namespace NBRaft.Configuration

open Json

/-! ## Exceptions -/

namespace Config

/-- Whether there has been an exception, and what has become of the variables. -/
def Loading.exec {α : Type} (x : Loading α) (datas : ConfigVarMap) :
    Except Exception α × ConfigVarMap := x.run.run datas

section

variable {α β : Type} {x : Loading α} {f : α → Loading β} {datas datas' : ConfigVarMap}

@[simp] theorem exec_pure (a : α) : (pure a : Loading α).exec datas = (.ok a, datas) := rfl

@[simp] theorem exec_get : (get : Loading ConfigVarMap).exec datas = (.ok datas, datas) := rfl

@[simp] theorem exec_modify (g : ConfigVarMap → ConfigVarMap) :
    (modify g : Loading Unit).exec datas = (.ok (), g datas) := rfl

@[simp] theorem exec_lift (r : Except Exception α) :
    (liftM r : Loading α).exec datas = (r, datas) := rfl

theorem exec_bind : (x >>= f).exec datas = match x.exec datas with
    | (.ok a, datas') => (f a).exec datas'
    | (.error e, datas') => (.error e, datas') := by
  change StateT.run (StateT.bind (ExceptT.run x) (ExceptT.bindCont f)) datas = _
  unfold Loading.exec
  simp only [StateT.run, StateT.bind, bind]
  cases h : ExceptT.run x datas with
  | mk r datas' => cases r <;> rfl

end

end Config

open Config

/-! ## One member -/

def int? (value : Value) : Option Int32 := if value.isInt then value.asInt.toOption else none

def string? : Value → Option String
  | .string s => some s
  | _ => none

/-- The variable that a member with this value is to become: an integer, a string, or an array of
either that is not empty. -/
def supported (value : Value) : Option ConfigVarBase :=
  if value.isInt then (int? value).map fun i => .int ⟨i⟩
  else if value.isString then (string? value).map fun s => .string ⟨s⟩
  else if value.items = [] then none
  else if value.items.all Value.isString then
    (value.items.mapM string?).map fun ss => .stringVector ⟨ss⟩
  else (value.items.mapM int?).map fun is => .intVector ⟨is⟩

/-- The variable is registered, unless there is one with the name. -/
def addMissing (key : String) (var : Option ConfigVarBase) (datas : ConfigVarMap) : ConfigVarMap :=
  match var with
  | none => datas
  | some var => if (datas.lookup key).isSome then datas else datas.insert key var

section

variable {datas : ConfigVarMap} {key k : String} {value root : Value} {J : Jsoncpp}

theorem lookup_addMissing (key k : String) (var : Option ConfigVarBase) (datas : ConfigVarMap) :
    (addMissing key var datas).lookup k =
      (datas.lookup k).or (if k = key then var else none) := by
  cases var with
  | none => simp [addMissing]
  | some var =>
    unfold addMissing
    by_cases hk : k = key
    · subst hk
      cases h : datas.lookup k <;> simp [h]
    · cases h : datas.lookup key <;> simp [AList.lookup_insert_ne, hk]

/-- Where `Lookup` fails for the type of a variable that is there, `Register` refuses. -/
theorem exec_registerIfMissing {T : Type} [ConfigType T] (key : String) (val : T) :
    (registerIfMissing key val).exec datas =
      (.ok (), addMissing key (some (ConfigType.upcast ⟨val⟩)) datas) := by
  unfold registerIfMissing Lookup Register addMissing
  cases h : datas.lookup key with
  | none => simp [exec_bind, h]
  | some var =>
    simp only [exec_bind, exec_get, h, Option.bind_some, Option.isSome_some, if_true]
    split
    · simp [h]
    · rfl

theorem int?_of_isInt (h : value.isInt = true) :
    ∃ i, value.asInt = .ok i ∧ int? value = some i := by
  obtain ⟨i, hi⟩ := Value.asInt_of_isInt h
  exact ⟨i, hi, by rw [int?, if_pos h, hi]; rfl⟩

/-- A conversion of all items that works for each of them works. -/
theorem mapM_of_forall {α : Type} {items : List Value} {f : Value → Except Exception α}
    {g : Value → Option α} (h : ∀ v ∈ items, ∃ a, f v = .ok a ∧ g v = some a) :
    ∃ as, items.mapM f = .ok as ∧ items.mapM g = some as := by
  induction items with
  | nil => exact ⟨[], rfl, rfl⟩
  | cons v items ih =>
    obtain ⟨⟨a, hf, hg⟩, hrest⟩ := List.forall_mem_cons.mp h
    obtain ⟨as, hfs, hgs⟩ := ih hrest
    refine ⟨a :: as, ?_, ?_⟩
    · rw [List.mapM_cons, hf, hfs]
      rfl
    · rw [List.mapM_cons, hg, hgs]
      rfl

theorem string?_of_isString (J : Jsoncpp) (h : value.isString = true) :
    ∃ s, value.asString J = .ok s ∧ string? value = some s := by
  obtain ⟨s, rfl⟩ := Value.exists_of_isString h
  exact ⟨s, rfl, rfl⟩

/-- A value that is no integer has none of the items of an array of integers. -/
theorem mapM_int?_eq_none {items : List Value} (h : items.all Value.isInt = false) :
    items.mapM int? = none := by
  induction items with
  | nil => cases h
  | cons v items ih =>
    rw [List.mapM_cons]
    by_cases hv : v.isInt = true
    · rw [List.all_cons, hv, Bool.true_and] at h
      rw [ih h]
      cases int? v <;> rfl
    · rw [int?, if_neg hv]
      rfl

theorem items_of_not_isArray (h : value.isArray = false) : value.items = [] := by
  cases value with
  | array => cases h
  | null | int | uint | real | string | boolean | object => rfl

theorem exec_loadMember (J : Jsoncpp) (key : String) (value : Value) (datas : ConfigVarMap) :
    (loadMember J key value).exec datas = (.ok (), addMissing key (supported value) datas) := by
  unfold loadMember supported
  by_cases hint : value.isInt = true
  · obtain ⟨i, hi, hi'⟩ := int?_of_isInt hint
    simp [hint, exec_bind, hi, hi', exec_registerIfMissing, ConfigType.upcast]
  by_cases hstring : value.isString = true
  · obtain ⟨s, hs, hs'⟩ := string?_of_isString J hstring
    simp [hint, hstring, exec_bind, hs, hs', exec_registerIfMissing, ConfigType.upcast]
  rw [if_neg hint, if_neg hstring, if_neg hint, if_neg hstring]
  by_cases hempty : value.items = []
  · have hsize : value.size = 0 := by rw [Value.size, hempty, List.length_nil]
    simp [hsize, hempty, addMissing]
  have harray : value.isArray = true := by
    by_contra hnot
    exact hempty (items_of_not_isArray (Bool.eq_false_iff.mpr hnot))
  have hsize : value.size ≠ 0 := fun h => hempty (List.length_eq_zero_iff.mp h)
  simp only [if_pos harray, if_neg hsize, if_neg hempty]
  by_cases hstrings : checkJsonArrayItemConsistency Value.isString value = true
  · have hall : value.items.all Value.isString = true := hstrings
    obtain ⟨ss, hss, hss'⟩ := mapM_of_forall fun v hv =>
      string?_of_isString J (List.all_eq_true.mp hall v hv)
    rw [if_pos hstrings, if_pos hall]
    simp [exec_bind, hss, hss', exec_registerIfMissing, ConfigType.upcast]
  have hall : ¬ value.items.all Value.isString = true := hstrings
  rw [if_neg hstrings, if_neg hall]
  by_cases hints : checkJsonArrayItemConsistency Value.isInt value = true
  · obtain ⟨is, his, his'⟩ := mapM_of_forall fun v hv =>
      int?_of_isInt (List.all_eq_true.mp hints v hv)
    rw [if_pos hints]
    simp [exec_bind, his, his', exec_registerIfMissing, ConfigType.upcast]
  · rw [if_neg hints, mapM_int?_eq_none (Bool.eq_false_iff.mpr hints)]
    rfl

/-! ## One file -/

/-- The variables that are there afterwards are those that were there before, and for other names
what has been contributed. -/
def Contributes (datas datas' : ConfigVarMap) (contribution : String → Option ConfigVarBase) :
    Prop :=
  ∀ k, datas'.lookup k = (datas.lookup k).or (contribution k)

theorem exec_loadMembers (J : Jsoncpp) (hroot : root.hasMembers = true) (keys : List String)
    (datas : ConfigVarMap) : ∃ datas', (loadMembers J root keys).exec datas = (.ok (), datas') ∧
      Contributes datas datas' fun k =>
        if k ∈ keys then supported ((root.find? k).getD .null) else none := by
  induction keys generalizing datas with
  | nil => exact ⟨datas, rfl, fun k => by simp⟩
  | cons key keys ih =>
    obtain ⟨datas', hrest, hcontributes⟩ :=
      ih (addMissing key (supported ((root.find? key).getD .null)) datas)
    refine ⟨datas', ?_, ?_⟩
    · simp [loadMembers, exec_bind, Value.get_eq hroot, exec_loadMember, hrest]
    · intro k
      rw [hcontributes k, lookup_addMissing]
      by_cases hk : k = key
      · subst hk
        by_cases hkeys : k ∈ keys <;> simp [hkeys, Option.or_assoc]
      · simp [hk]

/-- The root of a file that is loaded, if there is one. -/
def DirectoryEntry.root? (J : Jsoncpp) (entry : DirectoryEntry) : Except Exception (Option Value) :=
  if entry.is_regular_file ∧ entry.extension = ".json" ∧ entry.is_open then
    J.parseFromStream entry.content
  else .ok none

/-- The variable that a file has for a name. -/
def DirectoryEntry.contribution (J : Jsoncpp) (entry : DirectoryEntry) (k : String) :
    Option ConfigVarBase :=
  match entry.root? J with
  | .ok (some root) => (root.find? k).bind supported
  | _ => none

/-- The parser throws, or the root is a value without members. -/
def DirectoryEntry.throws (J : Jsoncpp) (entry : DirectoryEntry) : Bool :=
  match entry.root? J with
  | .ok (some root) => !root.hasMembers
  | .ok none => false
  | .error _ => true

theorem contributes_none (datas : ConfigVarMap) : Contributes datas datas fun _ => none :=
  fun _ => Option.or_none.symm

/-- The file is parsed and its members are gone through. -/
theorem exec_loadEntry_eq (J : Jsoncpp) (entry : DirectoryEntry) (datas : ConfigVarMap) :
    (loadEntry J entry).exec datas = match entry.root? J with
      | .error e => (.error e, datas)
      | .ok none => (.ok (), datas)
      | .ok (some root) =>
        (do loadMembers J root (← root.getMemberNames) : Loading Unit).exec datas := by
  unfold loadEntry DirectoryEntry.root?
  by_cases hfile : entry.is_regular_file = true ∧ entry.extension = ".json"
  · cases hopen : entry.is_open with
    | false => simp [hfile]
    | true =>
      simp only [hfile, and_self, if_true, Bool.not_true, Bool.false_eq_true, if_false]
      rw [exec_bind, exec_lift]
      cases J.parseFromStream entry.content with
      | error e => rfl
      | ok root? => cases root? <;> rfl
  · have hnot : ¬ (entry.is_regular_file = true ∧ entry.extension = ".json" ∧
        entry.is_open = true) := fun h => hfile ⟨h.1, h.2.1⟩
    rw [if_neg hfile, if_neg hnot]
    rfl

/-- The members of the root, if it can have any. -/
theorem exec_loadRoot (J : Jsoncpp) (root : Value) (datas : ConfigVarMap) :
    ∃ r datas', (do loadMembers J root (← root.getMemberNames) : Loading Unit).exec datas =
        (r, datas') ∧
      (r = .ok () ↔ root.hasMembers = true) ∧
      Contributes datas datas' fun k => (root.find? k).bind supported := by
  cases hroot : root.hasMembers with
  | false =>
    obtain ⟨hnames, hnone⟩ := Value.getMemberNames_of_not_hasMembers hroot
    refine ⟨.error .logicError, datas, by simp [exec_bind, hnames], by simp, ?_⟩
    intro k
    simp [hnone]
  | true =>
    obtain ⟨names, hnames, hmem⟩ := Value.getMemberNames_of_hasMembers hroot
    obtain ⟨datas', hexec, hcontributes⟩ := exec_loadMembers J hroot names datas
    refine ⟨.ok (), datas', by simp [exec_bind, hnames, hexec], by simp, ?_⟩
    intro k
    have hcontribution : (if k ∈ names then supported ((root.find? k).getD .null) else none) =
        (root.find? k).bind supported := by
      cases hk : root.find? k with
      | none =>
        rw [if_neg fun hmem' => by simpa [hk] using (hmem k).mp hmem']
        rfl
      | some value =>
        rw [if_pos ((hmem k).mpr (by rw [hk]; rfl))]
        rfl
    exact (hcontributes k).trans (congrArg _ hcontribution)

/-- An exception comes before any member has been looked at. -/
theorem exec_loadEntry (J : Jsoncpp) (entry : DirectoryEntry) (datas : ConfigVarMap) :
    ∃ r datas', (loadEntry J entry).exec datas = (r, datas') ∧
      (r = .ok () ↔ entry.throws J = false) ∧
      Contributes datas datas' (entry.contribution J) := by
  rw [exec_loadEntry_eq]
  unfold DirectoryEntry.throws DirectoryEntry.contribution
  cases entry.root? J with
  | error e => exact ⟨.error e, datas, rfl, by simp, contributes_none datas⟩
  | ok root? =>
    cases root? with
    | none => exact ⟨.ok (), datas, rfl, by simp, contributes_none datas⟩
    | some root => simpa using exec_loadRoot J root datas

end

/-! ## The directory -/

/-- The files that have been loaded when all is over: those in front of the first that throws. -/
def reached (J : Jsoncpp) (entries : List DirectoryEntry) : List DirectoryEntry :=
  entries.takeWhile fun entry => !entry.throws J

/-- The variable that the first of the files contributes under a name. -/
def firstContribution (J : Jsoncpp) (entries : List DirectoryEntry) (k : String) :
    Option ConfigVarBase :=
  entries.findSome? fun entry => entry.contribution J k

theorem contribution_of_throws {J : Jsoncpp} {entry : DirectoryEntry}
    (h : entry.throws J = true) (k : String) : entry.contribution J k = none := by
  unfold DirectoryEntry.throws at h
  unfold DirectoryEntry.contribution
  split at h
  · rename_i root hroot
    obtain ⟨-, hnone⟩ := Value.getMemberNames_of_not_hasMembers (Bool.not_eq_true' _ ▸ h)
    simp [hroot, hnone]
  · cases h
  · rename_i e he
    simp [he]

/-- All files are loaded exactly if none of them throws, and what is registered under a name is what
has been there before, or else what the first file that has it contributes. -/
theorem exec_loadEntries (J : Jsoncpp) (entries : List DirectoryEntry) (datas : ConfigVarMap) :
    ∃ r datas', (loadEntries J entries).exec datas = (r, datas') ∧
      (r = .ok () ↔ ∀ entry ∈ entries, entry.throws J = false) ∧
      Contributes datas datas' (firstContribution J (reached J entries)) := by
  induction entries generalizing datas with
  | nil => exact ⟨.ok (), datas, rfl, by simp, contributes_none datas⟩
  | cons entry entries ih =>
    obtain ⟨r, datas₁, hexec, hr, hcontributes⟩ := exec_loadEntry J entry datas
    cases hthrows : entry.throws J with
    | true =>
      obtain ⟨e, rfl⟩ : ∃ e, r = .error e := by
        cases r with
        | error e => exact ⟨e, rfl⟩
        | ok u => cases hthrows.symm.trans (hr.mp rfl)
      refine ⟨.error e, datas₁, by simp [loadEntries, exec_bind, hexec], by simp [hthrows], ?_⟩
      intro k
      rw [hcontributes k, contribution_of_throws hthrows]
      simp [reached, firstContribution, hthrows]
    | false =>
      obtain rfl := hr.mpr hthrows
      obtain ⟨r, datas', hrest, hr, hcontributes'⟩ := ih datas₁
      refine ⟨r, datas', by simp [loadEntries, exec_bind, hexec, hrest], by simp [hr, hthrows], ?_⟩
      intro k
      rw [hcontributes' k, hcontributes k, Option.or_assoc]
      congr 1
      simp only [reached, firstContribution, hthrows, Bool.not_false, List.takeWhile_cons_of_pos,
        List.findSome?_cons]
      cases entry.contribution J k <;> rfl

/-- The variables after loading the files of a directory. -/
def loaded (J : Jsoncpp) (entries : List DirectoryEntry) (datas : ConfigVarMap) : ConfigVarMap :=
  ((LoadFromConfDir J (some entries)).exec datas).2

theorem contributes_loaded (J : Jsoncpp) (entries : List DirectoryEntry) (datas : ConfigVarMap) :
    Contributes datas (loaded J entries datas) (firstContribution J (reached J entries)) := by
  obtain ⟨r, datas', hexec, -, hcontributes⟩ := exec_loadEntries J entries datas
  have heq : loaded J entries datas = datas' := congrArg Prod.snd hexec
  rwa [heq]

/-- The file has a member under this name. -/
def DirectoryEntry.HasKey (J : Jsoncpp) (entry : DirectoryEntry) (key : String) : Prop :=
  ∃ root, entry.root? J = .ok (some root) ∧ (root.find? key).isSome = true

theorem contribution_of_not_hasKey {J : Jsoncpp} {entry : DirectoryEntry} {key : String}
    (h : ¬ entry.HasKey J key) : entry.contribution J key = none := by
  unfold DirectoryEntry.contribution
  split
  · rename_i root hroot
    cases hfind : root.find? key with
    | none => rfl
    | some value => exact absurd ⟨root, hroot, by rw [hfind]; rfl⟩ h
  · rfl

theorem firstContribution_eq_none {J : Jsoncpp} {entries : List DirectoryEntry} {key : String}
    (h : ∀ entry ∈ entries, ¬ entry.HasKey J key) : firstContribution J entries key = none := by
  rw [firstContribution, List.findSome?_eq_none_iff]
  exact fun entry hentry => contribution_of_not_hasKey (h entry hentry)

theorem Lookup_eq_some_iff {T : Type} [ConfigType T] {key : String} {datas : ConfigVarMap}
    {v : ConfigVar T} :
    Lookup T key datas = some v ↔ datas.lookup key = some (ConfigType.upcast v) := by
  unfold Lookup
  cases datas.lookup key <;> simp [ConfigType.dynamicCast_eq_some]

/-- Of a member that only one file has, the contribution arrives if no file in front throws. -/
theorem firstContribution_reached {J : Jsoncpp} {front back : List DirectoryEntry}
    {file : DirectoryEntry} {key : String} {root value : Value} {var : ConfigVarBase}
    (hroot : file.root? J = .ok (some root)) (hvalue : root.find? key = some value)
    (hvar : supported value = some var) (hfront : ∀ entry ∈ front, ¬ entry.HasKey J key) :
    firstContribution J (reached J (front ++ file :: back)) key =
      if ∀ entry ∈ front, entry.throws J = false then some var else none := by
  have hnone : ∀ entries, (∀ entry ∈ entries, entry ∈ front) →
      firstContribution J entries key = none :=
    fun entries h => firstContribution_eq_none fun entry hentry => hfront entry (h entry hentry)
  by_cases hclean : ∀ entry ∈ front, entry.throws J = false
  · have hfile : file.throws J = false := by
      simp [DirectoryEntry.throws, hroot, Value.hasMembers_of_find? hvalue]
    have hcontribution : file.contribution J key = some var := by
      simp [DirectoryEntry.contribution, hroot, hvalue, hvar]
    have hreached : reached J (front ++ file :: back) = front ++ file :: reached J back := by
      unfold reached
      rw [List.takeWhile_append_of_pos fun entry hentry => by rw [hclean entry hentry]; rfl]
      rw [List.takeWhile_cons_of_pos (by rw [hfile]; rfl)]
    rw [if_pos hclean, hreached, firstContribution, List.findSome?_append]
    change (firstContribution J front key).or _ = _
    rw [hnone front fun _ h => h, Option.none_or, List.findSome?_cons, hcontribution]
  · rw [if_neg hclean]
    apply hnone
    intro entry hentry
    have hnot : ¬ ∀ entry ∈ front, (!entry.throws J) = true := by simpa using hclean
    rw [reached, List.takeWhile_append, if_neg fun hlength => hnot ?_] at hentry
    · exact (List.takeWhile_sublist _).subset hentry
    · exact List.takeWhile_eq_self_iff.mp ((List.takeWhile_sublist _).eq_of_length hlength)

/-- A member that only one file has is a variable with the value in the file exactly if it has been
registered so before, or has not been registered and no file in front throws. -/
theorem lookup_loaded_iff {T : Type} [ConfigType T] (J : Jsoncpp) (datas : ConfigVarMap)
    (front back : List DirectoryEntry) (file : DirectoryEntry) (key : String) (root value : Value)
    (val : T) (hroot : file.root? J = .ok (some root)) (hvalue : root.find? key = some value)
    (hval : supported value = some (ConfigType.upcast ⟨val⟩))
    (hfront : ∀ entry ∈ front, ¬ entry.HasKey J key) :
    Lookup T key (loaded J (front ++ file :: back) datas) = some ⟨val⟩ ↔
      Lookup T key datas = some ⟨val⟩ ∨
        (datas.lookup key = none ∧ ∀ entry ∈ front, entry.throws J = false) := by
  rw [Lookup_eq_some_iff, Lookup_eq_some_iff, contributes_loaded,
    firstContribution_reached hroot hvalue hval hfront]
  cases datas.lookup key with
  | none => simp
  | some var => simp

/-- jsoncpp on the texts of the two files below. -/
def portJsoncpp : Jsoncpp where
  parseFromStream text := .ok <|
    if text = utf8 "[]" then some (Value.ofItems [])
    else if text = utf8 "\x7b\"port\":8080\x7d" then
      some (Value.emptyObject.assign "port" (Value.ofInt 8080))
    else none
  writeString _ := []
  toStyledString _ := []
  valueToString _ := ""

def portFile : DirectoryEntry where
  content := utf8 "\x7b\"port\":8080\x7d"

def emptyArrayFile : DirectoryEntry where
  content := utf8 "[]"

theorem root?_portFile : portFile.root? portJsoncpp =
    .ok (some (Value.emptyObject.assign "port" (Value.ofInt 8080))) := rfl

/-- The member `port` as `ConfigVar<int>`. -/
theorem supported_port : supported (Value.ofInt 8080) = some (ConfigType.upcast ⟨(8080 : Int32)⟩) :=
  rfl

theorem lookup_loaded_port : Lookup Int32 "port" (loaded portJsoncpp [portFile] ∅) = some ⟨8080⟩ :=
  (lookup_loaded_iff portJsoncpp ∅ [] [] portFile "port" _ _ 8080 root?_portFile
    (Value.find?_assign_self _ _ _) supported_port (by simp)).mpr (.inr ⟨rfl, by simp⟩)

/-- A port that has been registered with its default keeps the default. -/
theorem default_port_kept :
    let result := loaded portJsoncpp [portFile] (Register "port" (80 : Int32) ∅)
    (∃ root, portFile.root? portJsoncpp = .ok (some root) ∧
      root.find? "port" = some (Value.ofInt 8080)) ∧
      Lookup Int32 "port" result = some ⟨80⟩ ∧ Lookup Int32 "port" result ≠ some ⟨8080⟩ := by
  intro result
  have hkept : Lookup Int32 "port" result = some ⟨80⟩ := by
    rw [Lookup_eq_some_iff, contributes_loaded]
    rfl
  refine ⟨⟨_, root?_portFile, Value.find?_assign_self _ _ _⟩, hkept, ?_⟩
  rw [hkept]
  decide

/-! ## Bad files -/

/-- One bad file does not spoil the others. -/
structure LoadsCleanly (J : Jsoncpp) (entries : List DirectoryEntry) (datas : ConfigVarMap) :
    Prop where
  noThrow : ((LoadFromConfDir J (some entries)).exec datas).1 = .ok ()
  fromObject : ∀ k var, (loaded J entries datas).lookup k = some var →
    datas.lookup k = some var ∨ ∃ entry ∈ entries, ∃ root value,
      entry.root? J = .ok (some root) ∧ root.isObject = true ∧ root.find? k = some value ∧
        supported value = some var
  registered : ∀ entry ∈ entries, ∀ root k value, entry.root? J = .ok (some root) →
    root.find? k = some value → (supported value).isSome = true →
      ((loaded J entries datas).lookup k).isSome = true

theorem exists_of_contribution {J : Jsoncpp} {entry : DirectoryEntry} {k : String}
    {var : ConfigVarBase} (h : entry.contribution J k = some var) :
    ∃ root value, entry.root? J = .ok (some root) ∧ root.find? k = some value ∧
      supported value = some var := by
  unfold DirectoryEntry.contribution at h
  split at h
  · rename_i root hroot
    obtain ⟨value, hvalue, hvar⟩ := Option.bind_eq_some_iff.mp h
    exact ⟨root, value, hroot, hvalue, hvar⟩
  · cases h

theorem reached_eq_self {J : Jsoncpp} {entries : List DirectoryEntry}
    (h : ∀ entry ∈ entries, entry.throws J = false) : reached J entries = entries :=
  List.takeWhile_eq_self_iff.mpr fun entry hentry => by rw [h entry hentry]; rfl

/-- The files of a directory are loaded as they should be exactly if none of them makes the parser
throw or has a root that is neither an object nor null. -/
theorem loadsCleanly_iff (J : Jsoncpp) (entries : List DirectoryEntry) (datas : ConfigVarMap) :
    LoadsCleanly J entries datas ↔ ∀ entry ∈ entries, entry.throws J = false := by
  obtain ⟨r, datas', hexec, hr, -⟩ := exec_loadEntries J entries datas
  have houtcome : ((LoadFromConfDir J (some entries)).exec datas).1 = r := congrArg Prod.fst hexec
  constructor
  · intro h
    exact hr.mp (houtcome.symm.trans h.noThrow)
  intro hclean
  have hlookup : ∀ k, (loaded J entries datas).lookup k =
      (datas.lookup k).or (firstContribution J entries k) := by
    intro k
    rw [contributes_loaded, reached_eq_self hclean]
  refine ⟨houtcome.trans (hr.mpr hclean), ?_, ?_⟩
  · intro k var hvar
    rw [hlookup, Option.or_eq_some_iff] at hvar
    obtain hvar | ⟨-, hvar⟩ := hvar
    · exact .inl hvar
    · obtain ⟨entry, hentry, hcontribution⟩ := List.exists_of_findSome?_eq_some hvar
      obtain ⟨root, value, hroot, hvalue, hsupported⟩ := exists_of_contribution hcontribution
      have hobject : root.isObject = true := beq_iff_eq.mpr (Value.type_of_find? hvalue)
      exact .inr ⟨entry, hentry, root, value, hroot, hobject, hvalue, hsupported⟩
  · intro entry hentry root k value hroot hvalue hsupported
    have hcontribution : (entry.contribution J k).isSome = true := by
      simpa [DirectoryEntry.contribution, hroot, hvalue] using hsupported
    rw [hlookup, Option.isSome_or, Bool.or_eq_true, firstContribution, List.findSome?_isSome_iff]
    exact .inr ⟨entry, hentry, hcontribution⟩

/-- A file with the text `[]` keeps the port in the file after it from being registered. -/
theorem emptyArray_in_front :
    (LoadFromConfDir portJsoncpp (some [emptyArrayFile, portFile])).exec ∅ =
        (.error .logicError, ∅) ∧
      ¬ LoadsCleanly portJsoncpp [emptyArrayFile, portFile] ∅ := by
  have hthrows : (LoadFromConfDir portJsoncpp (some [emptyArrayFile, portFile])).exec ∅ =
      (.error .logicError, ∅) := rfl
  refine ⟨hthrows, ?_⟩
  intro h
  have hok := h.noThrow
  rw [hthrows] at hok
  cases hok

end NBRaft.Configuration
