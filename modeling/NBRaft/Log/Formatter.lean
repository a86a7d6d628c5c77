import NBRaft.Log.AsyncLogger
import NBRaft.Log.Pattern

/-!
# The formatter of log events

`LogFormatter::init` goes through the pattern once to cut it into strings and conversions, and then
through these to make an item of each. What the C library makes of a time is not known here.
-/

namespace NBRaft.Log

/-- `LogLevel::ToString`. -/
def Level.ToString : Level → Text
  | .FATAL => "FATAL".toList
  | .ERRO => "ERRO".toList
  | .WARN => "WARN".toList
  | .INFO => "INFO".toList
  | .DEBUG => "DEBUG".toList
  | .UNKNOWN => "UNKNOWN".toList

/-- An event with everything that its constructor has been given. -/
structure FullLogEvent extends LogEvent Text where
  m_loggerName : Text
  m_file : Text
  m_line : Int32
  m_threadId : UInt64
  m_time : Int64
  m_sender : Text

/-- `localtime_s` and `strftime` with their locale and time zone. -/
structure Calendar where
  Tm : Type
  /-- `none` where the time is invalid. -/
  localtime_s : Int64 → Option Tm
  /-- What is in the buffer afterwards. -/
  strftime : Text → Tm → Text

/-- `std::string::c_str` as a C function sees it. -/
def c_str (s : Text) : Text := s.takeWhile (· ≠ '\x00')

/-! ## The items -/

inductive FormatItem where
  | message
  | level
  | loggerName
  | threadId
  | sender
  | dateTime (m_format : Text)
  | fileName
  | line
  | newLine
  | string (m_string : Text)
  | tab
  | percentSign
  deriving DecidableEq, Repr

def defaultDateFormat : Text := "%Y-%m-%d %H:%M:%S".toList

/-- The format with which the constructor of `DateTimeFormatItem` leaves the item. -/
def dateFormatOr (format : Text) : Text := if format = [] then defaultDateFormat else format

def FormatItem.dateTimeOf (format : Text) : FormatItem := .dateTime (dateFormatOr format)

/-- `DateTimeFormatItem::format`. -/
def formatTime (cal : Calendar) (m_format : Text) (time : Int64) : Text :=
  match cal.localtime_s time with
  | some tm => cal.strftime (c_str m_format) tm
  | none => "[Invalid Time]".toList

namespace FormatItem

def format (cal : Calendar) (event : FullLogEvent) : FormatItem → Text
  | message => event.m_ss
  | level => event.m_level.ToString
  | loggerName => event.m_loggerName
  | threadId => (toString event.m_threadId.toNat).toList
  | sender => event.m_sender
  | dateTime m_format => formatTime cal m_format event.m_time
  | fileName => event.m_file
  | line => (toString event.m_line.toInt).toList
  | newLine => ['\n']
  | string m_string => m_string
  | tab => ['\t']
  | percentSign => ['%']

end FormatItem

/-- The items that are looked up by the character of their conversion. -/
def s_format_items : Char → Option FormatItem
  | 'm' => some .message
  | 'p' => some .level
  | 'c' => some .loggerName
  | 'd' => some (.dateTimeOf ['d'])
  | 'f' => some .fileName
  | 'l' => some .line
  | 't' => some .threadId
  | 'N' => some .sender
  | '%' => some .percentSign
  | 'T' => some .tab
  | 'n' => some .newLine
  | _ => none

/-! ## The scanner -/

/-- An entry of `patterns`, a string or the character of a conversion. -/
inductive Pattern where
  | string (s : Text)
  | conversion (c : Char)
  deriving DecidableEq, Repr

/-- `m_pattern[i]`. Behind the end stands the terminator, and nothing is known of what is behind
that. -/
def charAt (m_pattern : Text) (i : Nat) : Option Char :=
  if i = m_pattern.length then some '\x00' else m_pattern[i]?

/-- The loop over the format of a date. -/
def takeDateFormat (m_pattern : Text) (i : Nat) (dateformat : Text) : Nat × Text :=
  if h : i < m_pattern.length then
    if m_pattern[i] ≠ '}' then takeDateFormat m_pattern (i + 1) (dateformat ++ [m_pattern[i]])
    else (i, dateformat)
  else (i, dateformat)
termination_by m_pattern.length - i

theorem le_takeDateFormat (m_pattern : Text) (i : Nat) (dateformat : Text) :
    i ≤ (takeDateFormat m_pattern i dateformat).1 := by
  fun_induction takeDateFormat m_pattern i dateformat with
  | case1 i dateformat h hne ih => omega
  | case2 => exact Nat.le_refl _
  | case3 => exact Nat.le_refl _

structure Scanner where
  patterns : List Pattern := []
  tmp : Text := []
  dateformat : Text := []
  parsing_string : Bool := true
  i : Nat := 0

/-- A string that is not empty becomes an entry. -/
def flush (patterns : List Pattern) (tmp : Text) : List Pattern :=
  if tmp ≠ [] then patterns ++ [.string tmp] else patterns

inductive Scanned where
  /-- The pattern has been read behind its terminator. -/
  | outOfRange
  /-- A brace is not closed. -/
  | notClosed
  | scanned (patterns : List Pattern) (dateformat : Text)
  deriving DecidableEq, Repr

/-- The loop over the pattern. -/
def scan (m_pattern : Text) (s : Scanner) : Scanned :=
  if h : s.i < m_pattern.length then
    let c := m_pattern[s.i]
    if c = '%' then
      if s.parsing_string then
        scan m_pattern { s with
          patterns := flush s.patterns s.tmp, tmp := [], parsing_string := false, i := s.i + 1 }
      else
        scan m_pattern { s with
          patterns := s.patterns ++ [.conversion c], parsing_string := true, i := s.i + 1 }
    else if s.parsing_string then
      scan m_pattern { s with tmp := s.tmp ++ [c], i := s.i + 1 }
    else
      let patterns := s.patterns ++ [.conversion c]
      if c ≠ 'd' then
        scan m_pattern { s with patterns := patterns, parsing_string := true, i := s.i + 1 }
      else if s.i + 1 < m_pattern.length ∧ charAt m_pattern (s.i + 1) ≠ some '{' then
        scan m_pattern { s with patterns := patterns, parsing_string := true, i := s.i + 1 }
      else
        let r := takeDateFormat m_pattern (s.i + 1 + 1) s.dateformat
        match charAt m_pattern r.1 with
        | none => .outOfRange
        | some c =>
          if c ≠ '}' then .notClosed
          else scan m_pattern { s with
            patterns := patterns, dateformat := r.2, parsing_string := true, i := r.1 + 1 }
  else .scanned (flush s.patterns s.tmp) s.dateformat
termination_by m_pattern.length - s.i
decreasing_by
  all_goals
    first
    | omega
    | have := le_takeDateFormat m_pattern (s.i + 1 + 1) s.dateformat
      omega

/-! ## The formatter -/

structure LogFormatter where
  m_pattern : Text
  m_items : List FormatItem := []
  m_error : Bool := false
  deriving DecidableEq, Repr

namespace LogFormatter

/-- The loop that makes the items. -/
def addItems (dateformat : Text) : List Pattern → LogFormatter → LogFormatter
  | [], f => f
  | .string s :: patterns, f =>
    addItems dateformat patterns { f with m_items := f.m_items ++ [.string s] }
  | .conversion c :: patterns, f =>
    if c = 'd' then
      addItems dateformat patterns { f with m_items := f.m_items ++ [.dateTimeOf dateformat] }
    else
      match s_format_items c with
      | none => { f with m_error := true }
      | some item => addItems dateformat patterns { f with m_items := f.m_items ++ [item] }

/-- `LogFormatter::init`. -/
def init (f : LogFormatter) : Option LogFormatter :=
  match scan f.m_pattern {} with
  | .outOfRange => none
  | .notClosed => some { f with m_error := true }
  | .scanned patterns dateformat => some (f.addItems dateformat patterns)

/-- The constructor. -/
def new (pattern : Text) : Option LogFormatter := init { m_pattern := pattern }

def format (cal : Calendar) (f : LogFormatter) (event : FullLogEvent) : Text :=
  f.m_items.flatMap (·.format cal event)

end LogFormatter

end NBRaft.Log
