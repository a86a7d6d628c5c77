import NBRaft.Log.Scanning
import Mathlib.Algebra.Order.BigOperators.Group.List
import Mathlib.Algebra.Order.Group.Nat

/-!
# What the formatter puts out

The output that a pattern asks for is the concatenation of what its segments ask for. The formatter
follows that, but for its dates: all of them get one format, the concatenation of those in braces.
-/

namespace NBRaft.Log

/-- The conversions that there are beside `%d`. -/
def knownConversions : List Char := ['m', 'p', 'c', 'f', 'l', 't', 'N', '%', 'T', 'n']

/-- The field of the event that a conversion stands for, or its character. -/
def conversionText (event : FullLogEvent) : Char → Text
  | 'm' => event.m_ss
  | 'p' => event.m_level.ToString
  | 'c' => event.m_loggerName
  | 'f' => event.m_file
  | 'l' => (toString event.m_line.toInt).toList
  | 't' => (toString event.m_threadId.toNat).toList
  | 'N' => event.m_sender
  | '%' => ['%']
  | 'T' => ['\t']
  | 'n' => ['\n']
  | _ => []

namespace Segment

def isDate : Segment → Bool
  | date _ | bareDate | unclosed _ => true
  | _ => false

def isUnclosed : Segment → Bool
  | unclosed _ => true
  | _ => false

def isUnknown : Segment → Bool
  | conversion x => x ∉ knownConversions
  | _ => false

/-- The format in the braces of a date. -/
def ownFormat : Segment → Text
  | date f => f
  | _ => []

/-- What the segment puts out, if the dates have these formats, and the default where that is
empty. -/
def renderAs (format : Segment → Text) (cal : Calendar) (event : FullLogEvent) : Segment → Text
  | literal c => [c]
  | conversion x => conversionText event x
  | date f => formatTime cal (dateFormatOr (format (date f))) event.m_time
  | bareDate => formatTime cal (dateFormatOr (format bareDate)) event.m_time
  | unclosed _ => []
  | lonePercent => []

/-- What the segment asks for. -/
def render (cal : Calendar) (event : FullLogEvent) : Segment → Text :=
  renderAs ownFormat cal event

end Segment

/-- The formats in braces, one after the other. -/
def bracedFormats (segs : List Segment) : Text := segs.flatMap Segment.ownFormat

/-- The entries that the segments become, the first of them with `tmp` before it. -/
def entries (tmp : Text) : List Segment → List Pattern
  | [] => flush [] tmp
  | .literal c :: segs => entries (tmp ++ [c]) segs
  | .conversion x :: segs => flush [] tmp ++ .conversion x :: entries [] segs
  | .date _ :: segs | .bareDate :: segs => flush [] tmp ++ .conversion 'd' :: entries [] segs
  | .unclosed _ :: segs | .lonePercent :: segs => flush [] tmp ++ entries [] segs

section

variable {segs : List Segment} {tmp dateformat : Text} {patterns : List Pattern}

theorem flush_append (patterns : List Pattern) (tmp : Text) :
    flush patterns tmp = patterns ++ flush [] tmp := by
  unfold flush
  split <;> simp

theorem outcome_scanned (hclosed : segs.any Segment.isUnclosed = false)
    (hlast : segs.getLast? ≠ some .bareDate) :
    outcome patterns tmp dateformat segs =
      .scanned (patterns ++ entries tmp segs) (dateformat ++ bracedFormats segs) := by
  induction segs generalizing patterns tmp dateformat with
  | nil => simp [outcome, entries, bracedFormats, ← flush_append]
  | cons s segs ih =>
    obtain ⟨hs, hclosed⟩ := Bool.or_eq_false_iff.mp hclosed
    have hlast' : segs.getLast? ≠ some .bareDate := by
      intro h
      simp [List.getLast?_cons, h] at hlast
    cases s with
    | literal c => simp [outcome, entries, bracedFormats, Segment.ownFormat, ih hclosed hlast']
    | conversion x =>
      simp [outcome, entries, bracedFormats, Segment.ownFormat, ih hclosed hlast',
        flush_append patterns]
    | date f =>
      simp [outcome, entries, bracedFormats, Segment.ownFormat, ih hclosed hlast',
        flush_append patterns]
    | bareDate =>
      have hne : segs ≠ [] := by
        rintro rfl
        exact hlast rfl
      simp [outcome, entries, bracedFormats, Segment.ownFormat, ih hclosed hlast',
        flush_append patterns, hne]
    | unclosed rest => cases hs
    | lonePercent =>
      simp [outcome, entries, bracedFormats, Segment.ownFormat, ih hclosed hlast',
        flush_append patterns]

theorem outcome_notClosed (h : segs.any Segment.isUnclosed = true) :
    outcome patterns tmp dateformat segs = .notClosed := by
  induction segs generalizing patterns tmp dateformat with
  | nil => cases h
  | cons s segs ih =>
    cases s with
    | unclosed rest => rfl
    | bareDate =>
      have hne : segs ≠ [] := by
        rintro rfl
        cases h
      rw [outcome, if_neg hne]
      exact ih h
    | literal | conversion | date | lonePercent => exact ih h

theorem outcome_outOfRange (hclosed : segs.any Segment.isUnclosed = false)
    (hlast : segs.getLast? = some .bareDate) :
    outcome patterns tmp dateformat segs = .outOfRange := by
  induction segs generalizing patterns tmp dateformat with
  | nil => cases hlast
  | cons s segs ih =>
    obtain ⟨hs, hclosed⟩ := Bool.or_eq_false_iff.mp hclosed
    by_cases hnil : segs = []
    · subst hnil
      cases hlast
      rfl
    · have hlast' : segs.getLast? = some .bareDate := by
        obtain ⟨next, rest, rfl⟩ := List.exists_cons_of_ne_nil hnil
        rwa [List.getLast?_cons_cons] at hlast
      cases s with
      | unclosed rest => cases hs
      | bareDate =>
        rw [outcome, if_neg hnil]
        exact ih hclosed hlast'
      | literal | conversion | date | lonePercent => exact ih hclosed hlast'

/-! ## The items -/

/-- The item of an entry, where all dates get this format. -/
def Pattern.item (dateformat : Text) : Pattern → Option FormatItem
  | .string s => some (.string s)
  | .conversion c => if c = 'd' then some (.dateTimeOf dateformat) else s_format_items c

def Pattern.isUnknown (q : Pattern) : Bool := (q.item []).isNone

theorem isNone_item (dateformat : Text) (q : Pattern) :
    (q.item dateformat).isNone = q.isUnknown := by
  cases q with
  | string s => rfl
  | conversion c =>
    simp only [Pattern.isUnknown, Pattern.item]
    split <;> rfl

@[simp] theorem item_date (dateformat : Text) :
    (Pattern.conversion 'd').item dateformat = some (.dateTimeOf dateformat) := rfl

@[simp] theorem format_dateTimeOf (cal : Calendar) (event : FullLogEvent) :
    (FormatItem.dateTimeOf dateformat).format cal event =
      formatTime cal (dateFormatOr dateformat) event.m_time := rfl

theorem m_error_addItems (dateformat : Text) (patterns : List Pattern) (f : LogFormatter) :
    (f.addItems dateformat patterns).m_error = (f.m_error || patterns.any Pattern.isUnknown) := by
  induction patterns generalizing f with
  | nil => simp [LogFormatter.addItems]
  | cons q patterns ih =>
    rw [List.any_cons, ← isNone_item dateformat q]
    cases q with
    | string s => simp [LogFormatter.addItems, ih, Pattern.item]
    | conversion c =>
      by_cases hd : c = 'd'
      · simp [LogFormatter.addItems, ih, Pattern.item, hd]
      · cases hitem : s_format_items c <;>
          simp [LogFormatter.addItems, ih, Pattern.item, hd, hitem]

/-- The items of the entries in front of the first unknown one. -/
theorem m_items_addItems (f : LogFormatter) :
    (f.addItems dateformat patterns).m_items = f.m_items ++
      (patterns.takeWhile fun q => !q.isUnknown).filterMap (·.item dateformat) := by
  induction patterns generalizing f with
  | nil => simp [LogFormatter.addItems]
  | cons q patterns ih =>
    rw [List.takeWhile_cons, ← isNone_item dateformat q]
    cases q with
    | string s => simp [LogFormatter.addItems, ih, Pattern.item]
    | conversion c =>
      by_cases hd : c = 'd'
      · simp [LogFormatter.addItems, ih, Pattern.item, hd]
      · cases hitem : s_format_items c <;>
          simp [LogFormatter.addItems, ih, Pattern.item, hd, hitem]

theorem s_format_items_eq_none_iff {c : Char} (hd : c ≠ 'd') :
    s_format_items c = none ↔ c ∉ knownConversions := by
  unfold s_format_items knownConversions
  split <;> simp_all

theorem format_of_s_format_items {c : Char} (hd : c ≠ 'd') {item : FormatItem}
    (h : s_format_items c = some item) (cal : Calendar) (event : FullLogEvent) :
    item.format cal event = conversionText event c := by
  unfold s_format_items at h
  split at h <;> first | exact absurd rfl hd | cases h
  all_goals rfl

/-! ## From the entries to the output -/

/-- The entries of the segments are unknown where the segments are. -/
theorem any_entries (h : WellFormed segs) (tmp : Text) :
    (entries tmp segs).any Pattern.isUnknown = segs.any Segment.isUnknown := by
  have hflush : ∀ tmp, (flush [] tmp).any Pattern.isUnknown = false := by
    intro tmp
    unfold flush
    split <;> rfl
  have hdate : Pattern.isUnknown (.conversion 'd') = false := rfl
  induction segs generalizing tmp with
  | nil => exact hflush tmp
  | cons s segs ih =>
    obtain ⟨hs, h⟩ := h
    cases s with
    | literal c => simp [entries, ih h, Segment.isUnknown]
    | conversion x =>
      have hx : Pattern.isUnknown (.conversion x) = decide (x ∉ knownConversions) := by
        rw [Bool.eq_iff_iff, decide_eq_true_iff, ← s_format_items_eq_none_iff hs]
        rw [Pattern.isUnknown, Pattern.item, if_neg hs, Option.isNone_iff_eq_none]
      simp [entries, ih h, hflush, hx, Segment.isUnknown]
    | date | bareDate | unclosed | lonePercent =>
      simp [entries, ih h, hflush, hdate, Segment.isUnknown]

/-- What the items put out in front of the first unknown conversion is the whole output if there
is none: that of the segments, with the one format for all dates. -/
theorem flatMap_entries (h : WellFormed segs) (hclosed : segs.any Segment.isUnclosed = false)
    (hknown : segs.any Segment.isUnknown = false) (tmp dateformat : Text) (cal : Calendar)
    (event : FullLogEvent) :
    ((entries tmp segs).filterMap (·.item dateformat)).flatMap (·.format cal event) =
      tmp ++ segs.flatMap (Segment.renderAs (fun _ => dateformat) cal event) := by
  have hflush : ∀ tmp, ((flush [] tmp).filterMap (·.item dateformat)).flatMap
      (·.format cal event) = tmp := by
    intro tmp
    unfold flush
    split
    · simp [Pattern.item, FormatItem.format]
    · simp_all
  induction segs generalizing tmp with
  | nil => simpa [entries] using hflush tmp
  | cons s segs ih =>
    obtain ⟨hs, h⟩ := h
    obtain ⟨hclosed', hclosed⟩ := Bool.or_eq_false_iff.mp hclosed
    obtain ⟨hknown', hknown⟩ := Bool.or_eq_false_iff.mp hknown
    have hrest := ih h hclosed hknown
    cases s with
    | literal c => simp [entries, hrest, Segment.renderAs]
    | conversion x =>
      have hx : x ∈ knownConversions := by simpa [Segment.isUnknown] using hknown'
      obtain ⟨item, hitem⟩ : ∃ item, s_format_items x = some item := by
        rw [← Option.ne_none_iff_exists']
        exact fun hnone => (s_format_items_eq_none_iff hs).mp hnone hx
      have hformat := format_of_s_format_items hs hitem cal event
      have hentry : (Pattern.conversion x).item dateformat = some item := by
        rw [Pattern.item, if_neg hs, hitem]
      simp [entries, hrest, hflush, hentry, hformat, Segment.renderAs]
    | date | bareDate => simp [entries, hrest, hflush, Segment.renderAs]
    | unclosed => cases hclosed'
    | lonePercent => simp [entries, hrest, hflush, Segment.renderAs]

end

/-! ## The formatter of a pattern -/

section

variable {p : Text} {segs : List Segment}

theorem new_of_segments (hsegs : segments p = segs) (hclosed : segs.any Segment.isUnclosed = false)
    (hlast : segs.getLast? ≠ some .bareDate) : LogFormatter.new p =
      some (LogFormatter.addItems (bracedFormats segs) (entries [] segs) { m_pattern := p }) := by
  rw [LogFormatter.new, LogFormatter.init, scan_pattern, hsegs, outcome_scanned hclosed hlast,
    List.nil_append, List.nil_append]

theorem format_addItems (h : WellFormed segs) (hclosed : segs.any Segment.isUnclosed = false)
    (hknown : segs.any Segment.isUnknown = false) (dateformat : Text) (cal : Calendar)
    (event : FullLogEvent) :
    (LogFormatter.addItems dateformat (entries [] segs) { m_pattern := p }).format cal event =
      segs.flatMap (Segment.renderAs (fun _ => dateformat) cal event) := by
  have hall : (entries [] segs).takeWhile (fun q => !q.isUnknown) = entries [] segs := by
    rw [List.takeWhile_eq_self_iff]
    have hany := any_entries h []
    rw [hknown, List.any_eq_false] at hany
    intro q hq
    simpa using hany q hq
  have hout := flatMap_entries h hclosed hknown [] dateformat cal event
  rw [LogFormatter.format, m_items_addItems, hall]
  exact hout

end

/-- A pattern without dates is in error exactly if it has a conversion that is not known, and
otherwise the formatter puts out what the segments ask for. -/
theorem format_without_dates (p : Text) (hdates : (segments p).any Segment.isDate = false) :
    ∃ f, LogFormatter.new p = some f ∧
      (f.m_error = true ↔ ∃ x, .conversion x ∈ segments p ∧ x ∉ knownConversions) ∧
      (f.m_error = false → ∀ cal event,
        f.format cal event = (segments p).flatMap (Segment.render cal event)) := by
  have hnot := List.any_eq_false.mp hdates
  have hclosed : (segments p).any Segment.isUnclosed = false := by
    rw [List.any_eq_false]
    intro s hs hunclosed
    cases s with
    | unclosed rest => exact hnot _ hs rfl
    | literal | conversion | date | bareDate | lonePercent => cases hunclosed
  have hlast : (segments p).getLast? ≠ some .bareDate :=
    fun hlast => hnot _ (List.mem_of_getLast? hlast) rfl
  have herror := m_error_addItems (bracedFormats (segments p)) (entries [] (segments p))
    { m_pattern := p }
  rw [any_entries (wellFormed_segments p), Bool.false_or] at herror
  refine ⟨_, new_of_segments rfl hclosed hlast, ?_, ?_⟩
  · rw [herror, List.any_eq_true]
    constructor
    · rintro ⟨s, hs, hunknown⟩
      cases s with
      | conversion x => exact ⟨x, hs, of_decide_eq_true hunknown⟩
      | literal | date | bareDate | unclosed | lonePercent => cases hunknown
    · rintro ⟨x, hs, hx⟩
      exact ⟨_, hs, decide_eq_true hx⟩
  · intro hok cal event
    rw [format_addItems (wellFormed_segments p) hclosed (herror.symm.trans hok)]
    refine List.flatMap_congr fun s hs => ?_
    cases s with
    | date | bareDate => exact absurd rfl (hnot _ hs)
    | literal | conversion | unclosed | lonePercent => rfl

theorem format_without_dates_level : ∃ f,
    LogFormatter.new "[%p] %m%%%".toList = some f ∧
    (f.m_error = true ↔ ∃ x, .conversion x ∈ segments "[%p] %m%%%".toList ∧
      x ∉ knownConversions) ∧
    (f.m_error = false → ∀ cal event, f.format cal event =
      (segments "[%p] %m%%%".toList).flatMap (Segment.render cal event)) := by
  have hsegs : segments "[%p] %m%%%".toList = [.literal '[', .conversion 'p', .literal ']',
      .literal ' ', .conversion 'm', .conversion '%', .lonePercent] :=
    segments_eq_iff.mpr ⟨by decide, rfl⟩
  refine format_without_dates _ ?_
  rw [hsegs]
  rfl

/-! ## The formats of the dates -/

/-- What `strftime` is given for a date with this format in its braces. -/
def effectiveFormat (format : Text) : Text := c_str (dateFormatOr format)

/-- The one format that all dates of the pattern get means the same as their own. -/
def DatesAgree (segs : List Segment) : Prop :=
  ∀ s ∈ segs, s.isDate = true →
    effectiveFormat s.ownFormat = effectiveFormat (bracedFormats segs)

instance (segs : List Segment) : Decidable (DatesAgree segs) :=
  inferInstanceAs (Decidable (∀ s ∈ segs, s.isDate = true →
    effectiveFormat s.ownFormat = effectiveFormat (bracedFormats segs)))

/-- A calendar by which dates with this format put out nothing, and all others something. -/
def Calendar.blank (format : Text) : Calendar where
  Tm := Unit
  localtime_s _ := some ()
  strftime f _ := if f = effectiveFormat format then [] else ['x']

theorem formatTime_blank (format f : Text) (time : Int64) :
    formatTime (.blank format) (dateFormatOr f) time =
      if effectiveFormat f = effectiveFormat format then [] else ['x'] := rfl

/-- An event to try a pattern on. -/
def started : FullLogEvent where
  m_level := .INFO
  m_ss := "started".toList
  m_loggerName := "root".toList
  m_file := "main.cpp".toList
  m_line := 12
  m_threadId := 1
  m_time := 0
  m_sender := "main".toList

/-- If one output is nowhere longer than the other and the whole is equally long, then so is every
part. -/
theorem length_eq_of_flatMap_eq {α β : Type} {l : List α} {g h : α → List β}
    (hle : ∀ a ∈ l, (g a).length ≤ (h a).length) (heq : l.flatMap g = l.flatMap h) :
    ∀ a ∈ l, (g a).length = (h a).length := by
  intro a ha
  by_contra hne
  have hlt := List.sum_lt_sum (fun a => (g a).length) (fun a => (h a).length) hle
    ⟨a, ha, Nat.lt_of_le_of_ne (hle a ha) hne⟩
  have hlength := congrArg List.length heq
  simp only [List.length_flatMap] at hlength
  omega

/-- The dates of a pattern are put out in their own formats exactly if these agree with all formats
in braces, one after the other. -/
theorem dates_in_own_format_iff (segs : List Segment) (hsegs : WellFormed segs)
    (hbuilt : ∀ s ∈ segs, (∃ c, s = .literal c) ∨
      (∃ x, s = .conversion x ∧ x ∈ knownConversions) ∨ (∃ f, s = .date f) ∨ s = .bareDate)
    (hlast : segs.getLast? ≠ some .bareDate) :
    ∃ f, LogFormatter.new (spell segs) = some f ∧
      ((∀ cal event, f.format cal event = segs.flatMap (Segment.render cal event)) ↔
        DatesAgree segs) := by
  have hclosed : segs.any Segment.isUnclosed = false := by
    rw [List.any_eq_false]
    intro s hs
    obtain ⟨c, rfl⟩ | ⟨x, rfl, -⟩ | ⟨f, rfl⟩ | rfl := hbuilt s hs <;> simp [Segment.isUnclosed]
  have hknown : segs.any Segment.isUnknown = false := by
    rw [List.any_eq_false]
    intro s hs
    obtain ⟨c, rfl⟩ | ⟨x, rfl, hx⟩ | ⟨f, rfl⟩ | rfl := hbuilt s hs
    · simp [Segment.isUnknown]
    · simp [Segment.isUnknown, hx]
    · simp [Segment.isUnknown]
    · simp [Segment.isUnknown]
  refine ⟨_, new_of_segments (segments_spell hsegs) hclosed hlast, ?_⟩
  simp only [format_addItems hsegs hclosed hknown]
  constructor
  · intro hall s hs hdate
    have heq := hall (.blank (bracedFormats segs)) started
    have hlength := length_eq_of_flatMap_eq ?_ heq s hs
    · by_contra hne
      obtain ⟨c, rfl⟩ | ⟨x, rfl, -⟩ | ⟨f, rfl⟩ | rfl := hbuilt s hs
      · cases hdate
      · cases hdate
      · have hne : effectiveFormat f ≠ effectiveFormat (bracedFormats segs) := hne
        simp [Segment.renderAs, Segment.render, formatTime_blank, Segment.ownFormat, hne] at hlength
      · have hne : effectiveFormat [] ≠ effectiveFormat (bracedFormats segs) := hne
        simp [Segment.renderAs, Segment.render, formatTime_blank, Segment.ownFormat, hne] at hlength
    · intro s hs
      cases s <;> simp [Segment.renderAs, Segment.render, formatTime_blank]
  · intro hagree cal event
    refine List.flatMap_congr fun s hs => ?_
    have hformat : ∀ f g : Text, effectiveFormat f = effectiveFormat g →
        formatTime cal (dateFormatOr f) event.m_time =
          formatTime cal (dateFormatOr g) event.m_time := by
      intro f g heq
      unfold formatTime
      rw [← effectiveFormat, heq, effectiveFormat]
    cases s with
    | date f => exact (hformat _ _ (hagree _ hs rfl)).symm
    | bareDate => exact (hformat _ _ (hagree _ hs rfl)).symm
    | literal | conversion | unclosed | lonePercent => rfl

/-- Two dates, of which the second spells out the format that the first one gets. -/
theorem dates_in_own_format_iff_clock : ∃ f,
    LogFormatter.new "%d %m %d{%Y-%m-%d %H:%M:%S}".toList = some f ∧
      ∀ cal event, f.format cal event =
        [Segment.bareDate, .literal ' ', .conversion 'm', .literal ' ',
          .date "%Y-%m-%d %H:%M:%S".toList].flatMap (Segment.render cal event) := by
  obtain ⟨f, hf, hiff⟩ := dates_in_own_format_iff [.bareDate, .literal ' ', .conversion 'm',
    .literal ' ', .date "%Y-%m-%d %H:%M:%S".toList] (by decide) (by simp [knownConversions])
    (by decide)
  refine ⟨f, hf, hiff.mpr ?_⟩
  decide

/-- A calendar that puts out the format itself. -/
def Calendar.verbatim : Calendar where
  Tm := Unit
  localtime_s _ := some ()
  strftime f _ := f

/-- The hours and the minutes are put out with the format of both. -/
theorem two_dates_in_one_format : ∃ f,
    LogFormatter.new "%d{%H} %d{%M}".toList = some f ∧
    segments "%d{%H} %d{%M}".toList =
      [.date "%H".toList, .literal ' ', .date "%M".toList] ∧
    f.format .verbatim started = "%H%M %H%M".toList ∧
    f.format .verbatim started ≠
      [Segment.date "%H".toList, .literal ' ', .date "%M".toList].flatMap
        (Segment.render .verbatim started) := by
  have hsegs : segments "%d{%H} %d{%M}".toList =
      [.date "%H".toList, .literal ' ', .date "%M".toList] :=
    segments_eq_iff.mpr ⟨by decide, rfl⟩
  refine ⟨_, new_of_segments hsegs rfl (by decide), hsegs, ?_, ?_⟩
  · decide
  · decide

end NBRaft.Log
