import NBRaft.Log.Rendering

/-!
# Patterns in error

A brace that is not closed is found while the pattern is cut up, before there are any items; an
unknown conversion is found while the items are made, and those in front of it stay. A date that is
bare is no error anywhere, but the scanner looks for a brace behind it without regard to the end.
-/

namespace NBRaft.Log

/-- The segment makes the pattern a bad one. -/
def Segment.isBad (s : Segment) : Bool := s.isUnknown || s.isUnclosed

/-- The pattern is read up to its terminator at most, found to be in error exactly if it is bad,
and then without any items, so that nothing is put out. -/
def HandledCleanly (p : Text) : Prop :=
  ∃ f, LogFormatter.new p = some f ∧
    (f.m_error = true ↔ (segments p).any Segment.isBad = true) ∧
    (f.m_error = true → f.m_items = [] ∧ ∀ cal event, f.format cal event = [])

section

variable {p tmp dateformat : Text} {segs : List Segment}

theorem any_isBad (hclosed : segs.any Segment.isUnclosed = false) :
    segs.any Segment.isBad = segs.any Segment.isUnknown := by
  rw [List.any_eq_false] at hclosed
  rw [Bool.eq_iff_iff, List.any_eq_true, List.any_eq_true]
  constructor
  · rintro ⟨s, hs, hbad⟩
    exact ⟨s, hs, (Bool.or_eq_true _ _ ▸ hbad).resolve_right (hclosed s hs)⟩
  · rintro ⟨s, hs, hunknown⟩
    exact ⟨s, hs, by rw [Segment.isBad, hunknown, Bool.true_or]⟩

/-- With something to be put out first, that is the first entry. -/
theorem entries_of_ne_nil (h : tmp ≠ []) :
    ∃ s rest, entries tmp segs = .string s :: rest := by
  have hflush : flush [] tmp = [.string tmp] := if_pos h
  induction segs generalizing tmp with
  | nil => exact ⟨tmp, [], hflush⟩
  | cons s segs ih =>
    cases s with
    | literal c => exact ih (by simp) (if_pos (by simp))
    | conversion | date | bareDate | unclosed | lonePercent =>
      exact ⟨tmp, _, by rw [entries, hflush]; rfl⟩

/-- A brace that is not closed leaves nothing to be said after it. -/
theorem getLast?_of_unclosed (h : WellFormed segs) (hopen : segs.any Segment.isUnclosed = true) :
    segs.getLast? ≠ some .bareDate := by
  induction segs with
  | nil => cases hopen
  | cons s segs ih =>
    obtain ⟨hs, h⟩ := h
    cases s with
    | unclosed rest =>
      obtain ⟨-, rfl⟩ := hs
      exact fun hlast => by cases hlast
    | literal | conversion | date | bareDate | lonePercent =>
      have hne : segs ≠ [] := by
        rintro rfl
        cases hopen
      obtain ⟨next, rest, rfl⟩ := List.exists_cons_of_ne_nil hne
      rw [List.getLast?_cons_cons]
      exact ih h hopen

/-- Nothing is left in front of the first unknown conversion exactly if the pattern begins with
it. -/
theorem items_eq_nil_iff (h : WellFormed segs) (hunknown : segs.any Segment.isUnknown = true)
    (hclosed : segs.any Segment.isUnclosed = false) :
    ((entries [] segs).takeWhile fun q => !q.isUnknown).filterMap (·.item dateformat) = [] ↔
      ∃ s, segs.head? = some s ∧ s.isUnknown = true := by
  have hfirst : ∀ (q : Pattern) rest, q.isUnknown = false →
      ((q :: rest).takeWhile fun q => !q.isUnknown).filterMap (·.item dateformat) ≠ [] := by
    intro q rest hknown
    obtain ⟨item, hitem⟩ : ∃ item, q.item dateformat = some item := by
      rw [← Option.isSome_iff_exists, ← Option.not_isNone, isNone_item, hknown]
      rfl
    simp [hknown, hitem]
  cases segs with
  | nil => cases hunknown
  | cons s segs =>
    obtain ⟨hs, h⟩ := h
    cases s with
    | literal c =>
      have hne : [c] ≠ [] := List.cons_ne_nil c []
      obtain ⟨t, rest, hrest⟩ : ∃ t rest, entries [c] segs = .string t :: rest :=
        entries_of_ne_nil hne
      refine iff_of_false ?_ (by simp [Segment.isUnknown])
      rw [entries, List.nil_append, hrest]
      exact hfirst _ _ rfl
    | conversion x =>
      have hentry : (Pattern.conversion x).isUnknown = (Segment.conversion x).isUnknown := by
        have hone : WellFormed [.conversion x] := ⟨hs, trivial⟩
        simpa [entries, flush] using any_entries hone []
      by_cases hx : (Segment.conversion x).isUnknown = true
      · refine iff_of_true ?_ ⟨_, rfl, hx⟩
        simp [entries, flush, hentry, hx]
      · refine iff_of_false ?_ (by simp [hx])
        exact hfirst _ _ (by rw [hentry]; simpa using hx)
    | date | bareDate =>
      refine iff_of_false ?_ (by simp [Segment.isUnknown])
      exact hfirst _ _ rfl
    | unclosed => cases hclosed
    | lonePercent =>
      obtain rfl : segs = [] := hs
      cases hunknown

end

/-- A pattern is handled cleanly exactly if it does not end with a bare date and, unless a brace is
not closed, has an unknown conversion only where the first thing in it is one. -/
theorem handledCleanly_iff (p : Text) : HandledCleanly p ↔
    (segments p).getLast? ≠ some .bareDate ∧
      ((segments p).any Segment.isUnclosed = false → (segments p).any Segment.isUnknown = true →
        ∃ s, (segments p).head? = some s ∧ s.isUnknown = true) := by
  have hscan := scan_pattern p
  cases hclosed : (segments p).any Segment.isUnclosed with
  | true =>
    have hnew : LogFormatter.new p = some { m_pattern := p, m_error := true } := by
      rw [LogFormatter.new, LogFormatter.init, hscan, outcome_notClosed hclosed]
    refine iff_of_true ⟨_, hnew, iff_of_true rfl ?_, fun _ => ⟨rfl, fun _ _ => rfl⟩⟩
      ⟨getLast?_of_unclosed (wellFormed_segments p) hclosed, by simp⟩
    obtain ⟨s, hs, hunclosed⟩ := List.any_eq_true.mp hclosed
    exact List.any_eq_true.mpr ⟨s, hs, by rw [Segment.isBad, hunclosed, Bool.or_true]⟩
  | false =>
    by_cases hlast : (segments p).getLast? = some .bareDate
    · have hnew : LogFormatter.new p = none := by
        rw [LogFormatter.new, LogFormatter.init, hscan, outcome_outOfRange hclosed hlast]
      refine iff_of_false ?_ fun h => h.1 hlast
      rintro ⟨f, hf, -⟩
      cases hnew.symm.trans hf
    · obtain ⟨f, hnew, herror, hitems⟩ : ∃ f, LogFormatter.new p = some f ∧
          f.m_error = (segments p).any Segment.isUnknown ∧
          f.m_items = ((entries [] (segments p)).takeWhile fun q => !q.isUnknown).filterMap
            (·.item (bracedFormats (segments p))) := by
        refine ⟨_, new_of_segments rfl hclosed hlast, ?_, m_items_addItems _⟩
        rw [m_error_addItems, any_entries (wellFormed_segments p), Bool.false_or]
      constructor
      · rintro ⟨g, hg, -, hclean⟩
        obtain rfl : f = g := Option.some.inj (hnew.symm.trans hg)
        refine ⟨hlast, fun _ hunknown => ?_⟩
        have hnil := (hclean (herror.trans hunknown)).1
        rw [hitems] at hnil
        exact (items_eq_nil_iff (wellFormed_segments p) hunknown hclosed).mp hnil
      · rintro ⟨-, hfirst⟩
        refine ⟨f, hnew, by rw [herror, any_isBad hclosed], fun hbad => ?_⟩
        have hunknown := herror.symm.trans hbad
        have hnil : f.m_items = [] := by
          rw [hitems]
          exact (items_eq_nil_iff (wellFormed_segments p) hunknown hclosed).mpr
            (hfirst rfl hunknown)
        exact ⟨hnil, fun cal event => by rw [LogFormatter.format, hnil, List.flatMap_nil]⟩

/-- A date at the end is read past, and what stands in front of an unknown conversion is still put
out. -/
theorem bad_ends :
    LogFormatter.new "%m %d".toList = none ∧
    (∃ f, LogFormatter.new "%m%x".toList = some f ∧ f.m_error = true ∧ f.m_items = [.message] ∧
      f.format .verbatim started = "started".toList) ∧
    ¬ HandledCleanly "%m %d".toList ∧ ¬ HandledCleanly "%m%x".toList := by
  have hdate : segments "%m %d".toList = [.conversion 'm', .literal ' ', .bareDate] :=
    segments_eq_iff.mpr ⟨by decide, rfl⟩
  have hunknown : segments "%m%x".toList = [.conversion 'm', .conversion 'x'] :=
    segments_eq_iff.mpr ⟨by decide, rfl⟩
  have hread : LogFormatter.new "%m %d".toList = none := by
    rw [LogFormatter.new, LogFormatter.init, scan_pattern, hdate]
    rfl
  have hnew := new_of_segments hunknown rfl (by decide)
  refine ⟨hread, ⟨_, hnew, by decide, by decide, by decide⟩, ?_, ?_⟩
  · rintro ⟨f, hf, -⟩
    cases hread.symm.trans hf
  · rintro ⟨f, hf, -, hclean⟩
    cases hnew.symm.trans hf
    exact absurd (hclean (by decide)).1 (by decide)

end NBRaft.Log
