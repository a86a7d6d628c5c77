import NBRaft.Log.Formatter

/-!
# What the scanner makes of a pattern

The scanner goes from one segment of the pattern to the next. Of the dates it keeps the formats in
one string, and one that is bare at the end of the pattern leads it behind the terminator.
-/

namespace NBRaft.Log

/-- The outcome of the scanner over the segments that are left. -/
def outcome (patterns : List Pattern) (tmp dateformat : Text) : List Segment → Scanned
  | [] => .scanned (flush patterns tmp) dateformat
  | .literal c :: segs => outcome patterns (tmp ++ [c]) dateformat segs
  | .conversion x :: segs => outcome (flush patterns tmp ++ [.conversion x]) [] dateformat segs
  | .date f :: segs => outcome (flush patterns tmp ++ [.conversion 'd']) [] (dateformat ++ f) segs
  | .bareDate :: segs =>
    if segs = [] then .outOfRange
    else outcome (flush patterns tmp ++ [.conversion 'd']) [] dateformat segs
  | .unclosed _ :: _ => .notClosed
  | .lonePercent :: segs => outcome (flush patterns tmp) [] dateformat segs

section

variable {p rest : Text} {i : Nat} {c : Char} {s : Scanner}

theorem getElem_of_drop (h : p.drop i = c :: rest) :
    ∃ hi : i < p.length, p[i] = c ∧ p.drop (i + 1) = rest := by
  have hi : i < p.length := by
    by_contra hle
    rw [List.drop_of_length_le (Nat.le_of_not_lt hle)] at h
    cases h
  rw [List.drop_eq_getElem_cons hi] at h
  obtain ⟨hc, hrest⟩ := List.cons.inj h
  exact ⟨hi, hc, hrest⟩

theorem charAt_of_drop (h : p.drop i = c :: rest) : charAt p i = some c := by
  obtain ⟨hi, hc, -⟩ := getElem_of_drop h
  rw [charAt, if_neg (Nat.ne_of_lt hi), List.getElem?_eq_getElem hi, hc]

theorem takeDateFormat_eq {dateformat : Text} (h : p.drop i = rest) :
    takeDateFormat p i dateformat =
      (i + (rest.takeWhile (· ≠ '}')).length, dateformat ++ rest.takeWhile (· ≠ '}')) := by
  induction rest generalizing i dateformat with
  | nil =>
    have hi : ¬ i < p.length := Nat.not_lt.mpr (List.drop_eq_nil_iff.mp h)
    rw [takeDateFormat, dif_neg hi]
    simp
  | cons c rest ih =>
    obtain ⟨hi, hc, hrest⟩ := getElem_of_drop h
    rw [takeDateFormat, dif_pos hi, hc]
    by_cases hbrace : c = '}'
    · simp [hbrace]
    · have htake : (c :: rest).takeWhile (· ≠ '}') = c :: rest.takeWhile (· ≠ '}') :=
        List.takeWhile_cons_of_pos (by simpa using hbrace)
      rw [if_pos hbrace, ih hrest, htake]
      simp only [List.length_cons, List.append_assoc, List.singleton_append]
      rw [Nat.add_assoc, Nat.add_comm 1]

/-! ## One segment -/

theorem scan_end (h : p.drop s.i = []) :
    scan p s = .scanned (flush s.patterns s.tmp) s.dateformat := by
  rw [scan, dif_neg (Nat.not_lt.mpr (List.drop_eq_nil_iff.mp h))]

theorem scan_literal (h : p.drop s.i = c :: rest) (hc : c ≠ '%') (hs : s.parsing_string = true) :
    scan p s = scan p { s with tmp := s.tmp ++ [c], i := s.i + 1 } := by
  obtain ⟨hi, rfl, -⟩ := getElem_of_drop h
  rw [scan, dif_pos hi, if_neg hc, if_pos hs]

/-- The scanner behind a `%` that it has come to in a string. -/
def Scanner.behindPercent (s : Scanner) : Scanner where
  patterns := flush s.patterns s.tmp
  dateformat := s.dateformat
  parsing_string := false
  i := s.i + 1

theorem scan_percent (h : p.drop s.i = '%' :: rest) (hs : s.parsing_string = true) :
    scan p s = scan p s.behindPercent := by
  obtain ⟨hi, hc, -⟩ := getElem_of_drop h
  rw [scan, dif_pos hi, if_pos hc, if_pos hs]
  rfl

theorem scan_conversion (h : p.drop s.i = c :: rest) (hc : c ≠ 'd')
    (hs : s.parsing_string = false) :
    scan p s = scan p { s with
      patterns := s.patterns ++ [.conversion c], parsing_string := true, i := s.i + 1 } := by
  obtain ⟨hi, rfl, -⟩ := getElem_of_drop h
  rw [scan, dif_pos hi]
  simp only [hs, Bool.false_eq_true, if_false, if_pos hc, ite_self]

theorem scan_bareDate (h : p.drop s.i = 'd' :: c :: rest) (hc : c ≠ '{')
    (hs : s.parsing_string = false) :
    scan p s = scan p { s with
      patterns := s.patterns ++ [.conversion 'd'], parsing_string := true, i := s.i + 1 } := by
  obtain ⟨hi, hd, hrest⟩ := getElem_of_drop h
  have hnext : s.i + 1 < p.length ∧ charAt p (s.i + 1) ≠ some '{' := by
    refine ⟨(getElem_of_drop hrest).1, ?_⟩
    rw [charAt_of_drop hrest]
    exact fun heq => hc (Option.some.inj heq)
  rw [scan, dif_pos hi]
  simp only [hd, hs, if_pos hnext]
  rfl

/-- Behind a `%d` at the end the scanner steps over the terminator, and reads there. -/
theorem scan_bareDate_end (h : p.drop s.i = ['d']) (hs : s.parsing_string = false) :
    scan p s = .outOfRange := by
  obtain ⟨hi, hd, hrest⟩ := getElem_of_drop h
  have hlength : p.length = s.i + 1 :=
    Nat.le_antisymm (List.drop_eq_nil_iff.mp hrest) hi
  have hnext : ¬ (s.i + 1 < p.length ∧ charAt p (s.i + 1) ≠ some '{') :=
    fun hlt => absurd hlt.1 (by omega)
  have hdate : takeDateFormat p (s.i + 1 + 1) s.dateformat = (s.i + 1 + 1, s.dateformat) := by
    rw [takeDateFormat, dif_neg (by omega)]
  have hread : charAt p (s.i + 1 + 1) = none := by
    rw [charAt, if_neg (by omega), List.getElem?_eq_none (by omega)]
  rw [scan, dif_pos hi]
  simp only [hd, hs, if_neg hnext, hdate, hread]
  rfl

theorem scan_date (h : p.drop s.i = 'd' :: '{' :: rest) (hclosed : '}' ∈ rest)
    (hs : s.parsing_string = false) :
    ∃ i, p.drop i = afterBrace rest ∧ scan p s = scan p { s with
      patterns := s.patterns ++ [.conversion 'd'],
      dateformat := s.dateformat ++ rest.takeWhile (· ≠ '}'), parsing_string := true, i := i } := by
  obtain ⟨hi, hd, hrest⟩ := getElem_of_drop h
  have hnext : ¬ (s.i + 1 < p.length ∧ charAt p (s.i + 1) ≠ some '{') :=
    fun hne => hne.2 (charAt_of_drop hrest)
  obtain ⟨-, -, hformat⟩ := getElem_of_drop hrest
  have hbrace : p.drop (s.i + 1 + 1 + (rest.takeWhile (· ≠ '}')).length) =
      '}' :: afterBrace rest := by
    rw [← List.drop_drop, hformat]
    calc rest.drop (rest.takeWhile (· ≠ '}')).length
      _ = (rest.takeWhile (· ≠ '}') ++ '}' :: afterBrace rest).drop
          (rest.takeWhile (· ≠ '}')).length := by rw [takeWhile_append_afterBrace hclosed]
      _ = '}' :: afterBrace rest := List.drop_left
  obtain ⟨-, -, hafter⟩ := getElem_of_drop hbrace
  refine ⟨_, hafter, ?_⟩
  rw [scan, dif_pos hi]
  simp only [hd, hs, if_neg hnext, takeDateFormat_eq hformat, charAt_of_drop hbrace]
  rfl

theorem scan_unclosed (h : p.drop s.i = 'd' :: '{' :: rest) (hopen : '}' ∉ rest)
    (hs : s.parsing_string = false) : scan p s = .notClosed := by
  obtain ⟨hi, hd, hrest⟩ := getElem_of_drop h
  have hnext : ¬ (s.i + 1 < p.length ∧ charAt p (s.i + 1) ≠ some '{') :=
    fun hne => hne.2 (charAt_of_drop hrest)
  obtain ⟨hi', -, hformat⟩ := getElem_of_drop hrest
  have hall : rest.takeWhile (· ≠ '}') = rest :=
    List.takeWhile_eq_self_iff.mpr fun c hc => decide_eq_true fun heq => hopen (heq ▸ hc)
  have hlength : p.length = s.i + 1 + 1 + rest.length := by
    have := congrArg List.length hformat
    rw [List.length_drop] at this
    omega
  have hread : charAt p (s.i + 1 + 1 + rest.length) = some '\x00' := by
    rw [charAt, if_pos hlength.symm]
  rw [scan, dif_pos hi]
  simp only [hd, hs, if_neg hnext, takeDateFormat_eq hformat, hall, hread]
  rfl

/-! ## All segments -/

theorem segments_eq_nil_iff {p : Text} : segments p = [] ↔ p = [] := by
  rw [segments_eq_iff]
  exact ⟨fun h => h.2.symm, fun h => ⟨trivial, h.symm⟩⟩

/-- While it is in a string, the scanner has the segments of the rest before it. -/
theorem scan_eq_outcome (h : p.drop s.i = rest) (hs : s.parsing_string = true) :
    scan p s = outcome s.patterns s.tmp s.dateformat (segments rest) := by
  fun_induction segments rest generalizing s with
  | case1 => exact scan_end h
  | case2 =>
    rw [scan_percent h hs]
    exact scan_end (getElem_of_drop h).2.2
  | case3 rest hclosed ih =>
    rw [scan_percent h hs]
    obtain ⟨i, hafter, hscan⟩ :=
      scan_date (s := s.behindPercent) (getElem_of_drop h).2.2 hclosed rfl
    rw [hscan]
    exact ih hafter rfl
  | case4 rest hopen =>
    rw [scan_percent h hs]
    exact scan_unclosed (getElem_of_drop h).2.2 hopen rfl
  | case5 rest hbrace ih =>
    have hd := (getElem_of_drop h).2.2
    rw [scan_percent h hs]
    cases rest with
    | nil =>
      rw [outcome, if_pos (segments_eq_nil_iff.mpr rfl)]
      exact scan_bareDate_end hd rfl
    | cons c rest =>
      have hc : c ≠ '{' := by
        rintro rfl
        exact hbrace rest rfl
      rw [scan_bareDate hd hc rfl, ih (getElem_of_drop hd).2.2 rfl, outcome,
        if_neg (by simp [segments_eq_nil_iff])]
      rfl
  | case6 x rest hdate hbare ih =>
    have hx := (getElem_of_drop h).2.2
    rw [scan_percent h hs, scan_conversion hx hbare rfl]
    exact ih (getElem_of_drop hx).2.2 rfl
  | case7 c rest hlone hdate hbare hconversion ih =>
    rw [scan_literal h (ne_percent_of_segments hlone hconversion) hs]
    exact ih (getElem_of_drop h).2.2 hs

/-- The whole scan. -/
theorem scan_pattern (p : Text) : scan p {} = outcome [] [] [] (segments p) :=
  scan_eq_outcome rfl rfl

end

end NBRaft.Log
