import Mathlib.Data.List.TakeWhile
import Mathlib.Tactic.Common

/-!
# What a pattern says

A pattern is a sequence of segments: literal characters, conversions `%x`, and dates, which may have
a format of their own in braces. `segments` reads them from left to right, so that `%%` is one
conversion; what it reads is exactly what spells the pattern.
-/

namespace NBRaft.Log

/-- A `std::string`. That a `char` has but 256 values makes no difference. -/
abbrev Text := List Char

inductive Segment where
  | literal (c : Char)
  /-- `%x`, with `x` other than `d`. -/
  | conversion (x : Char)
  /-- `%d{f}`. -/
  | date (f : Text)
  /-- `%d` with no brace behind it. -/
  | bareDate
  /-- `%d{` and the rest of the pattern, where no brace closes it. -/
  | unclosed (rest : Text)
  /-- A `%` at the end of the pattern. -/
  | lonePercent
  deriving DecidableEq, Repr

namespace Segment

def print : Segment → Text
  | literal c => [c]
  | conversion x => ['%', x]
  | date f => ['%', 'd', '{'] ++ f ++ ['}']
  | bareDate => ['%', 'd']
  | unclosed rest => ['%', 'd', '{'] ++ rest
  | lonePercent => ['%']

/-- The segment can be read back where `next` comes after it. -/
def Readable (next : List Segment) : Segment → Prop
  | literal c => c ≠ '%'
  | conversion x => x ≠ 'd'
  | date f => '}' ∉ f
  | bareDate => next.head? ≠ some (literal '{')
  | unclosed rest => '}' ∉ rest ∧ next = []
  | lonePercent => next = []

instance (next : List Segment) : (s : Segment) → Decidable (s.Readable next)
  | literal c => inferInstanceAs (Decidable (c ≠ '%'))
  | conversion x => inferInstanceAs (Decidable (x ≠ 'd'))
  | date f => inferInstanceAs (Decidable ('}' ∉ f))
  | bareDate => inferInstanceAs (Decidable (next.head? ≠ some (literal '{')))
  | unclosed rest => inferInstanceAs (Decidable ('}' ∉ rest ∧ next = []))
  | lonePercent => inferInstanceAs (Decidable (next = []))

end Segment

open Segment

/-- The text that the segments spell. -/
def spell (segs : List Segment) : Text := segs.flatMap print

def WellFormed : List Segment → Prop
  | [] => True
  | s :: segs => s.Readable segs ∧ WellFormed segs

instance decidableWellFormed : (segs : List Segment) → Decidable (WellFormed segs)
  | [] => .isTrue trivial
  | s :: segs =>
    have := decidableWellFormed segs
    inferInstanceAs (Decidable (s.Readable segs ∧ WellFormed segs))

/-- What comes behind the first brace. -/
def afterBrace (p : Text) : Text := (p.dropWhile (· ≠ '}')).tail

theorem length_afterBrace_le (p : Text) : (afterBrace p).length ≤ p.length := by
  have hdrop := (List.dropWhile_sublist (· ≠ '}') (l := p)).length_le
  rw [afterBrace, List.length_tail]
  omega

def segments : Text → List Segment
  | [] => []
  | ['%'] => [.lonePercent]
  | '%' :: 'd' :: '{' :: rest =>
    if '}' ∈ rest then .date (rest.takeWhile (· ≠ '}')) :: segments (afterBrace rest)
    else [.unclosed rest]
  | '%' :: 'd' :: rest => .bareDate :: segments rest
  | '%' :: x :: rest => .conversion x :: segments rest
  | c :: rest => .literal c :: segments rest
termination_by p => p.length
decreasing_by
  all_goals
    have := length_afterBrace_le rest
    simp only [List.length_cons]
    omega

theorem takeWhile_append_afterBrace {p : Text} (h : '}' ∈ p) :
    p.takeWhile (· ≠ '}') ++ '}' :: afterBrace p = p := by
  induction p with
  | nil => cases h
  | cons c p ih =>
    by_cases hc : c = '}'
    · simp [afterBrace, hc]
    · have hmem : '}' ∈ p := (List.mem_cons.mp h).resolve_left (Ne.symm hc)
      simpa [afterBrace, hc] using ih hmem

theorem ne_percent_of_segments {c : Char} {rest : Text} (hlone : c = '%' → rest = [] → False)
    (hconversion : ∀ x next, c = '%' → rest = x :: next → False) : c ≠ '%' := by
  rintro rfl
  cases rest with
  | nil => exact hlone rfl rfl
  | cons x next => exact hconversion x next rfl rfl

/-- The segments spell the pattern that they have been read from. -/
theorem spell_segments (p : Text) : spell (segments p) = p := by
  fun_induction segments p with
  | case1 => rfl
  | case2 => rfl
  | case3 rest hclosed ih =>
    change ['%', 'd', '{'] ++ rest.takeWhile (· ≠ '}') ++ ['}'] ++ spell (segments _) = _
    rw [ih]
    simpa using takeWhile_append_afterBrace hclosed
  | case4 rest hopen => simp [spell, print]
  | case5 rest hbrace ih => simpa [spell, print] using ih
  | case6 x rest hdate hbare ih => simpa [spell, print] using ih
  | case7 c rest hlone hdate hbare hconversion ih => simpa [spell, print] using ih

theorem wellFormed_segments (p : Text) : WellFormed (segments p) := by
  fun_induction segments p with
  | case1 => trivial
  | case2 => exact ⟨rfl, trivial⟩
  | case3 rest hclosed ih =>
    refine ⟨fun h => ?_, ih⟩
    simpa using List.mem_takeWhile_imp h
  | case4 rest hopen => exact ⟨⟨hopen, rfl⟩, trivial⟩
  | case5 rest hbrace ih =>
    refine ⟨fun h => ?_, ih⟩
    obtain ⟨segs, hsegs⟩ := List.head?_eq_some_iff.mp h
    have hspell := spell_segments rest
    rw [hsegs] at hspell
    exact hbrace _ hspell.symm
  | case6 x rest hdate hbare ih => exact ⟨hbare, ih⟩
  | case7 c rest hlone hdate hbare hconversion ih =>
    exact ⟨ne_percent_of_segments hlone hconversion, ih⟩

theorem segments_literal {c : Char} (h : c ≠ '%') (rest : Text) :
    segments (c :: rest) = .literal c :: segments rest :=
  segments.eq_6 c rest (fun hc => absurd hc h) (fun _ hc => absurd hc h)
    (fun _ hc => absurd hc h) (fun _ _ hc => absurd hc h)

theorem segments_conversion {x : Char} (h : x ≠ 'd') (rest : Text) :
    segments ('%' :: x :: rest) = .conversion x :: segments rest :=
  segments.eq_5 x rest (fun _ hx => absurd hx h) h

theorem segments_bareDate {rest : Text} (h : rest.head? ≠ some '{') :
    segments ('%' :: 'd' :: rest) = .bareDate :: segments rest :=
  segments.eq_4 rest fun next hnext => h (by rw [hnext]; rfl)

theorem takeWhile_spelled {f : Text} (h : '}' ∉ f) (rest : Text) :
    (f ++ '}' :: rest).takeWhile (· ≠ '}') = f ∧ afterBrace (f ++ '}' :: rest) = rest := by
  have hall : ∀ c ∈ f, decide (c ≠ '}') = true := fun c hc =>
    decide_eq_true fun heq => h (heq ▸ hc)
  refine ⟨?_, ?_⟩
  · rw [List.takeWhile_append_of_pos hall]
    simp
  · rw [afterBrace, List.dropWhile_append_of_pos hall]
    simp

theorem segments_date {f : Text} (h : '}' ∉ f) (rest : Text) :
    segments (['%', 'd', '{'] ++ f ++ ['}'] ++ rest) = .date f :: segments rest := by
  obtain ⟨htake, hafter⟩ := takeWhile_spelled h rest
  have hmem : '}' ∈ f ++ '}' :: rest := by simp
  have heq := segments.eq_3 (f ++ '}' :: rest)
  rw [if_pos hmem, htake, hafter] at heq
  simpa using heq

/-- The first character of what comes next is a brace only if that is a literal. -/
theorem head?_spell {segs : List Segment} (h : (spell segs).head? = some '{') :
    segs.head? = some (.literal '{') := by
  cases segs with
  | nil => cases h
  | cons s segs =>
    cases s with
    | literal c =>
      obtain rfl : c = '{' := by simpa [spell, print] using h
      rfl
    | conversion | date | bareDate | unclosed | lonePercent => simp [spell, print] at h

theorem segments_spell {segs : List Segment} (h : WellFormed segs) :
    segments (spell segs) = segs := by
  induction segs with
  | nil => rw [spell, List.flatMap_nil, segments]
  | cons s segs ih =>
    obtain ⟨hreadable, hrest⟩ := h
    have hspell : spell (s :: segs) = s.print ++ spell segs := List.flatMap_cons ..
    have hread := ih hrest
    cases s with
    | literal c => rw [hspell, print, List.singleton_append, segments_literal hreadable, hread]
    | conversion x =>
      rw [hspell]
      change segments ('%' :: x :: spell segs) = _
      rw [segments_conversion hreadable, hread]
    | date f => rw [hspell, print, segments_date hreadable, hread]
    | bareDate =>
      rw [hspell]
      change segments ('%' :: 'd' :: spell segs) = _
      rw [segments_bareDate fun hbrace => hreadable (head?_spell hbrace), hread]
    | unclosed rest =>
      obtain ⟨hopen, rfl⟩ := hreadable
      have heq := segments.eq_3 rest
      rw [if_neg hopen] at heq
      simpa [hspell, print, spell] using heq
    | lonePercent =>
      obtain rfl : segs = [] := hreadable
      rw [hspell]
      exact segments.eq_2

/-- There is one way to read a pattern. -/
theorem segments_eq_iff {p : Text} {segs : List Segment} :
    segments p = segs ↔ WellFormed segs ∧ spell segs = p := by
  constructor
  · rintro rfl
    exact ⟨wellFormed_segments p, spell_segments p⟩
  · rintro ⟨hwellFormed, rfl⟩
    exact segments_spell hwellFormed

end NBRaft.Log
