import Mathlib.Data.List.TakeWhile
import NBRaft.Library.Framing

/-!
# A parser of length-prefixed frames

`parse` takes a stream of any elements, one at a time, and puts out the payloads it finds. It
refuses a stream in which a header announces more than `limit`. Nothing is assumed of the stream,
so what a reader has found is a function of the elements it has read: it does not depend on how
they came in (`parse_append`), and it only grows (`parse_prefix`).
-/

namespace Framing

variable {β : Type*}

/-- Where a parser stands: inside the part of a frame it waits for, or at a header it refused. -/
inductive Reader (β : Type*) where
  | awaits (phase : Phase) (got : List β)
  | refused
  deriving DecidableEq, Repr

namespace Reader

/-- At the beginning, and between two frames. -/
def start : Reader β := .awaits .head []

end Reader

/-- How many elements the part of the frame has. -/
def Header.need (H : Header β) : Phase → Nat
  | .head => H.width
  | .body size => size

variable (H : Header β) (limit : Nat)

/-- The part is complete. The body announced by a header may be empty, and is then complete too. -/
def finish : Phase → List β → List (List β) × Reader β
  | .head, got =>
    if limit < H.size got then ([], .refused)
    else if H.size got = 0 then ([[]], .start)
    else ([], .awaits (.body (H.size got)) [])
  | .body _, got => ([got], .start)

def feed : Reader β → β → List (List β) × Reader β
  | .refused, _ => ([], .refused)
  | .awaits phase got, b =>
    if (got ++ [b]).length < H.need phase then ([], .awaits phase (got ++ [b]))
    else finish H limit phase (got ++ [b])

/-- The payloads found in the stream, and where the parser stands behind it. -/
def parse : Reader β → List β → List (List β) × Reader β
  | r, [] => ([], r)
  | r, b :: bs =>
    let (found, r') := feed H limit r b
    let (later, r'') := parse r' bs
    (found ++ later, r'')

variable {H limit}

theorem feed_short {phase : Phase} {got : List β} (b : β) (h : got.length + 1 < H.need phase) :
    feed H limit (.awaits phase got) b = ([], .awaits phase (got ++ [b])) := by
  rw [feed, if_pos (by simpa using h)]

theorem feed_last {phase : Phase} {got : List β} (b : β) (h : H.need phase ≤ got.length + 1) :
    feed H limit (.awaits phase got) b = finish H limit phase (got ++ [b]) := by
  rw [feed, if_neg (by simpa using h)]

@[simp] theorem parse_nil (r : Reader β) : parse H limit r [] = ([], r) := rfl

@[simp] theorem parse_refused (bs : List β) : parse H limit .refused bs = ([], .refused) := by
  induction bs with
  | nil => rfl
  | cons b bs ih => simp [parse, feed, ih]

/-- Taken in two pieces the stream has the payloads of both. -/
theorem parse_append (r : Reader β) (s t : List β) :
    parse H limit r (s ++ t) =
      ((parse H limit r s).1 ++ (parse H limit (parse H limit r s).2 t).1,
        (parse H limit (parse H limit r s).2 t).2) := by
  induction s generalizing r with
  | nil => rfl
  | cons b s ih => simp [parse, ih, List.append_assoc]

theorem parse_append_of_eq {r r' : Reader β} {s : List β} {found : List (List β)}
    (h : parse H limit r s = (found, r')) (t : List β) :
    parse H limit r (s ++ t) =
      (found ++ (parse H limit r' t).1, (parse H limit r' t).2) := by
  rw [parse_append, h]

/-- A longer stream has the payloads of the shorter one first. -/
theorem parse_prefix {s t : List β} (r : Reader β) (h : s <+: t) :
    (parse H limit r s).1 <+: (parse H limit r t).1 := by
  obtain ⟨u, rfl⟩ := h
  rw [parse_append]
  exact List.prefix_append _ _

/-- A body that is waited for is not complete, and within the limit. -/
def Reader.Within (limit : Nat) : Reader β → Prop
  | .awaits (.body size) got => got.length < size ∧ size ≤ limit
  | _ => True

theorem feed_within {r : Reader β} (hr : r.Within limit) (b : β) :
    (∀ payload ∈ (feed H limit r b).1, payload.length ≤ limit) ∧
      (feed H limit r b).2.Within limit := by
  cases r with
  | refused => simp [feed, Reader.Within]
  | awaits phase got =>
    cases phase with
    | head => grind [feed, finish, Reader.Within, Reader.start]
    | body size =>
      obtain ⟨hlt, hle⟩ := hr
      by_cases hmore : got.length + 1 < size
      · rw [feed_short b hmore]
        simp [Reader.Within, hmore, hle]
      · rw [feed_last b (show size ≤ _ by omega)]
        simp only [finish, Reader.start, Reader.Within, List.mem_singleton, forall_eq,
          List.length_append, List.length_singleton, and_true]
        omega

/-- No payload that is found is longer than the limit. -/
theorem parse_within {r : Reader β} (hr : r.Within limit) (bs : List β) :
    ∀ payload ∈ (parse H limit r bs).1, payload.length ≤ limit := by
  induction bs generalizing r with
  | nil => simp
  | cons b bs ih =>
    obtain ⟨hfound, hr'⟩ := feed_within (H := H) hr b
    intro payload hp
    rcases List.mem_append.mp hp with hp | hp
    · exact hfound payload hp
    · exact ih hr' payload hp

/-- Elements that do not complete the part are kept. -/
theorem parse_short {phase : Phase} {got bs : List β}
    (h : got.length + bs.length < H.need phase) :
    parse H limit (.awaits phase got) bs = ([], .awaits phase (got ++ bs)) := by
  induction bs generalizing got with
  | nil => simp
  | cons b bs ih =>
    rw [List.length_cons] at h
    have hrest : (got ++ [b]).length + bs.length < H.need phase := by
      rw [List.length_append, List.length_singleton]
      omega
    simp only [parse, feed_short b (show got.length + 1 < H.need phase by omega), ih hrest]
    simp

/-- Elements that complete it do so with the last one. -/
theorem parse_exact {phase : Phase} {got bs : List β} (hbs : bs ≠ [])
    (h : got.length + bs.length = H.need phase) :
    parse H limit (.awaits phase got) bs = finish H limit phase (got ++ bs) := by
  obtain ⟨front, b, rfl⟩ : ∃ front b, bs = front ++ [b] :=
    ⟨bs.dropLast, bs.getLast hbs, (List.dropLast_append_getLast hbs).symm⟩
  rw [List.length_append, List.length_singleton] at h
  have hlast : H.need phase ≤ (got ++ front).length + 1 := by
    rw [List.length_append]
    omega
  rw [parse_append_of_eq (parse_short (by omega)), ← List.append_assoc]
  simp [parse, feed_last b hlast]

theorem parse_head {head : List β} (hw : 0 < H.width) (h : head.length = H.width) :
    parse H limit .start head = finish H limit .head head := by
  have hne : head ≠ [] := List.ne_nil_of_length_pos (by omega)
  exact parse_exact hne (by simpa [Header.need] using h)

theorem parse_body {payload : List β} (hne : payload ≠ []) :
    parse H limit (.awaits (.body payload.length) []) payload = ([payload], .start) :=
  parse_exact hne (by simp [Header.need])

/-- A frame within the limit is parsed to its payload. -/
theorem parse_frame {frame payload : List β} (hw : 0 < H.width) (hf : IsFrame H frame payload)
    (hle : payload.length ≤ limit) : parse H limit .start frame = ([payload], .start) := by
  obtain ⟨head, rfl, hlen, hsize⟩ := hf
  have hhead : parse H limit .start head = finish H limit .head head := parse_head hw hlen
  rcases eq_or_ne payload [] with rfl | hne
  · simpa [finish, hsize] using hhead
  · have hpos : payload.length ≠ 0 := by simpa using hne
    rw [finish, hsize, if_neg (by omega), if_neg hpos] at hhead
    rw [parse_append_of_eq hhead, parse_body hne]
    rfl

/-- A frame over the limit is refused at its header. -/
theorem parse_frame_of_lt {frame payload : List β} (hw : 0 < H.width)
    (hf : IsFrame H frame payload) (hlt : limit < payload.length) :
    parse H limit .start frame = ([], .refused) := by
  obtain ⟨head, rfl, hlen, hsize⟩ := hf
  have hhead : parse H limit .start head = finish H limit .head head := parse_head hw hlen
  rw [finish, hsize, if_pos hlt] at hhead
  rw [parse_append_of_eq hhead, parse_refused]
  rfl

/-- What a stream of frames is parsed to: the payloads in front of the first one over the limit. -/
theorem parse_frames {stream : List β} {payloads : List (List β)} (hw : 0 < H.width)
    (hf : Frames H stream payloads) :
    parse H limit .start stream =
      (payloads.takeWhile (·.length ≤ limit),
        if ∀ payload ∈ payloads, payload.length ≤ limit then .start else .refused) := by
  induction hf with
  | nil => simp
  | @cons frame payload stream payloads hframe _ ih =>
    by_cases hle : payload.length ≤ limit
    · rw [parse_append_of_eq (parse_frame hw hframe hle), ih]
      simp [hle]
    · rw [parse_append_of_eq (parse_frame_of_lt hw hframe (by omega)), parse_refused]
      simp [hle]

/-- Frames that are all within the limit are parsed to their payloads. -/
theorem parse_frames_of_le {stream : List β} {payloads : List (List β)} (hw : 0 < H.width)
    (hf : Frames H stream payloads) (hle : ∀ payload ∈ payloads, payload.length ≤ limit) :
    parse H limit .start stream = (payloads, .start) := by
  have hall : payloads.takeWhile (·.length ≤ limit) = payloads :=
    List.takeWhile_eq_self_iff.mpr fun payload hp => decide_eq_true (hle payload hp)
  rw [parse_frames hw hf, if_pos hle, hall]

end Framing
