import Mathlib.Data.List.Basic
import Mathlib.Tactic.Common

/-!
# Length-prefixed frames

A frame is a header of fixed width that tells the length of the payload, followed by the
payload. A reader alternates between the two: it asks for a header, then for as many elements
as the header told. `Expects` relates what such a reader waits for to the stream still to come
and to the payloads in it; it is kept by every read and by every frame appended to the stream,
so it holds a reader and a writer together however their steps interleave.
-/

namespace Framing

variable {β : Type*}

/-- The shape of a header: its width, and the payload length read from it. -/
structure Header (β : Type*) where
  width : Nat
  size : List β → Nat

/-- `frame` is a header for `payload` followed by `payload`. -/
def IsFrame (H : Header β) (frame payload : List β) : Prop :=
  ∃ head, frame = head ++ payload ∧ head.length = H.width ∧ H.size head = payload.length

/-- The stream is the concatenation of frames of the payloads. -/
inductive Frames (H : Header β) : List β → List (List β) → Prop where
  | nil : Frames H [] []
  | cons {frame payload stream : List β} {payloads : List (List β)} :
      IsFrame H frame payload → Frames H stream payloads →
      Frames H (frame ++ stream) (payload :: payloads)

/-- What a reader asks for next: a header, or the rest of a frame. -/
inductive Phase where
  | head
  | body (size : Nat)
  deriving DecidableEq, Repr

/-- A reader in the phase finds exactly the payloads in the stream. -/
inductive Expects (H : Header β) : Phase → List β → List (List β) → Prop where
  | head {stream : List β} {payloads : List (List β)} :
      Frames H stream payloads → Expects H .head stream payloads
  | body {payload stream : List β} {payloads : List (List β)} :
      Frames H stream payloads →
      Expects H (.body payload.length) (payload ++ stream) (payload :: payloads)

variable {H : Header β} {phase : Phase} {stream frame payload : List β}
  {payloads : List (List β)}

theorem Frames.append {s t : List β} {ps qs : List (List β)} (hs : Frames H s ps)
    (ht : Frames H t qs) : Frames H (s ++ t) (ps ++ qs) := by
  induction hs with
  | nil => exact ht
  | cons hf _ ih => simpa [List.append_assoc] using Frames.cons hf ih

theorem Frames.single (h : IsFrame H frame payload) : Frames H frame [payload] := by
  simpa using Frames.cons h Frames.nil

/-- Frames one after the other, each built from a payload. -/
theorem Frames.flatMap {α : Type*} (frame payload : α → List β) (xs : List α)
    (h : ∀ x ∈ xs, IsFrame H (frame x) (payload x)) :
    Frames H (xs.flatMap frame) (xs.map payload) := by
  induction xs with
  | nil => exact .nil
  | cons x xs ih =>
    exact .cons (h x (by simp)) (ih fun y hy => h y (by simp [hy]))

/-- A writer that appends a whole frame gives the reader one more payload, last. -/
theorem Expects.append (h : Expects H phase stream payloads) (hf : IsFrame H frame payload) :
    Expects H phase (stream ++ frame) (payloads ++ [payload]) := by
  cases h with
  | head hs => exact .head (hs.append (.single hf))
  | body hs =>
    rw [List.append_assoc, List.cons_append]
    exact .body (hs.append (.single hf))

/-- Reading a header commits the reader to the length of the next payload. -/
theorem Expects.read_head {got rest : List β} (h : Expects H .head (got ++ rest) payloads)
    (hgot : got.length = H.width) (hw : 0 < H.width) :
    Expects H (.body (H.size got)) rest payloads ∧
      ∃ payload, payload ∈ payloads ∧ H.size got = payload.length := by
  generalize hstream : got ++ rest = stream at h
  cases h with
  | head hs =>
    cases hs with
    | nil =>
      have : got = [] := (List.append_eq_nil_iff.mp hstream).1
      simp only [this, List.length_nil] at hgot
      omega
    | @cons frame payload stream payloads hf hs =>
      obtain ⟨head, rfl, hlen, hsize⟩ := hf
      rw [List.append_assoc] at hstream
      obtain ⟨rfl, rfl⟩ := List.append_inj hstream (by rw [hgot, hlen])
      rw [hsize]
      exact ⟨.body hs, payload, by simp, rfl⟩

/-- Reading a body yields the next payload and leaves the reader at a frame boundary. -/
theorem Expects.read_body {got rest : List β} {n : Nat}
    (h : Expects H (.body n) (got ++ rest) payloads) (hgot : got.length = n) :
    ∃ payloads', payloads = got :: payloads' ∧ Expects H .head rest payloads' := by
  generalize hstream : got ++ rest = stream at h
  cases h with
  | @body payload stream payloads hs =>
    obtain ⟨rfl, rfl⟩ := List.append_inj hstream hgot
    exact ⟨payloads, rfl, .head hs⟩

/-- A reader waiting for a body has all of it ahead. -/
theorem Expects.body_le {n : Nat} (h : Expects H (.body n) stream payloads) :
    n ≤ stream.length := by
  cases h
  simp

/-- A reader waiting for a header has a whole header ahead, or nothing at all. -/
theorem Expects.head_cases (h : Expects H .head stream payloads) :
    (stream = [] ∧ payloads = []) ∨ H.width ≤ stream.length := by
  cases h with
  | head hs =>
    cases hs with
    | nil => exact .inl ⟨rfl, rfl⟩
    | cons hf _ =>
      obtain ⟨head, rfl, hlen, _⟩ := hf
      right
      simp only [List.length_append]
      omega

end Framing
