import Mathlib.Tactic
import Moire.Sampling.Path

/-!
# The number of points determines a path

A path is sampled with a density, and every side gets the whole number of points next below its
length times the density. If one of two densities gives every length at least as many points as the
other, `Denser`, then it does so on every side, and two samples with equally many points have
equally many on each side. Hence they are the same sample, `sample_eq_of_length_eq`.
-/

namespace Moire

variable {α : Type} [Scalar α]

/-- The second density gives every length at least as many points as the first. -/
def Denser (d d' : α) : Prop :=
  ∀ length : α, Number.toNat (length * d) ≤ Number.toNat (length * d')

/-- A segment has as many points as it is asked for. -/
theorem length_segment {p q : KPoint α} {count : ℕ} {side : List (KPoint α)}
    (h : segment p q count false = .ok side) : side.length = count := by
  simp only [segment, bind_eq_ok] at h
  obtain ⟨_, _, h⟩ := h
  cases h
  simp

/-- The sides of a path are the first one and those of the rest. -/
theorem sides_cons {d : α} {p q : KPoint α} {rest : List (KPoint α)}
    {segments : List (List (KPoint α))} (h : sides d (p :: q :: rest) = .ok segments) :
    ∃ side others, segment p q (sideCount d p q) false = .ok side ∧
      sides d (q :: rest) = .ok others ∧ segments = side :: others := by
  rw [sides, bind_eq_ok] at h
  obtain ⟨side, hside, h⟩ := h
  rw [bind_eq_ok] at h
  obtain ⟨others, hothers, h⟩ := h
  cases h
  exact ⟨side, others, hside, hothers, rfl⟩

/-- The denser sample has more points, unless it is the same. -/
theorem Denser.sides_eq {d d' : α} (hd : Denser d d') {vertices : List (KPoint α)}
    {segments segments' : List (List (KPoint α))} (h : sides d vertices = .ok segments)
    (h' : sides d' vertices = .ok segments') :
    segments.flatten.length ≤ segments'.flatten.length ∧
      (segments'.flatten.length ≤ segments.flatten.length → segments = segments') := by
  induction vertices generalizing segments segments' with
  | nil =>
      cases h
      cases h'
      exact ⟨le_rfl, fun _ ↦ rfl⟩
  | cons p rest ih =>
      cases rest with
      | nil =>
          cases h
          cases h'
          exact ⟨le_rfl, fun _ ↦ rfl⟩
      | cons q rest =>
          obtain ⟨side, others, hside, hothers, rfl⟩ := sides_cons h
          obtain ⟨side', others', hside', hothers', rfl⟩ := sides_cons h'
          obtain ⟨hle, heq⟩ := ih hothers hothers'
          have hcount : sideCount d p q ≤ sideCount d' p q := hd _
          rw [List.flatten_cons, List.flatten_cons, List.length_append, List.length_append,
            length_segment hside, length_segment hside']
          refine ⟨by omega, fun hmore ↦ ?_⟩
          have hsame : sideCount d p q = sideCount d' p q := by omega
          rw [hsame, hside'] at hside
          cases hside
          rw [heq (by omega)]

/-- The points of a sample: those of the sides, and the last vertex if it is included. -/
theorem polyline_eq_ok {vertices : List (KPoint α)} {d : α} {includeLast : Bool} {path : KPath α}
    (h : polyline vertices d includeLast = .ok path) :
    ∃ segments tail, sides (Number.nonnegative d) vertices = .ok segments ∧
      tail = (if includeLast then vertices.getLast?.toList.map fun last ↦ [last] else []) ∧
      path = ⟨segments ++ tail, partialSums 0 (segments.map List.length), []⟩ := by
  rw [polyline, bind_eq_ok] at h
  obtain ⟨segments, hsegments, h⟩ := h
  cases h
  exact ⟨segments, _, hsegments, rfl, rfl⟩

/-- Two samples of a polygon with equally many points are the same. -/
theorem polyline_eq_of_length_eq {vertices : List (KPoint α)} {d d' : α} {includeLast : Bool}
    {path path' : KPath α}
    (hd : Denser (Number.nonnegative d) (Number.nonnegative d') ∨
      Denser (Number.nonnegative d') (Number.nonnegative d))
    (h : polyline vertices d includeLast = .ok path)
    (h' : polyline vertices d' includeLast = .ok path') (hlength : path.length = path'.length) :
    path = path' := by
  obtain ⟨segments, tail, hsegments, htail, rfl⟩ := polyline_eq_ok h
  obtain ⟨segments', tail', hsegments', htail', rfl⟩ := polyline_eq_ok h'
  obtain rfl := htail.trans htail'.symm
  have hpoints : segments.flatten.length = segments'.flatten.length := by
    simpa [KPath.length, KPath.points] using hlength
  have hsame : segments = segments' := by
    obtain hd | hd := hd
    · exact (hd.sides_eq hsegments hsegments').2 hpoints.ge
    · exact ((hd.sides_eq hsegments' hsegments).2 hpoints.le).symm
  rw [hsame]

/-- Two samples of a path with equally many points are the same. -/
theorem HighSymmetryPath.sample_eq_of_length_eq {path : HighSymmetryPath α} {d d' : α}
    {includeLast : Bool} {sampled sampled' : KPath α}
    (hd : Denser (Number.nonnegative d) (Number.nonnegative d') ∨
      Denser (Number.nonnegative d') (Number.nonnegative d))
    (h : path.sample d includeLast = .ok sampled) (h' : path.sample d' includeLast = .ok sampled')
    (hlength : sampled.length = sampled'.length) : sampled = sampled' := by
  rw [sample, bind_eq_ok] at h h'
  obtain ⟨line, hline, h⟩ := h
  obtain ⟨line', hline', h'⟩ := h'
  cases h
  cases h'
  rw [polyline_eq_of_length_eq hd hline hline' hlength]

end Moire
