import TensorCompiler.Word

/-!
Square sliding windows over a padded extent. `outputs?` counts the placements that fit, and
`positions` lists the taps of one placement that lie inside the unpadded extent.
-/

namespace TensorCompiler

/-- A square window with the step between placements and the padding on each side. -/
structure Window where
  kernel : Nat
  stride : Nat
  pad : Nat
deriving DecidableEq, Repr

namespace Window

/-- The extent with the padding on both sides, in words. -/
def padded (w : Window) (extent : Nat) : Nat := Word.wrap (extent + 2 * w.pad)

/-- How many placements an extent has; none when the window or the step is empty, or when not even
one placement fits. -/
def outputs? (w : Window) (extent : Nat) : Option Nat :=
  if w.kernel = 0 ∨ w.stride = 0 ∨ w.padded extent < w.kernel then none
  else some ((w.padded extent - w.kernel) / w.stride + 1)

/-- Where tap `k` of placement `out` lies, if it is inside the extent. -/
def position? (w : Window) (extent out k : Nat) : Option Nat :=
  let shifted := out * w.stride + k
  if w.pad ≤ shifted ∧ shifted - w.pad < extent then some (shifted - w.pad) else none

/-- The taps of a placement that are inside the extent, each with its position. -/
def positions (w : Window) (extent out : Nat) : List (Nat × Nat) :=
  (List.range w.kernel).filterMap fun k => (w.position? extent out k).map (k, ·)

theorem mem_positions {w : Window} {extent out k i : Nat} :
    (k, i) ∈ w.positions extent out ↔
      k < w.kernel ∧ i < extent ∧ i + w.pad = out * w.stride + k := by
  simp only [positions, position?, List.mem_filterMap, List.mem_range, Option.map_eq_some_iff,
    Prod.mk.injEq, Option.ite_none_right_eq_some, Option.some.injEq]
  constructor
  · rintro ⟨_, hk, _, ⟨⟨h1, h2⟩, rfl⟩, rfl, rfl⟩
    omega
  · rintro ⟨hk, hi, hp⟩
    exact ⟨k, hk, i, by omega, rfl, rfl⟩

end Window

end TensorCompiler
