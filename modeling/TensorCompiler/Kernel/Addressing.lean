import TensorCompiler.Tensor.Shape

/-!
How kernels address payloads. They find the steps of the axes and the coordinates of a position on
their own, one axis after the other from the last. Steps and positions are kept modulo the modulus of
the payload, that of words (`axisSteps_word`); modulo 0 they would be exact. `axisSteps_eq`,
`coordinates_eq` and `position_axisSteps` say that this is the addressing of shapes.
-/

namespace TensorCompiler.Kernel

/-- The steps of the axes of a shape. -/
def axisSteps (modulus : Nat) (s : Shape) : List Nat :=
  (s.reverse.foldl (fun (step, steps) d => (step * d % modulus, step :: steps))
    (1 % modulus, [])).2

/-- The coordinates of a position: the remainder by the extent of an axis is its coordinate, and the
quotient is left for the axes before. -/
def coordinates (s : Shape) (i : Nat) : List Nat :=
  (s.reverse.foldl (fun (rest, coords) d => (rest / d, rest % d :: coords)) (i, [])).2

/-- The position of coordinates, given the steps of their axes. -/
def position (modulus : Nat) (steps coords : List Nat) : Nat :=
  (coords.zip steps).foldl (fun position (c, step) => (position + c * step) % modulus) 0

theorem axisSteps_eq (modulus : Nat) (s : Shape) :
    axisSteps modulus s = s.steps.map (· % modulus) := by
  have hfold : s.foldr (fun d (p : Nat × List Nat) => (p.1 * d % modulus, p.1 :: p.2))
      (1 % modulus, []) = (s.volume % modulus, s.steps.map (· % modulus)) := by
    induction s with
    | nil => rfl
    | cons d ds ih =>
      rw [List.foldr_cons, ih, Nat.mod_mul_mod, Shape.volume, Nat.mul_comm, Shape.steps,
        List.map_cons]
  rw [axisSteps, List.foldl_reverse]
  exact congrArg (·.2) hfold

/-- What is left of a position after all axes is its quotient by the volume. -/
theorem coordinates_split (s : Shape) (i : Nat) :
    s.reverse.foldl (fun (p : Nat × List Nat) d => (p.1 / d, p.1 % d :: p.2)) (i, []) =
      (i / s.volume, s.unravel i) := by
  rw [List.foldl_reverse]
  induction s with
  | nil => simp [Shape.volume, Shape.unravel]
  | cons d ds ih =>
    rw [List.foldr_cons, ih, Shape.volume, Shape.unravel, Nat.div_div_eq_div_mul, Nat.mul_comm]

theorem coordinates_eq (s : Shape) (i : Nat) : coordinates s i = s.unravel i :=
  congrArg (·.2) (coordinates_split s i)

theorem position_axisSteps (modulus : Nat) (s : Shape) (coords : List Nat) :
    position modulus (axisSteps modulus s) coords = s.offset coords % modulus := by
  have hfold (acc : Nat) : (coords.zip (s.steps.map (· % modulus))).foldl
      (fun position (c, step) => (position + c * step) % modulus) (acc % modulus) =
        (acc + s.offset coords) % modulus := by
    induction s generalizing coords acc with
    | nil => cases coords <;> rfl
    | cons d ds ih =>
      cases coords with
      | nil => rfl
      | cons c cs =>
        have hstep : (acc % modulus + c * (Shape.volume ds % modulus)) % modulus =
            (acc + c * Shape.volume ds) % modulus := by
          rw [Nat.mod_add_mod, Nat.add_mod, Nat.mul_mod_mod, ← Nat.add_mod]
        rw [Shape.steps, List.map_cons, List.zip_cons_cons, List.foldl_cons]
        simp only [hstep]
        rw [ih, Shape.offset, Nat.add_assoc]
  have hstart := hfold 0
  rwa [Nat.zero_mod, Nat.zero_add, ← axisSteps_eq] at hstart

end TensorCompiler.Kernel
