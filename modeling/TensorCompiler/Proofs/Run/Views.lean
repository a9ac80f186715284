import TensorCompiler.Proofs.Graph.Solved
import TensorCompiler.Proofs.Lowering.Total
import TensorCompiler.Proofs.Run.Writes

/-!
Reshapes of storage are views of it. A node that reads a reshape of a storage, or a chain of reshapes,
sees what the storage holds when the node is executed (`Lowering.reads_through_reshapes`). That is what
it held when the reshape was executed as long as no node between the two writes it, and no longer.
-/

namespace TensorCompiler

open Lowering TensorCompiler.Lowering.Stream

variable {s : Storage} {f : Function} {reuse : Bool} {st : Stream} {a : Artifact}

namespace Lowering

/-- A value has one storage at most that it shows. -/
theorem root_of_shows {k : Nat} {seen : List StorageRef} (h : Describes s f k seen st)
    {v w : Value} (hshows : f.Shows v w) : ∀ {ref : StorageRef} {b : Nat}, w = .storage ref →
      st.bufferOf? v = some b → st.weights.lookup ref = some (rootOf st.roots b) := by
  induction hshows with
  | self v =>
    rintro ref b rfl hb
    obtain ⟨name, type, -, -, hd⟩ := h.weight hb
    rwa [rootOf_eq_self h hd (by simp)]
  | @reshape id n shape v w hn hop hin _ ih =>
    intro ref b hw hb
    obtain ⟨-, n', d, hn', -, hd, hkind⟩ := h.value hb
    obtain rfl := Option.some.inj (hn.symm.trans hn')
    obtain ⟨src, hsrc, hview⟩ := hkind.of_reshape hop hin
    rw [(rootOf_view h hd hview).2]
    exact ih hw hsrc

namespace Lowered

variable {α : Type} {m : Memory α} {ref : StorageRef} {v : Value} {b : Nat}

/-- A read of a value that shows a storage reads the storage, under the type of the value. -/
theorem read_of_shows (h : Lowered s f reuse st a) (hshows : f.Shows v (.storage ref))
    (hb : st.bufferOf? v = some b) {j : Nat} {type : TensorType}
    (htype : Function.OperandType s f j v type) (m : Memory α) : m.read a b = (do
      let t ← m.fetch ref.location
      (Tensor.ofPayload type t.payload).mapError .tensor) := by
  have hlocate := h.locate_shown (root_of_shows h.describes hshows rfl hb)
  rw [Memory.read, typeOf_operand h hb htype, hlocate]
  rfl

end Lowered

/-- A reshape of storage, or a chain of reshapes, shows what the storage holds when it is read. The
operation of a node that reads it succeeds or fails on those elements, under the type of the reshape;
they are what the storage held before any earlier operation after which no node has written it, the
reshape's own among them. -/
theorem reads_through_reshapes (α : Type) [Scalar α] (hlower : f.lower s reuse = .ok a)
    {i k : Nat} {reader : Node} {ref : StorageRef} (hshows : f.Shows (.node i 0) (.storage ref))
    (hreader : f.nodes[k]? = some reader) (hread : .node i 0 ∈ reader.inputs) :
    ∃ st x b type, Lowered s f reuse st a ∧ a.operations[k]? = some x ∧ st.Emits k reader x ∧
      st.bufferOf? (.node i 0) = some b ∧ f.valueType s (.node i 0) = .ok type ∧ i < k ∧
      ∀ {m mₖ : Memory α}, a.runFrom m (a.operations.take k) = (.ok (), mₖ) →
        (mₖ.read a b = do
          let t ← mₖ.fetch ref.location
          (Tensor.ofPayload type t.payload).mapError .tensor) ∧
        ∀ j ≤ k, f.Unwritten ref j k → ∃ mⱼ, a.runFrom m (a.operations.take j) = (.ok (), mⱼ) ∧
          mₖ.fetch ref.location = mⱼ.fetch ref.location := by
  obtain ⟨st, -, h, -⟩ := lowered_of_lower hlower
  obtain ⟨x, hx, he⟩ := h.describes.emits (List.getElem?_eq_some_iff.1 hreader).1 hreader
  obtain ⟨types, hwt⟩ := Function.wellTyped_of_verify h.verified hreader
  obtain ⟨type, -, htype⟩ := exists_right_of_forall₂ hwt.operands hread
  obtain ⟨hik, n, hn, hr⟩ := id htype
  obtain ⟨b, hb⟩ := h.describes.defined (List.getElem?_eq_some_iff.1 hn).1 hn hr
  refine ⟨st, x, b, type, h, h.operations_eq ▸ hx, he, hb,
    Function.valueType_node_ok_iff.2 ⟨n, hn, hr⟩, hik, fun {m mₖ} hrun => ?_⟩
  refine ⟨h.read_of_shows hshows hb htype mₖ, fun j hj hunwritten => ?_⟩
  obtain ⟨mⱼ, hbefore, hbetween⟩ := Artifact.runFrom_take_of_le hj hrun
  refine ⟨mⱼ, hbefore, ?_⟩
  rw [Memory.fetch, Memory.fetch, h.get?_between hunwritten hbetween]

/-- The difference of the sample function reads the reshape of a placeholder. -/
theorem reads_through_reshapes_sample :
    Sample.function.Shows (.node 0 0) (.storage (.placeholder 0)) ∧
    Sample.function.Unwritten (.placeholder 0) 0 1 ∧
    ∃ a, Sample.function.lower Sample.storage true = .ok a ∧ ∃ st x b type,
      Lowered Sample.storage Sample.function true st a ∧ a.operations[1]? = some x ∧
      st.bufferOf? (.node 0 0) = some b ∧
      ∀ {m m₁ : Memory Single}, a.runFrom m (a.operations.take 1) = (.ok (), m₁) →
        (m₁.read a b = do
          let t ← m.fetch (.placeholder 0)
          (Tensor.ofPayload type t.payload).mapError .tensor) := by
  have hshows : Sample.function.Shows (.node 0 0) (.storage (.placeholder 0)) :=
    .reshape rfl rfl rfl (.self _)
  have hunwritten : Sample.function.Unwritten (.placeholder 0) 0 1 := by
    intro j n _ hj hn
    obtain rfl := Nat.lt_one_iff.1 hj
    obtain rfl := Option.some.inj hn
    simp [Function.Writes]
  obtain ⟨a, hlower⟩ := exists_lower Sample.verify_function (Sample.arenaBytes_function true)
  obtain ⟨st, x, b, type, h, hx, -, hb, -, -, hreads⟩ :=
    reads_through_reshapes Single hlower hshows (k := 1) rfl (by decide)
  refine ⟨hshows, hunwritten, a, hlower, st, x, b, type, h, hx, hb, fun {m m₁} hrun => ?_⟩
  obtain ⟨hread, hkept⟩ := hreads hrun
  obtain ⟨m₀, hnone, hfetch⟩ := hkept 0 (Nat.zero_le 1) hunwritten
  obtain ⟨-, rfl⟩ := Prod.mk.inj hnone
  rw [hread]
  exact congrArg (· >>= _) hfetch

end Lowering

/-! ## A placeholder that is written after its reshape -/

namespace Sample

/-- Three placeholders of one element. -/
def scalars : Storage where
  vars := []
  placeholders := [⟨"x", .float [1], false⟩, ⟨"y", .float [1], false⟩, ⟨"z", .float [1], false⟩]

/-- Reshapes `x`, saves `y` over it, and then saves the reshape. -/
def overwritten : Function where
  name := "overwritten"
  nodes := [
    ⟨"flat", .reshape [1], [.storage (.placeholder 0)], [.float [1]]⟩,
    ⟨"over", .save (.placeholder 0), [.storage (.placeholder 1)], []⟩,
    ⟨"keep", .save (.placeholder 2), [.node 0 0], []⟩]

/-- What `overwritten` is lowered to. -/
def viewing : Artifact where
  name := "overwritten"
  buffers := [⟨0, "x", .float [1], .weight (.placeholder 0)⟩, ⟨1, "flat", .float [1], .view 0⟩,
    ⟨2, "y", .float [1], .weight (.placeholder 1)⟩, ⟨3, "z", .float [1], .weight (.placeholder 2)⟩]
  instructions := [.ofBuffers .view [1] [0], .ofBuffers .copy [0] [2], .ofBuffers .copy [3] [1]]
  plan := {
    liveRanges := .empty
    viewRoots := .ofList [(1, 0)]
    assignments := .empty
    slots := []
    totalBytes := 0 }

theorem lower_overwritten (reuse : Bool) : overwritten.lower scalars reuse = .ok viewing := by
  have hranges : Plan.liveRangesOf viewing.buffers viewing.instructions = .ok .empty := rfl
  have hroots : Plan.viewRootsOf viewing.buffers = .ok (.ofList [(1, 0)]) := rfl
  refine lower_of_parts rfl rfl ?_ rfl rfl
  rw [Plan.make, hranges, hroots]
  simp only [bind, Except.bind, Plan.layout_of_empty]
  rfl

/-- The element of `x` is 1, that of `y` is 2 and that of `z` is 0. -/
def distinct : Context :=
  .ofList [(0, scalar 1), (1, scalar ⟨0x40000000⟩),
    (2, .zeros (.float [1]))]

/-- A reshape does not keep the elements that it has seen: `x` holds 1 when it is reshaped, and the
node that reads the reshape after the save sees 2. -/
theorem reshape_sees_later_save : overwritten.verify scalars = .ok () ∧
    ∀ reuse, overwritten.lower scalars reuse = .ok viewing ∧
      Engine.checkBindings scalars distinct viewing = .ok () ∧
      ∃ m₁ m₂ m₃ : Memory Single,
        viewing.runFrom (.start viewing [] distinct .empty) (viewing.operations.take 1) =
          (.ok (), m₁) ∧
        viewing.runFrom (.start viewing [] distinct .empty) (viewing.operations.take 2) =
          (.ok (), m₂) ∧
        viewing.run (.start viewing [] distinct .empty) = (.ok (), m₃) ∧
        m₁.get? (.placeholder 0) = some (scalar 1) ∧
        m₂.read viewing 1 = .ok (scalar ⟨0x40000000⟩) ∧
        m₃.get? (.placeholder 2) = some (scalar ⟨0x40000000⟩) := by
  refine ⟨rfl, fun reuse => ⟨lower_overwritten reuse, rfl, _, _, _, Prod.ext ?_ rfl,
    Prod.ext ?_ rfl, Prod.ext ?_ rfl, ?_, ?_, ?_⟩⟩
  all_goals decide +kernel

end Sample

end TensorCompiler
