import TensorCompiler.Proofs.Run.Training
import TensorCompiler.Proofs.Run.Writes
import TensorCompiler.Proofs.Training.Forward

/-!
Storage that gradient nodes read again. No node after the source writes storage before the steps of
descent, so a gradient node sees what the source has left (`Engine.gradient_rereads`). That is what a
node of the source has read, as long as the source does not save to the storage after it.
-/

namespace TensorCompiler

open Lowering TensorCompiler.Lowering.Stream

/-- Between a node of the source and a gradient node only saves of the source write storage that the
gradient node reads. -/
theorem Training.Trains.unwritten {s : Storage} {f g : Function} (h : Training.Trains s f g)
    {i j : Nat} {n : Node} {ref : StorageRef} (hn : g.nodes[j]? = some n)
    (hgradient : ∀ p, n.op ≠ .sgd p) (hread : .storage ref ∈ n.inputs)
    (hsaves : f.Unwritten ref i f.size) : g.Unwritten ref i j := by
  intro k m hik hkj hm hwrites
  rcases Nat.lt_or_ge k f.size with hlt | hge
  · have hm' : f.nodes[k]? = some m := by
      rw [List.getElem?_eq_getElem hlt]
      exact (Function.getElem?_of_nodes h.source (List.getElem?_eq_getElem hlt)).symm.trans hm
    exact hsaves hik hlt hm' hwrites
  · rcases hwrites with hop | ⟨p, hop, -⟩
    · exact h.noSave hge hm hop
    -- what follows a step of descent is a step, or adds up gradients
    · rcases h.descendsLast.kinds (Nat.le_of_lt hkj) hm hop hn with hsum | ⟨q, _, _, _, hstep, -⟩
      · have href : ref ∈ n.storageReads := Node.mem_storageReads.2 hread
        rw [hsum.2] at href
        cases href
      · exact hgradient q hstep

namespace Engine

variable {e e₁ : Engine} {settings : Option Descent} {id : Nat} {key : String} {f : Function}

/-- A gradient node of a training function reads only storage that a node of the source reads, from the
same buffer. There it sees what any operation before it has found, the source's own among them, after
which the source does not save to the storage. -/
theorem gradient_rereads (α : Type) [Scalar α] (hf : e.module.function id = .ok f)
    (hcompile : e.compile (.train settings) id = (.ok key, e₁)) :
    ∃ k g st a, e₁.module.function k = .ok g ∧ e₁.get? key = some ⟨k, a, zeroState a⟩ ∧
      f.nodes <+: g.nodes ∧ Lowered e.module.storage g e.reuse st a ∧
      ∀ {j : Nat} {n : Node} {ref : StorageRef}, f.size ≤ j → g.nodes[j]? = some n →
        (∀ p, n.op ≠ .sgd p) → .storage ref ∈ n.inputs →
        (∃ (i : Nat) (reader : Node), f.nodes[i]? = some reader ∧ .storage ref ∈ reader.inputs) ∧
        ∃ b, st.bufferOf? (.storage ref) = some b ∧
          ∀ {m mⱼ : Memory α}, a.runFrom m (a.operations.take j) = (.ok (), mⱼ) →
            ∀ i ≤ j, f.Unwritten ref i f.size →
              ∃ mᵢ, a.runFrom m (a.operations.take i) = (.ok (), mᵢ) ∧
                mⱼ.read a b = mᵢ.read a b := by
  obtain ⟨k, g, st, a, hg, htrains, h, -, hentry⟩ := exists_trains hf hcompile
  refine ⟨k, g, st, a, hg, hentry, htrains.source, h, fun {j n ref} hj hn hgradient hread => ?_⟩
  obtain ⟨reader, hreader, hmem⟩ := htrains.reads hj hn hread
  obtain ⟨i, hi⟩ := List.mem_iff_getElem?.1 hreader
  have hreads : ref ∈ g.nodes.flatMap Node.storageRefs :=
    List.mem_flatMap.2 ⟨n, List.mem_of_getElem? hn,
      List.mem_append_left _ (List.mem_filterMap.2 ⟨_, hread, rfl⟩)⟩
  obtain ⟨b, hb⟩ := (h.describes.seen_iff ref).2 hreads
  refine ⟨⟨i, reader, hi, hmem⟩, b, hb, fun {m mⱼ} hrun i hij hsaves => ?_⟩
  obtain ⟨mᵢ, hbefore, hbetween⟩ := Artifact.runFrom_take_of_le hij hrun
  refine ⟨mᵢ, hbefore, Memory.read_congr rfl (Memory.source_congr fun location hlocate => ?_)⟩
  obtain rfl := Except.ok.inj (hlocate.symm.trans (h.locate_weight hb))
  exact h.get?_between (htrains.unwritten hn hgradient hread hsaves) hbetween

end Engine

/-! ## A factor that is saved over -/

namespace Sample

/-- Trains the factor `w` of a product with `x`, and saves the product over `x`. -/
def saving : Module :=
  let m := Module.withSeed 0
  let m := (m.createPlaceholder "w" (.float [1]) true).2
  let m := (m.createPlaceholder "x" (.float [1]) false).2
  let m := (m.createPlaceholder "y" (.float [1]) false).2
  let m := (m.createFunction "train").2
  let m := (m.createNode 0 "product" (.binary .mul)
    [.storage (.placeholder 0), .storage (.placeholder 1)]).2
  let m := (m.createNode 0 "error" .regression [.node 0 0, .storage (.placeholder 2)]).2
  (m.createNode 0 "keep" (.save (.placeholder 1)) [.node 1 0]).2

/-- The training function of `saving`: the gradient of `w` reads `x` after the save. -/
def savedFactor : Function where
  name := "train_grad"
  nodes := [
    ⟨"product", .binary .mul, [.storage (.placeholder 0), .storage (.placeholder 1)], [.float [1]]⟩,
    ⟨"error", .regression, [.node 0 0, .storage (.placeholder 2)], [.float [1]]⟩,
    ⟨"keep", .save (.placeholder 1), [.node 1 0], []⟩,
    ⟨"error_grad", .binary .sub, [.node 0 0, .storage (.placeholder 2)], [.float [1]]⟩,
    ⟨"product_lhs_grad", .binary .mul, [.node 3 0, .storage (.placeholder 1)], [.float [1]]⟩,
    ⟨"w_sgd", .sgd fullStep, [.node 4 0, .storage (.placeholder 0)], []⟩]

/-- What `savedFactor` is lowered to. -/
def rereading : Artifact where
  name := "train_grad"
  buffers := [⟨0, "w", .float [1], .weight (.placeholder 0)⟩,
    ⟨1, "x", .float [1], .weight (.placeholder 1)⟩, ⟨2, "product", .float [1], .activation⟩,
    ⟨3, "y", .float [1], .weight (.placeholder 2)⟩, ⟨4, "error", .float [1], .activation⟩,
    ⟨5, "error_grad", .float [1], .activation⟩, ⟨6, "product_lhs_grad", .float [1], .activation⟩,
    ⟨7, "w_sgd.momentum", .float [1], .state⟩]
  instructions := [.ofBuffers .alloc [2] [], .ofBuffers (.binary .mul) [2] [0, 1],
    .ofBuffers .alloc [4] [], .ofBuffers .copy [4] [2], .ofBuffers .copy [1] [4],
    .ofBuffers .dealloc [4] [], .ofBuffers .alloc [5] [], .ofBuffers (.binary .sub) [5] [2, 3],
    .ofBuffers .dealloc [2] [], .ofBuffers .alloc [6] [], .ofBuffers (.binary .mul) [6] [5, 1],
    .ofBuffers .dealloc [5] [], .step fullStep 0 6 7, .ofBuffers .dealloc [6] []]
  plan := {
    liveRanges := .ofList [(2, ⟨0, 8⟩), (4, ⟨2, 5⟩), (5, ⟨6, 11⟩), (6, ⟨9, 13⟩)]
    viewRoots := .empty
    assignments := .ofList [(2, 0), (4, 1), (5, 1), (6, 0)]
    slots := [⟨0, .float, 1, 0, 4⟩, ⟨1, .float, 1, 4, 4⟩]
    totalBytes := 8 }

theorem lower_savedFactor : savedFactor.lower saving.storage true = .ok rereading := by
  have hlayout : Plan.layout true rereading.buffers rereading.plan.liveRanges =
      (rereading.plan.slots, rereading.plan.assignments) := by
    rw [Plan.layout_of_group (g := (.float, 1)) true (by decide +kernel) (by decide +kernel)
      (by decide +kernel)]
    decide +kernel
  have hmake : Plan.make true rereading.buffers rereading.instructions = .ok rereading.plan :=
    Plan.make_of_layout true (by decide +kernel) (by decide +kernel) rfl hlayout rfl
  exact lower_of_parts (by decide +kernel) (by decide +kernel) hmake (by decide +kernel) rfl

theorem differentiate_saving : ((saving.differentiate 0 fullStep).toOption.bind
    fun (k, m) => (m.function k).toOption) = some savedFactor := by
  decide +kernel

/-- `w` is 2, `x` is 3 and `y` is 0. -/
def factors : Context :=
  .ofList [(0, scalar ⟨0x40000000⟩), (1, scalar ⟨0x40400000⟩),
    (2, .zeros (.float [1]))]

/-- A gradient does not use what the product has read: `x` is 3 there, and 6 where the gradient of `w`
is computed. The run moves `w` from 2 by 6 times 6 to -34, and not by 6 times 3 to -16. -/
theorem gradient_sees_later_save : ∃ e₁ compiled m₀ m₄ m',
    (Engine.ofModule saving true).compile (.train (some fullStep)) 0 = (.ok "train_grad", e₁) ∧
      e₁.Serves "train_grad" saving.storage rereading compiled ∧
      Engine.checkBindings e₁.module.storage factors rereading = .ok () ∧
      rereading.operations[0]? = some (.ofBuffers (.binary .mul) [2] [0, 1]) ∧
      rereading.operations[4]? = some (.ofBuffers (.binary .mul) [6] [5, 1]) ∧
      rereading.runFrom (e₁.start compiled factors) (rereading.operations.take 0) = (.ok (), m₀) ∧
      rereading.runFrom (e₁.start compiled factors) (rereading.operations.take 4) = (.ok (), m₄) ∧
      rereading.run (e₁.start compiled factors) = (.ok (), m') ∧
      m₀.read rereading 1 = .ok (scalar ⟨0x40400000⟩) ∧
      m₄.read rereading 1 = .ok (scalar ⟨0x40c00000⟩) ∧
      m'.bindings.get? 0 = some (scalar ⟨0xc2080000⟩) := by
  obtain ⟨e₁, compiled, hcompile, hserves, hstorage, -, hstart⟩ :=
    Engine.compile_of_differentiate differentiate_saving lower_savedFactor
  have hcheck : Engine.checkBindings e₁.module.storage factors rereading = .ok () := by
    rw [hstorage]
    decide +kernel
  refine ⟨e₁, compiled, _, _, _, hcompile, hserves, hcheck, rfl, rfl, rfl, Prod.ext ?_ rfl,
    Prod.ext ?_ rfl, ?_, ?_, ?_⟩
  all_goals
    rw [hstart]
    decide +kernel

/-- The gradient of the error reads `y` as the error has: nothing is saved to `y`. -/
theorem gradient_rereads_saving : ∃ f e₁ st b,
    saving.function 0 = .ok f ∧ f.Unwritten (.placeholder 2) 1 f.size ∧
      (Engine.ofModule saving true).compile (.train (some fullStep)) 0 = (.ok "train_grad", e₁) ∧
      Lowered saving.storage savedFactor true st rereading ∧
      st.bufferOf? (.storage (.placeholder 2)) = some b ∧
      ∀ {m m₃ : Memory Single}, rereading.runFrom m (rereading.operations.take 3) = (.ok (), m₃) →
        ∃ m₁, rereading.runFrom m (rereading.operations.take 1) = (.ok (), m₁) ∧
          m₃.read rereading b = m₁.read rereading b := by
  obtain ⟨f, hf⟩ : ∃ f, saving.function 0 = .ok f := ⟨_, rfl⟩
  obtain ⟨e₁, compiled, hcompile, hserves, -, hg, -⟩ :=
    Engine.compile_of_differentiate differentiate_saving lower_savedFactor
  obtain ⟨k, g, st, a, hg', hentry, -, h, hrereads⟩ :=
    Engine.gradient_rereads Single hf hcompile
  obtain rfl : compiled = ⟨k, a, _⟩ := Option.some.inj (hserves.entry.symm.trans hentry)
  obtain rfl : a = rereading := hserves.artifact
  obtain rfl : savedFactor = g := Except.ok.inj (hg.symm.trans hg')
  obtain rfl := Except.ok.inj hf
  have hunwritten : Function.Unwritten { name := "train", nodes := savedFactor.nodes.take 3 }
      (.placeholder 2) 1 3 := by
    intro j n hj hj' hn
    match j, hn with
    | 0, _ => cases hj
    | 1, hn | 2, hn =>
      obtain rfl := Option.some.inj hn
      simp [Function.Writes]
  have hmem : Value.storage (.placeholder 2) ∈ [Value.node 0 0, .storage (.placeholder 2)] := by
    decide
  obtain ⟨-, b, hb, hread⟩ := hrereads (j := 3) (by decide) rfl (by simp) hmem
  exact ⟨_, e₁, st, b, rfl, hunwritten, hcompile, h, hb, fun hrun =>
    hread hrun 1 (by decide) hunwritten⟩

end Sample

end TensorCompiler
