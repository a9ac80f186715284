import TensorCompiler.Proofs.Run.Engine

/-!
A well-typed run cannot go wrong. Artifacts compiled from functions without empty axes, whose dense
layers have float biases, run to their end from storage, state and bindings of the right types, unless
a gradient of probabilities refuses a label.
-/

namespace TensorCompiler

open Lowering TensorCompiler.Lowering.Stream

variable {s : Storage} {f : Function} {reuse : Bool} {st : Stream} {a : Artifact}

namespace Lowering.Lowered

/-- A function without empty axes computes all its nodes. -/
theorem computes {α : Type} [Scalar α] [Scalar.Rowwise α] (hpos : f.Positive s)
    (hbias : f.FloatBiases s) {j : Nat} {n : Node} {types : List TensorType}
    (hn : f.nodes[j]? = some n) (hwt : Function.WellTyped s f j n types) : Computes α n types :=
  fun hsink hgrad _ hts hfilled =>
    hwt.compute_total hpos hbias (List.mem_of_getElem? hn) hts hfilled hsink
      fun _ _ hop => absurd hop hgrad

/-- No label is refused where no gradient of probabilities is taken. -/
theorem not_refuses {α : Type} [Scalar α] (h : Lowered s f reuse st a)
    (hno : ∀ n ∈ f.nodes, n.op ≠ .softMaxGrad) (m : Memory α) (r : RunFault) :
    ¬ a.Refuses m a.instructions r := by
  rintro ⟨p, x, m', label, width, hx, -, ⟨hop, -⟩, -⟩
  rcases h.instruction_cases (List.mem_of_getElem? hx) with ⟨hmarker, -⟩ | ⟨j, hj⟩
  · simp [hop, Opcode.isMarker] at hmarker
  · obtain ⟨n, types, hn, -, he⟩ := h.emitted hj
    exact hno n (List.mem_of_getElem? hn) (he.softMaxGrad hop)

end Lowering.Lowered

theorem Sample.fits_product : Sample.product.Fits Sample.network.storage := by
  have hnodes : ∀ n ∈ Sample.product.nodes, ∃ types,
      n.inputs.mapM (Sample.product.valueType Sample.network.storage) = .ok types ∧
        n.op.fits types n.results = true := by
    simp only [Sample.product, List.forall_mem_cons]
    exact ⟨⟨[.float [1], .float [1]], rfl, by decide⟩, ⟨[.float [1], .float [1]], rfl, by decide⟩,
      ⟨[.float [1]], rfl, by decide⟩, nofun⟩
  intro n hn types htypes
  obtain ⟨types', htypes', hfits⟩ := hnodes n hn
  obtain rfl := Except.ok.inj (htypes'.symm.trans (mapM_ok_iff.2 htypes))
  exact hfits

namespace Engine

/-- What is compiled from a function without empty axes and with float biases has neither. -/
theorem exists_compiled {e e₁ : Engine} {mode : Mode} {id : Nat} {key : String}
    (hf : e.module.function id = .ok f) (hpos : f.Positive e.module.storage)
    (hbias : f.FloatBiases e.module.storage) (hcompile : e.compile mode id = (.ok key, e₁)) :
    ∃ g st a compiled, target e.module mode id = .ok (compiled.function, e₁.module) ∧
      e₁.module.function compiled.function = .ok g ∧ Lowered e.module.storage g e.reuse st a ∧
      g.Positive e.module.storage ∧ g.FloatBiases e.module.storage ∧
      e₁.Serves key e.module.storage a compiled := by
  obtain ⟨k, m, g, a, htarget, hg, hlower, rfl, hentry⟩ := compile_ok hcompile
  obtain ⟨hstorage, hkind⟩ := target_ok htarget
  obtain ⟨st, -, h, -⟩ := lowered_of_lower hlower
  have hserves := serves_zeroState h hentry rfl
  rw [hstorage] at h hserves
  refine ⟨g, st, a, _, htarget, hg, h, ?_, ?_, hserves⟩
  · rcases hkind with ⟨-, rfl, hm⟩ | ⟨settings, f₀, derived, g', -, hf₀, -, -, hd, hg', hnodes⟩
    · rw [hm, hf] at hg
      exact Except.ok.inj hg ▸ hpos
    · obtain rfl := Except.ok.inj (hf₀.symm.trans hf)
      obtain rfl := Except.ok.inj (hg'.symm.trans hg)
      exact (hd.draft.positive hpos).eliminateDead.of_nodes hnodes
  · rcases hkind with ⟨-, rfl, hm⟩ | ⟨settings, f₀, derived, g', -, hf₀, hverify, -, hd, hg', hnodes⟩
    · rw [hm, hf] at hg
      exact Except.ok.inj hg ▸ hbias
    · obtain rfl := Except.ok.inj (hf₀.symm.trans hf)
      obtain rfl := Except.ok.inj (hg'.symm.trans hg)
      exact ((hd.draft.floatBiases (Function.arena_of_verify hverify) hbias).eliminateDead
        hd.draft.arena).of_nodes hnodes

/-- A well-typed run cannot go wrong. Compiled is a function without empty axes and with float biases,
for inference itself and for training its training function. If the arithmetic of what is compiled
stays within words, then any engine that has the artifact, with storage and optimizer state of their
types, runs it on any context that passes the check before the run. The run fails only where a
gradient of probabilities meets a label outside its row, with the fault that names the first such
label; whether it fails or not, the engine can run the artifact again. -/
theorem run_total {e e₁ : Engine} {mode : Mode} {id : Nat} {key : String}
    (hf : e.module.function id = .ok f) (hpos : f.Positive e.module.storage)
    (hbias : f.FloatBiases e.module.storage) (hcompile : e.compile mode id = (.ok key, e₁)) :
    ∃ g a compiled, target e.module mode id = .ok (compiled.function, e₁.module) ∧
      e₁.module.function compiled.function = .ok g ∧
      e₁.Serves key e.module.storage a compiled ∧
      (g.Fits e.module.storage →
        ∀ (e₂ : Engine) (compiled₂ : Compiled) (c : Context),
          e₂.Serves key e.module.storage a compiled₂ →
          checkBindings e₂.module.storage c a = .ok () →
          ∃ outcome e₃ compiled₃ c₃, e₂.run key c = (outcome, e₃, c₃) ∧
            e₃.Serves key e.module.storage a compiled₃ ∧
            checkBindings e₃.module.storage c₃ a = .ok () ∧
            ∀ error, outcome = .error error ↔
              ∃ r, a.Refuses (e₂.start compiled₂ c) a.instructions r ∧ error = .run r) := by
  obtain ⟨g, st, a, compiled, htarget, hg, h, hpos', hbias', hserves⟩ :=
    exists_compiled hf hpos hbias hcompile
  refine ⟨g, a, compiled, htarget, hg, hserves, fun hfits e₂ compiled₂ c hserves₂ hc => ?_⟩
  have hiff := Artifact.runFrom_progresses
    (h.progresses fun j n types hn hwt => Lowered.computes hpos' hbias' hn hwt)
    (h.typed_of_fits hfits (hserves₂.start_located h hc))
  obtain ⟨e₃, compiled₃, c₃, hrun, hserves₃, hc₃, -⟩ := hserves₂.run hc
  refine ⟨_, e₃, compiled₃, c₃, hrun, hserves₃, hc₃, fun error => ?_⟩
  rw [show a.run (e₂.start compiled₂ c) = a.runFrom (e₂.start compiled₂ c) a.instructions from rfl]
  cases hresult : (a.runFrom (e₂.start compiled₂ c) a.instructions).1 with
  | ok _ =>
    refine ⟨nofun, fun ⟨r, hr, _⟩ => ?_⟩
    cases hresult.symm.trans ((hiff r).2 hr)
  | error r =>
    have hr := (hiff r).1 hresult
    constructor
    · rintro ⟨⟩
      exact ⟨r, hr, rfl⟩
    · rintro ⟨r', hr', rfl⟩
      obtain rfl := Except.error.inj (hresult.symm.trans ((hiff r').2 hr'))
      rfl

/-- The product is compiled and runs to its end. -/
theorem run_total_sample : ∃ key e₁ e₂ c,
    (ofModule Sample.network true).compile .infer 0 = (.ok key, e₁) ∧
      e₁.run key ((IdMap.empty.insert 0 (.zeros (.float [1]))).insert 1 (.zeros (.float [1]))) =
        (.ok (), e₂, c) := by
  obtain ⟨a, hlower⟩ := exists_lower_of_results Sample.verify_product true (by decide)
  obtain ⟨st, -, h, -⟩ := lowered_of_lower hlower
  have hcompile : (ofModule Sample.network true).compile .infer 0 =
      (.ok a.name, (ofModule Sample.network true).put a.name ⟨0, a, zeroState a⟩) := by
    have hmodule : Sample.network.lower 0 true = .ok a :=
      bind_ok_iff.2 ⟨_, Sample.function_network, hlower⟩
    simp only [compile, target, ofModule, hmodule]
  have hbias : Sample.product.FloatBiases Sample.network.storage := fun n hn hop =>
    absurd hop ((by decide : ∀ n ∈ Sample.product.nodes, n.op ≠ .fullyConnected) n hn)
  obtain ⟨g, a', compiled, htarget, hg, hserves, hrun⟩ :=
    run_total Sample.function_network Sample.positive_product hbias hcompile
  obtain ⟨hfunction, hmodule⟩ := Prod.mk.inj (Except.ok.inj htarget)
  obtain rfl : Sample.product = g := by
    rw [← hfunction, ← hmodule] at hg
    exact Except.ok.inj (Sample.function_network.symm.trans hg)
  obtain rfl : a = a' := by
    rw [← hserves.artifact, ← Option.some.inj ((get?_put ..).symm.trans hserves.entry)]
  have hbindings : checkBindings Sample.network.storage ((IdMap.empty.insert 0
      (.zeros (.float [1]))).insert 1 (.zeros (.float [1]))) a = .ok () := by
    refine checkBindings_ok h fun id hid => ?_
    rcases Sample.storageRefs_product hid with heq | heq | heq <;> cases heq
    all_goals exact ⟨_, _, rfl, rfl, rfl⟩
  obtain ⟨outcome, e₂, _, c, hresult, -, -, hiff⟩ :=
    hrun Sample.fits_product _ compiled _ hserves hbindings
  cases outcome with
  | ok _ => exact ⟨_, _, e₂, c, hcompile, hresult⟩
  | error error =>
    obtain ⟨r, hr, -⟩ := (hiff error).1 rfl
    exact absurd hr (h.not_refuses (by decide) _ r)

end Engine

end TensorCompiler
