import TensorCompiler.Proofs.Run.Engine
import TensorCompiler.Proofs.Run.Late

/-!
A training run takes all its steps of descent at once, or none. The steps come last, after everything
that can fail, and move each weight by a gradient in which no other step has a part; but gradients are
added up between the steps, so that a step cannot stand just anywhere.
-/

namespace TensorCompiler

open Lowering TensorCompiler.Lowering.Stream Instruction

/-! ## Saves -/

/-- The pass adds no saves. -/
theorem Training.Draft.save_mem {src : Training.Source} {f : Function} (h : Training.Draft src f)
    {n : Node} {ref : StorageRef} (hn : n ∈ f.nodes) (hop : n.op = .save ref) :
    n ∈ src.function.nodes := by
  obtain ⟨i, hi⟩ := List.mem_iff_getElem?.1 hn
  rcases Nat.lt_or_ge i src.function.size with hlt | hge
  · obtain ⟨rest, hrest⟩ := h.source
    rw [← hrest, List.getElem?_append_left hlt] at hi
    exact List.mem_of_getElem? hi
  · have hadded := (h.added hge hi).2
    rw [hop] at hadded
    exact hadded.elim

/-- Elimination of dead nodes adds none either. -/
theorem Function.save_of_eliminateDead {f : Function} {ref : StorageRef}
    (h : ∃ n ∈ f.eliminateDead.nodes, n.op = .save ref) : ∃ n ∈ f.nodes, n.op = .save ref := by
  obtain ⟨n', hn', hop⟩ := h
  obtain ⟨i', hi'⟩ := List.mem_iff_getElem?.1 hn'
  obtain ⟨i, n, hn, -, -, rfl⟩ := getElem?_nodes_eliminateDead.1 hi'
  exact ⟨n, List.mem_of_getElem? hn, hop⟩

theorem Artifact.Aborts.of_saves {α : Type} [Scalar α] {a : Artifact} {f g : Function}
    {m m' : Memory α} {r : RunFault}
    (hsaves : ∀ ref, (∃ n ∈ g.nodes, n.op = .save ref) → ∃ n ∈ f.nodes, n.op = .save ref)
    (h : a.Aborts g m m' r) : a.Aborts f m m' r := by
  obtain ⟨before, x, after, m₁, heq, hbefore, hfail, hstate, hstorage⟩ := h
  exact ⟨before, x, after, m₁, heq, hbefore, hfail, hstate, fun ref =>
    (hstorage ref).imp id fun ⟨hsave, hstored⟩ => ⟨hsaves ref hsave, hstored⟩⟩

namespace Engine

variable {f : Function} {s : Storage} {reuse : Bool} {st : Stream} {a : Artifact}

/-- The training function that a compilation lowers ends in its steps, and saves where its source
does. -/
theorem exists_trained {e e₁ : Engine} {settings : Option Descent} {id : Nat}
    {key : String} (hf : e.module.function id = .ok f)
    (hcompile : e.compile (.train settings) id = (.ok key, e₁)) :
    ∃ f' st a compiled, Lowered e.module.storage f' e.reuse st a ∧ f'.DescendsLast ∧
      (∀ ref, (∃ n ∈ f'.nodes, n.op = .save ref) → ∃ n ∈ f.nodes, n.op = .save ref) ∧
      e₁.Serves key e.module.storage a compiled := by
  obtain ⟨k, m, f', a, htarget, hf', hlower, rfl, hentry⟩ := compile_ok hcompile
  obtain ⟨hstorage, htarget⟩ := target_ok htarget
  obtain ⟨st, -, h, -⟩ := lowered_of_lower hlower
  have hserves := serves_zeroState h hentry rfl
  rw [hstorage] at h hserves
  rcases htarget with ⟨hmode, -⟩ | ⟨settings, f₀, derived, g, -, hf₀, -, hderived, hd, hg, hnodes⟩
  · cases hmode
  · obtain rfl := Except.ok.inj (hf₀.symm.trans hf)
    obtain rfl := Except.ok.inj (hg.symm.trans hf')
    refine ⟨g, st, a, _, h, ?_, fun ref hsave => ?_, hserves⟩
    · exact ((hd.descendsLast (Training.hasRule_of_derivative hderived)).eliminateDead
        hd.draft.arena).of_nodes hnodes
    · rw [hnodes] at hsave
      obtain ⟨n, hn, hop⟩ := Function.save_of_eliminateDead hsave
      exact ⟨n, hd.draft.save_mem hn hop, hop⟩

/-- A training run takes all its steps of descent at once, or none. Let an artifact be compiled for
training, and be run by any engine that has it with storage and optimizer state of their types, on any
context that passes the check before the run, from filled tensors. If the run fails, it has failed
before the first step: no optimizer state is changed, and storage only where the source function saves.
If it succeeds, it has taken all steps at once, from what it had reached before the first of them. -/
theorem run_train {e e₁ : Engine} {settings : Option Descent} {id : Nat} {key : String}
    (hf : e.module.function id = .ok f) (hcompile : e.compile (.train settings) id = (.ok key, e₁)) :
    ∃ a compiled, e₁.Serves key e.module.storage a compiled ∧
      ∀ (e₂ : Engine) (compiled₂ : Compiled) (c : Context),
        e₂.Serves key e.module.storage a compiled₂ →
        checkBindings e₂.module.storage c a = .ok () → (e₂.start compiled₂ c).Full a →
        ∃ outcome e₃ compiled₃ c₃ m', e₂.run key c = (outcome, e₃, c₃) ∧
          e₃.Serves key e.module.storage a compiled₃ ∧ (e₃.start compiled₃ c₃).Full a ∧
          (e₃.start compiled₃ c₃).persistent = m'.persistent ∧
          match outcome with
          | .error error => ∃ r, error = .run r ∧ a.Aborts f (e₂.start compiled₂ c) m' r
          | .ok () => ∃ m, a.runFrom (e₂.start compiled₂ c) a.early = (.ok (), m) ∧
            a.runFrom m a.late = (.ok (), m') ∧ a.StepsAtOnce m m' := by
  obtain ⟨f', st, a, compiled, h, hdescends, hsaves, hserves⟩ := exists_trained hf hcompile
  refine ⟨a, compiled, hserves, fun e₂ compiled₂ c hserves₂ hc hfull => ?_⟩
  have hm : (e₂.start compiled₂ c).Typed a := ⟨hserves₂.start_located h hc, hfull⟩
  obtain ⟨e₃, compiled₃, c₃, hrun, hserves₃, -, hleft⟩ := hserves₂.run hc
  have hend : (a.run (e₂.start compiled₂ c)).2.Typed a := h.typed_runFrom hm fun x hx => hx
  have hfull₃ : (e₃.start compiled₃ c₃).Full a := by
    rw [Engine.start, hserves₃.artifact] at hleft ⊢
    rw [Engine.start, hserves₂.artifact] at hfull
    exact hfull.start hend.full hleft
  refine ⟨_, e₃, compiled₃, c₃, _, hrun, hserves₃, hfull₃, hleft, ?_⟩
  have hsplit : a.run (e₂.start compiled₂ c) =
      a.runFrom (e₂.start compiled₂ c) (a.early ++ a.late) := by
    rw [a.early_append_late]
    rfl
  rcases hearly : a.runFrom (e₂.start compiled₂ c) a.early with ⟨r | _, m⟩
  · rw [hsplit, a.runFrom_append_error hearly]
    exact ⟨r, rfl, (h.early_error hm hearly).of_saves hsaves⟩
  · have hfirst : m.Typed a := by
      have hrest := h.typed_runFrom hm fun x hx =>
        a.early_append_late ▸ List.mem_append_left a.late hx
      rwa [hearly] at hrest
    obtain ⟨m', hlate, hsteps⟩ := h.late_ok hdescends hfirst
    rw [hsplit, a.runFrom_append hearly, hlate]
    exact ⟨m, rfl, hlate, hsteps⟩

/-- The engine after a compilation for training, from the training function and its artifact. -/
theorem compile_of_differentiate {m : Module} {id : Nat} {settings : Descent} {g : Function}
    (hdifferentiate : ((m.differentiate id settings).toOption.bind fun (k, m) =>
      (m.function k).toOption) = some g) (hlower : g.lower m.storage reuse = .ok a) :
    ∃ e₁ compiled, (ofModule m reuse).compile (.train (some settings)) id = (.ok a.name, e₁) ∧
      e₁.Serves a.name m.storage a compiled ∧ e₁.module.storage = m.storage ∧
      e₁.module.function compiled.function = .ok g ∧
      ∀ c, e₁.start compiled c =
        .start a (m.storage.vars.map (·.payload)) c (zeroState a) := by
  obtain ⟨⟨k, m'⟩, htarget, hg⟩ := Option.bind_eq_some_iff.1 hdifferentiate
  replace htarget : target m (.train (some settings)) id = .ok (k, m') :=
    toOption_eq_some.1 htarget
  replace hg : m'.function k = .ok g := toOption_eq_some.1 hg
  have hstorage := (target_ok htarget).1
  have hlower' : m'.lower k reuse = .ok a := bind_ok_iff.2 ⟨g, hg, hstorage ▸ hlower⟩
  obtain ⟨st, -, h, -⟩ := lowered_of_lower hlower
  refine ⟨_, _, compile_of_target (e := ofModule m reuse) htarget hlower',
    serves_zeroState h (get?_put ..) hstorage, hstorage, hg, fun c => ?_⟩
  exact congrArg (fun s : Storage => Memory.start a (s.vars.map (·.payload)) c _) hstorage

end Engine

/-! ## Two weights -/

namespace Sample

/-- Trains two placeholders to bring `a + b + b` close to `x`. The gradients of the two uses of `b` have
to be added up. -/
def twoWeights : Module :=
  let m := Module.withSeed 0
  let m := (m.createPlaceholder "a" (.float [1]) true).2
  let m := (m.createPlaceholder "b" (.float [1]) true).2
  let m := (m.createPlaceholder "x" (.float [1]) false).2
  let m := (m.createPlaceholder "y" (.float [1]) false).2
  let m := (m.createFunction "train").2
  let m := (m.createNode 0 "s" (.binary .add)
    [.storage (.placeholder 0), .storage (.placeholder 1)]).2
  let m := (m.createNode 0 "t" (.binary .add) [.node 0 0, .storage (.placeholder 1)]).2
  let m := (m.createNode 0 "error" .regression [.node 1 0, .storage (.placeholder 2)]).2
  (m.createNode 0 "out" (.save (.placeholder 3)) [.node 2 0]).2

/-- Steps as long as the gradient. -/
def fullStep : Descent := ⟨1, 0, 0, 0, 1⟩

/-- The training function of `twoWeights`: the gradients of `b` are added up after the step of `a`. -/
def twoSteps : Function where
  name := "train_grad"
  nodes := [
    ⟨"s", .binary .add, [.storage (.placeholder 0), .storage (.placeholder 1)], [.float [1]]⟩,
    ⟨"t", .binary .add, [.node 0 0, .storage (.placeholder 1)], [.float [1]]⟩,
    ⟨"error", .regression, [.node 1 0, .storage (.placeholder 2)], [.float [1]]⟩,
    ⟨"out", .save (.placeholder 3), [.node 2 0], []⟩,
    ⟨"error_grad", .binary .sub, [.node 1 0, .storage (.placeholder 2)], [.float [1]]⟩,
    ⟨"a_sgd", .sgd fullStep, [.node 4 0, .storage (.placeholder 0)], []⟩,
    ⟨"b_grad_sum", .binary .add, [.node 4 0, .node 4 0], [.float [1]]⟩,
    ⟨"b_sgd", .sgd fullStep, [.node 6 0, .storage (.placeholder 1)], []⟩]

/-- What `twoSteps` is lowered to. -/
def descending : Artifact where
  name := "train_grad"
  buffers := [⟨0, "a", .float [1], .weight (.placeholder 0)⟩,
    ⟨1, "b", .float [1], .weight (.placeholder 1)⟩, ⟨2, "s", .float [1], .activation⟩,
    ⟨3, "t", .float [1], .activation⟩, ⟨4, "x", .float [1], .weight (.placeholder 2)⟩,
    ⟨5, "error", .float [1], .activation⟩, ⟨6, "y", .float [1], .weight (.placeholder 3)⟩,
    ⟨7, "error_grad", .float [1], .activation⟩, ⟨8, "a_sgd.momentum", .float [1], .state⟩,
    ⟨9, "b_grad_sum", .float [1], .activation⟩, ⟨10, "b_sgd.momentum", .float [1], .state⟩]
  instructions := [.ofBuffers .alloc [2] [], .ofBuffers (.binary .add) [2] [0, 1],
    .ofBuffers .alloc [3] [], .ofBuffers (.binary .add) [3] [2, 1], .ofBuffers .dealloc [2] [],
    .ofBuffers .alloc [5] [], .ofBuffers .copy [5] [3], .ofBuffers .copy [6] [5],
    .ofBuffers .dealloc [5] [], .ofBuffers .alloc [7] [], .ofBuffers (.binary .sub) [7] [3, 4],
    .ofBuffers .dealloc [3] [], .step fullStep 0 7 8, .ofBuffers .alloc [9] [],
    .ofBuffers (.binary .add) [9] [7, 7], .ofBuffers .dealloc [7] [], .step fullStep 1 9 10,
    .ofBuffers .dealloc [9] []]
  plan := {
    liveRanges := .ofList [(2, ⟨0, 4⟩), (3, ⟨2, 11⟩), (5, ⟨5, 8⟩), (7, ⟨9, 15⟩), (9, ⟨13, 17⟩)]
    viewRoots := .empty
    assignments := .ofList [(2, 0), (3, 1), (5, 0), (7, 0), (9, 1)]
    slots := [⟨0, .float, 1, 0, 4⟩, ⟨1, .float, 1, 4, 4⟩]
    totalBytes := 8 }

theorem function_twoWeights : ∃ f, twoWeights.function 0 = .ok f :=
  ⟨_, rfl⟩

theorem differentiate_twoWeights : ((twoWeights.differentiate 0 fullStep).toOption.bind
    fun (k, m) => (m.function k).toOption) = some twoSteps := by
  decide +kernel

theorem lower_twoSteps : twoSteps.lower twoWeights.storage true = .ok descending := by
  have hlayout : Plan.layout true descending.buffers descending.plan.liveRanges =
      (descending.plan.slots, descending.plan.assignments) := by
    rw [Plan.layout_of_group (g := (.float, 1)) true (by decide +kernel) (by decide +kernel)
      (by decide +kernel)]
    decide +kernel
  have hmake : Plan.make true descending.buffers descending.instructions = .ok descending.plan :=
    Plan.make_of_layout true (by decide +kernel) (by decide +kernel) rfl hlayout rfl
  exact lower_of_parts (by decide +kernel) (by decide +kernel) hmake (by decide +kernel) rfl

theorem compile_twoWeights : ∃ e₁ compiled,
    (Engine.ofModule twoWeights true).compile (.train (some fullStep)) 0 = (.ok "train_grad", e₁) ∧
      e₁.Serves "train_grad" twoWeights.storage descending compiled ∧
      e₁.module.storage = twoWeights.storage ∧
      ∀ c, e₁.start compiled c = .start descending [] c (Engine.zeroState descending) := by
  obtain ⟨e₁, compiled, hcompile, hserves, hstorage, -, hstart⟩ :=
    Engine.compile_of_differentiate differentiate_twoWeights lower_twoSteps
  exact ⟨e₁, compiled, hcompile, hserves, hstorage, hstart⟩

/-- Both weights are 1, and what they are trained to is 0. -/
def ones : Context :=
  .ofList [(0, .floats ⟨[1], #[1], .inl rfl⟩), (1, .floats ⟨[1], #[1], .inl rfl⟩),
    (2, .zeros (.float [1])), (3, .zeros (.float [1]))]

theorem checkBindings_ones : Engine.checkBindings twoWeights.storage ones descending = .ok () := by
  decide +kernel

theorem volume_lt_descending ⦃b : Nat⦄ ⦃d : Buffer⦄ (hd : descending.buffer? b = some d) :
    d.type.volume < Word.size :=
  (by decide : ∀ d ∈ descending.buffers, d.type.volume < Word.size) d (List.mem_of_getElem? hd)

/-- The late part of `descending` with the step of `b` first, as soon as its gradient is computed. -/
def reordered : List Instruction :=
  [.ofBuffers .alloc [9] [], .ofBuffers (.binary .add) [9] [7, 7], .step fullStep 1 9 10,
    .step fullStep 0 7 8, .ofBuffers .dealloc [7] [], .ofBuffers .dealloc [9] []]

theorem rearranges_reordered :
    descending.Rearranges descending.early descending.late reordered := by
  refine ⟨by decide +kernel, by decide +kernel, fun before after p w g v heq => ?_⟩
  have hx : reordered[before.length]? = some (step p w g v) := by simp [heq]
  have hbefore : before = reordered.take before.length := by simp [heq]
  have hafter : after = reordered.drop (before.length + 1) := by simp [heq]
  have hlt : before.length < reordered.length := (List.getElem?_eq_some_iff.1 hx).1
  rw [hbefore, hafter]
  generalize before.length = k at hx hlt
  match k, hlt with
  | 0, _ | 1, _ | 4, _ | 5, _ => cases hx
  | 2, _ =>
    obtain ⟨rfl, rfl, rfl, rfl⟩ : fullStep = p ∧ 1 = w ∧ 9 = g ∧ 10 = v := by
      simpa [reordered, step] using hx
    exact ⟨by decide +kernel, descending.early ++ [.ofBuffers .alloc [9] []],
      .ofBuffers (.binary .add) [9] [7, 7], [], by decide +kernel, by decide +kernel,
      by decide +kernel⟩
  | 3, _ =>
    obtain ⟨rfl, rfl, rfl, rfl⟩ : fullStep = p ∧ 0 = w ∧ 7 = g ∧ 8 = v := by
      simpa [reordered, step] using hx
    exact ⟨by decide +kernel, descending.early.take 10, .ofBuffers (.binary .sub) [7] [3, 4],
      [.ofBuffers .dealloc [3] [], .ofBuffers .alloc [9] [], .ofBuffers (.binary .add) [9] [7, 7]],
      by decide +kernel, by decide +kernel, by decide +kernel⟩

/-- A training run of `twoWeights` succeeds, and takes both steps at once; in the other order they leave
the same. -/
theorem run_train_twoWeights : ∃ e₁ compiled e₂ c m m' m'',
    (Engine.ofModule twoWeights true).compile (.train (some fullStep)) 0 = (.ok "train_grad", e₁) ∧
      e₁.run "train_grad" ones = (.ok (), e₂, c) ∧
      descending.runFrom (e₁.start compiled ones) descending.early = (.ok (), m) ∧
      descending.runFrom m descending.late = (.ok (), m') ∧ descending.StepsAtOnce m m' ∧
      descending.runFrom m reordered = (.ok (), m'') ∧ m''.persistent = m'.persistent := by
  obtain ⟨f, hf⟩ := function_twoWeights
  obtain ⟨e₁, compiled, hcompile, hserves, hstorage, hstart⟩ := compile_twoWeights
  have hcheck : Engine.checkBindings e₁.module.storage ones descending = .ok () :=
    hstorage ▸ checkBindings_ones
  have hok : (descending.run (e₁.start compiled ones)).1 = .ok () := by
    rw [hstart]
    decide +kernel
  obtain ⟨_, _, _, hresult, -⟩ := hserves.run hcheck
  rw [hok] at hresult
  obtain ⟨a, compiled', hserves', hrun⟩ := Engine.run_train hf hcompile
  obtain rfl : compiled = compiled' := Option.some.inj (hserves.entry.symm.trans hserves'.entry)
  obtain rfl : descending = a := hserves.artifact.symm.trans hserves'.artifact
  obtain ⟨st, -, hlowered, -⟩ := lowered_of_lower lower_twoSteps
  have hfull : (e₁.start compiled ones).Full descending :=
    (hserves.start_located hlowered hcheck).full volume_lt_descending
  obtain ⟨outcome, e₂, _, c, m', heq, -, -, -, houtcome⟩ :=
    hrun e₁ compiled ones hserves' hcheck hfull
  obtain rfl : .ok () = outcome := (Prod.mk.inj (hresult.symm.trans heq)).1
  obtain ⟨m, hearly, hlate, hsteps⟩ := houtcome
  obtain ⟨m'', hreordered, hsame⟩ := hsteps.order rearranges_reordered
  exact ⟨e₁, compiled, e₂, c, m, m', m'', hcompile, heq, hearly, hlate, hsteps, hreordered, hsame⟩

/-- The late part of `descending`, with its steps exchanged. -/
def exchanged : List Instruction :=
  [.step fullStep 1 9 10, .ofBuffers .alloc [9] [], .ofBuffers (.binary .add) [9] [7, 7],
    .ofBuffers .dealloc [7] [], .step fullStep 0 7 8, .ofBuffers .dealloc [9] []]

/-- The gradient of `b` is computed after the step of `a`, so that the steps cannot be exchanged. The
training run moves `b` from 1 to -5. With its steps exchanged it moves `b` to -2, by what was in the
slot before. -/
theorem exchanged_steps_differ : ∃ e₁ compiled m m' m'',
    (Engine.ofModule twoWeights true).compile (.train (some fullStep)) 0 = (.ok "train_grad", e₁) ∧
      e₁.Serves "train_grad" twoWeights.storage descending compiled ∧
      Engine.checkBindings e₁.module.storage ones descending = .ok () ∧
      descending.late = [.step fullStep 0 7 8, .ofBuffers .alloc [9] [],
        .ofBuffers (.binary .add) [9] [7, 7], .ofBuffers .dealloc [7] [], .step fullStep 1 9 10,
        .ofBuffers .dealloc [9] []] ∧
      exchanged.Perm descending.late ∧ others exchanged = others descending.late ∧
      descending.runFrom (e₁.start compiled ones) descending.early = (.ok (), m) ∧
      descending.runFrom m descending.late = (.ok (), m') ∧
      descending.runFrom m exchanged = (.ok (), m'') ∧
      m'.bindings.get? 1 = some (.floats ⟨[1], #[⟨0xc0a00000⟩], .inl rfl⟩) ∧
      m''.bindings.get? 1 = some (.floats ⟨[1], #[⟨0xc0000000⟩], .inl rfl⟩) := by
  obtain ⟨e₁, compiled, hcompile, hserves, hstorage, hstart⟩ := compile_twoWeights
  let start : Memory Single := .start descending [] ones (Engine.zeroState descending)
  let m := (descending.runFrom start descending.early).2
  refine ⟨e₁, compiled, m, (descending.runFrom m descending.late).2,
    (descending.runFrom m exchanged).2, hcompile, hserves, hstorage ▸ checkBindings_ones,
    by decide +kernel, by decide +kernel, by decide +kernel, ?_, Prod.ext ?_ rfl, Prod.ext ?_ rfl,
    ?_, ?_⟩
  · rw [hstart]
    exact Prod.ext (by decide +kernel) rfl
  all_goals decide +kernel

end Sample

end TensorCompiler
