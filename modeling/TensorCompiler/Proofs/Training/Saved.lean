import TensorCompiler.Proofs.Artifact.Json
import TensorCompiler.Proofs.Run.Training
import TensorCompiler.Proofs.Training.Parameters
import TensorCompiler.Proofs.Training.Reach
import TensorCompiler.Proofs.Training.Settings

/-!
Which training artifacts can be saved as text. The check of the settings lets a decay through that is
not finite; a step of descent carries it into the artifact, whose text is then refused. With finite
decays the artifact is read back (`Engine.train_jsonText`).
-/

namespace TensorCompiler

open Training Lowering

variable {s : Storage} {f g : Function} {reuse : Bool} {st : Stream} {a : Artifact}
  {settings : Descent} {e e₁ : Engine} {id : Nat} {key : String}

/-- The parameters of a training function: those of the steps of descent are the settings, and all
others are finite. -/
structure Function.Tuned (g : Function) (settings : Descent) : Prop where
  settings : ∀ n ∈ g.nodes, ∀ p, n.op = .sgd p → p = settings
  finite : ∀ n ∈ g.nodes, (∀ p, n.op ≠ .sgd p) → ∀ x ∈ n.op.numbers, x.isFinite = true

theorem Function.Tuned.of_derivative {derived : Function} (hf : ∀ x ∈ f.numbers, x.isFinite = true)
    (hverify : f.verify s = .ok ())
    (hderived : (Source.ofFunction s f).derivative settings = .ok derived)
    (hnodes : g.nodes = derived.eliminateDead.nodes) : g.Tuned settings := by
  obtain ⟨-, -, hsteps⟩ := weights_of_derivative hverify hderived
  have hsource {n : Node} (hn : n ∈ g.nodes) : ∃ m ∈ derived.nodes, n.op = m.op := by
    rw [hnodes] at hn
    obtain ⟨j, hj⟩ := List.getElem?_of_mem hn
    obtain ⟨i, m, hm, -, -, rfl⟩ := getElem?_nodes_eliminateDead.1 hj
    exact ⟨m, List.mem_of_getElem? hm, rfl⟩
  constructor
  · intro n hn p hop
    obtain ⟨m, hm, heq⟩ := hsource hn
    exact (hsteps m hm p (heq ▸ hop)).1
  · intro n hn hno x hx
    obtain ⟨m, hm, heq⟩ := hsource hn
    rcases derivative_finite hf hderived m hm with ⟨p, hp⟩ | hfinite
    · exact absurd (heq.trans hp) (hno p)
    · exact hfinite x (heq ▸ hx)

namespace Lowering.Lowered

/-- With finite settings every number of the artifact is finite. -/
theorem finite_numbers (h : Lowered s g reuse st a) (hg : g.Tuned settings)
    (hsettings : ∀ x ∈ (Operator.sgd settings).numbers, x.isFinite = true) :
    ∀ x ∈ a.numbers, x.isFinite = true := by
  intro x hx
  obtain ⟨n, hn, hx⟩ := h.mem_numbers hx
  by_cases hsgd : ∃ p, n.op = .sgd p
  · obtain ⟨p, hp⟩ := hsgd
    obtain rfl := hg.settings n hn p hp
    exact hsettings x (hp ▸ hx)
  · exact hg.finite n hn (not_exists.1 hsgd) x hx

/-- A step of descent brings all settings into the artifact. -/
theorem settings_numbers (h : Lowered s g reuse st a) (hg : g.Tuned settings) {i : Instruction}
    (hi : i ∈ a.instructions) {p : Descent} (hp : i.op = .sgd p) :
    ∀ x ∈ (Operator.sgd settings).numbers, x ∈ a.numbers := by
  intro x hx
  obtain ⟨_, n, hn, hemits⟩ := h.exists_node hi (by rw [hp]; rfl)
  obtain rfl := hg.settings n hn p (hemits.sgd hp)
  exact List.mem_flatMap.2 ⟨i, hi, by rwa [hp]⟩

end Lowering.Lowered

namespace Engine

/-- What a compilation for training lowers. -/
theorem exists_tuned (hf : e.module.function id = .ok f) (hfinite : ∀ x ∈ f.numbers, x.isFinite = true)
    (hcompile : e.compile (.train (some settings)) id = (.ok key, e₁)) :
    settings.check = .ok () ∧ ∃ s g st c, e₁.get? key = some c ∧ g.Tuned settings ∧
      Lowered s g e.reuse st c.artifact := by
  obtain ⟨k, m, g, a, htarget, hg, hlower, -, hentry⟩ := compile_ok hcompile
  obtain ⟨st, -, hlowered, -⟩ := lowered_of_lower hlower
  obtain ⟨f', derived, hf', hverify, hcheck, hderived, -, hinsert⟩ :=
    Module.differentiate_ok_iff.1 htarget
  obtain rfl := Except.ok.inj (hf.symm.trans hf')
  obtain ⟨rfl, rfl⟩ := Prod.mk.inj hinsert
  obtain rfl := Except.ok.inj ((Module.function_insertFunction _ _).symm.trans hg)
  have htuned : Function.Tuned { derived.eliminateDead with
      name := Names.fresh e.module.functionNames derived.eliminateDead.name } settings :=
    .of_derivative hfinite hverify hderived rfl
  exact ⟨hcheck, _, _, st, _, hentry, htuned, hlowered⟩

/-- The artifact of a training function whose constants and parameters are finite is read back from its
text if both decays are finite; if one is not and the artifact takes a step of descent, its text is
refused. -/
theorem train_jsonText (hf : e.module.function id = .ok f)
    (hfinite : ∀ x ∈ f.numbers, x.isFinite = true)
    (hcompile : e.compile (.train (some settings)) id = (.ok key, e₁)) :
    ∃ c, e₁.get? key = some c ∧
      (c.artifact.InRange → (∀ x ∈ c.artifact.numbers, x.ReadsBack) →
        (settings.l1Decay.isFinite = true ∧ settings.l2Decay.isFinite = true →
          Artifact.ofJsonText? c.artifact.jsonText = some c.artifact) ∧
        (¬ (settings.l1Decay.isFinite = true ∧ settings.l2Decay.isFinite = true) →
          (∃ i ∈ c.artifact.instructions, ∃ p, i.op = .sgd p) →
            Artifact.ofJsonText? c.artifact.jsonText = none)) := by
  obtain ⟨hcheck, s, g, st, c, hentry, hg, hlowered⟩ := exists_tuned hf hfinite hcompile
  obtain ⟨hrate, hmomentum⟩ := Descent.finite_of_check hcheck
  refine ⟨c, hentry, fun hrange hnumbers => ⟨?_, ?_⟩⟩
  · rintro ⟨hl1, hl2⟩
    have hall : ∀ x ∈ c.artifact.numbers, x.isFinite = true :=
      hlowered.finite_numbers hg (by simp [Operator.numbers, *])
    rw [Artifact.read_jsonText hrange hnumbers]
    simpa [Option.guard] using hall
  · rintro hdecay ⟨i, hi, p, hp⟩
    have hall := hlowered.settings_numbers hg hi hp
    have hnot : ¬ ∀ x ∈ c.artifact.numbers, x.isFinite = true := fun h =>
      hdecay ⟨h _ (hall _ (by simp [Operator.numbers])), h _ (hall _ (by simp [Operator.numbers]))⟩
    rw [Artifact.read_jsonText hrange hnumbers]
    simpa [Option.guard] using hnot

end Engine

/-! ## The sample function -/

namespace Sample

/-- The training function of the product with the given settings. -/
def tuned (p : Descent) : Function where
  name := "train_grad"
  nodes := product.nodes ++ [
    ⟨"error_grad", .binary .sub, [.node 0 0, .storage (.placeholder 0)], [.float [1]]⟩,
    ⟨"product_lhs_grad", .binary .mul, [.node 3 0, .storage (.placeholder 0)], [.float [1]]⟩,
    ⟨"w_sgd", .sgd p, [.node 4 0, .storage (.var 0)], []⟩]

def tunedBuffers : List Buffer :=
  [⟨0, "w", .float [1], .weight (.var 0)⟩, ⟨1, "x", .float [1], .weight (.placeholder 0)⟩,
    ⟨2, "product", .float [1], .activation⟩, ⟨3, "error", .float [1], .activation⟩,
    ⟨4, "y", .float [1], .weight (.placeholder 1)⟩, ⟨5, "error_grad", .float [1], .activation⟩,
    ⟨6, "product_lhs_grad", .float [1], .activation⟩, ⟨7, "w_sgd.momentum", .float [1], .state⟩]

def tunedPlan : Plan where
  liveRanges := .ofList [(2, ⟨0, 8⟩), (3, ⟨2, 5⟩), (5, ⟨6, 11⟩), (6, ⟨9, 13⟩)]
  viewRoots := .empty
  assignments := .ofList [(2, 0), (3, 1), (5, 1), (6, 0)]
  slots := [⟨0, .float, 1, 0, 4⟩, ⟨1, .float, 1, 4, 4⟩]
  totalBytes := 8

/-- Its artifact. -/
def tunedArtifact (p : Descent) : Artifact where
  name := "train_grad"
  buffers := tunedBuffers
  instructions := [.ofBuffers .alloc [2] [], .ofBuffers (.binary .mul) [2] [0, 1],
    .ofBuffers .alloc [3] [], .ofBuffers .copy [3] [2], .ofBuffers .copy [4] [3],
    .ofBuffers .dealloc [3] [], .ofBuffers .alloc [5] [], .ofBuffers (.binary .sub) [5] [2, 1],
    .ofBuffers .dealloc [2] [], .ofBuffers .alloc [6] [], .ofBuffers (.binary .mul) [6] [5, 1],
    .ofBuffers .dealloc [5] [], .step p 0 6 7, .ofBuffers .dealloc [6] []]
  plan := tunedPlan

theorem lower_tuned {p : Descent} (hverify : (tuned p).verify network.storage = .ok ())
    (hstream : (stream network.storage (tuned p)).map (fun st =>
      (st.buffers, withMarkers (lifetimes st) st.body)) =
        .ok (tunedBuffers, (tunedArtifact p).instructions))
    (hverified : (tunedArtifact p).verify = .ok ()) :
    (tuned p).lower network.storage true = .ok (tunedArtifact p) := by
  have hlayout : Plan.layout true tunedBuffers tunedPlan.liveRanges =
      (tunedPlan.slots, tunedPlan.assignments) := by
    rw [Plan.layout_of_group (g := (.float, 1)) true (by decide +kernel) (by decide +kernel)
      (by decide +kernel)]
    decide +kernel
  have hmake : Plan.make true tunedBuffers (tunedArtifact p).instructions = .ok tunedPlan :=
    Plan.make_of_layout true rfl rfl rfl hlayout rfl
  exact lower_of_parts hverify hstream hmake hverified rfl

/-- Compilation of the product, from the derivative and the checks of the artifact. -/
theorem compile_tuned {p : Descent} (hderived : ((network.differentiate 0 p).toOption.bind
      fun (k, m) => (m.function k).toOption) = some (tuned p))
    (hlower : (tuned p).lower network.storage true = .ok (tunedArtifact p)) :
    ∃ e₁ c, (Engine.ofModule network true).compile (.train (some p)) 0 = (.ok "train_grad", e₁) ∧
      e₁.get? "train_grad" = some c ∧ c.artifact = tunedArtifact p := by
  obtain ⟨e₁, c, hcompile, hserves, -⟩ := Engine.compile_of_differentiate hderived hlower
  exact ⟨e₁, c, hcompile, hserves.entry, hserves.artifact⟩

def weightDecay (x : Single) : Descent := { Descent.standard with l2Decay := x }

theorem finite_product : ∀ x ∈ product.numbers, x.isFinite = true := by
  decide

end Sample

namespace Engine

/-- With a decay of 0.001 the artifact of the product is read back. -/
theorem train_jsonText_product : ∃ e₁ c,
    (ofModule Sample.network true).compile (.train (some (Sample.weightDecay ⟨0x3a83126f⟩))) 0 =
      (.ok "train_grad", e₁) ∧ e₁.get? "train_grad" = some c ∧
      Artifact.ofJsonText? c.artifact.jsonText = some c.artifact := by
  obtain ⟨e₁, c, hcompile, hentry, hartifact⟩ :=
    Sample.compile_tuned (p := Sample.weightDecay ⟨0x3a83126f⟩) (by decide +kernel)
      (Sample.lower_tuned (by decide +kernel) (by decide +kernel) (by decide +kernel))
  obtain ⟨c', hentry', hread⟩ := train_jsonText Sample.function_network Sample.finite_product hcompile
  obtain rfl := Option.some.inj (hentry.symm.trans hentry')
  refine ⟨e₁, c, hcompile, hentry, (hread ?_ ?_).1 (by decide)⟩
  · rw [hartifact]
    decide +kernel
  · rw [hartifact]
    decide +kernel

end Engine

namespace Sample

/-- A decay that is not a number passes the check of the settings, and the text of the artifact is
refused, although the numbers of its source are finite and finite numbers are read back. -/
theorem text_refused_of_check : ∃ settings e₁ c, settings.check = .ok () ∧
    network.function 0 = .ok product ∧ (∀ x ∈ product.numbers, x.isFinite = true) ∧
    (Engine.ofModule network true).compile (.train (some settings)) 0 = (.ok "train_grad", e₁) ∧
    e₁.get? "train_grad" = some c ∧ (∀ x ∈ c.artifact.numbers, x.ReadsBack) ∧
    Artifact.ofJsonText? c.artifact.jsonText = none := by
  obtain ⟨e₁, c, hcompile, hentry, hartifact⟩ :=
    compile_tuned (p := weightDecay .nan) (by decide +kernel)
      (lower_tuned (by decide +kernel) (by decide +kernel) (by decide +kernel))
  have hnumbers : ∀ x ∈ c.artifact.numbers, x.ReadsBack := by
    rw [hartifact]
    decide +kernel
  refine ⟨weightDecay .nan, e₁, c, by decide, rfl, finite_product, hcompile, hentry, hnumbers, ?_⟩
  rw [Artifact.read_jsonText (by rw [hartifact]; decide +kernel) hnumbers, hartifact]
  decide

end Sample

end TensorCompiler
