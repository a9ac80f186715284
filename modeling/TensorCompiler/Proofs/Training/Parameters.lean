import TensorCompiler.Proofs.Run.Slots
import TensorCompiler.Proofs.Training.Recording

/-!
Where the single-precision parameters of a training function come from. The gradient pass adds only
nodes whose parameters are finite when those of its source are, apart from its steps of descent
(`derivative_finite`), and the instructions of an artifact have the parameters of the nodes they were
lowered from (`Lowered.mem_numbers`).
-/

namespace TensorCompiler

/-- The single-precision parameters of an operator. -/
def Operator.numbers : Operator → List Single
  | splat value _ => [value]
  | normalization p | normalizationGrad p => [p.alpha, p.beta, p.k]
  | sgd p => [p.learningRate, p.momentum, p.l1Decay, p.l2Decay]
  | _ => []

/-- The single-precision parameters of all nodes. -/
def Function.numbers (f : Function) : List Single := f.nodes.flatMap (·.op.numbers)

/-! ## The nodes that differentiation adds -/

namespace Training

/-- A step of descent, or an operator whose parameters are finite. -/
def Moderate (op : Operator) : Prop :=
  (∃ p, op = .sgd p) ∨ ∀ x ∈ op.numbers, x.isFinite = true

/-- The pass adds only such nodes. -/
def Appends {β : Type} (p : Pass β) : Prop :=
  ∀ ⦃st st' : Backward⦄ ⦃b : β⦄, p.run st = .ok (b, st') →
    ∃ new, st'.function.nodes = st.function.nodes ++ new ∧ ∀ n ∈ new, Moderate n.op

variable {src : Source} {β γ : Type} {s : Storage} {f derived : Function} {settings : Descent}

theorem moderate_of_none {op : Operator} (h : op.numbers = []) : Moderate op :=
  .inr (by simp [h])

/-- A pass that leaves the function as it is. -/
theorem appends_of_function {p : Pass β} (h : ∀ ⦃st st' : Backward⦄ ⦃b : β⦄,
    p.run st = .ok (b, st') → st'.function = st.function) : Appends p :=
  fun _ _ _ hrun => ⟨[], by simp [h hrun], nofun⟩

theorem appends_pure (b : β) : Appends (pure b : Pass β) :=
  appends_of_function fun _ _ _ hrun => by rw [(run_pure_ok_iff.1 hrun).2]

theorem Appends.bind {p : Pass β} {k : β → Pass γ} (hp : Appends p) (hk : ∀ b, Appends (k b)) :
    Appends (p >>= k) := by
  intro st st' c hrun
  obtain ⟨b, st₁, hfirst, hrest⟩ := run_bind_ok_iff.1 hrun
  obtain ⟨new, hnodes, hnew⟩ := hp hfirst
  obtain ⟨more, hnodes', hmore⟩ := hk b hrest
  refine ⟨new ++ more, by rw [hnodes', hnodes, List.append_assoc], fun n hn => ?_⟩
  exact (List.mem_append.1 hn).elim (hnew n) (hmore n)

theorem appends_forM {p : β → Pass Unit} {l : List β} (h : ∀ x ∈ l, Appends (p x)) :
    Appends (l.forM p) := by
  induction l with
  | nil => exact appends_pure ()
  | cons x l ih =>
    exact (h x List.mem_cons_self).bind fun _ => ih fun y hy => h y (List.mem_cons_of_mem _ hy)

theorem appends_emit {op : Operator} (h : Moderate op) (name : String) (inputs : List Value) :
    Appends (src.emit name op inputs) := by
  intro st st' v hrun
  rw [run_emit] at hrun
  obtain ⟨f, hf, hrun⟩ := bind_ok_iff.1 hrun
  obtain ⟨-, rfl⟩ := Prod.mk.inj (Except.ok.inj hrun)
  obtain ⟨types, n, -, rfl, -, -, -, -, rfl⟩ := Function.append_ok hf
  exact ⟨[n], rfl, by simpa using h⟩

/-- A node without parameters. -/
theorem appends_node {name : String} {op : Operator} {inputs : List Value} (h : op.numbers = []) :
    Appends (src.emit name op inputs) :=
  appends_emit (moderate_of_none h) name inputs

theorem appends_typeOf (v : Value) : Appends (src.typeOf v) :=
  appends_of_function fun st st' type hrun => by
    rw [run_typeOf] at hrun
    obtain ⟨t, -, hrun⟩ := bind_ok_iff.1 hrun
    rw [← (Prod.mk.inj (Except.ok.inj hrun)).2]

theorem appends_constant {x : Single} (hx : x.isFinite = true) (name : String) (like : Value) :
    Appends (src.constant name like x) :=
  (appends_typeOf like).bind fun _ => appends_emit (.inr (by simpa [Operator.numbers] using hx)) ..

theorem appends_contribute (v g : Value) : Appends (src.contribute v g) :=
  appends_of_function fun st st' b hrun => by
    obtain rfl : (if src.wants v then { st with pending := st.pending ++ [(v, g)] } else st) = st' :=
      (Prod.mk.inj (Except.ok.inj hrun)).2
    split <;> rfl

theorem appends_contributeFrom (v : Value) {p : Pass Value} (hp : Appends p) :
    Appends (src.contributeFrom v p) := by
  rw [contributeFrom_eq]
  split
  · exact hp.bind fun g => appends_contribute v g
  · exact appends_pure ()

theorem appends_takePending (v : Value) : Appends (Source.takePending v) :=
  appends_of_function fun st st' b hrun => by
    rw [← (Prod.mk.inj (Except.ok.inj hrun)).2]

theorem appends_takeGradient (v : Value) (label : String) : Appends (src.takeGradient v label) := by
  intro st st' r hrun
  obtain ⟨-, -, new, hnodes, hnew⟩ := takeGradient_run hrun
  exact ⟨new, hnodes, fun n hn => moderate_of_none (by rw [hnew n hn]; rfl)⟩

theorem appends_sigmoidGradient (name : String) (out g : Value) :
    Appends (src.sigmoidGradient name out g) :=
  (appends_constant rfl ..).bind fun _ => (appends_node rfl).bind fun _ =>
    (appends_node rfl).bind fun _ => appends_node rfl

theorem appends_tanhGradient (name : String) (out g : Value) :
    Appends (src.tanhGradient name out g) :=
  (appends_constant rfl ..).bind fun _ => (appends_node rfl).bind fun _ =>
    (appends_node rfl).bind fun _ => appends_node rfl

theorem appends_layer {op : Operator} (h : op.numbers = []) (name : String) (inputs : List Value)
    (g : Value) : Appends (src.contributeLayer name op inputs g) := by
  refine (appends_node h).bind fun v => ?_
  cases v with
  | node id r => exact appends_forM fun x _ => appends_contribute ..
  | storage ref => exact appends_pure ()

theorem appends_matmul (name : String) (left right g : Value) :
    Appends (src.matmulRule name left right g) := by
  refine (appends_typeOf right).bind fun type => (appends_contributeFrom left ?_).bind fun _ =>
    appends_contributeFrom right ?_
  · exact (appends_node rfl).bind fun _ => appends_node rfl
  · refine (appends_node rfl).bind fun _ => (appends_node rfl).bind fun product => ?_
    split
    · exact appends_node rfl
    · exact appends_pure product

theorem appends_batched (name : String) (op : BatchOp) (batch slice g : Value) :
    Appends (src.batchedRule name op batch slice g) := by
  cases op with
  | add =>
    exact (appends_contribute batch g).bind fun _ =>
      appends_contributeFrom slice (appends_node rfl)
  | mul =>
    rw [batchedRule_mul]
    have hmaybe {c : Bool} {name : String} {op : Operator} {inputs : List Value}
        (h : op.numbers = []) : Appends (if c then src.emit name op inputs else pure g) := by
      split
      · exact appends_node h
      · exact appends_pure g
    exact (hmaybe rfl).bind fun gradient => (hmaybe rfl).bind fun scaled =>
      (appends_contribute batch gradient).bind fun _ =>
        appends_contributeFrom slice (appends_node rfl)

theorem appends_noRule (n : Node) : Appends (src.noRule n) := nofun

/-- A rule passes on the parameters of its node, and has no others but zero and one. -/
theorem appends_rule {n : Node} (hn : ∀ x ∈ n.op.numbers, x.isFinite = true) (out g : Value) :
    Appends (src.rule n out g) := by
  obtain ⟨name, op, inputs, results⟩ := n
  dsimp only at hn
  unfold Source.rule
  dsimp only
  split
  case h_1 x y => exact (appends_contribute x g).bind fun _ => appends_contribute y g
  case h_2 x y =>
    exact (appends_contribute x g).bind fun _ => appends_contributeFrom y
      ((appends_constant rfl ..).bind fun _ => appends_node rfl)
  case h_3 x y =>
    exact (appends_contributeFrom x (appends_node rfl)).bind fun _ =>
      appends_contributeFrom y (appends_node rfl)
  case h_5 x => exact appends_contributeFrom x (appends_sigmoidGradient ..)
  case h_6 x => exact appends_contributeFrom x (appends_tanhGradient ..)
  case h_7 => exact appends_pure ()
  case h_8 x =>
    exact appends_contributeFrom x ((appends_typeOf x).bind fun _ => appends_node rfl)
  case h_10 | h_12 => exact appends_layer rfl ..
  case h_13 p x =>
    have hgradient : Moderate (.normalizationGrad p) := .inr hn
    exact appends_contributeFrom x (appends_emit hgradient ..)
  case h_14 => exact appends_matmul ..
  case h_15 x =>
    exact appends_contributeFrom x ((appends_constant rfl ..).bind fun _ => appends_node rfl)
  case h_16 => exact appends_batched ..
  case h_17 => exact appends_noRule ..
  all_goals exact appends_contributeFrom _ (appends_node rfl)

theorem appends_visit {n : Node} (hn : ∀ x ∈ n.op.numbers, x.isFinite = true) (i : Nat) :
    Appends (src.visit n i) := by
  unfold Source.visit
  dsimp only
  split
  case h_1 x _ _ => exact appends_contributeFrom _ (appends_constant rfl ..)
  case h_2 | h_3 =>
    exact (appends_takePending _).bind fun _ => appends_contributeFrom _ (appends_node rfl)
  case h_11 =>
    refine (appends_takeGradient ..).bind fun r => ?_
    cases r with
    | none => exact appends_pure ()
    | some g => exact appends_rule hn ..
  all_goals exact appends_noRule n

theorem appends_backpropagate (h : ∀ x ∈ src.function.numbers, x.isFinite = true) :
    Appends src.backpropagate := by
  refine appends_forM fun ⟨n, i⟩ hn => appends_visit (fun x hx => h x ?_) i
  have hmem := List.mem_of_getElem? (List.mem_zipIdx_iff_getElem?.1 (List.mem_reverse.1 hn))
  exact List.mem_flatMap.2 ⟨n, hmem, hx⟩

theorem appends_updates (settings : Descent) : Appends (src.emitUpdates settings) := by
  refine appends_forM fun ref _ => ?_
  split
  · refine (appends_takeGradient ..).bind fun r => ?_
    cases r with
    | none => exact appends_pure ()
    | some g => exact (appends_emit (.inl ⟨settings, rfl⟩) ..).bind fun _ => appends_pure ()
  · exact appends_pure ()

/-- Parameters that are not finite are those of steps of descent. -/
theorem derivative_finite (hf : ∀ x ∈ f.numbers, x.isFinite = true)
    (h : (Source.ofFunction s f).derivative settings = .ok derived) :
    ∀ n ∈ derived.nodes, Moderate n.op := by
  obtain ⟨⟨_, st⟩, hrun, hlast⟩ := bind_ok_iff.1 h
  obtain rfl : st.function = derived := Except.ok.inj hlast
  obtain ⟨new, hnodes, hnew⟩ :=
    ((appends_backpropagate hf).bind fun _ => appends_updates settings) hrun
  intro n hn
  rw [hnodes] at hn
  rcases List.mem_append.1 hn with hsource | hadded
  · exact .inr fun x hx => hf x (List.mem_flatMap.2 ⟨n, hsource, hx⟩)
  · exact hnew n hadded

end Training

/-! ## The instructions of an artifact -/

namespace Lowering

open TensorCompiler.Lowering.Stream

variable {s : Storage} {f : Function} {reuse : Bool} {st : Stream} {a : Artifact}

theorem numbers_of_opcode? {op : Operator} {code : Opcode} (h : opcode? op = some code) :
    code.numbers = op.numbers := by
  cases op <;> simp only [opcode?, Option.some.injEq, reduceCtorEq] at h <;> subst h <;> rfl

theorem numbers_of_emits {i : Nat} {n : Node} {x : Instruction} (h : st.Emits i n x) :
    x.op.numbers = n.op.numbers := by
  cases h with
  | view hop => rw [hop]; rfl
  | save hop => rw [hop]; rfl
  | descent hop => rw [hop]; rfl
  | compute hop => exact numbers_of_opcode? hop

/-- An instruction that is no marker is the instruction of a node. -/
theorem Lowered.exists_node (h : Lowered s f reuse st a) {x : Instruction} (hx : x ∈ a.instructions)
    (hmarker : x.op.isMarker = false) : ∃ i n, n ∈ f.nodes ∧ st.Emits i n x := by
  rcases h.instruction_cases hx with ⟨hmarks, -⟩ | ⟨j, hbody⟩
  · rw [hmarker] at hmarks
    cases hmarks
  · obtain ⟨n, -, hn, -, hemits⟩ := h.emitted hbody
    exact ⟨j, n, List.mem_of_getElem? hn, hemits⟩

theorem Lowered.mem_numbers (h : Lowered s f reuse st a) {x : Single} (hx : x ∈ a.numbers) :
    ∃ n ∈ f.nodes, x ∈ n.op.numbers := by
  obtain ⟨i, hi, hx⟩ := List.mem_flatMap.1 hx
  have hmarker : i.op.isMarker = false := by
    by_contra hmarks
    cases hop : i.op <;> simp [hop, Opcode.isMarker, Opcode.numbers] at hmarks hx
  obtain ⟨_, n, hn, hemits⟩ := h.exists_node hi hmarker
  exact ⟨n, hn, numbers_of_emits hemits ▸ hx⟩

end Lowering

end TensorCompiler
