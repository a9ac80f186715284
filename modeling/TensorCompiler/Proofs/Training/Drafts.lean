import TensorCompiler.Proofs.Graph.Arena
import TensorCompiler.Proofs.Graph.NodeNames
import TensorCompiler.Proofs.Training.Updates

/-!
The gradient pass never fails on a verified source. A `Draft` is the training function so far: the
nodes of the source, followed by well-typed nodes of the pass. `Builds` says of a pass that returns a
value that it succeeds with a gradient of some type, and `Passes` of one that records contributions
that it succeeds, from every draft.
-/

namespace TensorCompiler

open TensorCompiler.Function

namespace Training

/-! ## Drafts -/

/-- What the pass adds: no save and no dense layer. Such a node reads only storage that the source
reads. Its constants have types of values, it reshapes and adds up only what the pass has added, and its
steps of descent take what the pass has added to trained storage. -/
def Added (src : Source) (f : Function) (i : Nat) (n : Node) : Prop :=
  (∀ ref, Value.storage ref ∈ n.inputs → src.function.Reads ref) ∧
    match n.op with
    | .reshape _ => ∃ j r, n.inputs = [.node j r] ∧ src.function.size ≤ j
    | .binary .add => ∀ v ∈ n.inputs, ∃ j r, v = .node j r ∧ src.function.size ≤ j
    | .splat _ type => ∃ v, OperandType src.storage f i v type ∧
        ∀ ref, v = .storage ref → src.function.Reads ref
    | .sgd _ => ∃ j r ref, n.inputs = [.node j r, .storage ref] ∧ src.function.size ≤ j ∧
        src.storage.isTrainableFloat ref = true
    | .fullyConnected | .save _ => False
    | _ => True

/-- A training function in the making. -/
structure Draft (src : Source) (f : Function) : Prop where
  source : src.function.nodes <+: f.nodes
  arena : f.Arena src.storage
  linked : f.Linked
  wired : src.function.Wired → f.Wired
  appended : Relation.ReflTransGen (fun f f' => ∃ name, Appended src.storage name f f')
    { src.function with name := src.function.name ++ "_grad" } f
  added : ∀ ⦃i : Nat⦄ ⦃n : Node⦄, src.function.size ≤ i → f.nodes[i]? = some n → Added src f i n

/-- The value has the type, and where it is storage the source reads it. -/
structure Usable (src : Source) (f : Function) (v : Value) (type : TensorType) : Prop where
  type : f.valueType src.storage v = .ok type
  read : ∀ ref, v = .storage ref → src.function.Reads ref

/-- The value is a result of a node that the pass has added. -/
structure Gradient (src : Source) (f : Function) (v : Value) (type : TensorType) : Prop where
  type : f.valueType src.storage v = .ok type
  node : ∃ i r, v = .node i r ∧ src.function.size ≤ i

variable {src : Source} {f f₁ : Function} {v g : Value} {type : TensorType}
  {pending : List (Value × Value)}

theorem Added.mono (h : f.nodes <+: f₁.nodes) {i : Nat} {n : Node} (hn : Added src f i n) :
    Added src f₁ i n := by
  refine ⟨hn.1, ?_⟩
  have hop := hn.2
  split at hop
  · exact hop
  · exact hop
  · obtain ⟨v, ht, hread⟩ := hop
    exact ⟨v, ht.mono h, hread⟩
  · exact hop
  · exact hop
  · exact hop
  · exact hop

theorem Usable.mono (h : f.nodes <+: f₁.nodes) (hv : Usable src f v type) :
    Usable src f₁ v type :=
  ⟨valueType_mono h hv.type, hv.read⟩

theorem Gradient.mono (h : f.nodes <+: f₁.nodes) (hv : Gradient src f v type) :
    Gradient src f₁ v type :=
  ⟨valueType_mono h hv.type, hv.node⟩

theorem Gradient.usable (hv : Gradient src f v type) : Usable src f v type := by
  obtain ⟨i, r, rfl, -⟩ := hv.node
  exact ⟨hv.type, nofun⟩

/-- One more node. -/
theorem Draft.append (h : Draft src f) {name : String} {n : Node} {types : List TensorType}
    (happend : f.append src.storage name n.op n.inputs = .ok (f.push n))
    (hinputs : List.Forall₂ (Usable src f) n.inputs types) (hweight : hasWeight n.op n.inputs = true)
    (htyped : Typing.Typed src.storage n.op types n.results) (hadded : Added src f f.size n) :
    Draft src (f.push n) := by
  have hmore : f.nodes <+: (f.nodes ++ [n]) := List.prefix_append ..
  have htypes := hinputs.imp fun _ _ hv => hv.type
  have hearlier := h.arena.readsEarlier
  refine ⟨h.source.trans hmore, h.arena.append htypes hweight htyped,
    h.linked.push hearlier (producers_lt_size htypes),
    fun hsource => (h.wired hsource).push hearlier (producers_lt_size htypes),
    h.appended.tail ⟨name, appended_of_append happend⟩, fun i m hi hm => ?_⟩
  rw [nodes_push, getElem?_snoc] at hm
  split at hm
  · next heq =>
    obtain rfl := Option.some.inj hm
    exact heq ▸ hadded.mono hmore
  · exact (h.added hi hm).mono hmore

theorem reads_of_usable {inputs : List Value} {types : List TensorType}
    (h : List.Forall₂ (Usable src f) inputs types) {ref : StorageRef}
    (hmem : Value.storage ref ∈ inputs) : src.function.Reads ref := by
  obtain ⟨type, -, hv⟩ := exists_right_of_forall₂ h hmem
  exact hv.read ref rfl

/-! ## Passes that build a value -/

/-- From every draft that has the nodes of `f`, the pass succeeds, adds nodes that are no sinks, and
returns a result of one of them, of the given type. -/
def Builds (src : Source) (f : Function) (p : Pass Value) (type : TensorType) : Prop :=
  ∀ ⦃f₁ : Function⦄ (pending : List (Value × Value)), f.nodes <+: f₁.nodes → Draft src f₁ →
    ∃ v f₂, p.run ⟨f₁, pending⟩ = .ok (v, ⟨f₂, pending⟩) ∧ f₁.Grows f₂ ∧ Draft src f₂ ∧
      Gradient src f₂ v type

/-- The pass adds the node, when its operator takes the operands. -/
theorem emit_total (name : String) {op : Operator} {inputs : List Value}
    {types results : List TensorType} (pending : List (Value × Value)) (h : Draft src f)
    (hinputs : List.Forall₂ (Usable src f) inputs types) (hweight : hasWeight op inputs = true)
    (htyped : Typing.Typed src.storage op types results)
    (hadded : ∀ n : Node, n.op = op → n.inputs = inputs → Added src f f.size n) :
    ∃ n : Node, n.op = op ∧ n.inputs = inputs ∧ n.results = results ∧
      Draft src (f.push n) ∧
      (src.emit name op inputs).run ⟨f, pending⟩ =
        .ok (.node f.size 0, ⟨f.push n, pending⟩) := by
  obtain ⟨n, rfl, rfl, rfl, happend⟩ :=
    append_total name (hinputs.imp fun _ _ hv => hv.type) hweight htyped
  refine ⟨n, rfl, rfl, rfl, h.append happend hinputs hweight htyped (hadded n rfl rfl), ?_⟩
  rw [run_emit, happend]
  rfl

/-- A result of the node just added. -/
theorem gradient_last (hf : src.function.nodes <+: f.nodes) {n : Node} {r : Nat}
    (hr : n.results[r]? = some type) :
    Gradient src (f.push n) (.node f.size r) type :=
  ⟨valueType_node_ok_iff.2 ⟨n, by simp [Function.size], hr⟩, _, _, rfl, hf.length_le⟩

/-- A node that the pass adds, on operands of the draft. -/
theorem builds_node {name : String} {op : Operator} {inputs : List Value}
    {types : List TensorType} (hinputs : List.Forall₂ (Usable src f) inputs types)
    (htyped : Typing.Typed src.storage op types [type])
    (hadded : ∀ ⦃f₁ : Function⦄, f.nodes <+: f₁.nodes → ∀ n : Node, n.op = op → n.inputs = inputs →
      Added src f₁ f₁.size n) :
    Builds src f (src.emit name op inputs) type := by
  intro f₁ pending hmore hdraft
  have hweight : hasWeight op inputs = true := by cases htyped <;> rfl
  have hsink : op.isSink = false := by cases htyped <;> rfl
  obtain ⟨n, rfl, -, hresults, hdraft', hrun⟩ := emit_total name pending hdraft
    (hinputs.imp fun _ _ hv => hv.mono hmore) hweight htyped (hadded hmore)
  exact ⟨_, _, hrun, ⟨[n], rfl, by simpa using hsink⟩, hdraft',
    gradient_last hdraft.source (by rw [hresults]; rfl)⟩

/-- Operators that the pass may add on any operands. -/
def Free : Operator → Prop
  | .reshape _ | .binary .add | .splat .. | .sgd _ | .fullyConnected | .save _ => False
  | _ => True

theorem Free.added {i : Nat} {n : Node} (h : Free n.op)
    (hreads : ∀ ref, Value.storage ref ∈ n.inputs → src.function.Reads ref) : Added src f i n := by
  refine ⟨hreads, ?_⟩
  generalize n.op = op at h
  cases op with
  | binary k => cases k with
    | add => exact h.elim
    | _ => trivial
  | _ => first | exact h.elim | trivial

theorem builds_emit {name : String} {op : Operator} {inputs : List Value}
    {types : List TensorType} (hfree : Free op) (hinputs : List.Forall₂ (Usable src f) inputs types)
    (htyped : Typing.Typed src.storage op types [type]) :
    Builds src f (src.emit name op inputs) type :=
  builds_node hinputs htyped fun _ _ _ hop hin =>
    Free.added (hop ▸ hfree) fun _ hmem => reads_of_usable hinputs (hin ▸ hmem)

theorem Builds.bind {p : Pass Value} {k : Value → Pass Value} {type' : TensorType}
    (hp : Builds src f p type)
    (hk : ∀ ⦃f₁ : Function⦄ ⦃v : Value⦄, f.nodes <+: f₁.nodes → Gradient src f₁ v type →
      Builds src f₁ (k v) type') : Builds src f (p >>= k) type' := by
  intro f₁ pending hmore hdraft
  obtain ⟨u, f₂, hfirst, hmore₂, hdraft₂, hu⟩ := hp pending hmore hdraft
  obtain ⟨v, f₃, hrest, hmore₃, hdraft₃, hv⟩ :=
    hk (hmore.trans hmore₂.nodes) hu pending (List.prefix_refl _) hdraft₂
  exact ⟨v, f₃, run_bind_ok_iff.2 ⟨_, _, hfirst, hrest⟩, hmore₂.trans hmore₃, hdraft₃, hv⟩

theorem builds_pure (hv : Gradient src f v type) : Builds src f (pure v) type := by
  intro f₁ pending hmore hdraft
  exact ⟨v, f₁, rfl, Grows.refl _, hdraft, hv.mono hmore⟩

theorem builds_typeOf {u : Value} {t : TensorType} {k : TensorType → Pass Value}
    (hu : Usable src f u t) (hk : Builds src f (k t) type) :
    Builds src f (src.typeOf u >>= k) type := by
  intro f₁ pending hmore hdraft
  obtain ⟨v, f₂, hrest, h⟩ := hk pending hmore hdraft
  refine ⟨v, f₂, run_bind_ok_iff.2 ⟨t, ⟨f₁, pending⟩, ?_, hrest⟩, h⟩
  rw [run_typeOf, (hu.mono hmore).type]
  rfl

theorem builds_constant {name : String} {like : Value} (hlike : Usable src f like type)
    (x : Single) : Builds src f (src.constant name like x) type := by
  refine builds_typeOf hlike (builds_node .nil (.splat x type) fun f₁ hmore n hop hin => ⟨?_, ?_⟩)
  · simp [hin]
  · rw [hop]
    refine ⟨like, operandType_iff.2 ⟨(hlike.mono hmore).type, fun heq => ?_⟩, hlike.read⟩
    exact lt_size_of_valueType (heq ▸ (hlike.mono hmore).type)

/-! ## Passes that record contributions -/

/-- Every gradient in the table has the type of its value, which is wanted and of floats. -/
def Contributions (src : Source) (f : Function) (pending : List (Value × Value)) : Prop :=
  ∀ p ∈ pending, src.wants p.1 = true ∧
    ∃ x, Usable src src.function p.1 (.float x) ∧ Gradient src f p.2 (.float x)

theorem Contributions.mono (h : Contributions src f pending) (hmore : f.nodes <+: f₁.nodes) :
    Contributions src f₁ pending := by
  intro p hp
  obtain ⟨hwants, x, hv, hg⟩ := h p hp
  exact ⟨hwants, x, hv, hg.mono hmore⟩

theorem Contributions.filter (h : Contributions src f pending) (keep : Value × Value → Bool) :
    Contributions src f (pending.filter keep) :=
  fun p hp => h p (List.mem_filter.1 hp).1

/-- From every draft that has the nodes of `f`, the pass succeeds, adds nodes that are no sinks, and
keeps the table typed. -/
def Passes (src : Source) (f : Function) (p : Pass Unit) : Prop :=
  ∀ ⦃f₁ : Function⦄ ⦃pending : List (Value × Value)⦄, f.nodes <+: f₁.nodes → Draft src f₁ →
    Contributions src f₁ pending → ∃ f₂ pending₂, p.run ⟨f₁, pending⟩ = .ok ((), ⟨f₂, pending₂⟩) ∧
      f₁.Grows f₂ ∧ Draft src f₂ ∧ Contributions src f₂ pending₂

theorem passes_nothing : Passes src f (pure ()) := by
  intro f₁ pending _ hdraft hpending
  exact ⟨f₁, pending, rfl, Grows.refl _, hdraft, hpending⟩

theorem Passes.seq {p q : Pass Unit} (hp : Passes src f p) (hq : Passes src f q) :
    Passes src f (p >>= fun _ => q) := by
  intro f₁ pending hmore hdraft hpending
  obtain ⟨f₂, pending₂, hfirst, hmore₂, hdraft₂, hpending₂⟩ := hp hmore hdraft hpending
  obtain ⟨f₃, pending₃, hrest, hmore₃, hdraft₃, hpending₃⟩ :=
    hq (hmore.trans hmore₂.nodes) hdraft₂ hpending₂
  exact ⟨f₃, pending₃, run_bind_ok_iff.2 ⟨_, _, hfirst, hrest⟩, hmore₂.trans hmore₃, hdraft₃,
    hpending₃⟩

/-- A pass that builds a value, and then one that uses it. -/
theorem Builds.passes {p : Pass Value} {k : Value → Pass Unit} (hp : Builds src f p type)
    (hk : ∀ ⦃f₁ : Function⦄ ⦃v : Value⦄, f.nodes <+: f₁.nodes → Gradient src f₁ v type →
      Passes src f₁ (k v)) : Passes src f (p >>= k) := by
  intro f₁ pending hmore hdraft hpending
  obtain ⟨u, f₂, hfirst, hmore₂, hdraft₂, hu⟩ := hp pending hmore hdraft
  obtain ⟨f₃, pending₃, hrest, hmore₃, hdraft₃, hpending₃⟩ :=
    hk (hmore.trans hmore₂.nodes) hu (List.prefix_refl _) hdraft₂
      (hpending.mono hmore₂.nodes)
  exact ⟨f₃, pending₃, run_bind_ok_iff.2 ⟨_, _, hfirst, hrest⟩, hmore₂.trans hmore₃, hdraft₃,
    hpending₃⟩

theorem passes_typeOf {u : Value} {t : TensorType} {k : TensorType → Pass Unit}
    (hu : Usable src f u t) (hk : Passes src f (k t)) : Passes src f (src.typeOf u >>= k) := by
  intro f₁ pending hmore hdraft hpending
  obtain ⟨f₂, pending₂, hrest, h⟩ := hk hmore hdraft hpending
  refine ⟨f₂, pending₂, run_bind_ok_iff.2 ⟨t, ⟨f₁, pending⟩, ?_, hrest⟩, h⟩
  rw [run_typeOf, (hu.mono hmore).type]
  rfl

theorem passes_contribute (h : src.wants v = true →
      ∃ x, Usable src src.function v (.float x) ∧ Gradient src f g (.float x)) :
    Passes src f (src.contribute v g) := by
  intro f₁ pending hmore hdraft hpending
  by_cases hwants : src.wants v = true
  · refine ⟨f₁, pending ++ [(v, g)], ?_, Grows.refl _, hdraft, fun p hp => ?_⟩
    · exact congrArg (fun st => Except.ok ((), st)) (if_pos hwants)
    · rcases List.mem_append.1 hp with hp | hp
      · exact hpending p hp
      · obtain rfl := List.mem_singleton.1 hp
        obtain ⟨x, hv, hg⟩ := h hwants
        exact ⟨hwants, x, hv, hg.mono hmore⟩
  · refine ⟨f₁, pending, ?_, Grows.refl _, hdraft, hpending⟩
    exact congrArg (fun st => Except.ok ((), st)) (if_neg hwants)

theorem passes_contributeFrom {p : Pass Value} (h : src.wants v = true →
      ∃ x, Usable src src.function v (.float x) ∧ Builds src f p (.float x)) :
    Passes src f (src.contributeFrom v p) := by
  rw [contributeFrom_eq]
  split
  · next hwants =>
    obtain ⟨x, hv, hp⟩ := h hwants
    exact hp.passes fun f₁ g _ hg => passes_contribute fun _ => ⟨x, hv, hg⟩
  · exact passes_nothing

end Training

end TensorCompiler
