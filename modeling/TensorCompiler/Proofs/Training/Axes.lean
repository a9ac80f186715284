import TensorCompiler.Proofs.Graph.Progress
import TensorCompiler.Proofs.Training.Differentiate

/-!
The training function of a function without empty axes has no empty axes, since constants are the only
operators that make one from operands without. Its dense layers are those of its source.
-/

namespace TensorCompiler

variable {s : Storage} {f g : Function}

theorem Window.outputs_ne_zero {w : Window} {extent n : Nat} (h : w.outputs? extent = some n) :
    n ≠ 0 := by
  unfold Window.outputs? at h
  split at h
  · cases h
  · obtain rfl := Option.some.inj h
    exact Nat.succ_ne_zero _

theorem zero_notMem_of_volume {x y : Shape} (h : x.volume = y.volume) (hy : 0 ∉ y) : 0 ∉ x := by
  intro hx
  have hpos := Shape.volume_pos hy
  rw [← h, Shape.volume_eq_prod, List.prod_eq_zero hx] at hpos
  exact Nat.lt_irrefl 0 hpos

/-- An operator on operands without empty axes has results without, unless it is a constant. -/
theorem Typing.Typed.positive {op : Operator} {types results : List TensorType}
    (h : Typing.Typed s op types results) (hpos : ∀ type ∈ types, 0 ∉ type.shape)
    (hsplat : ∀ value type, op = .splat value type → 0 ∉ type.shape) :
    ∀ type ∈ results, 0 ∉ type.shape := by
  cases h with
  | splat value type => simpa using hsplat value type rfl
  | reshape x target hvolume =>
    simpa using zero_notMem_of_volume hvolume (hpos x List.mem_cons_self)
  | transpose x perm hperm =>
    have hvolume := Kernel.volume_permuted (Kernel.permutes_of_isPermutation hperm)
    simpa [Kernel.permuted] using zero_notMem_of_volume hvolume (hpos x List.mem_cons_self)
  | conv p n h w c oh ow hoh how =>
    have hheight := Window.outputs_ne_zero hoh
    have hwidth := Window.outputs_ne_zero how
    simp_all [TensorType.float, eq_comm]
  | maxPool p n h w c oh ow hoh how =>
    have hheight := Window.outputs_ne_zero hoh
    have hwidth := Window.outputs_ne_zero how
    simp_all [TensorType.float, eq_comm]
  | _ => simp_all [TensorType.float]

namespace Training

open TensorCompiler.Function

variable {derived : Function}

/-- A node of a draft is a node of the source, or the pass has added it. -/
theorem Draft.node_cases {src : Source} (h : Draft src derived) {i : Nat} {n : Node}
    (hn : derived.nodes[i]? = some n) :
    src.function.nodes[i]? = some n ∨ src.function.size ≤ i ∧ Added src derived i n := by
  by_cases hold : i < src.function.nodes.length
  · obtain ⟨new, hnew⟩ := h.source
    rw [← hnew, List.getElem?_append_left hold] at hn
    exact .inl hn
  · exact .inr ⟨Nat.not_lt.1 hold, h.added (Nat.not_lt.1 hold) hn⟩

/-- A draft names only storage that its source names. -/
theorem Draft.storageRefs (h : Draft (Source.ofFunction s f) derived) {ref : StorageRef}
    (href : ref ∈ derived.storageRefs) : ref ∈ f.storageRefs := by
  obtain ⟨n, hn, hmem⟩ := List.mem_flatMap.1 (mem_storageRefs.1 href)
  refine mem_storageRefs.2 (List.mem_flatMap.2 ?_)
  obtain ⟨i, hi⟩ := List.mem_iff_getElem?.1 hn
  rcases h.node_cases hi with hsource | ⟨-, hreads, hop⟩
  · exact ⟨n, List.mem_of_getElem? hsource, hmem⟩
  · rcases List.mem_append.1 hmem with hread | hsaved
    · obtain ⟨m, hm, hin⟩ := hreads ref (Node.mem_storageReads.1 hread)
      exact ⟨m, hm, Node.mem_storageRefs_of_read hin⟩
    · cases hsave : n.op <;> simp_all [Node.destination?]

theorem Draft.positive (h : Draft (Source.ofFunction s f) derived) (hpos : f.Positive s) :
    derived.Positive s := by
  have hstorage (ref : StorageRef) (href : ref ∈ derived.storageRefs) (type : TensorType)
      (htype : s.type? ref = some type) : 0 ∉ type.shape :=
    hpos.storage ref (h.storageRefs href) type htype
  -- by induction on the position of the node: its operands stand before it
  have hresults (i : Nat) : ∀ n, derived.nodes[i]? = some n → ∀ type ∈ n.results, 0 ∉ type.shape := by
    induction i using Nat.strongRecOn with
    | ind i ih =>
      intro n hn
      have hoperand {v : Value} {type : TensorType} (htype : OperandType s derived i v type)
          (hread : ∀ ref, v = .storage ref → ref ∈ derived.storageRefs) : 0 ∉ type.shape := by
        cases v with
        | storage ref => exact hstorage ref (hread ref rfl) type htype
        | node j r =>
          obtain ⟨hj, m, hm, hr⟩ := htype
          exact ih j hj m hm type (List.mem_of_getElem? hr)
      rcases h.node_cases hn with hsource | ⟨-, -, hop⟩
      · exact hpos.results n (List.mem_of_getElem? hsource)
      · obtain ⟨types, hwt⟩ := h.arena hn
        refine hwt.typed.positive (fun type htype => ?_) fun value type hsplat => ?_
        · obtain ⟨v, hv, htype⟩ := exists_left_of_forall₂ hwt.operands htype
          exact hoperand htype fun ref heq => mem_storageRefs.2 (List.mem_flatMap.2
            ⟨n, List.mem_of_getElem? hn, Node.mem_storageRefs_of_read (heq ▸ hv)⟩)
        · rw [hsplat] at hop
          obtain ⟨v, htype, hread⟩ := hop
          refine hoperand htype fun ref heq => mem_storageRefs.2 ?_
          obtain ⟨m, hm, hin⟩ := hread ref heq
          have hmore : m ∈ derived.nodes := h.source.subset hm
          exact List.mem_flatMap.2 ⟨m, hmore, Node.mem_storageRefs_of_read hin⟩
  exact ⟨hstorage, fun n hn => by
    obtain ⟨i, hi⟩ := List.mem_iff_getElem?.1 hn
    exact hresults i n hi⟩

theorem Draft.floatBiases (h : Draft (Source.ofFunction s f) derived) (harena : f.Arena s)
    (hbias : f.FloatBiases s) : derived.FloatBiases s := by
  intro n hn hop x w b hin type htype
  obtain ⟨i, hi⟩ := List.mem_iff_getElem?.1 hn
  rcases h.node_cases hi with hsource | ⟨-, -, hadded⟩
  · obtain ⟨types, hwt⟩ := harena hsource
    have hb : b ∈ n.inputs := by simp [hin]
    obtain ⟨type', -, htype'⟩ := exists_right_of_forall₂ hwt.operands hb
    have hvalue := (operandType_iff.1 htype').1
    obtain rfl := Except.ok.inj (htype.symm.trans (valueType_mono h.source hvalue))
    exact hbias n (List.mem_of_getElem? hsource) hop x w b hin _ hvalue
  · rw [hop] at hadded
    exact hadded.elim

end Training

namespace Function

/-! ## Without dead nodes -/

theorem storageRefs_eliminateDead {ref : StorageRef} (h : ref ∈ f.eliminateDead.storageRefs) :
    ref ∈ f.storageRefs := by
  obtain ⟨m, hm, hmem⟩ := List.mem_flatMap.1 (mem_storageRefs.1 h)
  obtain ⟨j, hj⟩ := List.mem_iff_getElem?.1 hm
  obtain ⟨i, n, hn, -, -, rfl⟩ := getElem?_nodes_eliminateDead.1 hj
  refine mem_storageRefs.2 (List.mem_flatMap.2 ⟨n, List.mem_of_getElem? hn, ?_⟩)
  rcases List.mem_append.1 hmem with hread | hsaved
  · exact Node.mem_storageRefs_of_read (storage_mem_renumber.1 (Node.mem_storageReads.1 hread))
  · exact List.mem_append_right _ hsaved

theorem Positive.eliminateDead (h : f.Positive s) : f.eliminateDead.Positive s where
  storage ref href := h.storage ref (storageRefs_eliminateDead href)
  results m hm := by
    obtain ⟨j, hj⟩ := List.mem_iff_getElem?.1 hm
    obtain ⟨i, n, hn, -, -, rfl⟩ := getElem?_nodes_eliminateDead.1 hj
    exact h.results n (List.mem_of_getElem? hn)

theorem FloatBiases.eliminateDead (h : f.FloatBiases s) (harena : f.Arena s) :
    f.eliminateDead.FloatBiases s := by
  intro m hm hop x' w' b' hin type htype
  obtain ⟨j, hj⟩ := List.mem_iff_getElem?.1 hm
  obtain ⟨i, n, hn, hlive, -, rfl⟩ := getElem?_nodes_eliminateDead.1 hj
  obtain ⟨x, rest, hn', -, hrest⟩ := List.map_eq_cons_iff.1 hin
  obtain ⟨w, rest, rfl, -, hlast⟩ := List.map_eq_cons_iff.1 hrest
  obtain ⟨b, rfl, rfl⟩ := List.map_eq_singleton_iff.1 hlast
  obtain ⟨types, hwt⟩ := harena hn
  have hb : b ∈ n.inputs := by simp [hn']
  obtain ⟨type', -, htype'⟩ := exists_right_of_forall₂ hwt.operands hb
  have hlater := htype'.eliminateDead fun hp =>
    harena.producer_live hn hlive (List.mem_filterMap.2 ⟨b, hb, hp⟩)
  obtain rfl := Except.ok.inj (htype.symm.trans (operandType_iff.1 hlater).1)
  exact h n (List.mem_of_getElem? hn) hop x w b hn' _ (operandType_iff.1 htype').1

theorem Positive.of_nodes (hnodes : g.nodes = f.nodes) (h : f.Positive s) : g.Positive s := by
  obtain ⟨name, nodes, uses⟩ := f
  obtain ⟨name', nodes', uses'⟩ := g
  obtain rfl : nodes' = nodes := hnodes
  exact ⟨h.storage, h.results⟩

theorem FloatBiases.of_nodes (hnodes : g.nodes = f.nodes) (h : f.FloatBiases s) :
    g.FloatBiases s := fun n hn hop x w b hin type htype =>
  h n (hnodes ▸ hn) hop x w b hin type (valueType_mono (hnodes ▸ List.prefix_refl _) htype)

end Function

namespace Sample

theorem storageRefs_product {ref : StorageRef} (h : ref ∈ product.storageRefs) :
    ref = .var 0 ∨ ref = .placeholder 0 ∨ ref = .placeholder 1 := by
  have h : ref ∈ [StorageRef.var 0, .placeholder 0, .placeholder 0, .placeholder 1] :=
    Function.mem_storageRefs.1 h
  simpa using h

theorem positive_product : product.Positive network.storage where
  storage ref href type htype := by
    obtain rfl | rfl | rfl := storageRefs_product href
    all_goals
      obtain rfl := Option.some.inj htype
      decide
  results := by decide

end Sample

end TensorCompiler
