import TensorCompiler.Proofs.Maps
import TensorCompiler.Proofs.Training.Axes

/-!
Differentiation computes the reverse-mode adjoint. Over exact rationals, the gradients that the steps
of descent are handed, against any change of the trained storage, come to what the losses make of the
forward-mode tangents (`Module.differentiate_adjoint`).
-/

namespace TensorCompiler

open Training World

variable {I : Interpretation} {s : Storage} {f : Function} {settings : Descent}

instance : Scalar.Rowwise (Exact I) where
  length_softmax _ := (List.length_map _).trans List.length_range

/-! ## Contents that are read -/

/-- The valuations have the same results, and the same in the storage that the function reads. -/
structure Function.Alike (f : Function) (g g' : Valuation (Exact I)) : Prop where
  values : g.values = g'.values
  storage : ∀ ref, f.Reads ref → g.storage? ref = g'.storage? ref

namespace Function.Alike

variable {g g' : Valuation (Exact I)}

theorem node (h : f.Alike g g') (i r : Nat) : g.value? (.node i r) = g'.value? (.node i r) := by
  rw [Valuation.value?, h.values, Valuation.value?]

theorem input (h : f.Alike g g') {n : Node} (hn : n ∈ f.nodes) {v : Value} (hv : v ∈ n.inputs) :
    g.value? v = g'.value? v := by
  cases v with
  | node i r => exact h.node i r
  | storage ref => exact h.storage ref ⟨n, hn, hv⟩

theorem inputs (h : f.Alike g g') {n : Node} (hn : n ∈ f.nodes) :
    n.inputs.mapM g.value? = n.inputs.mapM g'.value? :=
  mapM_congr fun _ hv => h.input hn hv

theorem tangents_eq (h : f.Alike g g') (change : StorageRef → Tangent I) :
    f.tangents s g change = f.tangents s g' change :=
  List.foldl_ext _ _ _ fun nodes n hn => by
    rw [Node.tangent, h.inputs hn, h.node, Node.tangent]

theorem loss_eq (h : f.Alike g g') (change : StorageRef → Tangent I) :
    f.loss s g change = f.loss s g' change := by
  refine congrArg List.sum (List.map_congr_left fun x hx => ?_)
  have hn : x.1 ∈ f.nodes := List.mem_of_getElem? (List.mem_zipIdx_iff_getElem?.1 hx)
  show x.1.loss g _ x.2 = x.1.loss g' _ x.2
  rw [Node.loss, h.inputs hn, h.node, h.tangents_eq, Node.loss]

theorem labelsInRange (h : f.Alike g g') (hlabels : f.LabelsInRange g) : f.LabelsInRange g' := by
  intro id n input labels out d hn hop hin hout hd
  have hmem : labels ∈ n.inputs := by simp [hin]
  exact hlabels hn hop hin ((h.node ..).trans hout)
    ((h.input (List.mem_of_getElem? hn) hmem).trans hd)

end Function.Alike

/-! ## The source -/

/-- The tangents of a solved function without empty axes. -/
theorem setup_of_solved {g : Valuation (Exact I)} (hsolved : Solved s f.Reads ⟨f, g⟩)
    (hnorm : ∀ n ∈ f.nodes, ∀ p, n.op ≠ .normalization p) (hpos : f.Positive s)
    (hlabels : f.LabelsInRange g) (change : StorageRef → Tangent I) :
    Setup (Source.ofFunction s f) ⟨f, g⟩ (Value.tangent s change (f.tangents s g change)) where
  function := rfl
  solved := hsolved
  unwanted _ hu := tangent_of_unwanted hsolved change hu
  floats ht hwants := floats_of_wants hsolved ht hwants
  tangent hnode hn hout := tangent_node hnode hn hout change 0
  noNormalization := hnorm
  positive := by
    intro v t ht
    have htype := ht.type
    cases v with
    | node i r =>
      obtain ⟨n, hn, hr⟩ := Function.valueType_node_ok_iff.1 htype
      exact hpos.results n (List.mem_of_getElem? hn) _ (List.mem_of_getElem? hr)
    | storage ref =>
      obtain ⟨n, hn, hin⟩ := ht.read rfl
      exact hpos.operand hn hin (j := 0) (Function.valueType_storage_ok_iff.1 htype)
  labels := hlabels

/-! ## The training function -/

/-- The values of the training function over the contents that its source starts from. -/
structure Adjoint (s : Storage) (f : Function) (g : Valuation (Exact I)) (w : World (Exact I)) :
    Prop where
  solved : Solved s f.Reads w
  vars : w.valuation.vars = g.vars
  bindings : w.valuation.bindings = g.bindings
  unread : w.function.WritesUnread
  steps : ∀ n ∈ w.function.nodes, ∀ p, n.op = .sgd p → IsStep n
  keys : ((w.function.handed w.valuation).map Prod.fst).Sublist (s.refs.filter s.isTrainableFloat)

theorem World.Extends.vars_eq {w w' : World (Exact I)} (h : Extends w w') :
    w'.valuation.vars = w.valuation.vars :=
  List.ext_getElem? fun id => h.storage (.var id)

theorem World.Extends.bindings_eq {w w' : World (Exact I)} (h : Extends w w') :
    w'.valuation.bindings = w.valuation.bindings :=
  IdMap.ext_get? fun id => h.storage (.placeholder id)

/-- A name is all that a training function starts with beside the nodes of its source. -/
theorem solved_rename {g : Valuation (Exact I)} (h : Solved s f.Reads ⟨f, g⟩) (name : String) :
    Extends ⟨f, g⟩ ⟨{ f with name }, g⟩ ∧ Solved s f.Reads ⟨{ f with name }, g⟩ := by
  have hextends : Extends ⟨f, g⟩ ⟨{ f with name }, g⟩ := ⟨id, id, fun _ => rfl⟩
  refine ⟨hextends, h.length, fun hn => ?_⟩
  obtain ⟨operands, results, hnode⟩ := h.node hn
  exact ⟨operands, results, hnode.mono hextends⟩

/-- In a source that reads no destination of a save, followed by nodes that write nothing and by
updates, no storage is read after it has been written. -/
theorem writesUnread_of_parts {w : World (Exact I)} (hsolved : Solved s f.Reads w)
    {quiet updates : List Node} (hnodes : w.function.nodes = f.nodes ++ quiet ++ updates)
    (hrules : ∀ n ∈ f.nodes, n.op.hasRule = true)
    (hunread : ∀ n ∈ f.nodes, ∀ ref, n.op = .save ref → ¬ f.Reads ref)
    (hquiet : ∀ n ∈ quiet, n.op.isSink = false) {refs : List StorageRef}
    (hupdates : Updates refs updates) : w.function.WritesUnread := by
  -- nodes read only storage that the source reads
  have hreads {n : Node} (hn : n ∈ w.function.nodes) {ref : StorageRef}
      (hin : Value.storage ref ∈ n.inputs) : f.Reads ref := by
    obtain ⟨i, hi⟩ := List.mem_iff_getElem?.1 hn
    obtain ⟨operands, results, hnode⟩ := hsolved.node hi
    obtain ⟨t, -, ht⟩ := exists_right_of_forall₂ hnode.inputs hin
    exact ht.read rfl
  have hwrites {m : Node} (hm : m ∈ f.nodes ++ quiet) {ref : StorageRef}
      (hw : Function.Writes m ref) : ¬ f.Reads ref := by
    rcases List.mem_append.1 hm with hm | hm
    · rcases hw with hop | ⟨p, hop, -⟩
      · exact hunread m hm ref hop
      · exact absurd hop (not_sgd_of_hasRule (hrules m hm) p)
    · have hsink := hquiet m hm
      rcases hw with hop | ⟨p, hop, -⟩ <;> simp [hop, Operator.isSink] at hsink
  rw [Function.WritesUnread, hnodes]
  refine List.pairwise_append.2 ⟨?_, hupdates.unread, fun m hm n hn ref hw hin => ?_⟩
  · refine List.pairwise_of_forall_mem_list fun m hm n hn ref hw hin => ?_
    exact hwrites hm hw (hreads (hnodes ▸ List.mem_append_left _ hn) hin)
  · exact hwrites hm hw (hreads (hnodes ▸ List.mem_append_right _ hn) hin)

/-- The gradient pass, as a world over the contents of its source. -/
theorem exists_adjoint {g : Valuation (Exact I)} (hsolved : Solved s f.Reads ⟨f, g⟩)
    (hrules : ∀ n ∈ f.nodes, n.op.hasRule = true)
    (hnorm : ∀ n ∈ f.nodes, ∀ p, n.op ≠ .normalization p) (hpos : f.Positive s)
    (hlabels : f.LabelsInRange g)
    (hunread : ∀ n ∈ f.nodes, ∀ ref, n.op = .save ref → ¬ f.Reads ref) {derived : Function}
    (hderived : (Source.ofFunction s f).derivative settings = .ok derived)
    (change : StorageRef → Tangent I) :
    ∃ w : World (Exact I), w.function = derived ∧ Adjoint s f g w ∧
      ((w.function.handed w.valuation).map fun p => p.2.pair (change p.1)).sum =
        f.loss s g change := by
  obtain ⟨⟨_, st₂⟩, hrun, hst₂⟩ := bind_ok_iff.1 hderived
  obtain ⟨_, st₁, hback, hemit⟩ := run_bind_ok_iff.1 hrun
  have hsetup := setup_of_solved hsolved hnorm hpos hlabels change
  obtain ⟨hw₁, hsolved₁⟩ := solved_rename hsolved (f.name ++ "_grad")
  obtain ⟨w₂, pending, hgrows, hsolved₂, rfl, htable, howed⟩ :=
    (backpropagate_ok hsetup hw₁ hsolved₁ hback).exists_world
  have hw₂ := hw₁.trans hgrows.toExtends
  obtain ⟨w₃, hupdated, hsolved₃, hfunction⟩ :=
    emitUpdates_ok (T := Value.tangent s change (f.tangents s g change)) hw₂ hsolved₂ htable hemit
  have hw₃ := hw₂.trans hupdated.toExtends
  obtain ⟨quiet, hquiet, hnosink⟩ := hgrows.quiet
  obtain ⟨updates, hupdates, hnew⟩ := hupdated.added
  have hnodes : w₃.function.nodes = f.nodes ++ quiet ++ updates := hupdates.trans (by rw [hquiet])
  -- the steps of descent are among the updates
  have hnosgd : ∀ n ∈ f.nodes ++ quiet, ∀ p, n.op ≠ .sgd p := by
    intro n hn p hop
    rcases List.mem_append.1 hn with hn | hn
    · exact not_sgd_of_hasRule (hrules n hn) p hop
    · simpa [hop, Operator.isSink] using hnosink n hn
  have hbefore : w₂.function.handed w₂.valuation = [] :=
    List.filterMap_eq_nil_iff.2 fun n hn =>
      Node.handed_eq_none fun p _ _ hop => absurd hop (hnosgd n (hquiet ▸ hn) p)
  obtain ⟨gs, hgs, hkeys, hsum⟩ := hupdated.handed
  rw [hbefore, List.nil_append] at hgs
  refine ⟨w₃, ?_, ⟨hsolved₃, hw₃.vars_eq, hw₃.bindings_eq,
    writesUnread_of_parts hsolved₃ hnodes hrules hunread hnosink hnew, ?_, hgs ▸ hkeys⟩, ?_⟩
  · rw [← hfunction]
    exact Except.ok.inj hst₂
  · intro n hn p hop
    rcases List.mem_append.1 (hnodes ▸ hn) with hn | hn
    · exact absurd hop (hnosgd n hn p)
    · exact (hnew.kinds n hn).resolve_left fun hsum => absurd (hsum.1.symm.trans hop) (by simp)
  · rw [hgs]
    refine Eq.trans (congrArg List.sum (List.map_congr_left fun p hp => ?_))
      (hsum.trans howed)
    have htrained : s.isTrainableFloat p.1 = true :=
      (List.mem_filter.1 (hkeys.subset (List.mem_map_of_mem hp))).2
    rw [Value.tangent, if_pos htrained]

namespace Adjoint

variable {g : Valuation (Exact I)} {w : World (Exact I)}

/-- The evaluation without dead nodes hands the steps of descent what they are handed in the world. -/
theorem evaluate (h : Adjoint s f g w) {f' : Function}
    (hf' : f'.nodes = w.function.eliminateDead.nodes) {momentum : Nat → Option (Tensor (Exact I))}
    (hmomentum : f'.HasMomentum s momentum) :
    ∃ g', f'.evaluate g.vars g.bindings momentum = (.ok (), g') ∧
      f'.handed g' = w.function.handed w.valuation := by
  obtain ⟨name, nodes, uses⟩ := f'
  obtain rfl : nodes = w.function.eliminateDead.nodes := hf'
  obtain ⟨g', heval, hvalues⟩ := h.solved.eliminateDead.evaluate h.unread.eliminateDead hmomentum
  refine ⟨g', ?_, ?_⟩
  · rw [← h.vars, ← h.bindings]
    exact heval
  · rw [← h.solved.handed_eliminateDead]
    refine List.filterMap_congr fun n hn => ?_
    unfold Node.handed
    split
    · next p v ref hop hin =>
      have hn : n ∈ w.function.eliminateDead.nodes := hn
      rw [Function.nodes_eliminateDead] at hn
      obtain ⟨m, hm, rfl⟩ := List.mem_map.1 hn
      obtain ⟨-, i, r, ref', -, hin'⟩ := h.steps m ((kept_sublist ..).subset hm) p hop
      have hv : v = .node (Function.newNumber w.function.live i) r := by
        simp only [Node.renumber, hin', List.map_cons, List.cons.injEq] at hin
        exact hin.1.symm
      rw [hv, Valuation.value?, hvalues]
      rfl
    · rfl

end Adjoint

/-- The training function hands its steps of descent the adjoint of what the losses make of a change
of the trained storage. -/
theorem evaluate_adjoint (hverify : f.verify s = .ok ())
    (hrules : ∀ n ∈ f.nodes, n.op.hasRule = true)
    (hnorm : ∀ n ∈ f.nodes, ∀ p, n.op ≠ .normalization p) (hpos : f.Positive s)
    (hunread : ∀ n ∈ f.nodes, ∀ ref, n.op = .save ref → ¬ f.Reads ref) {derived f' : Function}
    (hderived : (Source.ofFunction s f).derivative settings = .ok derived)
    (hf' : f'.nodes = derived.eliminateDead.nodes) {vars : List (Tensor (Exact I))}
    {bindings : IdMap (Tensor (Exact I))} {momentum momentum' : Nat → Option (Tensor (Exact I))}
    (hready : f.Ready s ⟨vars, bindings, momentum, []⟩) {g : Valuation (Exact I)}
    (heval : f.evaluate vars bindings momentum = (.ok (), g)) (hlabels : f.LabelsInRange g)
    (hmomentum : f'.HasMomentum s momentum') :
    ∃ g', f'.evaluate vars bindings momentum' = (.ok (), g') ∧
      ((f'.handed g').map Prod.fst).Nodup ∧
      (∀ p ∈ f'.handed g', s.isTrainableFloat p.1 = true) ∧
      ∀ change : StorageRef → Tangent I,
        ((f'.handed g').map fun p => p.2.pair (change p.1)).sum = f.loss s g change := by
  have hsgd (n : Node) (hn : n ∈ f.nodes) : ∀ p, n.op ≠ .sgd p := not_sgd_of_hasRule (hrules n hn)
  have hwrites (n : Node) (hn : n ∈ f.nodes) (ref : StorageRef) (hw : Function.Writes n ref) :
      ¬ f.Reads ref := by
    rcases hw with hop | ⟨p, hop, -⟩
    · exact hunread n hn ref hop
    · exact absurd hop (hsgd n hn p)
  have hsolving := solving_of_evaluate hverify hsgd hwrites hready heval
  have halike : f.Alike g ⟨vars, bindings, momentum, g.values⟩ :=
    ⟨rfl, fun ref href => (hsolving.storage ref href).trans (by cases ref <;> rfl)⟩
  have hadjoint := exists_adjoint hsolving.solved hrules hnorm hpos
    (halike.labelsInRange hlabels) hunread hderived
  obtain ⟨w, hw, h, -⟩ := hadjoint 0
  obtain ⟨g', heval', hhanded⟩ := h.evaluate (hw ▸ hf') hmomentum
  refine ⟨g', heval', ?_, fun p hp => ?_, fun change => ?_⟩
  · rw [hhanded]
    exact h.keys.nodup (s.nodup_refs.filter _)
  · rw [hhanded] at hp
    exact (List.mem_filter.1 (h.keys.subset (List.mem_map_of_mem hp))).2
  · -- the evaluation does not depend on the change, so neither does what it hands over
    obtain ⟨w', hw', h', hsum⟩ := hadjoint change
    obtain ⟨g'', heval'', hhanded'⟩ := h'.evaluate (hw' ▸ hf') hmomentum
    obtain ⟨-, rfl⟩ := Prod.mk.inj (heval''.symm.trans heval')
    rw [halike.loss_eq, ← hsum, hhanded']

/-! ## The sample function -/

namespace Sample

/-- What the derivative of the product is without its dead node. -/
def trained : Function where
  name := "train_grad"
  nodes := product.nodes ++ [
    ⟨"error_grad", .binary .sub, [.node 0 0, .storage (.placeholder 0)], [.float [1]]⟩,
    ⟨"product_lhs_grad", .binary .mul, [.node 3 0, .storage (.placeholder 0)], [.float [1]]⟩,
    ⟨"w_sgd", .sgd descent, [.node 4 0, .storage (.var 0)], []⟩]

/-- No function of a field beside its own operations. -/
def interpretation : Interpretation :=
  ⟨fun _ => 0, fun _ => 0, fun _ _ => 0, fun _ _ => 0⟩

theorem differentiate_network :
    (do let (k, m') ← network.differentiate 0 descent; m'.function k) = .ok trained := by
  decide +kernel

theorem unread_product : ∀ n ∈ product.nodes, ∀ ref, n.op = .save ref → ¬ product.Reads ref := by
  rintro n hn ref hop ⟨m, hm, hread⟩
  have hsaved : ref ∈ product.nodes.filterMap Node.destination? :=
    List.mem_filterMap.2 ⟨n, hn, by rw [Node.destination?, hop]⟩
  have hreads : ref ∈ product.nodes.flatMap Node.storageReads :=
    List.mem_flatMap.2 ⟨m, hm, List.mem_filterMap.2 ⟨_, hread, rfl⟩⟩
  have hdisjoint : ∀ ref ∈ product.nodes.filterMap Node.destination?,
      ref ∉ product.nodes.flatMap Node.storageReads := by decide
  exact hdisjoint ref hsaved hreads

end Sample

namespace Module

variable {m : Module} {id : Nat}

/-- Differentiation computes the reverse-mode adjoint. The source is verified, has no normalization,
no empty axes, and no save into storage it reads. Over exact rationals, with labels in range, the
training function evaluates from the contents that its source starts from, whatever its momentum. The
gradients it hands to its steps of descent, at most one for each trained storage, come against any
change of that storage to what the losses make of the tangents of their inputs. The source itself
evaluates whenever the biases of its dense layers are of floats. -/
theorem differentiate_adjoint (hf : m.function id = .ok f) (hverify : f.verify m.storage = .ok ())
    (hsettings : settings.check = .ok ()) (hrules : ∀ n ∈ f.nodes, n.op.hasRule = true)
    (hnorm : ∀ n ∈ f.nodes, ∀ p, n.op ≠ .normalization p) (hpos : f.Positive m.storage)
    (hunread : ∀ n ∈ f.nodes, ∀ ref, n.op = .save ref → ¬ f.Reads ref) :
    ∃ k m' f', m.differentiate id settings = .ok (k, m') ∧ m'.function k = .ok f' ∧
      ∀ (I : Interpretation) (vars : List (Tensor (Exact I))) (bindings : IdMap (Tensor (Exact I)))
        (momentum : Nat → Option (Tensor (Exact I))),
        f.Ready m.storage ⟨vars, bindings, momentum, []⟩ →
        (f.FloatBiases m.storage → ∃ g, f.evaluate vars bindings momentum = (.ok (), g)) ∧
        ∀ g, f.evaluate vars bindings momentum = (.ok (), g) → f.LabelsInRange g →
          ∀ momentum', f'.HasMomentum m.storage momentum' →
            ∃ g', f'.evaluate vars bindings momentum' = (.ok (), g') ∧
              ((f'.handed g').map Prod.fst).Nodup ∧
              (∀ p ∈ f'.handed g', m.storage.isTrainableFloat p.1 = true) ∧
              ∀ change : StorageRef → Tangent I,
                ((f'.handed g').map fun p => p.2.pair (change p.1)).sum =
                  f.loss m.storage g change := by
  obtain ⟨derived, hderived, -, hdead⟩ := exists_derived hverify hrules settings
  refine ⟨_, _, _, differentiate_ok_iff.2
    ⟨f, derived, hf, hverify, hsettings, hderived, hdead, rfl⟩, function_insertFunction ..,
    fun I vars bindings momentum hready => ⟨fun hbias => ?_, fun g heval hlabels momentum' hmomentum =>
      evaluate_adjoint hverify hrules hnorm hpos hunread hderived rfl hready heval hlabels hmomentum⟩⟩
  refine Function.evaluate_total hverify ?_ hpos hbias
    (fun n hn => not_sgd_of_hasRule (hrules n hn)) (fun n hn hop => ?_) hready
  · rintro n hn ref (hop | ⟨p, hop, -⟩)
    · exact hunread n hn ref hop
    · exact absurd hop (not_sgd_of_hasRule (hrules n hn) p)
  · have hrule := hrules n hn
    simp [hop, Operator.hasRule] at hrule

/-- The product of a weight of 2 and an input of 3, of which 3 is expected: the training function
hands the step of descent the product of the error and the input. -/
theorem differentiate_adjoint_sample :
    let I := Sample.interpretation
    let dense (x : ℚ) : Dense (Exact I) := .ofValues [1] #[(x : ℚ)] rfl
    let number (x : ℚ) : Tensor (Exact I) := .floats (dense x).toShaped
    let vars := [number 2]
    let bindings := (IdMap.empty.insert 0 (number 3)).insert 1 (number 0)
    ∃ k m' f' g', Sample.network.differentiate 0 Sample.descent = .ok (k, m') ∧
      m'.function k = .ok f' ∧
      f'.evaluate vars bindings (fun _ => some (number 0)) = (.ok (), g') ∧
      ∀ change : StorageRef → Tangent I,
        ((f'.handed g').map fun p => p.2.pair (change p.1)).sum =
          9 * change (.var 0) 0 := by
  intro I dense number vars bindings
  have hsettings : Sample.descent.check = .ok () := rfl
  obtain ⟨k, m', f', hm, hf', hadjoint⟩ := differentiate_adjoint Sample.function_network
    Sample.verify_product hsettings (by decide) (by simp [Sample.product]) Sample.positive_product
    Sample.unread_product
  have htrained := Sample.differentiate_network
  rw [hm] at htrained
  obtain rfl : f' = Sample.trained := Except.ok.inj (hf'.symm.trans htrained)
  have hready : Sample.product.Ready Sample.network.storage ⟨vars, bindings, fun _ => none, []⟩ := by
    intro ref href
    obtain rfl | rfl | rfl := Sample.storageRefs_product href
    all_goals exact ⟨_, rfl, rfl, rfl⟩
  have heval : Sample.product.evaluate vars bindings (fun _ => none) =
      (.ok (), ⟨vars, (IdMap.empty.insert 0 (number 3)).insert 1 (number 6), fun _ => none,
        [[number 6], [number 6], []]⟩) := by
    with_unfolding_all rfl
  have hlabels (g : Valuation (Exact I)) : Sample.product.LabelsInRange g :=
    fun _ n _ _ _ _ hn hop =>
      absurd hop ((by decide : ∀ n ∈ Sample.product.nodes, n.op ≠ .softMax) n
        (List.mem_of_getElem? hn))
  have hmomentum : Sample.trained.HasMomentum Sample.network.storage
      (fun _ => some (number 0)) := by
    intro i n p v ref hn hop hin
    obtain ⟨-, rfl⟩ : v = .node 4 0 ∧ ref = .var 0 := by
      have hweights : ∀ n ∈ Sample.trained.nodes, ∀ p, n.op = .sgd p →
          n.inputs = [.node 4 0, .storage (.var 0)] := by
        simp [Sample.trained, Sample.product]
      simpa [hin] using hweights n (List.mem_of_getElem? hn) p hop
    exact ⟨_, rfl, rfl, rfl⟩
  obtain ⟨g', hg', -, -, hsum⟩ :=
    (hadjoint I vars bindings _ hready).2 _ heval (hlabels _) _ hmomentum
  refine ⟨k, m', _, g', hm, hf', hg', fun change => (hsum change).trans ?_⟩
  have hloss : Sample.product.loss Sample.network.storage
      ⟨vars, (IdMap.empty.insert 0 (number 3)).insert 1 (number 6), fun _ => none,
        [[number 6], [number 6], []]⟩ change =
      [0, ∑ i ∈ Finset.range 1, ((dense 6).entry i - (dense 3).entry i) *
        (change (.var 0) i * (dense 3).entry i + (dense 2).entry i * 0), 0].sum := by
    rfl
  rw [hloss, List.sum_cons, List.sum_cons, List.sum_singleton, Finset.sum_range_one, mul_zero,
    add_zero, add_zero, zero_add]
  have hnine (x : ℚ) : (6 - 3) * (x * 3) = 9 * x := by ring
  exact hnine (change (.var 0) 0)

end Module

end TensorCompiler
