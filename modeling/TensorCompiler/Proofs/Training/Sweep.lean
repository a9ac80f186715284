import TensorCompiler.Proofs.Training.Rules

/-!
The reverse sweep. Visiting a node moves what is owed for it to its operands, and adds what it is as
a loss (`visit_ok`); so after all nodes what is owed for the storage is the sum of the losses
(`backpropagate_ok`), and the updates hand all of it to steps of descent (`emitUpdates_ok`).
-/

namespace TensorCompiler.Training

open World Kernel

variable {I : Interpretation} {src : Source} {w₀ w : World (Exact I)} {T : Value → Tangent I}
  {pending : List (Value × Value)} {st' : Backward}

/-- What a sweep relies on: a solved source whose values have no empty axes, with labels in range,
and tangents of its values. -/
structure Setup (src : Source) (w₀ : World (Exact I)) (T : Value → Tangent I) : Prop where
  function : w₀.function = src.function
  solved : src.Solved w₀
  unwanted : ∀ u, src.wants u = false → T u = 0
  floats : ∀ {u : Value} {t : Tensor (Exact I)}, src.Holds w₀ u t → src.wants u = true →
    ∃ d : Dense (Exact I), t = .floats d
  tangent : ∀ {i : Nat} {n : Node} {operands results : List (Tensor (Exact I))}
    {out : Shaped (Exact I)}, SolvedNode src.storage src.function.Reads w₀ i n operands results →
    src.function.nodes[i]? = some n → results[0]? = some (.floats out) →
    T (.node i 0) = n.op.tangent operands out (n.inputs.map T)
  noNormalization : ∀ n ∈ src.function.nodes, ∀ p, n.op ≠ .normalization p
  positive : ∀ {v : Value} {t : Tensor (Exact I)}, src.Holds w₀ v t → 0 ∉ t.shape
  labels : src.function.LabelsInRange w₀.valuation

/-- The value is storage, or a result of a node before `i`. -/
def Before (i : Nat) (v : Value) : Prop := ∀ {j r : Nat}, v = .node j r → j < i

/-- The table of contributions is well formed, for values before node `i`. -/
structure Table (src : Source) (w₀ w : World (Exact I)) (i : Nat) (pending : List (Value × Value)) :
    Prop where
  recorded : ∀ p ∈ pending, Recorded src w₀ w p.1 p.2
  before : ∀ p ∈ pending, Before i p.1

/-- A state of the sweep, reached from `w` and its table by adding nodes. -/
structure Reached (src : Source) (w₀ : World (Exact I)) (T : Value → Tangent I) (i : Nat)
    (w : World (Exact I)) (st' : Backward) (total : Exact I) : Prop where
  intro ::
  exists_world : ∃ w' pending', Grows w w' ∧ src.Solved w' ∧ st' = ⟨w'.function, pending'⟩ ∧
    Table src w₀ w' i pending' ∧ owed T w' pending' = total

/-! ## One visit -/

/-- A result that is recorded is a result that the node has. -/
theorem result_lt (h : Setup src w₀ T) {i r : Nat} {n : Node} (hn : src.function.nodes[i]? = some n)
    {gradient : Value} (hrecorded : Recorded src w₀ w (.node i r) gradient) : r < n.results.length := by
  obtain ⟨x, _, hx, -⟩ := hrecorded.floats
  obtain ⟨m, hm, hr⟩ := Function.valueType_node_ok_iff.1 hx.type
  rw [h.function] at hm
  obtain rfl := Option.some.inj (hn.symm.trans hm)
  exact (List.getElem?_eq_some_iff.1 hr).1

/-- Once the contributions to the results of a node are gone, the table is for the values before
it. -/
theorem Table.before_node (h : Setup src w₀ T) {i : Nat} {n : Node}
    (hn : src.function.nodes[i]? = some n) (hresults : n.results.length ≤ 1)
    (htable : Table src w₀ w (i + 1) pending) {kept : List (Value × Value)}
    (hkept : ∀ p ∈ kept, p ∈ pending) (hout : ∀ p ∈ kept, p.1 ≠ .node i 0) :
    Table src w₀ w i kept := by
  refine ⟨fun p hp => htable.recorded p (hkept p hp), fun p hp {j r} heq => ?_⟩
  rcases Nat.lt_succ_iff_lt_or_eq.1 (htable.before p (hkept p hp) heq) with hlt | rfl
  · exact hlt
  · have hrecorded := htable.recorded p (hkept p hp)
    rw [heq] at hrecorded
    have hr := result_lt h hn hrecorded
    obtain rfl : r = 0 := by omega
    exact absurd heq (hout p hp)

/-- A pass that contributes to operands of node `i`. -/
theorem Adds.reached {i : Nat} {n : Node} {operands results : List (Tensor (Exact I))}
    {p : Pass Unit} {values : List Value} {c : Exact I} (hp : Adds src w₀ T w p values c)
    (hnode : SolvedNode src.storage src.function.Reads w₀ i n operands results)
    (hvalues : ∀ v ∈ values, v ∈ n.inputs) (hsolved : src.Solved w)
    (htable : Table src w₀ w i pending) (hrun : p.run ⟨w.function, pending⟩ = .ok ((), st')) :
    Reached src w₀ T i w st' (owed T w pending + c) := by
  obtain ⟨w₂, pending₂, hw₂, hsolved₂, hst, hpending₂, howed₂, hnew⟩ :=
    hp (Extends.refl w) hsolved htable.recorded hrun
  refine ⟨w₂, pending₂, hw₂, hsolved₂, hst, ⟨hpending₂, fun q hq => ?_⟩, howed₂⟩
  rcases hnew q hq with hq | hq
  · exact htable.before q hq
  · intro j r heq
    exact hnode.earlier (heq ▸ hvalues _ hq)

/-- A save contributes zeros. -/
theorem visit_save (h : Setup src w₀ T) {i : Nat} {n : Node} {operands results : List (Tensor (Exact I))}
    (hn : src.function.nodes[i]? = some n)
    (hnode : SolvedNode src.storage src.function.Reads w₀ i n operands results) {ref : StorageRef}
    (hop : n.op = .save ref) (hw : Extends w₀ w) (hsolved : src.Solved w)
    (htable : Table src w₀ w (i + 1) pending)
    (hrun : (src.visit n i).run ⟨w.function, pending⟩ = .ok ((), st')) :
    Reached src w₀ T i w st' (owed T w pending) := by
  have htyped := hnode.typed
  have hinputs := hnode.inputs
  rw [hop] at htyped
  generalize hts : operands.map Tensor.type = ts at htyped
  generalize hresults : n.results = types at htyped
  cases htyped with
  | save _ type htype =>
    obtain ⟨t, rfl, -⟩ := List.map_eq_singleton_iff.1 hts
    obtain ⟨x, hin, hx⟩ := inputs_one hinputs
    have hvisit : src.visit n i =
        src.contributeFrom x (src.constant (n.name ++ "_zero_grad") x 0) := by
      simp only [Source.visit, hop, hin]
    have hadds : Adds src w₀ T w
        (src.contributeFrom x (src.constant (n.name ++ "_zero_grad") x 0)) [x] 0 := by
      refine adds_contributeFrom (fun hwants => ?_) fun _ => rfl
      obtain ⟨d, rfl⟩ := h.floats hx hwants
      refine ⟨d, hx, (makes_constant (hx.mono hw) 0).imp fun z hz => ⟨hz.shape_eq, ?_⟩⟩
      rw [hz.pair_eq]
      simp [Exact.ofSingle_zero]
    have hnone (p : Value × Value) (hp : p ∈ pending) : p.1 ≠ .node i 0 := by
      intro heq
      have hlt := result_lt h hn (heq ▸ htable.recorded p hp)
      simp [hresults] at hlt
    have htable' : Table src w₀ w i pending :=
      htable.before_node h hn (by simp [hresults]) (fun _ => id) hnone
    rw [hvisit] at hrun
    have hreached := hadds.reached hnode (by simp [hin]) hsolved htable' hrun
    rwa [add_zero] at hreached

/-- Contributions to a value that has no tangent owe nothing. -/
theorem owed_filter_ne {u : Value} (hu : T u = 0) (w : World (Exact I))
    (pending : List (Value × Value)) : owed T w (pending.filter (·.1 ≠ u)) = owed T w pending := by
  have hzero : owed T w (pending.filter (·.1 = u)) = 0 := by
    refine List.sum_eq_zero fun c hc => ?_
    obtain ⟨p, hp, rfl⟩ := List.mem_map.1 hc
    have heq : p.1 = u := by simpa using (List.mem_filter.1 hp).2
    rw [heq, hu, Valuation.pair]
    split
    · exact Shaped.pair_zero _
    · rfl
  rw [owed_filter T w u pending, hzero, zero_add]

/-- A loss drops what it is owed, since it has no tangent, and contributes its own gradient. -/
theorem visit_loss (h : Setup src w₀ T) {i : Nat} {n : Node}
    {operands results : List (Tensor (Exact I))} {out : Shaped (Exact I)}
    (hn : src.function.nodes[i]? = some n)
    (hnode : SolvedNode src.storage src.function.Reads w₀ i n operands results)
    (hresults : results = [.floats out]) (hzero : n.op.tangent operands out (n.inputs.map T) = 0)
    (hsolved : src.Solved w) (htable : Table src w₀ w (i + 1) pending) {x : Value} {p : Pass Value}
    {c : Exact I} (hadds : Adds src w₀ T w (src.contributeFrom x p) [x] c) (hx : x ∈ n.inputs)
    (hrun : (Source.takePending (.node i 0) >>= fun _ => src.contributeFrom x p).run
      ⟨w.function, pending⟩ = .ok ((), st')) :
    Reached src w₀ T i w st' (owed T w pending + c) := by
  have hlength : n.results.length ≤ 1 := by
    rw [← hnode.types.length_eq, hresults]
    exact Nat.le_refl _
  obtain ⟨taken, st, hfirst, hrest⟩ := run_bind_ok_iff.1 hrun
  obtain ⟨rfl, rfl⟩ := Prod.mk.inj (Except.ok.inj hfirst)
  have htable' : Table src w₀ w i (pending.filter (·.1 ≠ .node i 0)) :=
    htable.before_node h hn hlength (fun p hp => (List.mem_filter.1 hp).1)
      fun p hp => by simpa using (List.mem_filter.1 hp).2
  have hreached := hadds.reached hnode (by simpa using hx) hsolved htable' hrest
  have htangent : T (.node i 0) = 0 := (h.tangent hnode hn (by simp [hresults])).trans hzero
  rwa [owed_filter_ne htangent] at hreached

theorem visit_regression (h : Setup src w₀ T) {i : Nat} {n : Node}
    {operands results : List (Tensor (Exact I))} (hn : src.function.nodes[i]? = some n)
    (hnode : SolvedNode src.storage src.function.Reads w₀ i n operands results)
    (hop : n.op = .regression) (hw : Extends w₀ w) (hsolved : src.Solved w)
    (htable : Table src w₀ w (i + 1) pending)
    (hrun : (src.visit n i).run ⟨w.function, pending⟩ = .ok ((), st')) :
    Reached src w₀ T i w st' (owed T w pending + n.loss w₀.valuation T i) := by
  have htyped := hnode.typed
  have htypes := hnode.types
  rw [hop] at htyped
  generalize hts : operands.map Tensor.type = ts at htyped
  generalize n.results = types at htyped htypes
  cases htyped with
  | regression shape =>
    obtain ⟨dx, de, rfl, hdx, hde⟩ := floats_two hts hnode.operands_filled
    obtain ⟨x, expected, hin, hx, he⟩ := inputs_two hnode.inputs
    obtain ⟨out, rfl, -⟩ : ∃ out : Dense (Exact I), results = [.floats out] ∧ out.shape = shape :=
      floats_one (List.forall₂_eq_eq_eq ▸ List.forall₂_map_left_iff.2 htypes) hnode.filled
    have hoperands : n.inputs.mapM w₀.valuation.value? = some [.floats dx, .floats de] :=
      mapM_of_forall₂ (hnode.inputs.imp fun _ _ hv => hv.value)
    rw [hin] at hoperands
    have hloss : n.loss w₀.valuation T i = ∑ i ∈ Finset.range dx.shape.volume,
        (dx.entry i - de.entry i) * T x i := by
      simp only [Node.loss, hoperands, hop, hin]
    have hvisit : src.visit n i = Source.takePending (.node i 0) >>= fun _ =>
        src.contributeFrom x (src.emit (n.name ++ "_grad") (.binary .sub) [x, expected]) := by
      simp only [Source.visit, hop, hin]
    rw [hvisit] at hrun
    rw [hloss]
    exact visit_loss h hn hnode rfl (by rw [hop]; rfl) hsolved htable
      (adds_is (h.unwanted x) hx (makes_binary (hx.mono hw) (he.mono hw))) (by simp [hin]) hrun

theorem visit_softMax (h : Setup src w₀ T) {i : Nat} {n : Node}
    {operands results : List (Tensor (Exact I))} (hn : src.function.nodes[i]? = some n)
    (hnode : SolvedNode src.storage src.function.Reads w₀ i n operands results)
    (hop : n.op = .softMax) (hw : Extends w₀ w) (hsolved : src.Solved w)
    (htable : Table src w₀ w (i + 1) pending)
    (hrun : (src.visit n i).run ⟨w.function, pending⟩ = .ok ((), st')) :
    Reached src w₀ T i w st' (owed T w pending + n.loss w₀.valuation T i) := by
  have htyped := hnode.typed
  have htypes := hnode.types
  rw [hop] at htyped
  generalize hts : operands.map Tensor.type = ts at htyped
  generalize n.results = types at htyped htypes
  cases htyped with
  | softMax rows width =>
    obtain ⟨t, rest, rfl, ht, hrest⟩ := List.map_eq_cons_iff.1 hts
    obtain ⟨u, rfl, hu⟩ := List.map_eq_singleton_iff.1 hrest
    obtain ⟨hfirst, hothers⟩ := List.forall_mem_cons.1 hnode.operands_filled
    obtain ⟨dx, rfl, hdx⟩ := exists_filled_floats ht hfirst
    obtain ⟨dl, rfl, hdl⟩ := exists_filled_indices hu (hothers _ (List.mem_singleton_self _))
    obtain ⟨x, labels, hin, hx, hl⟩ := inputs_two hnode.inputs
    obtain ⟨out, rfl, hshape⟩ : ∃ out : Dense (Exact I), results = [.floats out] ∧
        out.shape = [rows, width] :=
      floats_one (List.forall₂_eq_eq_eq ▸ List.forall₂_map_left_iff.2 htypes) hnode.filled
    have hout : src.Holds w₀ (.node i 0) (.floats out) := hnode.holds (h.function ▸ hn) rfl
    have hoperands : n.inputs.mapM w₀.valuation.value? = some [.floats dx, .indices dl] :=
      mapM_of_forall₂ (hnode.inputs.imp fun _ _ hv => hv.value)
    rw [hin] at hoperands
    have hloss : n.loss w₀.valuation T i = ∑ i ∈ Finset.range dx.shape.volume,
        (out.entry i - oneHot (out.shape.getD 1 0) dl.values.toList i) * T x i := by
      simp only [Node.loss, hoperands, hout.value, hop, hin, hdx, hshape]
    have hrange (l : Int64) (hmem : l ∈ dl.values.toList) : (labelIndex? width l).isSome := by
      have hlabel := h.labels hn hop hin hout.value hl.value l hmem
      rw [hshape] at hlabel
      exact labelIndex?_isSome hlabel.1 hlabel.2
    have hvisit : src.visit n i = Source.takePending (.node i 0) >>= fun _ =>
        src.contributeFrom x (src.emit (n.name ++ "_grad") .softMaxGrad [.node i 0, labels]) := by
      simp only [Source.visit, hop, hin]
    have hmakes : Makes src w (src.emit (n.name ++ "_grad") .softMaxGrad [.node i 0, labels])
        fun z => z.Is dx.shape fun i =>
          out.entry i - oneHot (out.shape.getD 1 0) dl.values.toList i := by
      refine (makes_emit (.cons (hout.mono hw) (.cons (hl.mono hw) .nil)) rfl
        (softMaxGrad_gives hshape hrange)).imp fun z hz => ?_
      exact hz.congr (hshape.trans hdx.symm) fun i _ => by rw [hshape]; rfl
    rw [hvisit] at hrun
    rw [hloss]
    exact visit_loss h hn hnode rfl (by rw [hop]; rfl) hsolved htable
      (adds_is (h.unwanted x) hx hmakes) (by simp [hin]) hrun

/-- Only gradients of layers have several results. -/
theorem length_results_le {s : Storage} {op : Operator} {operands results : List TensorType}
    (h : Typing.Typed s op operands results) (hconv : ∀ p, op ≠ .convGrad p)
    (hdense : op ≠ .fullyConnectedGrad) : results.length ≤ 1 := by
  cases h with
  | convGrad p => exact absurd rfl (hconv p)
  | fullyConnectedGrad => exact absurd rfl hdense
  | _ => simp

theorem loss_eq_zero {g : Valuation (Exact I)} {n : Node} (hsoftMax : n.op ≠ .softMax)
    (hregression : n.op ≠ .regression) (i : Nat) : n.loss g T i = 0 := by
  unfold Node.loss
  split
  · next hop _ _ => exact absurd hop hregression
  · next hop _ _ _ => exact absurd hop hsoftMax
  · rfl

/-- Any other node passes on its gradient. -/
theorem visit_rule (h : Setup src w₀ T) {i : Nat} {n : Node}
    {operands results : List (Tensor (Exact I))} (hn : src.function.nodes[i]? = some n)
    (hnode : SolvedNode src.storage src.function.Reads w₀ i n operands results)
    (hlength : n.results.length ≤ 1) (hw : Extends w₀ w) (hsolved : src.Solved w)
    (htable : Table src w₀ w (i + 1) pending)
    (hrun : (src.takeGradient (.node i 0) n.name >>= fun
      | none => pure ()
      | some g => src.rule n (.node i 0) g).run ⟨w.function, pending⟩ = .ok ((), st')) :
    Reached src w₀ T i w st' (owed T w pending) := by
  obtain ⟨r, st, htake, hrest⟩ := run_bind_ok_iff.1 hrun
  obtain ⟨w₂, new, hw₂, hnodes, hnew, hsolved₂, rfl, hr⟩ :=
    takeGradient_ok (T := T) hsolved htable.recorded htake
  have hgrows : Grows w w₂ := by
    refine ⟨hw₂, new, hnodes, fun m hm => ?_⟩
    rw [(hnew m hm).1]
    rfl
  have hkept (p : Value × Value) (hp : p ∈ pending.filter (·.1 ≠ .node i 0)) : p ∈ pending :=
    (List.mem_filter.1 hp).1
  have hbefore : Table src w₀ w i (pending.filter (·.1 ≠ .node i 0)) :=
    htable.before_node h hn hlength hkept fun p hp => by simpa using (List.mem_filter.1 hp).2
  have htable₂ : Table src w₀ w₂ i (pending.filter (·.1 ≠ .node i 0)) :=
    ⟨fun p hp => (hbefore.recorded p hp).mono hw₂, hbefore.before⟩
  have howed := owed_mono (T := T) hbefore.recorded hw₂
  cases r with
  | none =>
    obtain ⟨-, rfl⟩ := run_pure_ok_iff.1 hrest
    refine ⟨w₂, _, hgrows, hsolved₂, rfl, htable₂, ?_⟩
    rw [howed, List.filter_eq_self.2 fun p hp => by simpa using hr p hp]
  | some g =>
    obtain ⟨hg, hpair⟩ := hr
    obtain ⟨out, d, hout, hd, hshape⟩ := hg.floats
    have hresult : results[0]? = some (.floats out) := by
      obtain ⟨ts, hts, ht⟩ := Option.bind_eq_some_iff.1 hout.value
      rwa [← Option.some.inj (hts.symm.trans hnode.values)]
    have hadds := adds_rule h.unwanted hnode hresult hout (h.tangent hnode hn hresult)
      (h.noNormalization n (List.mem_of_getElem? hn)) h.positive (hw.trans hw₂) hd hg.node hshape
    obtain ⟨w₃, pending₃, hw₃, hrest₃⟩ :=
      hadds.reached hnode (fun _ => id) hsolved₂ htable₂ hrest
    refine ⟨w₃, pending₃, hgrows.trans hw₃, ?_⟩
    rwa [hpair, ← howed, pair_of_holds hd, add_comm]

/-- A visit moves what is owed for the node to its operands, and adds its loss. -/
theorem visit_ok (h : Setup src w₀ T) {i : Nat} {n : Node} (hn : src.function.nodes[i]? = some n)
    (hw : Extends w₀ w) (hsolved : src.Solved w) (htable : Table src w₀ w (i + 1) pending)
    (hrun : (src.visit n i).run ⟨w.function, pending⟩ = .ok ((), st')) :
    Reached src w₀ T i w st' (owed T w pending + n.loss w₀.valuation T i) := by
  obtain ⟨operands, results, hnode⟩ := h.solved.node (h.function ▸ hn)
  by_cases hregression : n.op = .regression
  · exact visit_regression h hn hnode hregression hw hsolved htable hrun
  by_cases hsoftMax : n.op = .softMax
  · exact visit_softMax h hn hnode hsoftMax hw hsolved htable hrun
  rw [loss_eq_zero hsoftMax hregression, add_zero]
  by_cases hsave : ∃ ref, n.op = .save ref
  · obtain ⟨ref, hop⟩ := hsave
    exact visit_save h hn hnode hop hw hsolved htable hrun
  unfold Source.visit at hrun
  split at hrun
  case h_1 hop _ => exact absurd ⟨_, hop⟩ hsave
  case h_2 hop _ => exact absurd hop hsoftMax
  case h_3 hop _ => exact absurd hop hregression
  case h_11 hconv _ hdense _ _ _ _ _ =>
    exact visit_rule h hn hnode (length_results_le hnode.typed hconv hdense) hw hsolved htable hrun
  all_goals cases hrun

/-! ## All visits -/

/-- The visits of the first `k` nodes, from the last to the first. -/
theorem visits_ok (h : Setup src w₀ T) {k : Nat} (hk : k ≤ src.function.nodes.length)
    (hw : Extends w₀ w) (hsolved : src.Solved w) (htable : Table src w₀ w k pending)
    (hrun : ((src.function.nodes.zipIdx.take k).reverse.forM fun (n, i) => src.visit n i).run
      ⟨w.function, pending⟩ = .ok ((), st')) :
    Reached src w₀ T 0 w st' (owed T w pending +
      ((src.function.nodes.zipIdx.take k).map fun (n, i) => n.loss w₀.valuation T i).sum) := by
  induction k generalizing w pending with
  | zero =>
    obtain ⟨-, rfl⟩ := run_pure_ok_iff.1 hrun
    exact ⟨w, pending, Grows.refl w, hsolved, rfl, htable, (add_zero _).symm⟩
  | succ k ih =>
    have hlt : k < src.function.nodes.zipIdx.length := by simpa using hk
    have hn : src.function.nodes[k]? = some src.function.nodes.zipIdx[k].1 := by simp
    have hlast : src.function.nodes.zipIdx.take (k + 1) =
        src.function.nodes.zipIdx.take k ++ [(src.function.nodes.zipIdx[k].1, k)] := by
      simp [List.take_succ_eq_append_getElem hlt]
    rw [hlast, List.reverse_append] at hrun
    obtain ⟨_, st, hvisit, hrest⟩ := run_bind_ok_iff.1 hrun
    obtain ⟨w₂, pending₂, hw₂, hsolved₂, rfl, htable₂, howed₂⟩ :=
      visit_ok h hn hw hsolved htable hvisit
    obtain ⟨w₃, pending₃, hw₃, hsolved₃, rfl, htable₃, howed₃⟩ :=
      ih (Nat.le_of_succ_le hk) (hw.trans hw₂.toExtends) hsolved₂ htable₂ hrest
    refine ⟨w₃, pending₃, hw₂.trans hw₃, hsolved₃, rfl, htable₃, ?_⟩
    rw [howed₃, howed₂, hlast, List.map_append, List.sum_append, List.map_singleton,
      List.sum_singleton, add_assoc, add_comm (Node.loss ..)]

/-- After all visits, what is owed for the storage is the sum of the losses. -/
theorem backpropagate_ok (h : Setup src w₀ T) (hw : Extends w₀ w) (hsolved : src.Solved w)
    (hrun : src.backpropagate.run ⟨w.function, []⟩ = .ok ((), st')) :
    Reached src w₀ T 0 w st'
      (src.function.nodes.zipIdx.map fun (n, i) => n.loss w₀.valuation T i).sum := by
  have hall : src.function.nodes.zipIdx.take src.function.nodes.length =
      src.function.nodes.zipIdx := List.take_of_length_le (by simp)
  have hempty : Table src w₀ w src.function.nodes.length [] := ⟨nofun, nofun⟩
  have hreached := visits_ok h (Nat.le_refl _) hw hsolved hempty (by rw [hall]; exact hrun)
  rw [hall] at hreached
  simpa [owed] using hreached

end TensorCompiler.Training
