import TensorCompiler.Proofs.Graph.Arena

/-!
What a graph writes, and what the elimination of dead nodes keeps of it. `Valuation.run` is an
evaluation that keeps a record of what the sinks store; the state and the outcome are those of
`Valuation.visit` (`visit_eq_run`). The evaluations before and after elimination go together, node by
node, until a dead node fails (`run_alike`): the function without it then writes on.
`Function.eliminateDead_keeps_live` says all that elimination keeps.
-/

namespace TensorCompiler

open TensorCompiler.Function (newNumber)

variable {α : Type}

/-- What a sink stores: new contents for a storage, and the new momentum of a step of descent. -/
structure Write (α : Type) where
  node : Nat
  storage : StorageRef
  contents : Tensor α
  momentum : Option (Tensor α)
deriving DecidableEq

def Write.renumber (number : Nat → Nat) (w : Write α) : Write α := { w with node := number w.node }

theorem Node.op_renumber (n : Node) (number : Nat → Nat) : (n.renumber number).op = n.op := rfl

/-- How an evaluation ends, in which state, and what the sinks have stored until then. -/
structure Evaluation (α : Type) where
  outcome : Except Nat Unit
  final : Valuation α
  writes : List (Write α)

namespace Valuation

/-! ## States under new numbers -/

/-- The state with a new momentum for a node. -/
def remember (g : Valuation α) (id : Nat) (m : Tensor α) : Valuation α :=
  { g with momentum := fun i => if i = id then some m else g.momentum i }

/-- The state after a sink. -/
def perform (g : Valuation α) (w : Write α) : Valuation α :=
  match w.momentum with
  | some m => ((g.store w.contents w.storage).remember w.node m).push []
  | none => (g.store w.contents w.storage).push []

theorem values_store (g : Valuation α) (t : Tensor α) (ref : StorageRef) :
    (g.store t ref).values = g.values := by
  cases ref <;> rfl

theorem length_perform (g : Valuation α) (w : Write α) :
    (g.perform w).values.length = g.values.length + 1 := by
  unfold perform
  cases w.momentum <;> simp [remember, push, values_store]

/-- The state `g'` holds what `g` does for the nodes in `live`, under their new numbers. -/
structure Mirrors (live : List Nat) (g g' : Valuation α) : Prop where
  vars : g'.vars = g.vars
  bindings : g'.bindings = g.bindings
  values : g'.values = kept live.contains g.values
  momentum : ∀ i ∈ live, g'.momentum (newNumber live i) = g.momentum i

theorem mapM_value_renumber {g g' : Valuation α} {number : Nat → Nat} {inputs : List Value}
    (h : ∀ v ∈ inputs, g'.value? (v.renumber number) = g.value? v) :
    (inputs.map (.renumber number)).mapM g'.value? = inputs.mapM g.value? := by
  induction inputs with
  | nil => rfl
  | cons v vs ih =>
    rw [List.map_cons, List.mapM_cons, List.mapM_cons, h v List.mem_cons_self,
      ih fun v hv => h v (List.mem_cons_of_mem _ hv)]

namespace Mirrors

variable {live : List Nat} {g g' : Valuation α} {n : Node}

theorem length (h : Mirrors live g g') : g'.values.length = newNumber live g.values.length := by
  rw [h.values, length_kept]
  rfl

theorem value (h : Mirrors live g g') {v : Value}
    (hv : ∀ p, v.producer? = some p → p ∈ live ∧ p < g.values.length) :
    g'.value? (v.renumber (newNumber live)) = g.value? v := by
  cases v with
  | storage ref =>
    cases ref with
    | var id => exact congrArg (·[id]?) h.vars
    | placeholder id => exact congrArg (·.get? id) h.bindings
  | node i r =>
    obtain ⟨hlive, hlt⟩ := hv i rfl
    have hkept : g'.values[newNumber live i]? = some g.values[i] := by
      rw [h.values]
      exact getElem?_kept.2 ⟨i, List.getElem?_eq_getElem hlt, by simpa using hlive, rfl⟩
    simp only [Value.renumber, value?, hkept, List.getElem?_eq_getElem hlt]

theorem operands (h : Mirrors live g g')
    (hn : ∀ p ∈ n.producers, p ∈ live ∧ p < g.values.length) :
    (n.renumber (newNumber live)).inputs.mapM g'.value? = n.inputs.mapM g.value? :=
  mapM_value_renumber fun v hv =>
    h.value fun p hp => hn p (List.mem_filterMap.2 ⟨v, hv, hp⟩)

theorem push_live (h : Mirrors live g g') (hlive : g.values.length ∈ live)
    (results : List (Tensor α)) : Mirrors live (g.push results) (g'.push results) := by
  refine ⟨h.vars, h.bindings, ?_, h.momentum⟩
  show g'.values ++ [results] = kept _ (g.values ++ [results])
  rw [kept_snoc, if_pos (by simpa using hlive), h.values]

theorem push_dead (h : Mirrors live g g') (hdead : g.values.length ∉ live)
    (results : List (Tensor α)) : Mirrors live (g.push results) g' := by
  refine ⟨h.vars, h.bindings, ?_, h.momentum⟩
  show g'.values = kept _ (g.values ++ [results])
  rw [kept_snoc, if_neg (by simpa using hdead), List.append_nil, h.values]

theorem store (h : Mirrors live g g') (t : Tensor α) (ref : StorageRef) :
    Mirrors live (g.store t ref) (g'.store t ref) := by
  cases ref with
  | var id => exact ⟨congrArg (·.set id t) h.vars, h.bindings, h.values, h.momentum⟩
  | placeholder id => exact ⟨h.vars, congrArg (·.insert id t) h.bindings, h.values, h.momentum⟩

theorem remember (h : Mirrors live g g') {id : Nat} (hid : id ∈ live) (m : Tensor α) :
    Mirrors live (g.remember id m) (g'.remember (newNumber live id) m) := by
  refine ⟨h.vars, h.bindings, h.values, fun i hi => ?_⟩
  simp only [Valuation.remember]
  -- among live nodes only this one has its new number
  by_cases heq : i = id
  · simp only [heq, if_true]
  · have hne : newNumber live i ≠ newNumber live id := by
      rcases Nat.lt_or_gt_of_ne heq with hlt | hlt
      · exact Nat.ne_of_lt (countP_range_lt hlt (by simpa using hi))
      · exact Nat.ne_of_gt (countP_range_lt hlt (by simpa using hid))
    rw [if_neg hne, if_neg heq, h.momentum i hi]

theorem perform (h : Mirrors live g g') (hlive : g.values.length ∈ live) {w : Write α}
    (hw : w.node = g.values.length) :
    Mirrors live (g.perform w) (g'.perform (w.renumber (newNumber live))) := by
  have hstored := h.store w.contents w.storage
  have hlive' : (g.store w.contents w.storage).values.length ∈ live := by
    rwa [values_store]
  simp only [Valuation.perform, Write.renumber]
  cases w.momentum with
  | none => exact hstored.push_live hlive' []
  | some m => exact (hstored.remember (hw ▸ hlive) m).push_live hlive' []

end Mirrors

/-! ## Evaluations -/

variable [Scalar α]

/-- What a sink is about to store. -/
def write? (g : Valuation α) (n : Node) : Option (Write α) := do
  let operands ← n.inputs.mapM g.value?
  match n.op, n.inputs, operands with
  | .save ref, _, [x] => return ⟨g.values.length, ref, x, none⟩
  | .sgd p, [_, .storage ref], [gradient, weight] =>
    let (weight, momentum) ← descended p weight gradient (← g.momentum g.values.length)
    return ⟨g.values.length, ref, weight, some momentum⟩
  | _, _, _ => none

/-- The results of a node that is no sink. -/
def results? (g : Valuation α) (n : Node) : Option (List (Tensor α)) := do
  let operands ← n.inputs.mapM g.value?
  tensors n.results (← n.op.compute n.results operands)

/-- Visits nodes in order; the evaluation ends at the first node without results and at the first sink
that cannot store. -/
def run : Valuation α → List Node → Evaluation α
  | g, [] => ⟨.ok (), g, []⟩
  | g, n :: rest =>
    if n.op.isSink then
      match g.write? n with
      | some w =>
        let e := run (g.perform w) rest
        { e with writes := w :: e.writes }
      | none => ⟨.error g.values.length, g, []⟩
    else
      match g.results? n with
      | some results => run (g.push results) rest
      | none => ⟨.error g.values.length, g, []⟩

theorem write?_eq_none {g : Valuation α} {n : Node} {operands : List (Tensor α)}
    (hoperands : n.inputs.mapM g.value? = some operands)
    (hsave : ∀ ref x, n.op = .save ref → operands ≠ [x])
    (hsgd : ∀ p value ref gradient weight, n.op = .sgd p → n.inputs = [value, .storage ref] →
      operands ≠ [gradient, weight]) : g.write? n = none := by
  unfold write?
  rw [hoperands, Option.bind_eq_bind, Option.bind_some]
  split
  · next hop => exact (hsave _ _ hop rfl).elim
  · next hop hinputs => exact (hsgd _ _ _ _ _ hop hinputs rfl).elim
  · rfl

theorem step_sink {g : Valuation α} {n : Node} (hsink : n.op.isSink = true) :
    g.step n = (g.write? n).map g.perform := by
  obtain ⟨name, op, inputs, results⟩ := n
  unfold step
  simp only
  cases hoperands : inputs.mapM g.value? with
  | none =>
    simp only [write?, hoperands]
    rfl
  | some operands =>
    simp only [Option.bind_eq_bind, Option.bind_some]
    split
    · simp only [write?, hoperands]
      rfl
    · next p _ ref gradient weight =>
      simp only [write?, hoperands, Option.bind_eq_bind, Option.bind_some]
      cases g.momentum g.values.length with
      | none => rfl
      | some m =>
        simp only [Option.bind_some]
        cases descended p weight gradient m <;> rfl
    · next hsave hsgd =>
      -- a save or a step of descent has no results to compute
      have hnone : op.compute results operands = none := by
        cases op <;> simp [Operator.isSink] at hsink <;> simp [Operator.compute]
      rw [hnone, write?_eq_none hoperands hsave hsgd]
      rfl

theorem step_compute {g : Valuation α} {n : Node} (hsink : n.op.isSink = false) :
    g.step n = (g.results? n).map g.push := by
  obtain ⟨name, op, inputs, results⟩ := n
  unfold step results?
  simp only
  cases inputs.mapM g.value? with
  | none => rfl
  | some operands =>
    simp only [Option.bind_eq_bind, Option.bind_some]
    split
    · cases hsink
    · cases hsink
    · cases op.compute results operands with
      | none => rfl
      | some ps =>
        simp only [Option.bind_some]
        cases tensors results ps <;> rfl

/-- The evaluation is the one that `visit` makes. -/
theorem visit_eq_run (g : Valuation α) (nodes : List Node) :
    g.visit nodes = ((run g nodes).outcome, (run g nodes).final) := by
  induction nodes generalizing g with
  | nil => rfl
  | cons n rest ih =>
    rw [visit, run]
    by_cases hsink : n.op.isSink = true
    · rw [step_sink hsink, if_pos hsink]
      cases g.write? n with
      | none => rfl
      | some w => exact ih _
    · rw [step_compute (by simpa using hsink), if_neg hsink]
      cases g.results? n with
      | none => rfl
      | some results => exact ih _

theorem node_of_write? {g : Valuation α} {n : Node} {w : Write α} (h : g.write? n = some w) :
    w.node = g.values.length := by
  obtain ⟨operands, -, h⟩ := Option.bind_eq_some_iff.1 h
  split at h
  · exact Option.some.inj h ▸ rfl
  · obtain ⟨m, -, h⟩ := Option.bind_eq_some_iff.1 h
    obtain ⟨x, -, h⟩ := Option.bind_eq_some_iff.1 h
    exact Option.some.inj h ▸ rfl
  · cases h

namespace Mirrors

variable {live : List Nat} {g g' : Valuation α} {n : Node}

omit [Scalar α] in
theorem eq_of_map_renumber {number : Nat → Nat} {inputs : List Value} {v : Value}
    {ref : StorageRef} (h : inputs.map (.renumber number) = [v, .storage ref]) :
    ∃ u, inputs = [u, .storage ref] := by
  obtain ⟨u, rest, rfl, -, hrest⟩ := List.map_eq_cons_iff.1 h
  obtain ⟨t, rfl, ht⟩ := List.map_eq_singleton_iff.1 hrest
  cases t with
  | node i r => cases ht
  | storage ref' =>
    obtain rfl := Value.storage.inj ht
    exact ⟨u, rfl⟩

theorem results? (h : Mirrors live g g')
    (hn : ∀ p ∈ n.producers, p ∈ live ∧ p < g.values.length) :
    g'.results? (n.renumber (newNumber live)) = g.results? n := by
  rw [Valuation.results?, h.operands hn]
  rfl

theorem write? (h : Mirrors live g g')
    (hn : ∀ p ∈ n.producers, p ∈ live ∧ p < g.values.length) (hlive : g.values.length ∈ live) :
    g'.write? (n.renumber (newNumber live)) =
      (g.write? n).map (Write.renumber (newNumber live)) := by
  obtain ⟨name, op, inputs, results⟩ := n
  rw [Valuation.write?, h.operands hn, Valuation.write?, h.length, h.momentum _ hlive]
  simp only [Node.renumber]
  cases inputs.mapM g.value? with
  | none => rfl
  | some operands =>
    simp only [Option.bind_eq_bind, Option.bind_some]
    split
    · rfl
    · next p v ref gradient weight hin =>
      obtain ⟨v, rfl⟩ := eq_of_map_renumber hin
      cases g.momentum g.values.length with
      | none => rfl
      | some m =>
        simp only [Option.bind_some]
        cases descended p weight gradient m <;> rfl
    · next hsave hsgd =>
      split
      · exact (hsave _ _ rfl rfl).elim
      · exact (hsgd _ _ _ _ _ rfl rfl rfl).elim
      · rfl

end Mirrors

/-! ## Evaluations before and after -/

/-- The evaluation `e'` ends as `e` does, and its sinks have stored the same: nodes are named by their
new numbers. -/
structure Alike (live : List Nat) (e e' : Evaluation α) : Prop where
  outcome : e'.outcome = e.outcome.mapError (newNumber live)
  reached : ∀ i, e.outcome = .error i → i ∈ live
  final : Mirrors live e.final e'.final
  writes : e'.writes = e.writes.map (Write.renumber (newNumber live))

/-- A dead node ends the evaluation `e`; until then its sinks have stored the same as those of `e'`,
which goes on. -/
structure CutShort (f : Function) (e e' : Evaluation α) : Prop where
  dead : ∃ i, e.outcome = .error i ∧ i < f.size ∧ i ∉ f.live
  writes : e.writes.map (Write.renumber (newNumber f.live)) <+: e'.writes

/-- The live nodes among `rest`, which starts at position `k`, under new numbers. -/
def survivors (live : List Nat) (k : Nat) (rest : List Node) : List Node :=
  ((rest.zipIdx k).filter fun x => live.contains x.2).map fun x => x.1.renumber (newNumber live)

theorem survivors_cons (live : List Nat) (k : Nat) (n : Node) (rest : List Node) :
    survivors live k (n :: rest) = if k ∈ live then
      n.renumber (newNumber live) :: survivors live (k + 1) rest
    else survivors live (k + 1) rest := by
  unfold survivors
  rw [List.zipIdx_cons, List.filter_cons]
  simp only [List.contains_iff_mem]
  split <;> rfl

variable {f : Function}

/-- The nodes that are still to be visited write alike, unless a dead node that cannot be computed cuts
the evaluation short. -/
theorem run_alike (hf : f.ReadsEarlier) {done rest : List Node} (hnodes : done ++ rest = f.nodes)
    {g g' : Valuation α} (hlength : g.values.length = done.length) (h : Mirrors f.live g g') :
    Alike f.live (run g rest) (run g' (survivors f.live g.values.length rest)) ∨
      CutShort f (run g rest) (run g' (survivors f.live g.values.length rest)) := by
  induction rest generalizing done g g' with
  | nil => exact .inl ⟨rfl, nofun, h, rfl⟩
  | cons n rest ih =>
    have hn : f.nodes[g.values.length]? = some n := by simp [hlength, ← hnodes]
    have hnodes₁ : (done ++ [n]) ++ rest = f.nodes := by simpa using hnodes
    have hnext {g₁ g₁' : Valuation α} (hlength₁ : g₁.values.length = g.values.length + 1)
        (h₁ : Mirrors f.live g₁ g₁') := ih hnodes₁ (by simpa [hlength] using hlength₁) h₁
    simp only [survivors_cons]
    by_cases hlive : g.values.length ∈ f.live
    · have hproducers : ∀ p ∈ n.producers, p ∈ f.live ∧ p < g.values.length := fun p hp =>
        ⟨hf.producer_live hn hlive hp, hf hn p hp⟩
      have hfailed : Alike f.live ⟨.error g.values.length, g, []⟩
          ⟨.error g'.values.length, g', []⟩ :=
        ⟨congrArg _ h.length, fun i hi => by cases hi; exact hlive, h, rfl⟩
      rw [if_pos hlive, run, run, Node.op_renumber]
      by_cases hsink : n.op.isSink = true
      · rw [if_pos hsink, if_pos hsink, h.write? hproducers hlive]
        cases hw : g.write? n with
        | none => exact .inl hfailed
        | some w =>
          have hlength₁ := length_perform g w
          rcases hnext hlength₁ (h.perform hlive (node_of_write? hw)) with
            halike | hcut
          · rw [hlength₁] at halike
            exact .inl ⟨halike.outcome, halike.reached, halike.final,
              congrArg (w.renumber (newNumber f.live) :: ·) halike.writes⟩
          · rw [hlength₁] at hcut
            exact .inr ⟨hcut.dead, List.cons_prefix_cons.2 ⟨rfl, hcut.writes⟩⟩
      · rw [if_neg hsink, if_neg hsink, h.results? hproducers]
        cases g.results? n with
        | none => exact .inl hfailed
        | some results =>
          have hlength₁ : (g.push results).values.length = g.values.length + 1 := by simp [push]
          exact hlength₁ ▸ hnext hlength₁ (h.push_live hlive results)
    · have hsink : ¬ n.op.isSink = true := fun hsink =>
        hlive (Function.sink_mem_mark (List.mem_zipIdx_iff_getElem?.2 hn) hsink)
      rw [if_neg hlive, run, if_neg hsink]
      cases g.results? n with
      | none =>
        have hlt : g.values.length < f.size := (List.getElem?_eq_some_iff.1 hn).1
        exact .inr ⟨⟨_, rfl, hlt, hlive⟩, List.nil_prefix⟩
      | some results =>
        have hlength₁ : (g.push results).values.length = g.values.length + 1 := by simp [push]
        exact hlength₁ ▸ hnext hlength₁ (h.push_dead hlive results)

end Valuation

namespace Function

open TensorCompiler.Valuation

variable {f : Function}

section

variable [Scalar α]

/-- The evaluation of a function from given contents of storage, with what its sinks store. -/
def evaluation (f : Function) (vars : List (Tensor α)) (bindings : IdMap (Tensor α))
    (momentum : Nat → Option (Tensor α)) : Evaluation α :=
  run ⟨vars, bindings, momentum, []⟩ f.nodes

theorem evaluate_eq_evaluation (f : Function) (vars : List (Tensor α))
    (bindings : IdMap (Tensor α)) (momentum : Nat → Option (Tensor α)) :
    f.evaluate vars bindings momentum =
      ((f.evaluation vars bindings momentum).outcome, (f.evaluation vars bindings momentum).final) :=
  visit_eq_run _ _

theorem evaluation_alike (hf : f.ReadsEarlier) (vars : List (Tensor α))
    (bindings : IdMap (Tensor α)) {momentum momentum' : Nat → Option (Tensor α)}
    (hmomentum : ∀ i ∈ f.live, momentum' (newNumber f.live i) = momentum i) :
    Alike f.live (f.evaluation vars bindings momentum)
        (f.eliminateDead.evaluation vars bindings momentum') ∨
      CutShort f (f.evaluation vars bindings momentum)
        (f.eliminateDead.evaluation vars bindings momentum') :=
  run_alike hf f.nodes.nil_append rfl ⟨rfl, rfl, rfl, hmomentum⟩

end

/-- The elimination of dead nodes keeps exactly what feeds a sink. The survivors are renumbered in
order, the number of the others is returned, use-lists name the readers, and there is nothing left to
eliminate. An evaluation writes the same before and after, unless it ends before at a dead node that
cannot be computed: after elimination it then writes the same until there, and may write more. -/
theorem eliminateDead_keeps_live (hf : f.ReadsEarlier) (hlinked : f.Linked)
    (hnames : (f.nodes.map (·.name)).Nodup) :
    (∀ i, i ∈ f.live ↔ f.Feeds i) ∧ f.Compacts f.eliminateDead (newNumber f.live) ∧
    (∃ dead : List Nat, dead.Nodup ∧ (∀ i, i ∈ dead ↔ i < f.size ∧ ¬ f.Feeds i) ∧
      f.deadCount = dead.length) ∧
    f.eliminateDead.Linked ∧ (f.Wired ∨ f.deadCount ≠ 0 → f.eliminateDead.Wired) ∧
    f.eliminateDead.deadCount = 0 ∧ f.eliminateDead.eliminateDead = f.eliminateDead ∧
    ∀ (α : Type) [Scalar α] (vars : List (Tensor α)) (bindings : IdMap (Tensor α))
      (momentum momentum' : Nat → Option (Tensor α)),
      (∀ i, f.Feeds i → momentum' (newNumber f.live i) = momentum i) →
      Alike f.live (f.evaluation vars bindings momentum)
          (f.eliminateDead.evaluation vars bindings momentum') ∨
        CutShort f (f.evaluation vars bindings momentum)
          (f.eliminateDead.evaluation vars bindings momentum') := by
  refine ⟨fun i => hf.mem_live_iff, hf.compacts hnames, ?_, hlinked.eliminateDead hf, ?_,
    hf.deadCount_eliminateDead, hf.eliminateDead.eliminateDead_eq hf.size_eliminateDead_twice, ?_⟩
  · refine ⟨(List.range f.size).filter fun i => !f.live.contains i, ?_, fun i => ?_, f.deadCount_eq⟩
    · exact List.nodup_range.filter _
    · simp [hf.mem_live_iff]
  · rintro (hwired | hdead)
    · exact hwired.eliminateDead hf
    · refine hf.eliminateDead_cases.resolve_left fun heq => hdead ?_
      rw [deadCount, heq, Nat.sub_self]
  · exact fun α _ vars bindings momentum momentum' hmomentum =>
      evaluation_alike hf vars bindings fun i hi => hmomentum i (hf.mem_live_iff.1 hi)

end Function

namespace Sample

/-- Four times a placeholder, saved in a variable; nothing comes of the other two nodes. -/
def wasteful : Function where
  name := "wasteful"
  nodes := [
    ⟨"unused", .unary .relu, [.storage (.placeholder 0)], [.float [1, 2]]⟩,
    ⟨"sum", .binary .add, [.storage (.placeholder 0), .storage (.placeholder 0)], [.float [1, 2]]⟩,
    ⟨"idle", .binary .mul, [.node 0 0, .node 1 0], [.float [1, 2]]⟩,
    ⟨"double", .binary .add, [.node 1 0, .node 1 0], [.float [1, 2]]⟩,
    ⟨"keep", .save (.var 0), [.node 3 0], []⟩]

theorem readsEarlier_wasteful : wasteful.ReadsEarlier := by
  have hall : ∀ x ∈ wasteful.nodes.zipIdx, ∀ p ∈ x.1.producers, p < x.2 := by decide
  exact fun i n hn => hall (n, i) (List.mem_zipIdx_iff_getElem?.2 hn)

/-- The sum is the first node that is left; its readers are the second, twice. The evaluation from zeros
saves the same before and after. -/
theorem eliminateDead_keeps_live_wasteful :
    wasteful.ReadsEarlier ∧ wasteful.Linked ∧ (wasteful.nodes.map (·.name)).Nodup ∧
      wasteful.Compacts wasteful.eliminateDead (newNumber wasteful.live) ∧
      wasteful.deadCount = 2 ∧ wasteful.eliminateDead.Wired ∧
      wasteful.eliminateDead.users 0 = [1, 1] ∧
      let zeros : Tensor Single := .zeros (.float [1, 2])
      let bindings := IdMap.empty.insert 0 zeros
      (wasteful.evaluation [zeros] bindings fun _ => none).writes = [⟨4, .var 0, zeros, none⟩] ∧
        (wasteful.eliminateDead.evaluation [zeros] bindings fun _ => none).writes =
          [⟨2, .var 0, zeros, none⟩] := by
  have hlinked : wasteful.Linked := (Function.wired_ofNodes readsEarlier_wasteful).linked
  have hnames : (wasteful.nodes.map (·.name)).Nodup := by decide
  obtain ⟨-, hcompacts, -, -, hwired, -, -, hwrites⟩ :=
    Function.eliminateDead_keeps_live readsEarlier_wasteful hlinked hnames
  have hcount : wasteful.deadCount = 2 := by decide
  refine ⟨readsEarlier_wasteful, hlinked, hnames, hcompacts, hcount,
    hwired (.inr (by rw [hcount]; decide)), by decide, ?_⟩
  intro zeros bindings
  have hbefore : (wasteful.evaluation [zeros] bindings fun _ => none).writes =
      [⟨4, .var 0, zeros, none⟩] := by
    decide +kernel
  refine ⟨hbefore, ?_⟩
  rcases hwrites Single [zeros] bindings (fun _ => none) (fun _ => none) fun _ _ => rfl with
    halike | hcut
  · rw [halike.writes, hbefore]
    decide +kernel
  · obtain ⟨i, hi, -⟩ := hcut.dead
    have hend : (wasteful.evaluation [zeros] bindings fun _ => none).outcome = .ok () := by
      decide +kernel
    rw [hend] at hi
    cases hi

/-! ## A dead node that cannot be computed -/

def hollowStorage : Storage where
  vars := []
  placeholders := [⟨"x", .float [2, 0], false⟩, ⟨"slice", .float [0], false⟩,
    ⟨"y", .float [1], false⟩, ⟨"z", .float [1], false⟩]

/-- Saves `y` to `z`. Nothing comes of the sum before, which no kernel computes because the slice has no
elements. -/
def hollow : Function where
  name := "hollow"
  nodes := [
    ⟨"sum", .batched .add, [.storage (.placeholder 0), .storage (.placeholder 1)], [.float [2, 0]]⟩,
    ⟨"keep", .save (.placeholder 3), [.storage (.placeholder 2)], []⟩]

/-- Zeros for every placeholder. -/
def hollowBindings : IdMap (Tensor Single) :=
  .ofList (hollowStorage.placeholders.zipIdx.map fun (p, i) => (i, .zeros p.type))

theorem arena_hollow : hollow.Arena hollowStorage := by
  intro i n hn
  match i, hn with
  | 0, hn =>
    obtain rfl := Option.some.inj hn
    exact ⟨[.float [2, 0], .float [0]], rfl, .cons rfl (.cons rfl .nil), rfl, rfl⟩
  | 1, hn =>
    obtain rfl := Option.some.inj hn
    exact ⟨[.float [1]], rfl, .cons rfl .nil, rfl, rfl⟩

/-- The sum ends the evaluation of `hollow` before anything is saved. Elimination removes the sum, and
what is left saves `y`. -/
theorem eliminateDead_hollow :
    hollow.Arena hollowStorage ∧ hollow.Wired ∧ (hollow.nodes.map (·.name)).Nodup ∧
      (hollow.evaluation [] hollowBindings fun _ => none).writes = [] ∧
      (hollow.eliminateDead.evaluation [] hollowBindings fun _ => none).writes =
        [⟨0, .placeholder 3, .zeros (.float [1]), none⟩] :=
  ⟨arena_hollow, Function.wired_ofNodes arena_hollow.readsEarlier, by decide, by decide +kernel,
    by decide +kernel⟩

end Sample

end TensorCompiler
