import TensorCompiler.Proofs.Training.Differentiate
import TensorCompiler.Proofs.Training.Recording

/-!
Training updates exactly the storage that reaches a terminal. Before the visit of a node the table holds
contributions to what the nodes from there on have reached (`Swept.step`), so after all visits to the
trained storage from which a path leads to a save or a loss, and the updates turn each of them into one
step of descent (`Module.differentiate_trains`).
-/

namespace TensorCompiler

open Training

/-- A path of operands leads from the value to a save or to the first operand of a loss, through nodes
that are no losses. -/
inductive Function.Reaches (f : Function) : Value → Prop
  | save {i : Nat} {n : Node} {ref : StorageRef} {v : Value} :
      f.nodes[i]? = some n → n.op = .save ref → v ∈ n.inputs → Reaches f v
  | loss {i : Nat} {n : Node} {v : Value} :
      f.nodes[i]? = some n → n.op.isLoss = true → n.inputs[0]? = some v → Reaches f v
  | through {i r : Nat} {n : Node} {v : Value} :
      f.nodes[i]? = some n → n.op.isLoss = false → v ∈ n.inputs → Reaches f (.node i r) →
      Reaches f v

namespace Node

/-- The storage that a step of descent updates. -/
def weight? (n : Node) : Option StorageRef :=
  match n.op, n.inputs with
  | .sgd _, [_, .storage ref] => some ref
  | _, _ => none

theorem weight?_eq_some_iff {n : Node} {ref : StorageRef} : n.weight? = some ref ↔
    ∃ p v, n.op = .sgd p ∧ n.inputs = [v, .storage ref] := by
  unfold weight?
  split <;> simp_all

theorem weight?_renumber (number : Nat → Nat) (n : Node) :
    (n.renumber number).weight? = n.weight? := by
  refine Option.ext fun ref => ?_
  rw [weight?_eq_some_iff, weight?_eq_some_iff]
  constructor
  · rintro ⟨p, v, hop, hin⟩
    obtain ⟨u, rest, hinputs, -, hrest⟩ := List.map_eq_cons_iff.1 hin
    obtain ⟨w, rfl, hw⟩ := List.map_eq_singleton_iff.1 hrest
    cases w <;> cases hw
    exact ⟨p, u, hop, hinputs⟩
  · rintro ⟨p, v, hop, hin⟩
    exact ⟨p, v.renumber number, hop, by simp [renumber, hin, Value.renumber]⟩

/-- A step of descent takes the settings, and updates storage. -/
def DescendsBy (settings : Descent) (n : Node) : Prop :=
  ∀ p, n.op = .sgd p → p = settings ∧ ∃ v ref, n.inputs = [v, .storage ref]

end Node

namespace Function

/-- The storage that steps of descent update, in their order. -/
def weights (f : Function) : List StorageRef := f.nodes.filterMap Node.weight?

variable {s : Storage} {f : Function} {v : Value} {k : Nat}

theorem reaches_iff {f : Function} {v : Value} : f.Reaches v ↔
    ∃ i n, f.nodes[i]? = some n ∧ Node.PassesTo n v (∃ r, f.Reaches (.node i r)) := by
  constructor
  · intro h
    cases h with
    | save hn hop hv => exact ⟨_, _, hn, (Node.passesTo_save hop).2 hv⟩
    | loss hn hloss hv => exact ⟨_, _, hn, (Node.passesTo_loss hloss).2 hv⟩
    | through hn hloss hv h => exact ⟨_, _, hn, by simpa [Node.PassesTo, hloss, hv] using .inr ⟨_, h⟩⟩
  · rintro ⟨i, n, hn, hpasses⟩
    by_cases hloss : n.op.isLoss = true
    · exact .loss hn hloss ((Node.passesTo_loss hloss).1 hpasses)
    · rw [Node.PassesTo, if_neg hloss] at hpasses
      obtain ⟨hv, hsave | ⟨r, h⟩⟩ := hpasses
      · unfold Node.destination? at hsave
        split at hsave
        · next hop => exact .save hn hop hv
        · cases hsave
      · exact .through hn (by simpa using hloss) hv h

/-- Elimination of dead nodes leaves every step of descent. -/
theorem weights_eliminateDead (f : Function) : f.eliminateDead.weights = f.weights := by
  rw [weights, nodes_eliminateDead, List.filterMap_map]
  refine filterMap_kept fun ⟨n, i⟩ hx => ?_
  split
  · exact Node.weight?_renumber _ n
  · next hdead =>
    refine Option.eq_none_iff_forall_ne_some.2 fun ref hweight => hdead ?_
    obtain ⟨p, v, hop, -⟩ := Node.weight?_eq_some_iff.1 hweight
    exact List.contains_iff_mem.2 (sink_mem_mark hx (by rw [hop]; rfl))

/-- The value reaches a terminal by way of a node from `k` on. -/
def ReachesAfter (f : Function) (k : Nat) (v : Value) : Prop :=
  ∃ i n, k ≤ i ∧ f.nodes[i]? = some n ∧ Node.PassesTo n v (∃ r, f.Reaches (.node i r))

theorem reachesAfter_zero : f.ReachesAfter 0 v ↔ f.Reaches v := by
  rw [reaches_iff]
  exact exists_congr fun i => exists_congr fun n => and_iff_right (Nat.zero_le i)

theorem reachesAfter_iff {n : Node} (hn : f.nodes[k]? = some n) : f.ReachesAfter k v ↔
    f.ReachesAfter (k + 1) v ∨ n.PassesTo v (∃ r, f.Reaches (.node k r)) := by
  constructor
  · rintro ⟨i, m, hi, hm, hpasses⟩
    rcases Nat.eq_or_lt_of_le hi with rfl | hi
    · obtain rfl := Option.some.inj (hn.symm.trans hm)
      exact .inr hpasses
    · exact .inl ⟨i, m, hi, hm, hpasses⟩
  · rintro (⟨i, m, hi, hm, hpasses⟩ | hpasses)
    · exact ⟨i, m, Nat.le_of_succ_le hi, hm, hpasses⟩
    · exact ⟨k, n, Nat.le_refl k, hn, hpasses⟩

/-- What reads a node stands after it. -/
theorem Arena.reachesAfter_node (h : f.Arena s) {r : Nat} :
    f.ReachesAfter (k + 1) (.node k r) ↔ f.Reaches (.node k r) := by
  rw [reaches_iff]
  constructor
  · rintro ⟨i, n, -, hn⟩
    exact ⟨i, n, hn⟩
  · rintro ⟨i, n, hn, hpasses⟩
    exact ⟨i, n, h.earlier hn hpasses.mem, hn, hpasses⟩

/-- A result that reaches a terminal is a result that the node has. -/
theorem Arena.result_of_reaches (h : f.Arena s) {r : Nat} {n : Node} (hn : f.nodes[k]? = some n)
    (hreaches : f.Reaches (.node k r)) : r < n.results.length := by
  obtain ⟨i, m, hm, hpasses⟩ := reaches_iff.1 hreaches
  obtain ⟨types, hwt⟩ := h hm
  obtain ⟨type, -, -, n', hn', hr⟩ := exists_right_of_forall₂ hwt.operands hpasses.mem
  obtain rfl := Option.some.inj (hn.symm.trans hn')
  exact (List.getElem?_eq_some_iff.1 hr).1

end Function

namespace Training

variable {s : Storage} {f : Function} {st st' : Backward} {k : Nat} {n : Node} {v : Value}

/-- A float operand makes the result a float. -/
theorem isFloat_of_operand {op : Operator} {types results : List TensorType} {type : TensorType}
    (h : Typing.Typed s op types results) (hsink : op.isSink = false) (htype : type ∈ types)
    (hfloat : type.isFloat = true) : (results.head?.map (·.isFloat)).getD false = true := by
  cases h with
  | splat => cases htype
  | reshape | transpose =>
    obtain rfl := List.mem_singleton.1 htype
    exact hfloat
  | save | sgd => cases hsink
  | _ => rfl

/-- What has a wanted operand is wanted. -/
theorem wants_of_operand (h : f.Arena s) (hn : f.nodes[k]? = some n) (hsink : n.op.isSink = false)
    (hv : v ∈ n.inputs) (hwants : (Source.ofFunction s f).wants v = true) (r : Nat) :
    (Source.ofFunction s f).wants (.node k r) = true := by
  obtain ⟨types, hwt⟩ := h hn
  obtain ⟨type, htype, hoperand⟩ := exists_right_of_forall₂ hwt.operands hv
  have hfloat := isFloat_of_wants h (Function.operandType_iff.1 hoperand).1 hwants
  rw [wants_node h hn, isFloat_of_operand hwt.typed hsink htype hfloat, Bool.true_and]
  exact List.any_eq_true.2 ⟨v, hv, hwants⟩

/-- What the pass can pass and does not save has one result. -/
theorem inner_of_hasRule {types : List TensorType} (h : Typing.Typed s n.op types n.results)
    (hrule : n.op.hasRule = true) (hsave : n.destination? = none) :
    n.op.isSink = false ∧ n.results.length ≤ 1 := by
  refine ⟨?_, length_results_le h (fun p hop => ?_) fun hop => ?_⟩
  · cases hop : n.op with
    | save ref => simp [Node.destination?, hop] at hsave
    | sgd p => exact absurd hop (not_sgd_of_hasRule hrule p)
    | _ => rfl
  all_goals
    rw [hop] at hrule
    cases hrule

/-! ## The sweep -/

/-- Before the visit of the nodes before `k`: of the values before them, those are owed something that
are wanted and have reached a terminal. -/
def Swept (s : Storage) (f : Function) (k : Nat) (st : Backward) : Prop :=
  ∀ v, Before k v → (st.Owes v ↔ (Source.ofFunction s f).wants v = true ∧ f.ReachesAfter k v)

theorem Swept.step (harena : f.Arena s) (hn : f.nodes[k]? = some n) (h : Swept s f (k + 1) st)
    (hrun : ((Source.ofFunction s f).visit n k).run st = .ok ((), st')) : Swept s f k st' := by
  intro v hv
  obtain ⟨types, hwt⟩ := harena hn
  have hne : v ≠ .node k 0 := fun heq => Nat.lt_irrefl k (hv heq)
  rw [visit_owes hwt.arity hrun hne, h v fun heq => Nat.lt_succ_of_lt (hv heq),
    Function.reachesAfter_iff hn, ← and_or_left]
  refine and_congr_right fun hwants => or_congr_right (Node.passesTo_congr fun _ hsave hmem => ?_)
  obtain ⟨hsink, hresults⟩ := inner_of_hasRule hwt.typed (hasRule_of_visit hrun) hsave
  rw [h _ fun heq => (Value.node.inj heq).1 ▸ Nat.lt_succ_self k, harena.reachesAfter_node,
    and_iff_right (wants_of_operand harena hn hsink hmem hwants 0)]
  constructor
  · exact fun hreaches => ⟨0, hreaches⟩
  · rintro ⟨r, hreaches⟩
    have hr := harena.result_of_reaches hn hreaches
    obtain rfl : r = 0 := by omega
    exact hreaches

/-- The visits of the first `k` nodes, from the last to the first. -/
theorem Swept.visits (harena : f.Arena s) (hk : k ≤ f.nodes.length) (h : Swept s f k st)
    (hrun : ((f.nodes.zipIdx.take k).reverse.forM fun (n, i) =>
      (Source.ofFunction s f).visit n i).run st = .ok ((), st')) : Swept s f 0 st' := by
  induction k generalizing st with
  | zero =>
    obtain ⟨-, rfl⟩ := run_pure_ok_iff.1 hrun
    exact h
  | succ k ih =>
    have hn : f.nodes[k]? = some f.nodes[k] := List.getElem?_eq_getElem hk
    have hlt : k < f.nodes.zipIdx.length := by simpa using hk
    have hlast : f.nodes.zipIdx.take (k + 1) = f.nodes.zipIdx.take k ++ [(f.nodes[k], k)] := by
      simp [List.take_succ_eq_append_getElem hlt]
    rw [hlast, List.reverse_append] at hrun
    obtain ⟨_, st₁, hvisit, hrest⟩ := run_bind_ok_iff.1 hrun
    exact ih (Nat.le_of_succ_le hk) (h.step harena hn hvisit) hrest

/-- After all visits, those of the storage are owed something that are trained and reach a terminal. -/
theorem owes_of_backpropagate (harena : f.Arena s) (hstart : st.pending = [])
    (hrun : (Source.ofFunction s f).backpropagate.run st = .ok ((), st')) (ref : StorageRef) :
    st'.Owes (.storage ref) ↔ s.isTrainableFloat ref = true ∧ f.Reaches (.storage ref) := by
  have hempty : Swept s f f.nodes.length st := by
    intro v _
    refine iff_of_false (by simp [Backward.Owes, hstart]) ?_
    rintro ⟨-, i, n, hi, hn, -⟩
    exact absurd (List.getElem?_eq_some_iff.1 hn).1 (Nat.not_lt.2 hi)
  have hall : f.nodes.zipIdx.take f.nodes.length = f.nodes.zipIdx :=
    List.take_of_length_le (by simp)
  rw [Source.backpropagate, show (Source.ofFunction s f).function = f from rfl, ← hall] at hrun
  have hswept := hempty.visits harena (Nat.le_refl _) hrun
  have hbefore : Before 0 (.storage ref) := fun heq => by cases heq
  exact (hswept _ hbefore).trans (and_congr_right fun _ => Function.reachesAfter_zero)

/-! ## The updates -/

variable {src : Source} {settings : Descent}

/-- The update of one storage: a step of descent, if it is owed something. -/
theorem update_run {ref : StorageRef}
    (hrun : (src.update settings ref).run st = .ok ((), st')) :
    (∀ v, v ≠ .storage ref → (st'.Owes v ↔ st.Owes v)) ∧
      ∃ new, st'.function.nodes = st.function.nodes ++ new ∧
        new.filterMap Node.weight? =
          [ref].filter (fun ref => src.storage.isTrainable ref && st.Owes (.storage ref)) ∧
        ∀ n ∈ new, n.DescendsBy settings := by
  unfold Source.update at hrun
  split at hrun
  · next htrainable =>
    obtain ⟨r, st₁, htake, hrest⟩ := run_bind_ok_iff.1 hrun
    obtain ⟨hleft, howes, new, hnodes, hnew⟩ := takeGradient_run htake
    have hsums : new.filterMap Node.weight? = [] := by
      refine List.filterMap_eq_nil_iff.2 fun n hn => ?_
      simp [Node.weight?, hnew n hn]
    have hsettings (n : Node) (hn : n ∈ new) : n.DescendsBy settings :=
      fun p hop => nomatch (hnew n hn).symm.trans hop
    cases r with
    | none =>
      obtain ⟨-, rfl⟩ := run_pure_ok_iff.1 hrest
      have hnone : ¬ st.Owes (.storage ref) := fun h => nomatch howes.2 h
      exact ⟨fun v hv => by rw [hleft v, and_iff_left hv], new, hnodes, by simp [hsums, hnone],
        hsettings⟩
    | some g =>
      obtain ⟨u, st₂, hemit, hlast⟩ := run_bind_ok_iff.1 hrest
      obtain ⟨-, rfl⟩ := run_pure_ok_iff.1 hlast
      have hkept := keeps_emit _ _ _ hemit
      rw [run_emit] at hemit
      obtain ⟨f, hf, hemit⟩ := bind_ok_iff.1 hemit
      obtain ⟨-, rfl⟩ := Prod.mk.inj (Except.ok.inj hemit)
      obtain ⟨types, n, -, hop, hin, -, -, -, rfl⟩ := Function.append_ok hf
      have hweight : n.weight? = some ref := Node.weight?_eq_some_iff.2 ⟨settings, g, hop, hin⟩
      refine ⟨fun v hv => ?_, new ++ [n], by simp [hnodes], ?_, fun m hm => ?_⟩
      · exact (hleft v).trans (and_iff_left hv)
      · simp [hsums, hweight, htrainable, howes.1 rfl]
      · rcases List.mem_append.1 hm with hm | hm
        · exact hsettings m hm
        · obtain rfl := List.mem_singleton.1 hm
          intro p hp
          exact ⟨Operator.sgd.inj (hp.symm.trans hop), g, ref, hin⟩
  · next hno =>
    obtain ⟨-, rfl⟩ := run_pure_ok_iff.1 hrun
    exact ⟨fun _ _ => Iff.rfl, [], by simp, by simp [hno], nofun⟩

/-- The updates of a list of storage: a step of descent for each that is owed something. -/
theorem updates_run {refs : List StorageRef} (hnodup : refs.Nodup)
    (hrun : (refs.forM (src.update settings)).run st = .ok ((), st')) :
    ∃ new, st'.function.nodes = st.function.nodes ++ new ∧
      new.filterMap Node.weight? =
        refs.filter (fun ref => src.storage.isTrainable ref && st.Owes (.storage ref)) ∧
      ∀ n ∈ new, n.DescendsBy settings := by
  induction refs generalizing st with
  | nil =>
    obtain ⟨-, rfl⟩ := run_pure_ok_iff.1 hrun
    exact ⟨[], by simp, rfl, nofun⟩
  | cons ref refs ih =>
    obtain ⟨hnotin, hnodup⟩ := List.nodup_cons.1 hnodup
    obtain ⟨_, st₁, hfirst, hrest⟩ := run_bind_ok_iff.1 hrun
    obtain ⟨howes, new, hnodes, hweights, hnew⟩ := update_run hfirst
    obtain ⟨new', hnodes', hweights', hnew'⟩ := ih hnodup hrest
    refine ⟨new ++ new', by rw [hnodes', hnodes, List.append_assoc], ?_, fun n hn => ?_⟩
    · rw [List.filterMap_append, hweights, hweights', show ref :: refs = [ref] ++ refs from rfl,
        List.filter_append]
      refine congrArg _ (List.filter_congr fun other hother => ?_)
      have hne : Value.storage other ≠ .storage ref := by
        rintro ⟨⟩
        exact hnotin hother
      rw [Bool.decide_congr (howes _ hne)]
    · exact (List.mem_append.1 hn).elim (hnew n) (hnew' n)

variable {derived : Function}

/-- The nodes of a derivative before its updates, of which none takes a step, and the table that the
updates start from. -/
theorem exists_swept (hverify : f.verify s = .ok ())
    (hderived : (Source.ofFunction s f).derivative settings = .ok derived) :
    ∃ st, (∀ n ∈ st.function.nodes, ∀ p, n.op ≠ .sgd p) ∧
      (∀ ref, st.Owes (.storage ref) ↔ s.isTrainableFloat ref = true ∧ f.Reaches (.storage ref)) ∧
      ∃ st', (s.refs.forM ((Source.ofFunction s f).update settings)).run st = .ok ((), st') ∧
        st'.function = derived := by
  have harena := Function.arena_of_verify hverify
  have hrules := hasRule_of_derivative hderived
  obtain ⟨⟨_, st₂⟩, hrun, hlast⟩ := bind_ok_iff.1 hderived
  obtain ⟨_, st₁, hback, hupdates⟩ := run_bind_ok_iff.1 hrun
  let start : Function := { f with name := f.name ++ "_grad" }
  obtain ⟨f₁, pending₁, hback', ⟨gradients, hgradients, hquiet⟩, -, -⟩ :=
    passes_backpropagate (wantsFloats_ofFunction harena) harena hrules
      (show f.nodes <+: start.nodes from List.prefix_refl _)
      (draft_source harena (Function.linked_of_verify hverify))
      (show Contributions (Source.ofFunction s f) start [] from nofun)
  obtain ⟨-, rfl⟩ := Prod.mk.inj (Except.ok.inj (hback'.symm.trans hback))
  refine ⟨⟨f₁, pending₁⟩, fun n hn p hop => ?_, owes_of_backpropagate harena rfl hback, st₂, hupdates,
    Except.ok.inj hlast⟩
  rcases List.mem_append.1 (hgradients ▸ hn) with hn | hn
  · exact not_sgd_of_hasRule (hrules n hn) p hop
  · simpa [hop, Operator.isSink] using hquiet n hn

/-- The steps of descent of a derivative: in order, one for each trained storage that reaches a
terminal. -/
theorem weights_of_derivative (hverify : f.verify s = .ok ())
    (hderived : (Source.ofFunction s f).derivative settings = .ok derived) :
    derived.weights.Sublist s.refs ∧
      (∀ ref, ref ∈ derived.weights ↔ s.isTrainableFloat ref = true ∧ f.Reaches (.storage ref)) ∧
      ∀ n ∈ derived.nodes, n.DescendsBy settings := by
  obtain ⟨st, hsteps, howes, st', hupdates, rfl⟩ := exists_swept hverify hderived
  obtain ⟨new, hnodes, hweights, hnew⟩ := updates_run s.nodup_refs hupdates
  have hold : st.function.nodes.filterMap Node.weight? = [] := by
    refine List.filterMap_eq_nil_iff.2 fun n hn => Option.eq_none_iff_forall_ne_some.2 ?_
    intro ref hweight
    obtain ⟨p, v, hop, -⟩ := Node.weight?_eq_some_iff.1 hweight
    exact hsteps n hn p hop
  have hlist : st'.function.weights =
      s.refs.filter (fun ref => s.isTrainable ref && st.Owes (.storage ref)) := by
    rw [Function.weights, hnodes, List.filterMap_append, hold, List.nil_append, hweights]
    rfl
  refine ⟨hlist ▸ List.filter_sublist, fun ref => ?_, fun n hn => ?_⟩
  · rw [hlist, List.mem_filter, Bool.and_eq_true, decide_eq_true_eq, howes ref]
    constructor
    · exact fun h => h.2.2
    · rintro ⟨htrained, hreaches⟩
      have hboth := htrained
      rw [Storage.isTrainableFloat, Bool.and_eq_true] at hboth
      obtain ⟨type, htype⟩ : ∃ type, s.type? ref = some type := by
        cases htype : s.type? ref with
        | none => simp [htype] at hboth
        | some type => exact ⟨type, rfl⟩
      exact ⟨Storage.mem_refs htype, hboth.1, htrained, hreaches⟩
  · rcases List.mem_append.1 (hnodes ▸ hn) with hn | hn
    · exact fun p hop => absurd hop (hsteps n hn p)
    · exact hnew n hn

end Training

/-- Storage stands in order: variables and then placeholders, each by number. -/
theorem Storage.refs_sorted (s : Storage) : s.refs.Pairwise fun a b => a.le b = true ∧ a ≠ b := by
  refine List.pairwise_append.2 ⟨?_, ?_, ?_⟩
  · rw [List.pairwise_map]
    refine List.pairwise_lt_range.imp fun {i j} hij => ⟨?_, fun heq => ?_⟩
    · simpa [StorageRef.le] using Nat.le_of_lt hij
    · exact Nat.ne_of_lt hij (StorageRef.var.inj heq)
  · rw [List.pairwise_map]
    refine List.pairwise_lt_range.imp fun {i j} hij => ⟨?_, fun heq => ?_⟩
    · simpa [StorageRef.le] using Nat.le_of_lt hij
    · exact Nat.ne_of_lt hij (StorageRef.placeholder.inj heq)
  · intro a ha b hb
    obtain ⟨i, -, rfl⟩ := List.mem_map.1 ha
    obtain ⟨j, -, rfl⟩ := List.mem_map.1 hb
    exact ⟨rfl, nofun⟩

namespace Module

/-- The steps of descent of a training function are, in order of their storage, one for each trained
float variable or placeholder from which a path leads to a save or to the first operand of a loss, and
no others. Each takes the settings, and a gradient of the type of its storage. -/
theorem differentiate_trains {m m' : Module} {id k : Nat} {settings : Descent}
    (h : m.differentiate id settings = .ok (k, m')) :
    ∃ f g, m.function id = .ok f ∧ m'.function k = .ok g ∧
      g.weights.Pairwise (fun a b => a.le b = true ∧ a ≠ b) ∧
      (∀ ref, ref ∈ g.weights ↔
        m.storage.isTrainableFloat ref = true ∧ f.Reaches (.storage ref)) ∧
      ∀ n ∈ g.nodes, ∀ p, n.op = .sgd p → p = settings ∧ ∃ v ref type,
        n.inputs = [v, .storage ref] ∧ m.storage.type? ref = some type ∧
        g.valueType m.storage v = .ok type := by
  obtain ⟨f, derived, hf, hverify, -, hderived, hdead, hinsert⟩ := differentiate_ok_iff.1 h
  obtain ⟨hsublist, hweights, hsteps⟩ := weights_of_derivative hverify hderived
  obtain ⟨rfl, rfl⟩ := Prod.mk.inj hinsert
  obtain ⟨g, hg, hnodes⟩ : ∃ g, (m.insertFunction derived.eliminateDead).2.function m.nextFunction =
      .ok g ∧ g.nodes = derived.eliminateDead.nodes := ⟨_, function_insertFunction .., rfl⟩
  have hsame : g.weights = derived.weights := by
    rw [← Function.weights_eliminateDead derived, Function.weights, hnodes, Function.weights]
  refine ⟨f, g, hf, hg, hsame ▸ m.storage.refs_sorted.sublist hsublist, hsame ▸ hweights,
    fun n hn p hop => ?_⟩
  obtain ⟨j, hj⟩ := List.getElem?_of_mem hn
  rw [hnodes] at hj
  obtain ⟨types, hwt⟩ := Function.wellTyped_of_verify hdead hj
  obtain ⟨i, n₀, hn₀, -, -, rfl⟩ := Function.getElem?_nodes_eliminateDead.1 hj
  obtain ⟨rfl, v, ref, hin⟩ := hsteps n₀ (List.mem_of_getElem? hn₀) p hop
  have hinputs : (n₀.renumber (Function.newNumber derived.live)).inputs =
      [v.renumber (Function.newNumber derived.live), .storage ref] := by
    simp [Node.renumber, hin, Value.renumber]
  have htyped := hwt.typed
  have hoperands := hwt.operands
  rw [hop] at htyped
  rw [hinputs] at hoperands
  generalize Node.results _ = results at htyped
  cases htyped with
  | sgd p shape =>
    obtain ⟨hv, hrest⟩ := List.forall₂_cons.1 hoperands
    exact ⟨rfl, _, ref, _, hinputs, (List.forall₂_cons.1 hrest).1,
      Function.valueType_mono (hnodes ▸ List.prefix_refl _) (Function.operandType_iff.1 hv).1⟩

/-- A weight that is multiplied by an input on the way to a loss is trained, the input is not. -/
theorem differentiate_trains_sample : ∃ k m' g,
    Sample.network.differentiate 0 Sample.descent = .ok (k, m') ∧ m'.function k = .ok g ∧
      .var 0 ∈ g.weights ∧ .placeholder 0 ∉ g.weights := by
  obtain ⟨f, hf, hverify⟩ := bind_ok_iff.1 Sample.verify_network
  obtain rfl := Except.ok.inj (Sample.function_network.symm.trans hf)
  obtain ⟨derived, hderived, -, hdead⟩ := exists_derived hverify (by decide) Sample.descent
  have hm := differentiate_ok_iff.2 ⟨_, derived, hf, hverify, rfl, hderived, hdead, rfl⟩
  obtain ⟨f, g, hf', hg, -, hweights, -⟩ := differentiate_trains hm
  obtain rfl := Except.ok.inj (hf.symm.trans hf')
  refine ⟨_, _, g, hm, hg, (hweights _).2 ⟨rfl, ?_⟩, fun h => ?_⟩
  · have hloss : Sample.product.Reaches (.node 0 0) := .loss (i := 1) rfl rfl rfl
    exact .through (i := 0) rfl rfl (by decide) hloss
  · cases ((hweights _).1 h).1

end Module

end TensorCompiler
