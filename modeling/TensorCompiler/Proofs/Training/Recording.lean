import TensorCompiler.Proofs.Training.Total

/-!
For which values the gradient pass records contributions. A pass `Keeps` the table when it only builds
nodes, and `Records` a list of values when it adds a contribution to each of them that is wanted, and to
no other. A rule records the operands of its node (`records_rule`); so a visit records what the node
passes its gradient to (`visit_owes`).
-/

namespace TensorCompiler

namespace Node

/-- The values a node passes a gradient to: a loss to its first operand, a save to its own, and any
other node to all of them, once it has got a gradient itself. -/
def PassesTo (n : Node) (v : Value) (reached : Prop) : Prop :=
  if n.op.isLoss then n.inputs[0]? = some v
  else v ∈ n.inputs ∧ (n.destination?.isSome = true ∨ reached)

variable {n : Node} {v : Value} {reached : Prop}

theorem passesTo_save {ref : StorageRef} (h : n.op = .save ref) :
    n.PassesTo v reached ↔ v ∈ n.inputs := by
  simp [PassesTo, destination?, h, Operator.isLoss]

theorem passesTo_loss (h : n.op.isLoss = true) :
    n.PassesTo v reached ↔ n.inputs[0]? = some v := by
  simp [PassesTo, h]

theorem passesTo_inner (hloss : n.op.isLoss = false) (hsave : n.destination? = none) :
    n.PassesTo v reached ↔ v ∈ n.inputs ∧ reached := by
  simp [PassesTo, hloss, hsave]

theorem PassesTo.mem (h : n.PassesTo v reached) : v ∈ n.inputs := by
  unfold PassesTo at h
  split at h
  · exact List.mem_of_getElem? h
  · exact h.1

/-- Whether the node itself has a gradient matters only where it is no terminal. -/
theorem passesTo_congr {reached' : Prop} (h : n.op.isLoss = false → n.destination? = none →
    v ∈ n.inputs → (reached ↔ reached')) : n.PassesTo v reached ↔ n.PassesTo v reached' := by
  by_cases hloss : n.op.isLoss = true
  · rw [passesTo_loss hloss, passesTo_loss hloss]
  · rw [PassesTo, PassesTo, if_neg hloss, if_neg hloss]
    refine and_congr_right fun hv => ?_
    cases hd : n.destination? with
    | some ref => simp
    | none => simpa using h (by simpa using hloss) hd hv

end Node

namespace Training

/-- A contribution to the value is recorded. -/
def Backward.Owes (st : Backward) (v : Value) : Prop := v ∈ st.pending.map (·.1)

instance (st : Backward) (v : Value) : Decidable (st.Owes v) :=
  inferInstanceAs (Decidable (v ∈ st.pending.map (·.1)))

/-- The pass leaves the table of contributions as it is. -/
def Keeps {β : Type} (p : Pass β) : Prop :=
  ∀ ⦃st st' : Backward⦄ ⦃b : β⦄, p.run st = .ok (b, st') → st'.pending = st.pending

/-- The pass adds contributions to those of the values that are wanted. -/
def Records (src : Source) (p : Pass Unit) (values : List Value) : Prop :=
  ∀ ⦃st st' : Backward⦄, p.run st = .ok ((), st') →
    ∀ v, st'.Owes v ↔ st.Owes v ∨ (src.wants v = true ∧ v ∈ values)

variable {src : Source} {β γ : Type} {st st' : Backward} {v : Value}

/-! ## Passes that only build -/

theorem keeps_pure (b : β) : Keeps (pure b : Pass β) := by
  intro st st' c hrun
  obtain ⟨-, rfl⟩ := run_pure_ok_iff.1 hrun
  rfl

theorem Keeps.bind {p : Pass β} {k : β → Pass γ} (hp : Keeps p) (hk : ∀ b, Keeps (k b)) :
    Keeps (p >>= k) := by
  intro st st' c hrun
  obtain ⟨b, st₁, hfirst, hrest⟩ := run_bind_ok_iff.1 hrun
  exact (hk b hrest).trans (hp hfirst)

theorem keeps_emit (name : String) (op : Operator) (inputs : List Value) :
    Keeps (src.emit name op inputs) := by
  intro st st' u hrun
  rw [run_emit] at hrun
  obtain ⟨f, -, hrun⟩ := bind_ok_iff.1 hrun
  obtain ⟨-, rfl⟩ := Prod.mk.inj (Except.ok.inj hrun)
  rfl

theorem keeps_typeOf (v : Value) : Keeps (src.typeOf v) := by
  intro st st' type hrun
  rw [run_typeOf] at hrun
  obtain ⟨t, -, hrun⟩ := bind_ok_iff.1 hrun
  obtain ⟨-, rfl⟩ := Prod.mk.inj (Except.ok.inj hrun)
  rfl

theorem keeps_constant (name : String) (like : Value) (x : Single) :
    Keeps (src.constant name like x) :=
  (keeps_typeOf like).bind fun _ => keeps_emit ..

theorem keeps_sigmoidGradient (name : String) (out g : Value) :
    Keeps (src.sigmoidGradient name out g) :=
  (keeps_constant ..).bind fun _ => (keeps_emit ..).bind fun _ => (keeps_emit ..).bind fun _ =>
    keeps_emit ..

theorem keeps_tanhGradient (name : String) (out g : Value) : Keeps (src.tanhGradient name out g) :=
  (keeps_constant ..).bind fun _ => (keeps_emit ..).bind fun _ => (keeps_emit ..).bind fun _ =>
    keeps_emit ..

/-! ## Passes that record -/

theorem records_nothing : Records src (pure ()) [] := by
  intro st st' hrun v
  obtain ⟨-, rfl⟩ := run_pure_ok_iff.1 hrun
  simp

theorem records_contribute (v g : Value) : Records src (src.contribute v g) [v] := by
  intro st st' hrun u
  obtain rfl : (if src.wants v then { st with pending := st.pending ++ [(v, g)] } else st) = st' :=
    (Prod.mk.inj (Except.ok.inj hrun)).2
  by_cases hwants : src.wants v = true
  · rw [if_pos hwants, Backward.Owes, Backward.Owes, List.map_append, List.mem_append]
    refine or_congr_right ⟨fun hu => ?_, fun hu => hu.2⟩
    obtain rfl := List.mem_singleton.1 hu
    exact ⟨hwants, List.mem_singleton_self _⟩
  · rw [if_neg hwants]
    refine ⟨.inl, fun hu => hu.resolve_right ?_⟩
    rintro ⟨hwanted, hmem⟩
    obtain rfl := List.mem_singleton.1 hmem
    exact hwants hwanted

theorem Records.seq {p q : Pass Unit} {values values' : List Value} (hp : Records src p values)
    (hq : Records src q values') : Records src (p >>= fun _ => q) (values ++ values') := by
  intro st st' hrun v
  obtain ⟨_, st₁, hfirst, hrest⟩ := run_bind_ok_iff.1 hrun
  rw [hq hrest v, hp hfirst v, List.mem_append, and_or_left, or_assoc]

theorem Keeps.records {p : Pass β} {k : β → Pass Unit} {values : List Value} (hp : Keeps p)
    (hk : ∀ b, Records src (k b) values) : Records src (p >>= k) values := by
  intro st st' hrun v
  obtain ⟨b, st₁, hfirst, hrest⟩ := run_bind_ok_iff.1 hrun
  rw [hk b hrest v, Backward.Owes, hp hfirst, Backward.Owes]

theorem records_contributeFrom (v : Value) {p : Pass Value} (hp : Keeps p) :
    Records src (src.contributeFrom v p) [v] := by
  rw [contributeFrom_eq]
  split
  · exact hp.records fun g => records_contribute v g
  · next hwants =>
    intro st st' hrun u
    obtain ⟨-, rfl⟩ := run_pure_ok_iff.1 hrun
    refine ⟨.inl, fun hu => hu.resolve_right ?_⟩
    rintro ⟨hwanted, hmem⟩
    obtain rfl := List.mem_singleton.1 hmem
    exact hwants hwanted

theorem records_forM {p : β → Pass Unit} {l : List β} (value : β → Value)
    (h : ∀ x ∈ l, Records src (p x) [value x]) : Records src (l.forM p) (l.map value) := by
  induction l with
  | nil => exact records_nothing
  | cons x l ih =>
    exact (h x List.mem_cons_self).seq (ih fun y hy => h y (List.mem_cons_of_mem _ hy))

/-! ## Rules -/

theorem records_noRule (n : Node) (values : List Value) : Records src (src.noRule n) values := nofun

theorem records_layer (name : String) (op : Operator) (inputs : List Value) (g : Value) :
    Records src (src.contributeLayer name op inputs g) inputs := by
  intro st st' hrun v
  obtain ⟨u, st₁, hemit, hrest⟩ := run_bind_ok_iff.1 hrun
  have hkept := keeps_emit _ _ _ hemit
  rw [run_emit] at hemit
  obtain ⟨f, -, hemit⟩ := bind_ok_iff.1 hemit
  obtain ⟨rfl, -⟩ := Prod.mk.inj (Except.ok.inj hemit)
  have hall := records_forM (l := inputs.zipIdx) Prod.fst
    (fun x _ => records_contribute x.1 (.node st.function.size x.2)) hrest v
  rwa [List.zipIdx_map_fst, Backward.Owes, Backward.Owes, hkept] at hall

theorem records_matmul (name : String) (left right g : Value) :
    Records src (src.matmulRule name left right g) [left, right] := by
  refine (keeps_typeOf right).records fun type => (records_contributeFrom left ?_).seq
    (records_contributeFrom right ?_)
  · exact (keeps_emit ..).bind fun _ => keeps_emit ..
  · refine (keeps_emit ..).bind fun _ => (keeps_emit ..).bind fun product => ?_
    split
    · exact keeps_emit ..
    · exact keeps_pure product

theorem records_batched (name : String) (op : BatchOp) (batch slice g : Value) :
    Records src (src.batchedRule name op batch slice g) [batch, slice] := by
  cases op with
  | add =>
    exact (records_contribute batch g).seq (records_contributeFrom slice (keeps_emit ..))
  | mul =>
    rw [batchedRule_mul]
    have hmaybe {c : Bool} {name : String} {op : Operator} {inputs : List Value} :
        Keeps (if c then src.emit name op inputs else pure g) := by
      split
      · exact keeps_emit ..
      · exact keeps_pure g
    exact hmaybe.records fun gradient => hmaybe.records fun scaled =>
      (records_contribute batch gradient).seq (records_contributeFrom slice (keeps_emit ..))

/-- A rule records the operands of its node. -/
theorem records_rule {n : Node} (hlength : n.inputs.length = n.op.arity) (out g : Value) :
    Records src (src.rule n out g) n.inputs := by
  obtain ⟨name, op, inputs, results⟩ := n
  dsimp only at hlength
  unfold Source.rule
  dsimp only
  split
  case h_1 x y => exact (records_contribute x g).seq (records_contribute y g)
  case h_2 x y =>
    exact (records_contribute x g).seq
      (records_contributeFrom y ((keeps_constant ..).bind fun _ => keeps_emit ..))
  case h_3 x y =>
    exact (records_contributeFrom x (keeps_emit ..)).seq (records_contributeFrom y (keeps_emit ..))
  case h_5 x => exact records_contributeFrom x (keeps_sigmoidGradient ..)
  case h_6 x => exact records_contributeFrom x (keeps_tanhGradient ..)
  case h_7 =>
    rw [List.length_eq_zero_iff.1 hlength]
    exact records_nothing
  case h_8 x => exact records_contributeFrom x ((keeps_typeOf x).bind fun _ => keeps_emit ..)
  case h_10 | h_12 => exact records_layer ..
  case h_14 => exact records_matmul ..
  case h_15 x => exact records_contributeFrom x ((keeps_constant ..).bind fun _ => keeps_emit ..)
  case h_16 => exact records_batched ..
  case h_17 => exact records_noRule ..
  all_goals exact records_contributeFrom _ (keeps_emit ..)

/-! ## Visits -/

/-- The table without the contributions to one value. -/
theorem mem_dropped {pending : List (Value × Value)} {u : Value} :
    u ∈ (pending.filter (·.1 ≠ v)).map (·.1) ↔ u ∈ pending.map (·.1) ∧ u ≠ v := by
  simp only [List.mem_map, List.mem_filter, decide_eq_true_eq]
  constructor
  · rintro ⟨p, ⟨hp, hne⟩, rfl⟩
    exact ⟨⟨p, hp, rfl⟩, hne⟩
  · rintro ⟨⟨p, hp, rfl⟩, hne⟩
    exact ⟨p, ⟨hp, hne⟩, rfl⟩

theorem sum_run {label : String} {rest : List Value} {first g : Value}
    (hrun : (rest.foldlM (fun total part => src.emit label (.binary .add) [total, part]) first).run
      st = .ok (g, st')) :
    st'.pending = st.pending ∧
      ∃ new, st'.function.nodes = st.function.nodes ++ new ∧ ∀ n ∈ new, n.op = .binary .add := by
  induction rest generalizing st first with
  | nil =>
    obtain ⟨-, rfl⟩ := run_pure_ok_iff.1 hrun
    exact ⟨rfl, [], by simp, nofun⟩
  | cons part rest ih =>
    obtain ⟨total, st₁, hemit, hrest⟩ := run_bind_ok_iff.1 hrun
    rw [run_emit] at hemit
    obtain ⟨f, hf, hemit⟩ := bind_ok_iff.1 hemit
    obtain ⟨-, rfl⟩ := Prod.mk.inj (Except.ok.inj hemit)
    obtain ⟨types, n, -, hop, -, -, -, -, rfl⟩ := Function.append_ok hf
    obtain ⟨hpending, new, hnodes, hnew⟩ := ih hrest
    refine ⟨hpending, n :: new, by simp [hnodes], fun m hm => ?_⟩
    rcases List.mem_cons.1 hm with rfl | hm
    · exact hop
    · exact hnew m hm

/-- The gradient of a value is taken off the table, if there is one, and added up. -/
theorem takeGradient_run {label : String} {r : Option Value}
    (hrun : (src.takeGradient v label).run st = .ok (r, st')) :
    (∀ u, st'.Owes u ↔ st.Owes u ∧ u ≠ v) ∧ (r.isSome = true ↔ st.Owes v) ∧
      ∃ new, st'.function.nodes = st.function.nodes ++ new ∧ ∀ n ∈ new, n.op = .binary .add := by
  obtain ⟨parts, st₁, hfirst, hrest⟩ := run_bind_ok_iff.1 hrun
  obtain ⟨hparts, rfl⟩ := Prod.mk.inj (Except.ok.inj hfirst)
  have howes : parts ≠ [] ↔ st.Owes v := by
    rw [← hparts, Backward.Owes, ne_eq, List.map_eq_nil_iff, List.filter_eq_nil_iff]
    simp
  cases parts with
  | nil =>
    obtain ⟨rfl, rfl⟩ := run_pure_ok_iff.1 hrest
    exact ⟨fun u => mem_dropped, by simpa using howes, [], by simp, nofun⟩
  | cons first rest =>
    obtain ⟨g, st₂, hsum, hlast⟩ := run_bind_ok_iff.1 hrest
    obtain ⟨rfl, rfl⟩ := run_pure_ok_iff.1 hlast
    obtain ⟨hpending, hnew⟩ := sum_run hsum
    refine ⟨fun u => ?_, by simpa using howes, hnew⟩
    rw [Backward.Owes, hpending]
    exact mem_dropped

/-- A loss drops what is recorded for it. -/
theorem takePending_owes {u : Value} {p : Pass Unit} {values : List Value}
    (hp : Records src p values)
    (hrun : (Source.takePending u >>= fun _ => p).run st = .ok ((), st')) (hv : v ≠ u) :
    st'.Owes v ↔ st.Owes v ∨ (src.wants v = true ∧ v ∈ values) := by
  obtain ⟨taken, st₁, hfirst, hrest⟩ := run_bind_ok_iff.1 hrun
  obtain ⟨-, rfl⟩ := Prod.mk.inj (Except.ok.inj hfirst)
  rw [hp hrest v, Backward.Owes, mem_dropped, and_iff_left hv, Backward.Owes]

/-- A visit records what its node passes a gradient to, if the node has one. -/
theorem visit_owes {n : Node} {i : Nat} (hlength : n.inputs.length = n.op.arity)
    (hrun : (src.visit n i).run st = .ok ((), st')) (hv : v ≠ .node i 0) :
    st'.Owes v ↔
      st.Owes v ∨ (src.wants v = true ∧ n.PassesTo v (st.Owes (.node i 0))) := by
  have hfirst (x y : Value) : [x, y][0]? = some v ↔ v ∈ [x] := by
    rw [List.mem_singleton, eq_comm]
    exact Option.some_inj
  unfold Source.visit at hrun
  split at hrun
  case h_1 ref x hop hin =>
    rw [Node.passesTo_save hop, hin]
    exact records_contributeFrom x (keeps_constant ..) hrun v
  case h_2 x labels hop hin =>
    rw [Node.passesTo_loss (by rw [hop]; rfl), hin, hfirst]
    exact takePending_owes (records_contributeFrom x (keeps_emit ..)) hrun hv
  case h_3 x expected hop hin =>
    rw [Node.passesTo_loss (by rw [hop]; rfl), hin, hfirst]
    exact takePending_owes (records_contributeFrom x (keeps_emit ..)) hrun hv
  case h_11 hsave hsoftMax hregression =>
    have hinner : n.op.isLoss = false ∧ n.destination? = none := by
      cases hop : n.op with
      | save ref =>
        obtain ⟨x, hin⟩ := List.length_eq_one_iff.1 (hop ▸ hlength)
        exact absurd hin (hsave ref x hop)
      | softMax =>
        obtain ⟨x, labels, hin⟩ := List.length_eq_two.1 (hop ▸ hlength)
        exact absurd hin (hsoftMax x labels hop)
      | regression =>
        obtain ⟨x, expected, hin⟩ := List.length_eq_two.1 (hop ▸ hlength)
        exact absurd hin (hregression x expected hop)
      | _ => exact ⟨rfl, by simp [Node.destination?, hop]⟩
    rw [Node.passesTo_inner hinner.1 hinner.2]
    obtain ⟨r, st₁, htake, hrest⟩ := run_bind_ok_iff.1 hrun
    obtain ⟨hleft, howes, -⟩ := takeGradient_run htake
    cases r with
    | none =>
      obtain ⟨-, rfl⟩ := run_pure_ok_iff.1 hrest
      have hnone : ¬ st.Owes (.node i 0) := fun h => by simpa using howes.2 h
      simp [hleft v, hv, hnone]
    | some g =>
      rw [records_rule hlength _ g hrest v, hleft v, and_iff_left hv, and_iff_left (howes.1 rfl)]
  all_goals cases hrun

end Training

end TensorCompiler
