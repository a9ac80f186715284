import TensorCompiler.Proofs.Graph.Arena
import TensorCompiler.Proofs.Training.Tangent

/-!
Building gradient nodes, with their values. A pass runs from a solved world to a larger one. `Makes`
says of a pass that returns a value that it builds a float array with some property, and `Adds` of a
pass that records contributions by how much they change what is owed: the inner product of every
recorded gradient with the tangent of its value.
-/

namespace TensorCompiler

/-- A world after nodes have been added that write nothing. -/
structure World.Grows {α : Type} (w w' : World α) : Prop extends World.Extends w w' where
  quiet : Function.Grows w.function w'.function

theorem World.Grows.refl {α : Type} (w : World α) : Grows w w :=
  ⟨Extends.refl w, Function.Grows.refl _⟩

theorem World.Grows.trans {α : Type} {a b c : World α} (hab : Grows a b) (hbc : Grows b c) :
    Grows a c :=
  ⟨hab.toExtends.trans hbc.toExtends, hab.quiet.trans hbc.quiet⟩

theorem World.Grows.push {α : Type} (w : World α) {n : Node} (hn : n.op.isSink = false)
    (ts : List (Tensor α)) : Grows w (w.push n ts) :=
  ⟨Extends.push w n ts, [n], rfl, by simpa using hn⟩

/-- The inner product of a float value with a tangent. -/
def Valuation.pair {I : Interpretation} (g : Valuation (Exact I)) (v : Value) (tangent : Tangent I) :
    Exact I :=
  match g.value? v with
  | some (.floats d) => d.pair tangent
  | _ => 0

namespace Training

open World

/-! ## Runs -/

theorem run_bind_ok_iff {β γ : Type} {p : Pass β} {k : β → Pass γ} {st st' : Backward} {c : γ} :
    (p >>= k).run st = .ok (c, st') ↔
      ∃ b st₁, p.run st = .ok (b, st₁) ∧ (k b).run st₁ = .ok (c, st') := by
  rw [StateT.run_bind, bind_ok_iff, Prod.exists]

theorem run_pure_ok_iff {β : Type} {b c : β} {st st' : Backward} :
    (pure b : Pass β).run st = .ok (c, st') ↔ b = c ∧ st = st' := by
  rw [StateT.run_pure, pure_ok_iff, Prod.mk.injEq]

variable {I : Interpretation}

/-- The value is a value of the world, and where it is storage the source reads it. -/
abbrev Source.Holds (src : Source) (w : World (Exact I)) (v : Value) (t : Tensor (Exact I)) : Prop :=
  w.Holds src.storage src.function.Reads v t

abbrev Source.Solved (src : Source) (w : World (Exact I)) : Prop :=
  TensorCompiler.Solved src.storage src.function.Reads w

variable {src : Source} {w w₁ : World (Exact I)} {pending : List (Value × Value)}
  {v : Value} {st' : Backward}

theorem run_emit (name : String) (op : Operator) (inputs : List Value) (st : Backward) :
    (src.emit name op inputs).run st = (st.function.append src.storage name op inputs).bind
      fun f => .ok (.node st.function.size 0, { st with function := f }) := by
  cases h : st.function.append src.storage name op inputs <;> simp [Source.emit, h] <;> rfl

theorem run_typeOf (v : Value) (st : Backward) : (src.typeOf v).run st =
    (st.function.valueType src.storage v).bind fun type => .ok (type, st) := by
  cases h : st.function.valueType src.storage v <;> simp [Source.typeOf, h] <;> rfl

theorem contributeFrom_eq (v : Value) (p : Pass Value) :
    src.contributeFrom v p = if src.wants v then p >>= src.contribute v else pure () := by
  unfold Source.contributeFrom
  split <;> simp

/-- A new node on operands of the world. -/
theorem emit_ok {name : String} {op : Operator} {inputs : List Value} {ts : List (Tensor (Exact I))}
    (hts : List.Forall₂ (src.Holds w) inputs ts)
    (h : (src.emit name op inputs).run ⟨w.function, pending⟩ = .ok (v, st')) :
    ∃ n, n.op = op ∧ n.inputs = inputs ∧ Function.hasWeight op inputs = true ∧
      Typing.Typed src.storage op (ts.map Tensor.type) n.results ∧
      v = .node w.function.size 0 ∧
      st' = ⟨w.function.push n, pending⟩ := by
  rw [run_emit] at h
  obtain ⟨f, hf, h⟩ := bind_ok_iff.1 h
  obtain ⟨rfl, rfl⟩ := Prod.mk.inj (Except.ok.inj h)
  obtain ⟨types, n, htypes, hop, hin, hweight, htyped, -, rfl⟩ := Function.append_ok hf
  have heq : List.Forall₂ (fun (t : Tensor (Exact I)) type => t.type = type) ts types := by
    refine forall₂_of_left hts htypes fun _ ht htype => ?_
    exact Except.ok.inj (ht.type.symm.trans htype)
  rw [← List.forall₂_map_left_iff, List.forall₂_eq_eq_eq] at heq
  exact ⟨n, hop, hin, hweight, heq ▸ htyped, rfl, rfl⟩

/-! ## Passes that build a value -/

/-- In every world that extends `w`, the pass only adds nodes, and it returns one of them, which is a
float array with the property. -/
def Makes (src : Source) (w : World (Exact I)) (p : Pass Value) (P : Dense (Exact I) → Prop) : Prop :=
  ∀ ⦃w₁ : World (Exact I)⦄ ⦃pending : List (Value × Value)⦄ ⦃v : Value⦄ ⦃st' : Backward⦄,
    Extends w w₁ → src.Solved w₁ → p.run ⟨w₁.function, pending⟩ = .ok (v, st') →
      ∃ (w₂ : World (Exact I)) (d : Dense (Exact I)), Grows w₁ w₂ ∧ src.Solved w₂ ∧
        st' = ⟨w₂.function, pending⟩ ∧ src.Holds w₂ v (.floats d) ∧ (∃ i r, v = .node i r) ∧ P d

theorem makes_emit {name : String} {op : Operator} {inputs : List Value}
    {ts : List (Tensor (Exact I))} {P : Dense (Exact I) → Prop}
    (hts : List.Forall₂ (src.Holds w) inputs ts) (hsink : op.isSink = false)
    (hgives : ∀ {results : List TensorType},
      Typing.Typed src.storage op (ts.map Tensor.type) results →
        ∃ z : Dense (Exact I), op.Gives results ts [.floats z.toShaped] ∧ P z) :
    Makes src w (src.emit name op inputs) P := by
  intro w₁ pending v st' hw hsolved hrun
  have hts₁ : List.Forall₂ (src.Holds w₁) inputs ts := hts.imp fun _ _ ht => ht.mono hw
  obtain ⟨n, rfl, rfl, hweight, htyped, rfl, rfl⟩ := emit_ok hts₁ hrun
  obtain ⟨z, ⟨hcompute, htypes⟩, hz⟩ := hgives htyped
  obtain ⟨hsolved', hnode⟩ := hsolved.push hts₁ hweight htyped htypes
    (by simpa using z.filled_floats) fun _ => hcompute
  have hn : (w₁.push n [.floats z.toShaped]).function.nodes[w₁.function.size]? = some n := by
    simp [World.push, Function.size]
  exact ⟨_, z, Grows.push w₁ hsink _, hsolved', rfl, hnode.holds hn rfl, ⟨_, _, rfl⟩, hz⟩

theorem Makes.bind {p : Pass Value} {k : Value → Pass Value} {P Q : Dense (Exact I) → Prop}
    (hp : Makes src w p P)
    (hk : ∀ ⦃w₁ : World (Exact I)⦄ ⦃v : Value⦄ ⦃d : Dense (Exact I)⦄, Extends w w₁ →
      src.Holds w₁ v (.floats d) → P d → Makes src w₁ (k v) Q) :
    Makes src w (p >>= k) Q := by
  intro w₁ pending v st' hw hsolved hrun
  obtain ⟨u, st, hfirst, hrest⟩ := run_bind_ok_iff.1 hrun
  obtain ⟨w₂, d, hw₂, hsolved₂, rfl, hu, -, hP⟩ := hp hw hsolved hfirst
  obtain ⟨w₃, e, hw₃, hsolved₃, rfl, hv, hnode, hQ⟩ :=
    hk (hw.trans hw₂.toExtends) hu hP (Extends.refl w₂) hsolved₂ hrest
  exact ⟨w₃, e, hw₂.trans hw₃, hsolved₃, rfl, hv, hnode, hQ⟩

theorem Makes.imp {p : Pass Value} {P Q : Dense (Exact I) → Prop} (h : Makes src w p P)
    (hPQ : ∀ d, P d → Q d) : Makes src w p Q := by
  intro w₁ pending v st' hw hsolved hrun
  obtain ⟨w₂, d, hw₂, hsolved₂, hst, hv, hnode, hP⟩ := h hw hsolved hrun
  exact ⟨w₂, d, hw₂, hsolved₂, hst, hv, hnode, hPQ d hP⟩

theorem makes_pure {d : Dense (Exact I)} {P : Dense (Exact I) → Prop}
    (hv : src.Holds w v (.floats d)) (hnode : ∃ i r, v = .node i r) (hP : P d) :
    Makes src w (pure v) P := by
  intro w₁ pending u st' hw hsolved hrun
  obtain ⟨rfl, rfl⟩ := run_pure_ok_iff.1 hrun
  exact ⟨w₁, d, Grows.refl w₁, hsolved, rfl, hv.mono hw, hnode, hP⟩

/-- The type of a value of the world. -/
theorem makes_typeOf {u : Value} {t : Tensor (Exact I)} {k : TensorType → Pass Value}
    {P : Dense (Exact I) → Prop} (hu : src.Holds w u t) (hk : Makes src w (k t.type) P) :
    Makes src w (src.typeOf u >>= k) P := by
  intro w₁ pending v st' hw hsolved hrun
  obtain ⟨type, st, hfirst, hrest⟩ := run_bind_ok_iff.1 hrun
  rw [run_typeOf, (hu.mono hw).type] at hfirst
  obtain ⟨rfl, rfl⟩ := Prod.mk.inj (Except.ok.inj hfirst)
  exact hk hw hsolved hrest

theorem makes_constant {name : String} {like : Value} {d : Dense (Exact I)}
    (hlike : src.Holds w like (.floats d)) (x : Single) :
    Makes src w (src.constant name like x) fun z => z.Is d.shape fun _ => Scalar.ofSingle x :=
  makes_typeOf hlike (makes_emit .nil rfl splat_gives)

theorem makes_binary {name : String} {op : BinaryOp} {x y : Value} {dx dy : Dense (Exact I)}
    (hx : src.Holds w x (.floats dx)) (hy : src.Holds w y (.floats dy)) :
    Makes src w (src.emit name (.binary op) [x, y]) fun z =>
      z.Is dx.shape fun i => op.apply (dx.entry i) (dy.entry i) :=
  makes_emit (.cons hx (.cons hy .nil)) rfl binary_gives

/-! ## Passes that record contributions -/

/-- What is recorded for a value: a gradient of its shape, which is a node. -/
structure Recorded (src : Source) (w₀ w : World (Exact I)) (v gradient : Value) : Prop where
  wanted : src.wants v = true
  floats : ∃ x d : Dense (Exact I), src.Holds w₀ v (.floats x) ∧ src.Holds w gradient (.floats d) ∧
    d.shape = x.shape
  node : ∃ i r, gradient = .node i r

theorem Recorded.mono {w₀ : World (Exact I)} {v gradient : Value} (h : Recorded src w₀ w v gradient)
    (hw : Extends w w₁) : Recorded src w₀ w₁ v gradient := by
  obtain ⟨x, d, hx, hd, hshape⟩ := h.floats
  exact ⟨h.wanted, ⟨x, d, hx, hd.mono hw, hshape⟩, h.node⟩

/-- The contributions of a table, each gradient against the tangent of its value. -/
def owed (T : Value → Tangent I) (w : World (Exact I)) (pending : List (Value × Value)) : Exact I :=
  (pending.map fun p => w.valuation.pair p.2 (T p.1)).sum

theorem pair_of_holds {gradient : Value} {d : Dense (Exact I)}
    (h : src.Holds w gradient (.floats d)) (tangent : Tangent I) :
    w.valuation.pair gradient tangent = d.pair tangent := by
  simp only [Valuation.pair, h.value]

theorem Recorded.pair_mono {w₀ : World (Exact I)} {v gradient : Value}
    (h : Recorded src w₀ w v gradient) (hw : Extends w w₁) (tangent : Tangent I) :
    w₁.valuation.pair gradient tangent = w.valuation.pair gradient tangent := by
  obtain ⟨x, d, -, hd, -⟩ := h.floats
  rw [pair_of_holds hd, pair_of_holds (hd.mono hw)]

theorem owed_mono {w₀ : World (Exact I)} {T : Value → Tangent I}
    (h : ∀ p ∈ pending, Recorded src w₀ w p.1 p.2) (hw : Extends w w₁) :
    owed T w₁ pending = owed T w pending :=
  congrArg List.sum (List.map_congr_left fun p hp => (h p hp).pair_mono hw _)

/-- In every world that extends `w`, the pass only adds nodes, and it records contributions to some
of the `values`, which come to `c`. -/
def Adds (src : Source) (w₀ : World (Exact I)) (T : Value → Tangent I) (w : World (Exact I))
    (p : Pass Unit) (values : List Value) (c : Exact I) : Prop :=
  ∀ ⦃w₁ : World (Exact I)⦄ ⦃pending : List (Value × Value)⦄ ⦃st' : Backward⦄,
    Extends w w₁ → src.Solved w₁ → (∀ p ∈ pending, Recorded src w₀ w₁ p.1 p.2) →
    p.run ⟨w₁.function, pending⟩ = .ok ((), st') →
      ∃ w₂ pending', Grows w₁ w₂ ∧ src.Solved w₂ ∧ st' = ⟨w₂.function, pending'⟩ ∧
        (∀ p ∈ pending', Recorded src w₀ w₂ p.1 p.2) ∧ owed T w₂ pending' = owed T w₁ pending + c ∧
        ∀ p ∈ pending', p ∈ pending ∨ p.1 ∈ values

variable {w₀ : World (Exact I)} {T : Value → Tangent I}

theorem adds_nothing : Adds src w₀ T w (pure ()) [] 0 := by
  intro w₁ pending st' _ hsolved hpending hrun
  obtain ⟨-, rfl⟩ := run_pure_ok_iff.1 hrun
  exact ⟨w₁, pending, Grows.refl w₁, hsolved, rfl, hpending, (add_zero _).symm, fun _ => .inl⟩

/-- One pass after another, which may use what the first has built. -/
theorem Adds.seq {p q : Pass Unit} {values values' : List Value} {c c' : Exact I}
    (hp : Adds src w₀ T w p values c) (hq : Adds src w₀ T w q values' c') :
    Adds src w₀ T w (p >>= fun _ => q) (values ++ values') (c + c') := by
  intro w₁ pending st' hw hsolved hpending hrun
  obtain ⟨_, st, hfirst, hrest⟩ := run_bind_ok_iff.1 hrun
  obtain ⟨w₂, pending₂, hw₂, hsolved₂, rfl, hpending₂, howed₂, hnew₂⟩ :=
    hp hw hsolved hpending hfirst
  obtain ⟨w₃, pending₃, hw₃, hsolved₃, rfl, hpending₃, howed₃, hnew₃⟩ :=
    hq (hw.trans hw₂.toExtends) hsolved₂ hpending₂ hrest
  refine ⟨w₃, pending₃, hw₂.trans hw₃, hsolved₃, rfl, hpending₃, ?_, fun p hp => ?_⟩
  · rw [howed₃, howed₂, add_assoc]
  · rcases hnew₃ p hp with hp | hp
    · exact (hnew₂ p hp).imp id (List.mem_append_left _)
    · exact .inr (List.mem_append_right _ hp)

/-- A contribution; none if it is not wanted, but then the value has no tangent. -/
theorem adds_contribute {u gradient : Value} {x d : Dense (Exact I)}
    (hu : src.Holds w₀ u (.floats x)) (hd : src.Holds w gradient (.floats d))
    (hnode : ∃ i r, gradient = .node i r) (hshape : d.shape = x.shape)
    (hT : src.wants u = false → T u = 0) :
    Adds src w₀ T w (src.contribute u gradient) [u] (d.pair (T u)) := by
  intro w₁ pending st' hw hsolved hpending hrun
  obtain ⟨-, rfl⟩ := Prod.mk.inj (Except.ok.inj hrun)
  by_cases hwants : src.wants u = true
  · refine ⟨w₁, pending ++ [(u, gradient)], Grows.refl w₁, hsolved, if_pos hwants, ?_, ?_, ?_⟩
    · intro p hp
      rcases List.mem_append.1 hp with hp | hp
      · exact hpending p hp
      · obtain rfl := List.mem_singleton.1 hp
        exact ⟨hwants, ⟨x, d, hu, hd.mono hw, hshape⟩, hnode⟩
    · rw [owed, List.map_append, List.sum_append, List.map_singleton, List.sum_singleton,
        pair_of_holds (hd.mono hw), owed]
    · intro p hp
      rcases List.mem_append.1 hp with hp | hp
      · exact .inl hp
      · obtain rfl := List.mem_singleton.1 hp
        exact .inr (List.mem_singleton_self _)
  · rw [hT (by simpa using hwants)]
    refine ⟨w₁, pending, Grows.refl w₁, hsolved, if_neg hwants, hpending, ?_, fun _ => .inl⟩
    rw [show d.pair 0 = 0 from d.pair_zero, add_zero]

/-- A pass that builds a gradient, and then its contribution. -/
theorem adds_contributeFrom {u : Value} {p : Pass Value} {c : Exact I}
    (hp : src.wants u = true → ∃ x : Dense (Exact I), src.Holds w₀ u (.floats x) ∧
      Makes src w p fun d => d.shape = x.shape ∧ d.pair (T u) = c)
    (hc : src.wants u = false → c = 0) : Adds src w₀ T w (src.contributeFrom u p) [u] c := by
  intro w₁ pending st' hw hsolved hpending hrun
  rw [contributeFrom_eq] at hrun
  by_cases hwants : src.wants u = true
  · obtain ⟨x, hu, hmakes⟩ := hp hwants
    rw [if_pos hwants] at hrun
    obtain ⟨gradient, st, hfirst, hrest⟩ := run_bind_ok_iff.1 hrun
    obtain ⟨w₂, d, hw₂, hsolved₂, rfl, hd, hnode, hshape, rfl⟩ := hmakes hw hsolved hfirst
    have hpending₂ (p : Value × Value) (hp : p ∈ pending) : Recorded src w₀ w₂ p.1 p.2 :=
      (hpending p hp).mono hw₂.toExtends
    obtain ⟨w₃, pending₃, hw₃, hsolved₃, rfl, hpending₃, howed₃, hnew₃⟩ :=
      adds_contribute hu hd hnode hshape (by simp [hwants]) (Extends.refl w₂) hsolved₂ hpending₂
        hrest
    refine ⟨w₃, pending₃, hw₂.trans hw₃, hsolved₃, rfl, hpending₃, ?_, hnew₃⟩
    rw [howed₃, owed_mono hpending hw₂.toExtends]
  · rw [if_neg hwants] at hrun
    obtain rfl := hc (by simpa using hwants)
    obtain ⟨w₂, pending₂, hw₂, hsolved₂, hst, hpending₂, howed₂, hnew₂⟩ :=
      adds_nothing (T := T) hw hsolved hpending hrun
    exact ⟨w₂, pending₂, hw₂, hsolved₂, hst, hpending₂, howed₂,
      fun p hp => (hnew₂ p hp).imp id (absurd · (List.not_mem_nil))⟩

/-! ## Sums of contributions -/

/-- Nodes that add up gradients: they read no storage, and write none. -/
def IsSum (n : Node) : Prop := n.op = .binary .add ∧ n.storageReads = []

/-- The sum of two gradients of one value is a gradient of it, and pairs as both do together. -/
theorem add_ok {label : String} {u first part total : Value} (hsolved : src.Solved w)
    (hfirst : Recorded src w₀ w u first) (hpart : Recorded src w₀ w u part)
    (hrun : (src.emit label (.binary .add) [first, part]).run ⟨w.function, pending⟩ =
      .ok (total, st')) :
    ∃ w₂ n, Extends w w₂ ∧ w₂.function.nodes = w.function.nodes ++ [n] ∧ IsSum n ∧
      src.Solved w₂ ∧ st' = ⟨w₂.function, pending⟩ ∧ Recorded src w₀ w₂ u total ∧
      ∀ tangent : Tangent I, w₂.valuation.pair total tangent =
        w.valuation.pair first tangent + w.valuation.pair part tangent := by
  obtain ⟨x, d, hu, hd, hshape⟩ := hfirst.floats
  obtain ⟨x', e, hu', he, hshape'⟩ := hpart.floats
  have hsame : x'.shape = x.shape :=
    congrArg Shaped.shape (Tensor.floats.inj (Option.some.inj (hu'.value.symm.trans hu.value)))
  have hts : List.Forall₂ (src.Holds w) [first, part] [.floats d, .floats e] :=
    .cons hd (.cons he .nil)
  obtain ⟨n, hop, hin, hweight, htyped, rfl, rfl⟩ := emit_ok hts hrun
  obtain ⟨z, ⟨hcompute, htypes⟩, hz⟩ := binary_gives htyped
  rw [← hop] at htyped hcompute
  rw [← hin] at hts
  obtain ⟨hsolved', hnode⟩ := hsolved.push hts (by rw [hop]; rfl) htyped htypes
    (by simpa using z.filled_floats) fun _ => hcompute
  have hn : (w.push n [.floats z.toShaped]).function.nodes[w.function.size]? = some n := by
    simp [World.push, Function.size]
  have hsum : IsSum n := by
    obtain ⟨i, r, rfl⟩ := hfirst.node
    obtain ⟨j, q, rfl⟩ := hpart.node
    exact ⟨hop, by rw [Node.storageReads, hin]; rfl⟩
  refine ⟨_, n, Extends.push w n [.floats z], rfl, hsum, hsolved', rfl,
    ⟨hfirst.wanted, ⟨x, z, hu, hnode.holds hn rfl, hz.shape_eq.trans hshape⟩, _, _, rfl⟩,
    fun tangent => ?_⟩
  rw [pair_of_holds (hnode.holds hn rfl), pair_of_holds hd, pair_of_holds he, hz.pair_eq, Shaped.pair,
    Shaped.pair, (hshape'.trans hsame).trans hshape.symm, ← Finset.sum_add_distrib]
  exact Finset.sum_congr rfl fun i _ => add_mul ..

theorem sum_ok {label : String} {u first : Value} {rest : List Value} {g : Value}
    (hsolved : src.Solved w) (hfirst : Recorded src w₀ w u first)
    (hrest : ∀ part ∈ rest, Recorded src w₀ w u part)
    (hrun : (rest.foldlM (fun total part => src.emit label (.binary .add) [total, part]) first).run
      ⟨w.function, pending⟩ = .ok (g, st')) :
    ∃ w₂ new, Extends w w₂ ∧ w₂.function.nodes = w.function.nodes ++ new ∧ (∀ n ∈ new, IsSum n) ∧
      src.Solved w₂ ∧ st' = ⟨w₂.function, pending⟩ ∧ Recorded src w₀ w₂ u g ∧
      ∀ tangent : Tangent I, w₂.valuation.pair g tangent = w.valuation.pair first tangent +
        (rest.map fun part => w.valuation.pair part tangent).sum := by
  induction rest generalizing w first with
  | nil =>
    obtain ⟨rfl, rfl⟩ := run_pure_ok_iff.1 hrun
    exact ⟨w, [], Extends.refl w, by simp, nofun, hsolved, rfl, hfirst, fun _ => by simp⟩
  | cons part rest ih =>
    rw [List.foldlM_cons] at hrun
    obtain ⟨total, st, hemit, hrun⟩ := run_bind_ok_iff.1 hrun
    obtain ⟨hpart, hrest⟩ := List.forall_mem_cons.1 hrest
    obtain ⟨w₁, n, hextends, hnode, hsum, hsolved₁, rfl, htotal, hpair₁⟩ :=
      add_ok hsolved hfirst hpart hemit
    obtain ⟨w₂, new, hw₂, hnodes, hnew, hsolved₂, hst, hg, hpair⟩ := ih hsolved₁ htotal
      (fun p hp => (hrest p hp).mono hextends) hrun
    refine ⟨w₂, n :: new, hextends.trans hw₂, by simp [hnodes, hnode],
      List.forall_mem_cons.2 ⟨hsum, hnew⟩, hsolved₂, hst, hg, fun tangent => ?_⟩
    have hparts (p : Value) (hp : p ∈ rest) :
        w₁.valuation.pair p tangent = w.valuation.pair p tangent :=
      (hrest p hp).pair_mono hextends tangent
    rw [hpair, List.map_congr_left hparts, hpair₁, List.map_cons, List.sum_cons, add_assoc]

theorem owed_filter (T : Value → Tangent I) (w : World (Exact I)) (u : Value)
    (pending : List (Value × Value)) : owed T w pending =
      owed T w (pending.filter (·.1 = u)) + owed T w (pending.filter (·.1 ≠ u)) := by
  unfold owed
  induction pending with
  | nil => simp
  | cons p pending ih =>
    by_cases hp : p.1 = u
    · simp [hp, ih, add_assoc]
    · simp [hp, ih, add_left_comm]

/-- The gradient of a value takes all its contributions off the table. -/
theorem takeGradient_ok {u : Value} {label : String} {r : Option Value} (hsolved : src.Solved w)
    (hpending : ∀ p ∈ pending, Recorded src w₀ w p.1 p.2)
    (hrun : (src.takeGradient u label).run ⟨w.function, pending⟩ = .ok (r, st')) :
    ∃ w₂ new, Extends w w₂ ∧ w₂.function.nodes = w.function.nodes ++ new ∧ (∀ n ∈ new, IsSum n) ∧
      src.Solved w₂ ∧ st' = ⟨w₂.function, pending.filter (·.1 ≠ u)⟩ ∧
      match r with
      | none => ∀ p ∈ pending, p.1 ≠ u
      | some g => Recorded src w₀ w₂ u g ∧ owed T w pending =
          w₂.valuation.pair g (T u) + owed T w (pending.filter (·.1 ≠ u)) := by
  obtain ⟨taken, st, hfirst, hrun⟩ := run_bind_ok_iff.1 hrun
  obtain ⟨rfl, rfl⟩ := Prod.mk.inj (Except.ok.inj hfirst)
  have htaken (part : Value) (hpart : part ∈ (pending.filter (·.1 = u)).map (·.2)) :
      Recorded src w₀ w u part := by
    obtain ⟨p, hp, rfl⟩ := List.mem_map.1 hpart
    obtain ⟨hp, heq⟩ := List.mem_filter.1 hp
    have heq : p.1 = u := by simpa using heq
    exact heq ▸ hpending p hp
  have howed (parts : List Value) (hparts : (pending.filter (·.1 = u)).map (·.2) = parts) :
      owed T w (pending.filter (·.1 = u)) =
        (parts.map fun part => w.valuation.pair part (T u)).sum := by
    rw [← hparts, List.map_map, owed]
    refine congrArg List.sum (List.map_congr_left fun p hp => ?_)
    have heq : p.1 = u := by simpa using (List.mem_filter.1 hp).2
    rw [heq]
    rfl
  generalize hparts : (pending.filter (·.1 = u)).map (·.2) = parts at hrun htaken
  cases parts with
  | nil =>
    obtain ⟨rfl, rfl⟩ := run_pure_ok_iff.1 hrun
    refine ⟨w, [], Extends.refl w, by simp, nofun, hsolved, rfl, fun p hp heq => ?_⟩
    have hmem : p.2 ∈ (pending.filter (·.1 = u)).map (·.2) :=
      List.mem_map.2 ⟨p, List.mem_filter.2 ⟨hp, by simpa using heq⟩, rfl⟩
    rw [hparts] at hmem
    cases hmem
  | cons first rest =>
    obtain ⟨g, st, hsum, hrun⟩ := run_bind_ok_iff.1 hrun
    obtain ⟨rfl, rfl⟩ := run_pure_ok_iff.1 hrun
    obtain ⟨w₂, new, hw₂, hnodes, hnew, hsolved₂, hst, hg, hpair⟩ := sum_ok hsolved
      (htaken first List.mem_cons_self) (fun p hp => htaken p (List.mem_cons_of_mem _ hp)) hsum
    refine ⟨w₂, new, hw₂, hnodes, hnew, hsolved₂, hst, hg, ?_⟩
    rw [owed_filter T w u pending, howed _ hparts, hpair, List.map_cons, List.sum_cons]

end Training

end TensorCompiler
