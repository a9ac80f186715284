import TensorCompiler.Proofs.Graph.Evaluation
import TensorCompiler.Proofs.Graph.Reshapes
import TensorCompiler.Proofs.Graph.Typing
import TensorCompiler.Proofs.Graph.Verified
import TensorCompiler.Proofs.Lists
import TensorCompiler.Proofs.Run.Stores

/-!
What an evaluation keeps. After the first `j` nodes every result has its recorded type, storage has
its declared type, and a reshaped value that is still to be read has the elements of what it shows.
`Evaluated.step` is the step lemma.
-/

namespace TensorCompiler

variable {α : Type}

theorem toOption_eq_some {ε β : Type} {x : Except ε β} {b : β} :
    x.toOption = some b ↔ x = .ok b := by
  cases x <;> simp [Except.toOption]

theorem Tensor.floats?_eq_some {t : Tensor α} {d : Shaped α} : t.floats? = some d ↔ t = .floats d := by
  cases t <;> simp [Tensor.floats?]

theorem tensors_spec {types : List TensorType} {ps : List (Payload α)} {ts : List (Tensor α)}
    (h : tensors types ps = some ts) :
    List.Forall₂ (fun t type => t.type = type) ts types ∧ ts.map Tensor.payload = ps := by
  induction types generalizing ps ts with
  | nil =>
    cases ps with
    | nil =>
      obtain rfl := Option.some.inj h
      exact ⟨.nil, rfl⟩
    | cons p ps => cases h
  | cons type types ih =>
    cases ps with
    | nil => cases h
    | cons p ps =>
      obtain ⟨t, ht, h⟩ := Option.bind_eq_some_iff.1 h
      obtain ⟨rest, hrest, h⟩ := Option.bind_eq_some_iff.1 h
      obtain rfl := Option.some.inj h
      obtain ⟨htypes, hpayloads⟩ := ih hrest
      obtain ⟨htype, hpayload⟩ := Tensor.ofPayload_eq_ok.1 (toOption_eq_some.1 ht)
      exact ⟨.cons htype htypes, by rw [List.map_cons, hpayload, hpayloads]⟩

theorem descent_sizes [Scalar α] {p : Descent} {w x m : Shaped α} {ws ms : Array α}
    (h : Kernel.descent p w x m = .ok (ws, ms)) :
    ws.size = w.values.size ∧ ms.size = m.values.size := by
  unfold Kernel.descent at h
  split at h
  · cases h
  · next hsizes =>
    rw [not_or, Decidable.not_not, Decidable.not_not] at hsizes
    obtain ⟨rfl, rfl⟩ := Prod.mk.inj (Except.ok.inj h)
    simp only [Array.size_map, Array.size_zipWith, Array.size_zip]
    omega

namespace Valuation

theorem storage?_store_ne (g : Valuation α) (t : Tensor α) {ref ref' : StorageRef}
    (h : ref' ≠ ref) : (g.store t ref).storage? ref' = g.storage? ref' := by
  cases ref with
  | var id =>
    cases ref' with
    | var id' =>
      have hne : id ≠ id' := fun heq => h (heq ▸ rfl)
      simp only [storage?, store, List.getElem?_set_ne hne]
    | placeholder id' => rfl
  | placeholder id =>
    cases ref' with
    | var id' => rfl
    | placeholder id' =>
      have hne : id ≠ id' := fun heq => h (heq ▸ rfl)
      simp only [storage?, store, IdMap.get?_insert, if_neg hne]

theorem storage?_store_self (g : Valuation α) (t : Tensor α) {ref : StorageRef} {t' : Tensor α}
    (h : g.storage? ref = some t') : (g.store t ref).storage? ref = some t := by
  cases ref with
  | var id => exact List.getElem?_set_self (List.getElem?_eq_some_iff.1 h).1
  | placeholder id => simp only [storage?, store, IdMap.get?_insert, if_true]

/-- A step of descent keeps the types of the weight and of its momentum, which has as many elements
as the weight. -/
theorem type_of_descended [Scalar α] {p : Descent} {w x m w' m' : Tensor α}
    (h : descended p w x m = some (w', m')) :
    w'.type = w.type ∧ m'.type = m.type ∧ m'.payload.Fits w.type := by
  simp only [descended, Option.bind_eq_bind, Option.bind_eq_some_iff, Option.pure_def,
    Option.some.injEq, Prod.mk.injEq] at h
  obtain ⟨m₁, hread, _, -, _, -, d, hd, ⟨ws, ms⟩, hkernel, w₂, hw, m₂, hm, rfl, rfl⟩ := h
  have hwtype := (Tensor.ofPayload_eq_ok.1 (toOption_eq_some.1 hw)).1
  obtain ⟨hmtype, hmpayload⟩ := Tensor.ofPayload_eq_ok.1 (toOption_eq_some.1 hm)
  obtain ⟨hm₁, -⟩ := Tensor.ofPayload_eq_ok.1 (toOption_eq_some.1 hread)
  obtain rfl := Tensor.floats?_eq_some.1 hd
  refine ⟨hwtype, hmtype, ?_⟩
  rw [hmpayload, ← hm₁]
  exact (Tensor.floats d).payload_fits.of_size rfl (descent_sizes (toOption_eq_some.1 hkernel)).2

end Valuation

/-- What the state of an evaluation holds after the first `j` nodes of a verified function. -/
structure Evaluated (s : Storage) (f : Function) (j : Nat) (g : Valuation α) : Prop where
  length : g.values.length = j
  typed : ∀ {i : Nat} {n : Node}, i < j → f.nodes[i]? = some n → ∃ ts, g.values[i]? = some ts ∧
    List.Forall₂ (fun t type => t.type = type) ts n.results
  storage : ∀ {ref : StorageRef} {type : TensorType}, ref ∈ f.nodes.flatMap Node.storageRefs →
    s.type? ref = some type → ∃ t, g.storage? ref = some t ∧ t.type = type
  shown : ∀ {i : Nat} {w : Value} {t : Tensor α}, i < j → f.Shows (.node i 0) w →
    (∀ ref, w = .storage ref →
      ∃ k n, j ≤ k ∧ f.nodes[k]? = some n ∧ Value.node i 0 ∈ n.inputs) →
    g.value? (.node i 0) = some t → ∃ t', g.value? w = some t' ∧ t.payload = t'.payload

namespace Evaluated

variable {s : Storage} {f : Function} {j : Nat} {g : Valuation α}

/-- Every operand of the next node has a value of its type. -/
theorem exists_value (h : Evaluated s f j g) {n : Node} (hn : f.nodes[j]? = some n) {v : Value}
    (hv : v ∈ n.inputs) {type : TensorType} (htype : Function.OperandType s f j v type) :
    ∃ t, g.value? v = some t ∧ t.type = type := by
  cases v with
  | node i r =>
    obtain ⟨hi, m, hm, hr⟩ := htype
    obtain ⟨ts, hts, htypes⟩ := h.typed hi hm
    obtain ⟨hlt, rfl⟩ := List.getElem?_eq_some_iff.1 hr
    have hlen := htypes.length_eq
    refine ⟨ts[r], ?_, htypes.get (hlen ▸ hlt) hlt⟩
    simp only [Valuation.value?, hts, Option.bind_some]
    exact List.getElem?_eq_getElem _
  | storage ref =>
    refine h.storage (List.mem_flatMap.2 ⟨n, List.mem_of_getElem? hn, ?_⟩) htype
    exact Node.mem_storageRefs_of_read hv

theorem exists_operands (h : Evaluated s f j g) {n : Node} (hn : f.nodes[j]? = some n)
    {types : List TensorType} (hwt : Function.WellTyped s f j n types) :
    ∃ ts, n.inputs.mapM g.value? = some ts ∧
      List.Forall₂ (fun v t => g.value? v = some t ∧ Function.OperandType s f j v t.type)
        n.inputs ts ∧
      List.Forall₂ (fun (t : Tensor α) type => t.type = type) ts types := by
  have hall {inputs : List Value} {types : List TensorType} (hmem : ∀ v ∈ inputs, v ∈ n.inputs)
      (hop : List.Forall₂ (Function.OperandType s f j) inputs types) :
      ∃ ts, inputs.mapM g.value? = some ts ∧
        List.Forall₂ (fun v t => g.value? v = some t ∧ Function.OperandType s f j v t.type)
          inputs ts ∧
        List.Forall₂ (fun (t : Tensor α) type => t.type = type) ts types := by
    induction hop with
    | nil => exact ⟨[], rfl, .nil, .nil⟩
    | cons hv _ ih =>
      obtain ⟨t, ht, rfl⟩ := h.exists_value hn (hmem _ List.mem_cons_self) hv
      obtain ⟨ts, hts, hvalues, htypes⟩ := ih fun v hv => hmem v (List.mem_cons_of_mem _ hv)
      exact ⟨t :: ts, by simp [List.mapM_cons, ht, hts], .cons ⟨ht, hv⟩ hvalues, .cons rfl htypes⟩
  exact hall (fun _ hv => hv) hwt.operands

/-- The elements that an operand of the next node shows. -/
theorem payload_shown (h : Evaluated s f j g) {n : Node} (hn : f.nodes[j]? = some n) {v w : Value}
    (hv : v ∈ n.inputs) {type : TensorType} (htype : Function.OperandType s f j v type)
    (hshows : f.Shows v w) {t : Tensor α} (ht : g.value? v = some t) :
    ∃ t', g.value? w = some t' ∧ t.payload = t'.payload := by
  cases v with
  | storage ref =>
    obtain rfl := hshows.storage
    exact ⟨t, ht, rfl⟩
  | node i r =>
    cases hshows with
    | self => exact ⟨t, ht, rfl⟩
    | reshape hm hop hin hchain =>
      exact h.shown htype.1 (.reshape hm hop hin hchain) (fun _ _ => ⟨j, n, Nat.le_refl j, hn, hv⟩) ht

/-- Values stay while another node gets its results, unless they are storage that the node writes. -/
theorem value_kept {n : Node} {g' : Valuation α} {ts : List (Tensor α)}
    (hvalues : g'.values = g.values ++ [ts])
    (hkept : ∀ {ref : StorageRef}, ¬ Function.Writes n ref → g'.storage? ref = g.storage? ref)
    {w : Value} {t : Tensor α} (ht : g.value? w = some t)
    (hstorage : ∀ ref, w = .storage ref → ¬ Function.Writes n ref) : g'.value? w = some t := by
  cases w with
  | node k r =>
    obtain ⟨results, hresults, ht⟩ := Option.bind_eq_some_iff.1 ht
    have hk : k < g.values.length := (List.getElem?_eq_some_iff.1 hresults).1
    rw [Valuation.value?, hvalues, List.getElem?_append_left hk, hresults, Option.bind_some, ht]
  | storage ref => exact (hkept (hstorage ref rfl)).trans ht

/-- The next node gets its results, and storage changes only where the node writes it, keeping its
type. -/
theorem extend (h : Evaluated s f j g) (hstable : f.ReshapesStable) {n : Node}
    (hn : f.nodes[j]? = some n) {types : List TensorType} (hwt : Function.WellTyped s f j n types)
    {g' : Valuation α} (ts : List (Tensor α)) (hvalues : g'.values = g.values ++ [ts])
    (hts : List.Forall₂ (fun t type => t.type = type) ts n.results)
    (hkept : ∀ {ref : StorageRef}, ¬ Function.Writes n ref → g'.storage? ref = g.storage? ref)
    (hwritten : ∀ {ref : StorageRef} {t : Tensor α}, Function.Writes n ref →
      g.storage? ref = some t → ∃ t', g'.storage? ref = some t' ∧ t'.type = t.type)
    (hreshape : ∀ {shape : Shape} {v : Value}, n.op = .reshape shape → n.inputs = [v] →
      ∃ t t', g.value? v = some t ∧ ts[0]? = some t' ∧ t'.payload = t.payload) :
    Evaluated s f (j + 1) g' := by
  have hget (i : Nat) : g'.values[i]? = if i = j then some ts else g.values[i]? := by
    rw [hvalues, getElem?_snoc, h.length]
  constructor
  case length =>
    rw [hvalues, List.length_append, h.length]
    rfl
  case typed =>
    intro i m hi hm
    rw [hget]
    rcases Nat.lt_succ_iff_lt_or_eq.1 hi with hi | rfl
    · rw [if_neg (Nat.ne_of_lt hi)]
      exact h.typed hi hm
    · obtain rfl := Option.some.inj (hn.symm.trans hm)
      exact ⟨ts, if_pos rfl, hts⟩
  case storage =>
    intro ref type href htype
    obtain ⟨t, ht, rfl⟩ := h.storage href htype
    by_cases hwrites : Function.Writes n ref
    · exact hwritten hwrites ht
    · exact ⟨t, (hkept hwrites).trans ht, rfl⟩
  case shown =>
    intro i w t hi hshows hread ht
    rcases Nat.lt_succ_iff_lt_or_eq.1 hi with hi | rfl
    · -- an earlier result: storage that it shows is still to be read, so this node does not write it
      have hread' (ref : StorageRef) (hw : w = .storage ref) :
          ∃ k m, j ≤ k ∧ f.nodes[k]? = some m ∧ Value.node i 0 ∈ m.inputs := by
        obtain ⟨k, m, hk, hm⟩ := hread ref hw
        exact ⟨k, m, Nat.le_of_succ_le hk, hm⟩
      have hold : g'.value? (.node i 0) = g.value? (.node i 0) := by
        rw [Valuation.value?, hget, if_neg (Nat.ne_of_lt hi), Valuation.value?]
      obtain ⟨t', ht', hpayload⟩ := h.shown hi hshows hread' (hold.symm.trans ht)
      refine ⟨t', value_kept hvalues hkept ht' fun ref hw hwrites => ?_, hpayload⟩
      obtain ⟨k, m, hk, hm, hmem⟩ := hread ref hw
      exact hstable hi hk (hw ▸ hshows) hn hwrites hm hmem
    · cases hshows with
      | self => exact ⟨t, ht, rfl⟩
      | reshape hm hop hin hchain =>
        obtain rfl := Option.some.inj (hn.symm.trans hm)
        obtain ⟨tv, t₀, htv, ht₀, hpayload⟩ := hreshape hop hin
        rw [Valuation.value?, hget, if_pos rfl, Option.bind_some, ht₀] at ht
        obtain rfl := Option.some.inj ht
        obtain ⟨type, -, htype⟩ :=
          exists_right_of_forall₂ hwt.operands (hin ▸ List.mem_singleton_self _)
        obtain ⟨t', ht', hshown⟩ :=
          h.payload_shown hn (hin ▸ List.mem_singleton_self _) htype hchain htv
        refine ⟨t', value_kept hvalues hkept ht' fun ref _ hwrites => ?_, hpayload.trans hshown⟩
        rcases hwrites with hsave | ⟨p, hsgd, -⟩
        · simp [hop] at hsave
        · simp [hop] at hsgd

/-- A node without results that writes one storage. -/
theorem store (h : Evaluated s f j g) (hstable : f.ReshapesStable) {n : Node}
    (hn : f.nodes[j]? = some n) {types : List TensorType} (hwt : Function.WellTyped s f j n types)
    (hresults : n.results = []) {ref : StorageRef}
    (hwrites : ∀ {ref' : StorageRef}, Function.Writes n ref' ↔ ref' = ref)
    (hreshape : ∀ shape, n.op ≠ .reshape shape) (href : ref ∈ n.storageRefs) {t : Tensor α}
    (ht : s.type? ref = some t.type) (momentum : Nat → Option (Tensor α)) :
    Evaluated s f (j + 1) (Valuation.push { g.store t ref with momentum } []) := by
  refine h.extend hstable hn hwt [] ?_ (hresults ▸ .nil) ?_ ?_ ?_
  · cases ref <;> rfl
  · intro ref' hno
    exact Valuation.storage?_store_ne g t fun heq => hno (hwrites.2 heq)
  · intro ref' t₀ hwrites' ht₀
    obtain rfl := hwrites.1 hwrites'
    refine ⟨t, Valuation.storage?_store_self g t ht₀, ?_⟩
    obtain ⟨t₁, ht₁, htype⟩ := h.storage (List.mem_flatMap.2 ⟨n, List.mem_of_getElem? hn, href⟩) ht
    rw [← htype, Option.some.inj (ht₀.symm.trans ht₁)]
  · exact fun hop => absurd hop (hreshape _)

/-! ## Visits -/

variable [Scalar α]

/-- A save stores its operand. -/
theorem step_save (h : Evaluated s f j g) {n : Node} (hn : f.nodes[j]? = some n)
    {types : List TensorType} (hwt : Function.WellTyped s f j n types) {ref : StorageRef}
    (hop : n.op = .save ref) : ∃ v x, n.inputs = [v] ∧ n.results = [] ∧ g.value? v = some x ∧
      Function.OperandType s f j v x.type ∧ s.type? ref = some x.type ∧
      g.step n = some ((g.store x ref).push []) := by
  obtain ⟨ts, hmap, hvalues, htypes⟩ := h.exists_operands hn hwt
  have htyped := Typing.typed_of_resultTypes hwt.results
  have hoperands := hwt.operands
  obtain ⟨name, op, inputs, results⟩ := n
  obtain rfl : op = .save ref := hop
  cases htyped with
  | save _ x hx =>
    obtain ⟨v, vs, -, hnil, rfl⟩ := List.forall₂_cons_right_iff.1 hoperands
    cases hnil
    obtain ⟨t, ts, ⟨ht, hv⟩, hnil, rfl⟩ := List.forall₂_cons_left_iff.1 hvalues
    cases hnil
    obtain ⟨rfl, -⟩ := List.forall₂_cons.1 htypes
    refine ⟨v, t, rfl, rfl, ht, hv, hx, ?_⟩
    unfold Valuation.step
    rw [hmap]
    rfl

/-- A step of descent stores its weight, and has the momentum of its node. -/
theorem step_descent (h : Evaluated s f j g) {n : Node} (hn : f.nodes[j]? = some n)
    {types : List TensorType} (hwt : Function.WellTyped s f j n types) {p : Descent}
    (hop : n.op = .sgd p) : ∃ v ref x w, n.inputs = [v, .storage ref] ∧ n.results = [] ∧
      g.value? v = some x ∧ g.storage? ref = some w ∧ Function.OperandType s f j v x.type ∧
      s.type? ref = some w.type ∧ x.type = w.type ∧
      g.step n = (g.momentum j).bind fun m => (Valuation.descended p w x m).map fun (w, m) =>
        Valuation.push { g.store w ref with
          momentum := fun i => if i = j then some m else g.momentum i } [] := by
  obtain ⟨ts, hmap, hvalues, htypes⟩ := h.exists_operands hn hwt
  have htyped := Typing.typed_of_resultTypes hwt.results
  have hoperands := hwt.operands
  have hweight := hwt.weight
  obtain ⟨name, op, inputs, results⟩ := n
  obtain rfl : op = .sgd p := hop
  cases htyped with
  | sgd _ x =>
    obtain ⟨v, vs, -, hrest, rfl⟩ := List.forall₂_cons_right_iff.1 hoperands
    obtain ⟨v', vs, -, hnil, rfl⟩ := List.forall₂_cons_right_iff.1 hrest
    cases hnil
    cases v' with
    | node i r => simp [Function.hasWeight, Value.storage?] at hweight
    | storage ref =>
      obtain ⟨t, ts, ⟨ht, hv⟩, hrest, rfl⟩ := List.forall₂_cons_left_iff.1 hvalues
      obtain ⟨w, ts, ⟨hw, hv'⟩, hnil, rfl⟩ := List.forall₂_cons_left_iff.1 hrest
      cases hnil
      obtain ⟨htx, hrest⟩ := List.forall₂_cons.1 htypes
      obtain ⟨hwx, -⟩ := List.forall₂_cons.1 hrest
      refine ⟨v, ref, t, w, rfl, rfl, ht, hw, hv, hv', htx.trans hwx.symm, ?_⟩
      unfold Valuation.step
      rw [hmap]
      simp only [Option.bind_eq_bind, Option.bind_some, h.length]
      cases ref <;> simp only [Valuation.store, Option.map_eq_bind] <;> rfl

/-- Any other node gets its results. -/
theorem step_compute (h : Evaluated s f j g) {n : Node} (hn : f.nodes[j]? = some n)
    {types : List TensorType} (hwt : Function.WellTyped s f j n types)
    (hsave : ∀ ref, n.op ≠ .save ref) (hsgd : ∀ p, n.op ≠ .sgd p) :
    ∃ ts, List.Forall₂ (fun v t => g.value? v = some t ∧ Function.OperandType s f j v t.type)
        n.inputs ts ∧
      List.Forall₂ (fun (t : Tensor α) type => t.type = type) ts types ∧
      g.step n = (n.op.compute n.results ts).bind fun ps => (tensors n.results ps).map g.push := by
  obtain ⟨ts, hmap, hvalues, htypes⟩ := h.exists_operands hn hwt
  refine ⟨ts, hvalues, htypes, ?_⟩
  unfold Valuation.step
  rw [hmap]
  simp only [Option.bind_eq_bind, Option.bind_some]
  split
  · next hop => exact absurd hop (hsave _)
  · next hop _ => exact absurd hop (hsgd _)
  · simp only [Option.map_eq_bind]
    rfl

/-- A reshape shows its operand. -/
theorem step_reshape (h : Evaluated s f j g) {n : Node} (hn : f.nodes[j]? = some n)
    {types : List TensorType} (hwt : Function.WellTyped s f j n types) {shape : Shape}
    (hop : n.op = .reshape shape) : ∃ ts, g.step n = some (g.push ts) := by
  obtain ⟨ts, -, htypes, heq⟩ := h.step_compute hn hwt (by simp [hop]) (by simp [hop])
  have htyped := Typing.typed_of_resultTypes hwt.results
  rw [hop] at htyped heq
  generalize n.results = results at htyped heq
  cases htyped with
  | reshape type _ hvolume =>
    obtain ⟨t, _, rfl, hnil, rfl⟩ := List.forall₂_cons_right_iff.1 htypes
    cases hnil
    have hfits : t.payload.Fits ⟨t.type.kind, shape⟩ :=
      ⟨t.payload_fits.1, (Shape.accepts_congr hvolume).2 t.payload_fits.2⟩
    obtain ⟨t', ht', -⟩ := Tensor.ofPayload_of_fits hfits
    refine ⟨[t'], ?_⟩
    simp [heq, Operator.compute, tensors, ht', Except.toOption]

/-- One visit. -/
theorem step (h : Evaluated s f j g) (hstable : f.ReshapesStable) {n : Node}
    (hn : f.nodes[j]? = some n) {types : List TensorType} (hwt : Function.WellTyped s f j n types)
    {g' : Valuation α} (hstep : g.step n = some g') : Evaluated s f (j + 1) g' := by
  by_cases hsave : ∃ ref, n.op = .save ref
  · obtain ⟨ref, hop⟩ := hsave
    obtain ⟨v, x, hin, hresults, hx, -, htype, heq⟩ := h.step_save hn hwt hop
    obtain rfl := Option.some.inj (heq.symm.trans hstep)
    refine h.store hstable hn hwt hresults ?_ (by simp [hop]) ?_ htype _
    · simp [Function.Writes, hop, eq_comm]
    · simp [Node.storageRefs, Node.destination?, hop]
  · by_cases hsgd : ∃ p, n.op = .sgd p
    · obtain ⟨p, hop⟩ := hsgd
      obtain ⟨v, ref, x, w, hin, hresults, hx, hw, -, htype, hxw, heq⟩ := h.step_descent hn hwt hop
      obtain ⟨m, hm, hstep⟩ := Option.bind_eq_some_iff.1 (heq.symm.trans hstep)
      obtain ⟨⟨w', m'⟩, hdescended, rfl⟩ := Option.map_eq_some_iff.1 hstep
      refine h.store hstable hn hwt hresults ?_ (by simp [hop]) ?_ ?_ _
      · simp [Function.Writes, hop, hin, eq_comm]
      · simp [Node.storageRefs, Node.storageReads, Value.storage?, hin]
      · rw [htype, (Valuation.type_of_descended hdescended).1]
    · obtain ⟨ts, hvalues, htypes, heq⟩ := h.step_compute hn hwt (fun ref hop => hsave ⟨ref, hop⟩)
        fun p hop => hsgd ⟨p, hop⟩
      obtain ⟨ps, hcompute, hstep⟩ := Option.bind_eq_some_iff.1 (heq.symm.trans hstep)
      obtain ⟨rs, hrs, rfl⟩ := Option.map_eq_some_iff.1 hstep
      obtain ⟨hresults, hpayloads⟩ := tensors_spec hrs
      have hno {ref : StorageRef} : ¬ Function.Writes n ref := by
        rintro (hop | ⟨p, hop, -⟩)
        · exact hsave ⟨ref, hop⟩
        · exact hsgd ⟨p, hop⟩
      refine h.extend hstable hn hwt rs rfl hresults (fun _ => rfl) (absurd · hno) ?_
      intro shape v hop hin
      rw [hin] at hvalues
      obtain ⟨t, _, ⟨ht, -⟩, hnil, rfl⟩ := List.forall₂_cons_left_iff.1 hvalues
      cases hnil
      rw [hop] at hcompute
      obtain rfl := Option.some.inj hcompute
      obtain ⟨t', rest, rfl, ht', -⟩ := List.map_eq_cons_iff.1 hpayloads
      exact ⟨t, t', ht, rfl, ht'⟩

end Evaluated

end TensorCompiler
