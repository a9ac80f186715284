import TensorCompiler.Proofs.Graph.Reshapes
import TensorCompiler.Proofs.Lowering.Nodes
import TensorCompiler.Proofs.Plan.Make

/-!
The lifetimes of activations. Every access of an instruction is to a result of its node, to an
operand, or to storage; so an activation is written by one instruction, before all others that see
its elements. `Alive` collects this for one lifetime, and every activation has one.
-/

namespace TensorCompiler.Lowering

open TensorCompiler.Lowering.Stream

variable {s : Storage} {f : Function} {seen : List StorageRef} {st : Stream}

/-! ## Roots -/

theorem Stream.Describes.plan_rooted {k : Nat} (h : Describes s f k seen st) :
    Plan.Rooted st.buffers st.roots :=
  ⟨h.ids, h.rooted, h.unrooted⟩

theorem rootOf_eq_self {k : Nat} (h : Describes s f k seen st) {b : Nat} {d : Buffer}
    (hd : st.buffers[b]? = some d) (hkind : ∀ src, d.kind ≠ .view src) :
    rootOf st.roots b = b := by
  rw [rootOf, h.plan_rooted.get?_of_base hd hkind, Option.getD_none]

theorem rootOf_view {k : Nat} (h : Describes s f k seen st) {b src : Nat} {d : Buffer}
    (hd : st.buffers[b]? = some d) (hkind : d.kind = .view src) :
    src < b ∧ rootOf st.roots b = rootOf st.roots src := by
  obtain ⟨hlt, hroot⟩ := h.rooted hd hkind
  exact ⟨hlt, by rw [rootOf, hroot, Option.getD_some]⟩

/-- A view is the only result of a reshape, under the type that the reshape gives its operand. -/
theorem reshape_of_view (hverify : f.verify s = .ok ()) {k : Nat} (h : Describes s f k seen st)
    {i r b src : Nat} {d : Buffer} (hv : st.bufferOf? (.node i r) = some b)
    (hd : st.buffers[b]? = some d) (hkind : d.kind = .view src) :
    r = 0 ∧ ∃ n shape v type, f.nodes[i]? = some n ∧ n.op = .reshape shape ∧ n.inputs = [v] ∧
      st.bufferOf? v = some src ∧ Function.OperandType s f i v type ∧
      d.type = ⟨type.kind, shape⟩ ∧ shape.volume = type.shape.volume := by
  obtain ⟨-, n, d', hn, hresult, hd', hresultKind⟩ := h.value hv
  obtain rfl := Option.some.inj (hd.symm.trans hd')
  rw [hkind] at hresultKind
  obtain ⟨shape, v, hop, hin, hsrc⟩ := hresultKind.view
  obtain ⟨types, hwt⟩ := Function.wellTyped_of_verify hverify hn
  have htyped := Typing.typed_of_resultTypes hwt.results
  have hoperands := hwt.operands
  rw [hop] at htyped
  rw [hin] at hoperands
  generalize n.results = results at htyped hresult
  cases htyped with
  | reshape type _ hvolume =>
    have hoperand := (List.forall₂_cons.1 hoperands).1
    cases r with
    | zero =>
      exact ⟨rfl, n, shape, v, type, hn, hop, hin, hsrc, hoperand, (Option.some.inj hresult).symm,
        hvolume⟩
    | succ r => cases hresult

/-- The root of an operand's buffer is the buffer of the value whose elements the operand shows; that
value is no reshape, and not defined after the operand. -/
theorem exists_shown (hverify : f.verify s = .ok ()) {k : Nat} (h : Describes s f k seen st)
    (b : Nat) : ∀ {v : Value}, st.bufferOf? v = some b → ∃ w d, f.Shows v w ∧
      st.bufferOf? w = some (rootOf st.roots b) ∧ st.buffers[rootOf st.roots b]? = some d ∧
      (∀ src, d.kind ≠ .view src) ∧
      ∀ {i r : Nat}, w = .node i r → ∃ p q, v = .node p q ∧ i ≤ p := by
  -- a view is declared after its source
  induction b using Nat.strongRecOn with
  | ind b ih =>
    intro v hv
    cases v with
    | storage ref =>
      obtain ⟨name, type, -, -, hd⟩ := h.weight hv
      have hroot := rootOf_eq_self h hd (by simp)
      exact ⟨.storage ref, _, .self _, hroot.symm ▸ hv, hroot.symm ▸ hd, by simp, by simp⟩
    | node p q =>
      obtain ⟨-, -, d, -, -, hd, -⟩ := h.value hv
      by_cases hview : ∃ src, d.kind = .view src
      · obtain ⟨src, hkind⟩ := hview
        obtain ⟨hlt, hroot⟩ := rootOf_view h hd hkind
        obtain ⟨rfl, n, shape, u, type, hn, hop, hin, hsrc, hoperand, -⟩ :=
          reshape_of_view hverify h hv hd hkind
        obtain ⟨w, d', hshows, hw, hd', hno, hpos⟩ := ih src hlt hsrc
        rw [hroot]
        refine ⟨w, d', .reshape hn hop hin hshows, hw, hd', hno, fun {i r} hwi => ?_⟩
        obtain ⟨p', q', rfl, hle⟩ := hpos hwi
        exact ⟨p, 0, rfl, Nat.le_trans hle (Nat.le_of_lt hoperand.1)⟩
      · have hbase : ∀ src, d.kind ≠ .view src := not_exists.1 hview
        have hroot := rootOf_eq_self h hd hbase
        refine ⟨.node p q, d, .self _, hroot.symm ▸ hv, hroot.symm ▸ hd, hbase, ?_⟩
        intro i r heq
        obtain ⟨rfl, rfl⟩ := Value.node.inj heq
        exact ⟨p, q, rfl, Nat.le_refl p⟩

/-! ## Accesses -/

/-- What an operand of the instruction of node `j` is. -/
inductive Stream.Accesses (st : Stream) (j : Nat) (n : Node) : Operand → Prop
  | result {r b : Nat} : st.bufferOf? (.node j r) = some b → Accesses st j n ⟨b, .write⟩
  | destination {ref : StorageRef} {b : Nat} : n.op = .save ref →
      st.bufferOf? (.storage ref) = some b → Accesses st j n ⟨b, .write⟩
  | operand {v : Value} {b : Nat} {access : Access} : v ∈ n.inputs → st.bufferOf? v = some b →
      access ≠ .write → Accesses st j n ⟨b, access⟩
  | momentum {b : Nat} : st.Momentum j b → Accesses st j n ⟨b, .readWrite⟩

theorem mem_of_mem_read {op : Operator} {srcs : List Nat} {b : Nat} (h : b ∈ read op srcs) :
    b ∈ srcs := by
  unfold read at h
  split at h
  · exact List.mem_of_mem_take h
  · exact h

theorem accesses_of_emits {j : Nat} {n : Node} {x : Instruction} (hx : st.body[j]? = some x)
    (he : st.Emits j n x) {o : Operand} (ho : o ∈ x.operands) : st.Accesses j n o := by
  cases he with
  | @view shape v src dst _ hin hsrc hdst =>
    rcases (by simpa [Instruction.ofBuffers] using ho) with rfl | rfl
    · exact .result hdst
    · exact .operand (hin ▸ List.mem_singleton_self v) hsrc (by simp)
  | @save ref v src dst hop hin hsrc hdst =>
    rcases (by simpa [Instruction.ofBuffers] using ho) with rfl | rfl
    · exact .destination hop hdst
    · exact .operand (hin ▸ List.mem_singleton_self v) hsrc (by simp)
  | @descent p g ref gradient weight state name d hop hin hg hw hd hstate =>
    rcases (by simpa using ho) with rfl | rfl | rfl
    · exact .operand (v := .storage ref) (by simp [hin]) hw (by simp)
    · exact .operand (v := g) (by simp [hin]) hg (by simp)
    · exact .momentum ⟨p, _, _, hx⟩
  | @compute code srcs dsts hop hsrcs hlen hdsts =>
    rcases List.mem_append.1 ho with ho | ho
    · obtain ⟨b, hb, rfl⟩ := List.mem_map.1 ho
      obtain ⟨r, hr⟩ := List.mem_iff_getElem?.1 hb
      exact .result (hdsts hr)
    · obtain ⟨b, hb, rfl⟩ := List.mem_map.1 ho
      obtain ⟨v, hv, hbuf⟩ := exists_left_of_forall₂ hsrcs (mem_of_mem_read hb)
      exact .operand hv hbuf (by simp)

/-- The instruction of node `j` accesses the elements of values up to `j` only. -/
theorem le_of_accesses (hverify : f.verify s = .ok ())
    (h : Describes s f f.nodes.length seen st) {j : Nat} {n : Node} (hn : f.nodes[j]? = some n)
    {o : Operand} (ho : st.Accesses j n o) {i r b : Nat} {d : Buffer}
    (hb : st.values.lookup (i, r) = some b) (hd : st.buffers[b]? = some d)
    (hkind : d.kind = .activation) (hroot : rootOf st.roots o.buffer = b) : i ≤ j := by
  have hvalue {v : Value} (hv : st.bufferOf? v = some o.buffer)
      (hpos : ∀ {p q : Nat}, v = .node p q → p ≤ j) : i ≤ j := by
    obtain ⟨w, d', -, hw, -, -, hle⟩ := exists_shown hverify h _ hv
    rw [hroot] at hw
    cases w with
    | storage ref =>
      obtain ⟨name, type, -, -, hd'⟩ := h.weight hw
      rw [Option.some.inj (hd.symm.trans hd')] at hkind
      cases hkind
    | node i' r' =>
      obtain ⟨rfl, rfl⟩ := Prod.mk.inj (h.injective hb hw)
      obtain ⟨p, q, hp, hle⟩ := hle rfl
      exact Nat.le_trans hle (hpos hp)
  cases ho with
  | result hv => exact hvalue hv fun heq => Nat.le_of_eq (Value.node.inj heq).1.symm
  | destination _ hv => exact hvalue hv (by simp)
  | operand hv hbuf _ =>
    refine hvalue hbuf fun {p q} hp => ?_
    obtain ⟨types, hwt⟩ := Function.wellTyped_of_verify hverify hn
    obtain ⟨type, -, htype⟩ := exists_right_of_forall₂ hwt.operands hv
    rw [hp] at htype
    exact Nat.le_of_lt htype.1
  | momentum hm =>
    obtain ⟨d', hd', hstate⟩ := h.state_of_momentum hm
    have hself := rootOf_eq_self h hd' (by simp [hstate])
    rw [hroot] at hself
    rw [← hself, hd] at hd'
    rw [Option.some.inj hd', hstate] at hkind
    cases hkind

/-- The buffer `b` is an activation, declared for result `r` of node `i`. -/
structure Stream.Activation (st : Stream) (i r b : Nat) : Prop where
  value : st.values.lookup (i, r) = some b
  declared : ∃ d, st.buffers[b]? = some d ∧ d.kind = .activation

theorem exists_activation {k : Nat} (h : Describes s f k seen st) {b : Nat} {d : Buffer}
    (hd : st.buffers[b]? = some d) (hkind : d.kind = .activation) :
    ∃ i r, st.Activation i r b := by
  have horigin := h.origin hd
  rw [hkind] at horigin
  obtain ⟨⟨i, r⟩, hv⟩ := horigin
  exact ⟨i, r, hv, d, hd, hkind⟩

/-- The instruction behind an activation computes it. -/
theorem compute_of_activation (hverify : f.verify s = .ok ())
    (h : Describes s f f.nodes.length seen st) {i r b : Nat} (hb : st.Activation i r b) :
    ∃ n types code srcs dsts, f.nodes[i]? = some n ∧ Function.WellTyped s f i n types ∧
      opcode? n.op = some code ∧
      List.Forall₂ (fun v b => st.bufferOf? v = some b) n.inputs srcs ∧
      dsts.length = n.results.length ∧
      st.body[i]? = some (.ofBuffers code dsts (read n.op srcs)) ∧ dsts[r]? = some b := by
  obtain ⟨d, hd, hkind⟩ := hb.declared
  obtain ⟨hi, n, d', hn, htype, hd', hresult⟩ := h.value hb.value
  obtain rfl := Option.some.inj (hd.symm.trans hd')
  obtain ⟨x, hx, he⟩ := h.emits hi hn
  obtain ⟨types, hwt⟩ := Function.wellTyped_of_verify hverify hn
  have htyped := Typing.typed_of_resultTypes hwt.results
  cases he with
  | view hop =>
    simp only [ResultKind, hop] at hresult
    obtain ⟨v, src, -, -, hview⟩ := hresult
    rw [hkind] at hview
    cases hview
  | save hop =>
    rw [hop] at htyped
    generalize n.results = results at htyped htype
    cases htyped
    cases htype
  | descent hop =>
    rw [hop] at htyped
    generalize n.results = results at htyped htype
    cases htyped
    cases htype
  | @compute code srcs dsts hop hsrcs hlen hdsts =>
    have hr : r < dsts.length := hlen ▸ (List.getElem?_eq_some_iff.1 htype).1
    have hbuf := hdsts (List.getElem?_eq_getElem hr)
    obtain rfl := Option.some.inj (hb.value.symm.trans hbuf)
    exact ⟨n, types, code, srcs, dsts, hn, hwt, hop, hsrcs, hlen, hx, List.getElem?_eq_getElem hr⟩

/-- An activation is written by the instruction of its node. -/
theorem write_of_activation (hverify : f.verify s = .ok ())
    (h : Describes s f f.nodes.length seen st) {i r b : Nat} (hb : st.Activation i r b) :
    ∃ x, st.body[i]? = some x ∧ ⟨b, .write⟩ ∈ x.operands := by
  obtain ⟨n, types, code, srcs, dsts, -, -, -, -, -, hx, hr⟩ := compute_of_activation hverify h hb
  exact ⟨_, hx, List.mem_append_left _ (List.mem_map.2 ⟨b, List.mem_of_getElem? hr, rfl⟩)⟩

/-- No other instruction writes it. -/
theorem eq_of_write (h : Describes s f f.nodes.length seen st) {i r b j : Nat}
    (hb : st.Activation i r b) {x : Instruction} (hx : st.body[j]? = some x)
    (hmem : ⟨b, .write⟩ ∈ x.operands) : j = i := by
  obtain ⟨d, hd, hkind⟩ := hb.declared
  have hj : j < f.nodes.length := h.length ▸ (List.getElem?_eq_some_iff.1 hx).1
  obtain ⟨x', hx', he⟩ := h.emits hj (List.getElem?_eq_getElem hj)
  obtain rfl := Option.some.inj (hx.symm.trans hx')
  cases accesses_of_emits hx he hmem with
  | result hv => exact (Prod.mk.inj (h.injective hv hb.value)).1
  | destination _ hv =>
    obtain ⟨name, type, -, -, hd'⟩ := h.weight hv
    rw [Option.some.inj (hd.symm.trans hd')] at hkind
    cases hkind
  | operand _ _ hne => exact absurd rfl hne

/-! ## Lifetimes -/

theorem lastPosition?_spec {p : Instruction → Bool} {body : List Instruction} {j : Nat}
    (h : lastPosition? p body = some j) : (∃ x, body[j]? = some x ∧ p x = true) ∧
      ∀ {i : Nat} {x : Instruction}, body[i]? = some x → p x = true → i ≤ j := by
  obtain ⟨q, hq, rfl⟩ := Option.map_eq_some_iff.1 h
  obtain ⟨hlt, hp, hno⟩ := List.findIdx?_eq_some_iff_getElem.1 hq
  rw [List.length_reverse] at hlt
  rw [List.getElem_reverse] at hp
  refine ⟨⟨_, List.getElem?_eq_getElem (by omega), hp⟩, fun {i x} hx hpx => ?_⟩
  obtain ⟨hi, rfl⟩ := List.getElem?_eq_some_iff.1 hx
  by_contra hlast
  refine hno (body.length - 1 - i) (by omega) ?_
  have hindex : body.length - 1 - (body.length - 1 - i) = i := by omega
  simp only [List.getElem_reverse, hindex, hpx]

theorem exists_lastPosition? {p : Instruction → Bool} {body : List Instruction} {x : Instruction}
    (hx : x ∈ body) (hp : p x = true) : ∃ j, lastPosition? p body = some j := by
  have hsome : (body.reverse.findIdx? p).isSome := by
    rw [List.findIdx?_isSome, List.any_eq_true]
    exact ⟨x, List.mem_reverse.2 hx, hp⟩
  obtain ⟨q, hq⟩ := Option.isSome_iff_exists.1 hsome
  exact ⟨_, Option.map_eq_some_iff.2 ⟨q, hq, rfl⟩⟩

/-- The last position of a lifetime accesses the activation or a view of it. -/
theorem accessed_of_mem {l : Lifetime} (hl : l ∈ lifetimes st) :
    ∃ x o, st.body[l.last]? = some x ∧ o ∈ x.operands ∧ rootOf st.roots o.buffer = l.buffer := by
  obtain ⟨d, -, hlife⟩ := List.mem_filterMap.1 hl
  obtain ⟨first, -, hlife⟩ := Option.bind_eq_some_iff.1 hlife
  obtain ⟨last, hlast, hlife⟩ := Option.bind_eq_some_iff.1 hlife
  obtain rfl := Option.some.inj hlife
  obtain ⟨⟨x, hx, hany⟩, -⟩ := lastPosition?_spec hlast
  obtain ⟨o, ho, hroot⟩ := List.any_eq_true.1 hany
  exact ⟨x, o, hx, ho, by simpa using hroot⟩

/-- What a lifetime says: the activation is written first, and its elements are accessed between the
two positions only. -/
structure Alive (st : Stream) (l : Lifetime) : Prop where
  declared : ∃ d, st.buffers[l.buffer]? = some d ∧ d.kind = .activation
  first_le : l.first ≤ l.last
  last_lt : l.last < st.body.length
  written : ∃ x, st.body[l.first]? = some x ∧ ⟨l.buffer, .write⟩ ∈ x.operands
  within : ∀ {j : Nat} {x : Instruction} {o : Operand}, st.body[j]? = some x → o ∈ x.operands →
    rootOf st.roots o.buffer = l.buffer → l.first ≤ j ∧ j ≤ l.last

/-- The lifetime that `lifetimes` gives to an activation. -/
theorem lifetime_of_activation (hverify : f.verify s = .ok ())
    (h : Describes s f f.nodes.length seen st) {i r b : Nat} (hb : st.Activation i r b) :
    ∃ last, (do
      let first ← st.body.findIdx? fun x => x.operands.any fun o => o.buffer = b && o.access = .write
      let last ← lastPosition? (fun x =>
        x.operands.any fun o => rootOf st.roots o.buffer = b) st.body
      return ⟨b, first, last⟩ : Option Lifetime) = some ⟨b, i, last⟩ ∧
      Alive st ⟨b, i, last⟩ := by
  obtain ⟨d, hd, hkind⟩ := hb.declared
  obtain ⟨x, hx, hwrite⟩ := write_of_activation hverify h hb
  have hself : rootOf st.roots b = b := rootOf_eq_self h hd (by simp [hkind])
  have hfirst : st.body.findIdx?
      (fun x => x.operands.any fun o => o.buffer = b && o.access = .write) = some i := by
    obtain ⟨hi, rfl⟩ := List.getElem?_eq_some_iff.1 hx
    refine List.findIdx?_eq_some_iff_getElem.2 ⟨hi, ?_, fun j hj hany => ?_⟩
    · exact List.any_eq_true.2 ⟨_, hwrite, by simp⟩
    · obtain ⟨⟨b', access⟩, ho, heq⟩ := List.any_eq_true.1 hany
      obtain ⟨rfl, rfl⟩ : b' = b ∧ access = .write := by simpa using heq
      exact absurd (eq_of_write h hb (List.getElem?_eq_getElem (Nat.lt_trans hj hi)) ho)
        (Nat.ne_of_lt hj)
  obtain ⟨last, hlast⟩ := exists_lastPosition?
    (p := fun x => x.operands.any fun o => rootOf st.roots o.buffer = b)
    (List.mem_of_getElem? hx) (List.any_eq_true.2 ⟨_, hwrite, by simpa using hself⟩)
  obtain ⟨⟨y, hy, -⟩, hmax⟩ := lastPosition?_spec hlast
  refine ⟨last, by rw [hfirst, hlast]; rfl, ⟨d, hd, hkind⟩, ?_, ?_, ⟨x, hx, hwrite⟩, ?_⟩
  · exact hmax hx (List.any_eq_true.2 ⟨_, hwrite, by simpa using hself⟩)
  · exact (List.getElem?_eq_some_iff.1 hy).1
  · intro j z o hz ho hroot
    have hj : j < f.nodes.length := h.length ▸ (List.getElem?_eq_some_iff.1 hz).1
    have hn := List.getElem?_eq_getElem hj
    obtain ⟨z', hz', he⟩ := h.emits hj hn
    obtain rfl := Option.some.inj (hz.symm.trans hz')
    exact ⟨le_of_accesses hverify h hn (accesses_of_emits hz he ho) hb.value hd hkind hroot,
      hmax hz (List.any_eq_true.2 ⟨o, ho, by simpa using hroot⟩)⟩

theorem alive_of_mem (hverify : f.verify s = .ok ()) (h : Describes s f f.nodes.length seen st)
    {l : Lifetime} (hl : l ∈ lifetimes st) : Alive st l := by
  obtain ⟨d, hd, hlife⟩ := List.mem_filterMap.1 hl
  obtain ⟨hmem, hactivation⟩ := List.mem_filter.1 hd
  obtain ⟨b, hb⟩ := List.mem_iff_getElem?.1 hmem
  obtain ⟨i, r, hvalue⟩ := exists_activation h hb (by simpa [Buffer.isActivation] using hactivation)
  obtain ⟨last, heq, halive⟩ := lifetime_of_activation hverify h hvalue
  rw [h.ids hb, heq] at hlife
  exact Option.some.inj hlife ▸ halive

/-- Every activation has a lifetime. -/
theorem exists_lifetime (hverify : f.verify s = .ok ()) (h : Describes s f f.nodes.length seen st)
    {b : Nat} {d : Buffer} (hd : st.buffers[b]? = some d) (hkind : d.kind = .activation) :
    ∃ l ∈ lifetimes st, l.buffer = b := by
  obtain ⟨i, r, hvalue⟩ := exists_activation h hd hkind
  obtain ⟨last, heq, -⟩ := lifetime_of_activation hverify h hvalue
  refine ⟨⟨b, i, last⟩, List.mem_filterMap.2 ⟨d, ?_, ?_⟩, rfl⟩
  · exact List.mem_filter.2 ⟨List.mem_of_getElem? hd, by simpa [Buffer.isActivation] using hkind⟩
  · rw [h.ids hd, heq]

/-- An operand shows storage, or an activation. -/
theorem shown_cases (hverify : f.verify s = .ok ()) (h : Describes s f f.nodes.length seen st)
    {v : Value} {b : Nat} (hb : st.bufferOf? v = some b) :
    (∃ ref, f.Shows v (.storage ref) ∧ st.weights.lookup ref = some (rootOf st.roots b)) ∨
      ∃ l ∈ lifetimes st, rootOf st.roots b = l.buffer ∧
        ∃ i r, f.Shows v (.node i r) ∧ st.values.lookup (i, r) = some l.buffer := by
  obtain ⟨w, d, hshows, hw, hd, hno, -⟩ := exists_shown hverify h b hb
  cases w with
  | storage ref => exact .inl ⟨ref, hshows, hw⟩
  | node i r =>
    obtain ⟨-, n, d', -, -, hd', hkind⟩ := h.value hw
    obtain rfl := Option.some.inj (hd.symm.trans hd')
    obtain ⟨l, hl, hbuffer⟩ := exists_lifetime hverify h hd (hkind.activation hno)
    exact .inr ⟨l, hl, hbuffer.symm, i, r, hshows, hbuffer ▸ hw⟩

theorem lifetimes_nodup {k : Nat} (h : Describes s f k seen st) :
    (lifetimes st).Pairwise fun l l' => l.buffer ≠ l'.buffer := by
  have hids : st.buffers.Pairwise fun d d' => d.id ≠ d'.id := by
    refine List.pairwise_iff_getElem.2 fun i j hi hj hlt => ?_
    rw [h.ids (List.getElem?_eq_getElem hi), h.ids (List.getElem?_eq_getElem hj)]
    exact Nat.ne_of_lt hlt
  refine List.pairwise_filterMap.2 ((hids.filter _).imp fun {d d'} hne l hl l' hl' => ?_)
  have hbuffer {d : Buffer} {l : Lifetime} (hl : (do
      let first ← st.body.findIdx? fun x =>
        x.operands.any fun o => o.buffer = d.id && o.access = .write
      let last ← lastPosition? (fun x =>
        x.operands.any fun o => rootOf st.roots o.buffer = d.id) st.body
      return ⟨d.id, first, last⟩ : Option Lifetime) = some l) : l.buffer = d.id := by
    obtain ⟨first, -, hl⟩ := Option.bind_eq_some_iff.1 hl
    obtain ⟨last, -, hl⟩ := Option.bind_eq_some_iff.1 hl
    rw [← Option.some.inj hl]
  rw [hbuffer hl, hbuffer hl']
  exact hne

end TensorCompiler.Lowering
