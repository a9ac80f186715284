import TensorCompiler.Artifact.Lowering
import TensorCompiler.Proofs.Graph.Verified
import TensorCompiler.Proofs.Lists

/-!
The stream that lowering makes of a verified function. `Describes` says what has been declared and
emitted after the first nodes: every node has one instruction over the buffers of its operands and
results, every buffer has one origin, and the root of a view is known. One node keeps this
(`lowerNode_describes`), so the whole stream has it (`stream_describes`).
-/

namespace TensorCompiler.Lowering

namespace Stream

/-- The buffer of a value, once it is declared. -/
def bufferOf? (st : Stream) : Value → Option Nat
  | .node id result => st.values.lookup (id, result)
  | .storage ref => st.weights.lookup ref

/-- `st'` is `st` with further declarations and instructions. -/
structure Extends (st st' : Stream) : Prop where
  buffers : ∀ {b : Nat} {d : Buffer}, st.buffers[b]? = some d → st'.buffers[b]? = some d
  weights : ∀ {ref : StorageRef} {b : Nat}, st.weights.lookup ref = some b →
    st'.weights.lookup ref = some b
  values : ∀ {v : Nat × Nat} {b : Nat}, st.values.lookup v = some b → st'.values.lookup v = some b
  roots : ∀ {b : Nat}, b < st.buffers.length → st'.roots.get? b = st.roots.get? b
  body : ∀ {i : Nat} {x : Instruction}, st.body[i]? = some x → st'.body[i]? = some x

namespace Extends

variable {st st' st'' : Stream}

theorem refl (st : Stream) : Extends st st := ⟨id, id, id, fun _ => rfl, id⟩

theorem length_le (h : Extends st st') : st.buffers.length ≤ st'.buffers.length := by
  by_contra hlt
  have hget := h.buffers (List.getElem?_eq_getElem (Nat.lt_of_not_le hlt))
  exact absurd (List.getElem?_eq_some_iff.1 hget).1 (Nat.lt_irrefl _)

theorem trans (h : Extends st st') (h' : Extends st' st'') : Extends st st'' where
  buffers hb := h'.buffers (h.buffers hb)
  weights hw := h'.weights (h.weights hw)
  values hv := h'.values (h.values hv)
  roots hb := (h'.roots (Nat.lt_of_lt_of_le hb h.length_le)).trans (h.roots hb)
  body hx := h'.body (h.body hx)

theorem body_prefix (h : Extends st st') : st.body <+: st'.body :=
  List.prefix_iff_getElem?.2 fun _ hi => h.body (List.getElem?_eq_getElem hi)

theorem bufferOf (h : Extends st st') {v : Value} {b : Nat} (hb : st.bufferOf? v = some b) :
    st'.bufferOf? v = some b := by
  cases v with
  | node id result => exact h.values hb
  | storage ref => exact h.weights hb

end Extends

/-- The instruction of node `i`, over the buffers that `st` has for its operands and results. -/
inductive Emits (st : Stream) (i : Nat) (n : Node) : Instruction → Prop
  | view {shape : Shape} {v : Value} {src dst : Nat} : n.op = .reshape shape → n.inputs = [v] →
      st.bufferOf? v = some src → st.bufferOf? (.node i 0) = some dst →
      Emits st i n (.ofBuffers .view [dst] [src])
  | save {ref : StorageRef} {v : Value} {src dst : Nat} : n.op = .save ref → n.inputs = [v] →
      st.bufferOf? v = some src → st.bufferOf? (.storage ref) = some dst →
      Emits st i n (.ofBuffers .copy [dst] [src])
  | descent {p : Descent} {g : Value} {ref : StorageRef} {gradient weight state : Nat}
      {name : String} {d : Buffer} : n.op = .sgd p → n.inputs = [g, .storage ref] →
      st.bufferOf? g = some gradient → st.bufferOf? (.storage ref) = some weight →
      st.buffers[weight]? = some d → st.buffers[state]? = some ⟨state, name, d.type, .state⟩ →
      Emits st i n ⟨.sgd p, [⟨weight, .readWrite⟩, ⟨gradient, .read⟩, ⟨state, .readWrite⟩]⟩
  | compute {code : Opcode} {srcs dsts : List Nat} : opcode? n.op = some code →
      List.Forall₂ (fun v b => st.bufferOf? v = some b) n.inputs srcs →
      dsts.length = n.results.length →
      (∀ {r b : Nat}, dsts[r]? = some b → st.bufferOf? (.node i r) = some b) →
      Emits st i n (.ofBuffers code dsts (read n.op srcs))

theorem Emits.mono {st st' : Stream} {i : Nat} {n : Node} {x : Instruction} (h : Extends st st')
    (hx : Emits st i n x) : Emits st' i n x := by
  cases hx with
  | view hop hin hsrc hdst => exact .view hop hin (h.bufferOf hsrc) (h.bufferOf hdst)
  | save hop hin hsrc hdst => exact .save hop hin (h.bufferOf hsrc) (h.bufferOf hdst)
  | descent hop hin hg hw hd hstate =>
    exact .descent hop hin (h.bufferOf hg) (h.bufferOf hw) (h.buffers hd) (h.buffers hstate)
  | compute hop hsrcs hlen hdsts =>
    exact .compute hop (hsrcs.imp fun _ _ => h.bufferOf) hlen fun hb => h.bufferOf (hdsts hb)

/-- A reshape is a view of its operand, any other result has elements of its own. -/
def ResultKind (st : Stream) (n : Node) (kind : BufferKind) : Prop :=
  match n.op with
  | .reshape _ => ∃ v src, n.inputs = [v] ∧ st.bufferOf? v = some src ∧ kind = .view src
  | _ => kind = .activation

theorem ResultKind.mono {st st' : Stream} {n : Node} {kind : BufferKind} (h : Extends st st')
    (hk : ResultKind st n kind) : ResultKind st' n kind := by
  unfold ResultKind at *
  split at hk
  · obtain ⟨v, src, hin, hsrc, rfl⟩ := hk
    exact ⟨v, src, hin, h.bufferOf hsrc, rfl⟩
  · exact hk

theorem ResultKind.view {st : Stream} {n : Node} {src : Nat} (hk : ResultKind st n (.view src)) :
    ∃ shape v, n.op = .reshape shape ∧ n.inputs = [v] ∧ st.bufferOf? v = some src := by
  unfold ResultKind at hk
  split at hk
  · next shape hop =>
    obtain ⟨v, src', hin, hsrc, hview⟩ := hk
    exact ⟨shape, v, hop, hin, BufferKind.view.inj hview ▸ hsrc⟩
  · cases hk

theorem ResultKind.of_reshape {st : Stream} {n : Node} {kind : BufferKind} {shape : Shape} {v : Value}
    (hk : ResultKind st n kind) (hop : n.op = .reshape shape) (hin : n.inputs = [v]) :
    ∃ src, st.bufferOf? v = some src ∧ kind = .view src := by
  simp only [ResultKind, hop] at hk
  obtain ⟨v', src, hin', hsrc, hview⟩ := hk
  obtain ⟨rfl, -⟩ := List.cons.inj (hin.symm.trans hin')
  exact ⟨src, hsrc, hview⟩

theorem ResultKind.activation {st : Stream} {n : Node} {kind : BufferKind}
    (hk : ResultKind st n kind) (hno : ∀ src, kind ≠ .view src) : kind = .activation := by
  unfold ResultKind at hk
  split at hk
  · obtain ⟨v, src, -, -, hview⟩ := hk
    exact absurd hview (hno src)
  · exact hk

theorem ResultKind.of_computes {st : Stream} {n : Node} {kind : BufferKind} {code : Opcode}
    (hk : ResultKind st n kind) (hop : opcode? n.op = some code) : kind = .activation := by
  unfold ResultKind at hk
  split at hk
  · next hreshape => simp [hreshape, opcode?] at hop
  · exact hk

/-- The optimizer state of the descent node `i`. -/
def Momentum (st : Stream) (i b : Nat) : Prop :=
  ∃ p o₁ o₂, st.body[i]? = some ⟨.sgd p, [o₁, o₂, ⟨b, .readWrite⟩]⟩

/-- What a buffer has been declared for. -/
def Origin (st : Stream) (b : Nat) : BufferKind → Prop
  | .weight ref => st.weights.lookup ref = some b
  | .activation | .view _ => ∃ v, st.values.lookup v = some b
  | .state => ∃ i, st.Momentum i b

theorem Origin.mono {st st' : Stream} {b : Nat} {kind : BufferKind} (h : Extends st st')
    (hk : Origin st b kind) : Origin st' b kind := by
  cases kind with
  | weight ref => exact h.weights hk
  | activation =>
    obtain ⟨v, hv⟩ := hk
    exact ⟨v, h.values hv⟩
  | view src =>
    obtain ⟨v, hv⟩ := hk
    exact ⟨v, h.values hv⟩
  | state =>
    obtain ⟨i, p, o₁, o₂, hx⟩ := hk
    exact ⟨i, p, o₁, o₂, h.body hx⟩

theorem opcode?_ne_sgd (op : Operator) (p : Descent) : opcode? op ≠ some (.sgd p) := by
  cases op <;> simp [opcode?]

/-- Only a step of descent becomes one. -/
theorem Emits.sgd {st : Stream} {i : Nat} {n : Node} {x : Instruction} {p : Descent}
    (h : Emits st i n x) (hx : x.op = .sgd p) : n.op = .sgd p := by
  cases h with
  | view | save => cases hx
  | descent hop => rw [hop, Opcode.sgd.inj hx]
  | compute hop => exact absurd (hop.trans (congrArg some hx)) (opcode?_ne_sgd _ p)

theorem Emits.softMaxGrad {st : Stream} {i : Nat} {n : Node} {x : Instruction}
    (h : Emits st i n x) (hx : x.op = .softMaxGrad) : n.op = .softMaxGrad := by
  cases h with
  | view | save | descent => cases hx
  | @compute code srcs dsts hop =>
    obtain rfl : code = .softMaxGrad := hx
    cases hn : n.op <;> simp [hn, opcode?] at hop ⊢

/-- What `st` holds once the first `k` nodes of `f` are lowered and the storage `seen` is named. -/
structure Describes (s : Storage) (f : Function) (k : Nat) (seen : List StorageRef) (st : Stream) :
    Prop where
  ids : ∀ {b : Nat} {d : Buffer}, st.buffers[b]? = some d → d.id = b
  weight : ∀ {ref : StorageRef} {b : Nat}, st.weights.lookup ref = some b →
    ∃ name type, s.name? ref = some name ∧ s.type? ref = some type ∧
      st.buffers[b]? = some ⟨b, name, type, .weight ref⟩
  seen_iff : ∀ ref, (∃ b, st.weights.lookup ref = some b) ↔ ref ∈ seen
  value : ∀ {i r b : Nat}, st.values.lookup (i, r) = some b → i < k ∧
    ∃ n d, f.nodes[i]? = some n ∧ n.results[r]? = some d.type ∧ st.buffers[b]? = some d ∧
      st.ResultKind n d.kind
  defined : ∀ {i r : Nat} {n : Node} {type : TensorType}, i < k → f.nodes[i]? = some n →
    n.results[r]? = some type → ∃ b, st.values.lookup (i, r) = some b
  injective : ∀ {v w : Nat × Nat} {b : Nat}, st.values.lookup v = some b →
    st.values.lookup w = some b → v = w
  origin : ∀ {b : Nat} {d : Buffer}, st.buffers[b]? = some d → st.Origin b d.kind
  rooted : ∀ {b src : Nat} {d : Buffer}, st.buffers[b]? = some d → d.kind = .view src →
    src < b ∧ st.roots.get? b = some (rootOf st.roots src)
  unrooted : ∀ {b : Nat}, (∀ {d : Buffer} {src : Nat}, st.buffers[b]? = some d →
    d.kind ≠ .view src) → st.roots.get? b = none
  bound : k ≤ f.nodes.length
  length : st.body.length = k
  emits : ∀ {i : Nat} {n : Node}, i < k → f.nodes[i]? = some n →
    ∃ x, st.body[i]? = some x ∧ st.Emits i n x
  momentum_injective : ∀ {i j b : Nat}, st.Momentum i b → st.Momentum j b → i = j

namespace Describes

variable {s : Storage} {f : Function} {k : Nat} {seen : List StorageRef} {st : Stream}

theorem empty (s : Storage) (f : Function) : Describes s f 0 [] Stream.empty := by
  constructor <;> simp [Stream.empty, Momentum]

theorem lt_of_bufferOf (h : Describes s f k seen st) {v : Value} {b : Nat}
    (hb : st.bufferOf? v = some b) : b < st.buffers.length := by
  cases v with
  | node id result =>
    obtain ⟨-, n, d, -, -, hd, -⟩ := h.value hb
    exact (List.getElem?_eq_some_iff.1 hd).1
  | storage ref =>
    obtain ⟨name, type, -, -, hd⟩ := h.weight hb
    exact (List.getElem?_eq_some_iff.1 hd).1

theorem lookup_eq_none (h : Describes s f k seen st) {i : Nat} (hi : k ≤ i) (r : Nat) :
    st.values.lookup (i, r) = none := by
  cases hv : st.values.lookup (i, r) with
  | none => rfl
  | some b => exact absurd (h.value hv).1 (Nat.not_lt.2 hi)

/-- An optimizer state is declared as one. -/
theorem state_of_momentum (h : Describes s f k seen st) {i b : Nat} (hb : st.Momentum i b) :
    ∃ d, st.buffers[b]? = some d ∧ d.kind = .state := by
  obtain ⟨p, o₁, o₂, hx⟩ := hb
  have hi : i < k := h.length ▸ (List.getElem?_eq_some_iff.1 hx).1
  obtain ⟨x, hx', he⟩ :=
    h.emits hi (List.getElem?_eq_getElem (Nat.lt_of_lt_of_le hi h.bound))
  have hxx := Option.some.inj (hx'.symm.trans hx)
  cases he with
  | view => cases hxx
  | save => cases hxx
  | descent _ _ _ _ _ hstate =>
    obtain ⟨-, -, -, hb⟩ : _ ∧ _ ∧ _ ∧ _ = b := by simpa using hxx
    exact ⟨_, hb ▸ hstate, rfl⟩
  | compute hop _ _ _ =>
    rw [(Instruction.mk.inj hxx).1] at hop
    exact absurd hop (opcode?_ne_sgd _ _)

theorem lt_of_momentum (h : Describes s f k seen st) {i b : Nat} (hb : st.Momentum i b) :
    b < st.buffers.length := by
  obtain ⟨d, hd, -⟩ := h.state_of_momentum hb
  exact (List.getElem?_eq_some_iff.1 hd).1

end Describes

/-- `st` after the buffer of a storage has been declared. -/
def withWeight (st : Stream) (ref : StorageRef) (name : String) (type : TensorType) : Stream :=
  { st with
    buffers := st.buffers ++ [⟨st.buffers.length, name, type, .weight ref⟩]
    weights := st.weights ++ [(ref, st.buffers.length)] }

section WithWeight

variable {s : Storage} {f : Function} {k : Nat} {seen : List StorageRef} {st : Stream}
  {ref : StorageRef} {name : String} {type : TensorType}

theorem buffers_withWeight (b : Nat) : (st.withWeight ref name type).buffers[b]? =
    if b = st.buffers.length then some ⟨st.buffers.length, name, type, .weight ref⟩
    else st.buffers[b]? :=
  getElem?_snoc ..

theorem weights_withWeight (hnew : st.weights.lookup ref = none) (ref' : StorageRef) :
    (st.withWeight ref name type).weights.lookup ref' =
      if ref' = ref then some st.buffers.length else st.weights.lookup ref' :=
  lookup_snoc hnew ref'

theorem extends_withWeight (hnew : st.weights.lookup ref = none) :
    Extends st (st.withWeight ref name type) where
  buffers hb := by
    rw [buffers_withWeight, if_neg (Nat.ne_of_lt (List.getElem?_eq_some_iff.1 hb).1), hb]
  weights {ref' b} hr := by
    have hne : ref' ≠ ref := by
      rintro rfl
      cases hnew.symm.trans hr
    rw [weights_withWeight hnew, if_neg hne, hr]
  values := id
  roots _ := rfl
  body := id

/-- Declaring the buffer of a storage that is named for the first time. -/
theorem Describes.withWeight (h : Describes s f k seen st) (hnew : st.weights.lookup ref = none)
    (hname : s.name? ref = some name) (htype : s.type? ref = some type) :
    Describes s f k (seen ++ [ref]) (st.withWeight ref name type) := by
  have hext : Extends st (st.withWeight ref name type) := extends_withWeight hnew
  -- nothing but the buffers and the weights differs from `st`
  refine { h with
    ids := ?ids, weight := ?weight, seen_iff := ?seen_iff, value := ?value, origin := ?origin,
    rooted := ?rooted, unrooted := fun hb => h.unrooted fun hd => hb (hext.buffers hd),
    emits := ?emits }
  case ids =>
    intro b d hd
    rw [buffers_withWeight] at hd
    split at hd
    · next hb => rw [← Option.some.inj hd, hb]
    · exact h.ids hd
  case weight =>
    intro ref' b hb
    rw [weights_withWeight hnew] at hb
    split at hb
    · next href =>
      subst href
      obtain rfl := Option.some.inj hb
      exact ⟨name, type, hname, htype, by rw [buffers_withWeight, if_pos rfl]⟩
    · obtain ⟨name', type', hname', htype', hd⟩ := h.weight hb
      exact ⟨name', type', hname', htype', hext.buffers hd⟩
  case seen_iff =>
    intro ref'
    rw [weights_withWeight hnew, List.mem_append, List.mem_singleton, ← h.seen_iff]
    split <;> simp [*]
  case value =>
    intro i r b hb
    obtain ⟨hi, n, d, hn, ht, hd, hk⟩ := h.value hb
    exact ⟨hi, n, d, hn, ht, hext.buffers hd, hk.mono hext⟩
  case origin =>
    intro b d hd
    rw [buffers_withWeight] at hd
    split at hd
    · next hb =>
      rw [← Option.some.inj hd]
      exact (weights_withWeight hnew ref).trans (by rw [if_pos rfl, hb])
    · exact (h.origin hd).mono hext
  case rooted =>
    intro b src d hd hkind
    rw [buffers_withWeight] at hd
    split at hd
    · rw [← Option.some.inj hd] at hkind
      cases hkind
    · exact h.rooted hd hkind
  case emits =>
    intro i n hi hn
    obtain ⟨x, hx, he⟩ := h.emits hi hn
    exact ⟨x, hx, he.mono hext⟩

end WithWeight

/-- `st'` is `st` after node `k`: buffers `new` have been declared, its results entered as `vals`, and its
instruction `x` emitted. -/
structure AddsNode (st : Stream) (k : Nat) (n : Node) (new : List Buffer)
    (vals : List ((Nat × Nat) × Nat)) (x : Instruction) (st' : Stream) : Prop where
  buffers : st'.buffers = st.buffers ++ new
  weights : st'.weights = st.weights
  values : st'.values = st.values ++ vals
  body : st'.body = st.body ++ [x]
  roots : ∀ b < st.buffers.length, st'.roots.get? b = st.roots.get? b
  ids : ∀ {j : Nat} {d : Buffer}, new[j]? = some d → d.id = st.buffers.length + j
  value : ∀ {v : Nat × Nat} {b : Nat}, vals.lookup v = some b → ∃ r d, v = (k, r) ∧
    b = st.buffers.length + r ∧ new[r]? = some d ∧ n.results[r]? = some d.type ∧
    st'.ResultKind n d.kind
  defined : ∀ {r : Nat} {type : TensorType}, n.results[r]? = some type →
    ∃ b, vals.lookup (k, r) = some b
  origin : ∀ {j : Nat} {d : Buffer}, new[j]? = some d → st'.Origin (st.buffers.length + j) d.kind
  rooted : ∀ {j src : Nat} {d : Buffer}, new[j]? = some d → d.kind = .view src →
    src < st.buffers.length ∧
      st'.roots.get? (st.buffers.length + j) = some (rootOf st.roots src)
  unrooted : ∀ {j : Nat}, (∀ {d : Buffer} {src : Nat}, new[j]? = some d → d.kind ≠ .view src) →
    st'.roots.get? (st.buffers.length + j) = none
  emits : st'.Emits k n x
  momentum : ∀ {b : Nat}, st'.Momentum k b → st.buffers.length ≤ b

namespace AddsNode

variable {s : Storage} {f : Function} {k : Nat} {seen : List StorageRef} {st st' : Stream}
  {n : Node} {new : List Buffer} {vals : List ((Nat × Nat) × Nat)} {x : Instruction}

theorem fresh (ha : st.AddsNode k n new vals x st') (j : Nat) :
    st'.buffers[st.buffers.length + j]? = new[j]? := by
  rw [ha.buffers, List.getElem?_append_right (Nat.le_add_right ..), Nat.add_sub_cancel_left]

/-- A buffer is an old one, or one that has been declared for the node. -/
theorem buffer_cases (ha : st.AddsNode k n new vals x st') {b : Nat} {d : Buffer}
    (hd : st'.buffers[b]? = some d) : st.buffers[b]? = some d ∨
      ∃ j, b = st.buffers.length + j ∧ new[j]? = some d := by
  by_cases hb : b < st.buffers.length
  · rw [ha.buffers, List.getElem?_append_left hb] at hd
    exact .inl hd
  · obtain ⟨j, rfl⟩ := Nat.exists_eq_add_of_le (Nat.le_of_not_lt hb)
    exact .inr ⟨j, rfl, (ha.fresh j).symm.trans hd⟩

theorem lookup (ha : st.AddsNode k n new vals x st') (v : Nat × Nat) :
    st'.values.lookup v = (st.values.lookup v).or (vals.lookup v) := by
  rw [ha.values, List.lookup_append]

theorem value_cases (ha : st.AddsNode k n new vals x st') {v : Nat × Nat} {b : Nat}
    (hv : st'.values.lookup v = some b) :
    st.values.lookup v = some b ∨ vals.lookup v = some b := by
  rw [ha.lookup, Option.or_eq_some_iff] at hv
  exact hv.imp_right And.right

/-- The results of the node have buffers that no value had. -/
theorem le_of_lookup (ha : st.AddsNode k n new vals x st') {v : Nat × Nat} {b : Nat}
    (hv : vals.lookup v = some b) : st.buffers.length ≤ b := by
  obtain ⟨r, d, -, rfl, -⟩ := ha.value hv
  exact Nat.le_add_right ..

theorem instruction (ha : st.AddsNode k n new vals x st') (hlength : st.body.length = k) (i : Nat) :
    st'.body[i]? = if i = k then some x else st.body[i]? := by
  rw [ha.body, getElem?_snoc, hlength]

theorem momentum_cases (ha : st.AddsNode k n new vals x st') (hlength : st.body.length = k)
    {i b : Nat} (hm : st'.Momentum i b) : st.Momentum i b ∨ i = k := by
  obtain ⟨p, o₁, o₂, hx⟩ := hm
  rw [ha.instruction hlength] at hx
  split at hx
  · next hi => exact .inr hi
  · exact .inl ⟨p, o₁, o₂, hx⟩

theorem mono (ha : st.AddsNode k n new vals x st') (hlength : st.body.length = k) :
    Extends st st' where
  buffers hd := by
    rw [ha.buffers, List.getElem?_append_left (List.getElem?_eq_some_iff.1 hd).1, hd]
  weights hw := by rw [ha.weights, hw]
  values hv := by rw [ha.lookup, hv, Option.some_or]
  roots hb := ha.roots _ hb
  body hy := by
    have hi := (List.getElem?_eq_some_iff.1 hy).1
    rw [ha.instruction hlength, if_neg (hlength ▸ Nat.ne_of_lt hi), hy]

/-- Distinct results have distinct buffers. -/
theorem injective (ha : st.AddsNode k n new vals x st') (h : Describes s f k seen st)
    {v w : Nat × Nat} {b : Nat} (hv : st'.values.lookup v = some b)
    (hw : st'.values.lookup w = some b) : v = w := by
  have hold {u : Nat × Nat} (hu : st.values.lookup u = some b) : b < st.buffers.length :=
    h.lt_of_bufferOf (v := .node u.1 u.2) hu
  rcases ha.value_cases hv with hv | hv <;> rcases ha.value_cases hw with hw | hw
  · exact h.injective hv hw
  · exact absurd (hold hv) (Nat.not_lt.2 (ha.le_of_lookup hw))
  · exact absurd (hold hw) (Nat.not_lt.2 (ha.le_of_lookup hv))
  · obtain ⟨r, d, rfl, rfl, -⟩ := ha.value hv
    obtain ⟨r', d', rfl, hr, -⟩ := ha.value hw
    rw [Nat.add_left_cancel hr]

/-- The root of a view that was there is what it was, and that of a new one is known. -/
theorem rooted_cases (ha : st.AddsNode k n new vals x st') (h : Describes s f k seen st)
    {b src : Nat} {d : Buffer} (hd : st'.buffers[b]? = some d) (hkind : d.kind = .view src) :
    src < b ∧ st'.roots.get? b = some (rootOf st'.roots src) := by
  have hroot {c : Nat} (hc : c < st.buffers.length) : rootOf st'.roots c = rootOf st.roots c := by
    rw [rootOf, rootOf, ha.roots c hc]
  rcases ha.buffer_cases hd with hd | ⟨j, rfl, hnew⟩
  · have hb := (List.getElem?_eq_some_iff.1 hd).1
    obtain ⟨hsrc, hr⟩ := h.rooted hd hkind
    exact ⟨hsrc, by rw [ha.roots b hb, hr, hroot (Nat.lt_trans hsrc hb)]⟩
  · obtain ⟨hsrc, hr⟩ := ha.rooted hnew hkind
    exact ⟨Nat.lt_of_lt_of_le hsrc (Nat.le_add_right ..), by rw [hr, hroot hsrc]⟩

theorem unrooted_cases (ha : st.AddsNode k n new vals x st') (h : Describes s f k seen st) {b : Nat}
    (hb : ∀ {d : Buffer} {src : Nat}, st'.buffers[b]? = some d → d.kind ≠ .view src) :
    st'.roots.get? b = none := by
  by_cases hlt : b < st.buffers.length
  · rw [ha.roots b hlt]
    exact h.unrooted fun hd => hb ((ha.mono h.length).buffers hd)
  · obtain ⟨j, rfl⟩ := Nat.exists_eq_add_of_le (Nat.le_of_not_lt hlt)
    exact ha.unrooted fun hd => hb ((ha.fresh j).trans hd)

/-- Declaring the results of the next node and emitting its instruction. -/
theorem describes (ha : st.AddsNode k n new vals x st') (h : Describes s f k seen st)
    (hn : f.nodes[k]? = some n) : Describes s f (k + 1) seen st' := by
  have hext : Extends st st' := ha.mono h.length
  constructor
  case ids =>
    intro b d hd
    rcases ha.buffer_cases hd with hd | ⟨j, rfl, hnew⟩
    · exact h.ids hd
    · exact ha.ids hnew
  case weight =>
    intro ref b hb
    rw [ha.weights] at hb
    obtain ⟨name, type, hname, htype, hd⟩ := h.weight hb
    exact ⟨name, type, hname, htype, hext.buffers hd⟩
  case seen_iff =>
    rw [ha.weights]
    exact h.seen_iff
  case value =>
    intro i r b hv
    rcases ha.value_cases hv with hv | hv
    · obtain ⟨hi, m, d, hm, ht, hd, hk⟩ := h.value hv
      exact ⟨Nat.lt_succ_of_lt hi, m, d, hm, ht, hext.buffers hd, hk.mono hext⟩
    · obtain ⟨r', d, hv', rfl, hd, ht, hk⟩ := ha.value hv
      obtain ⟨rfl, rfl⟩ := Prod.mk.inj hv'
      exact ⟨Nat.lt_succ_self _, n, d, hn, ht, (ha.fresh r).trans hd, hk⟩
  case defined =>
    intro i r m type hi hm ht
    rcases Nat.lt_succ_iff_lt_or_eq.1 hi with hi | rfl
    · obtain ⟨b, hb⟩ := h.defined hi hm ht
      exact ⟨b, hext.values hb⟩
    · obtain rfl : n = m := Option.some.inj (hn.symm.trans hm)
      obtain ⟨b, hb⟩ := ha.defined ht
      exact ⟨b, by rw [ha.lookup, h.lookup_eq_none (Nat.le_refl _), hb, Option.none_or]⟩
  case injective =>
    intro v w b
    exact ha.injective h
  case origin =>
    intro b d hd
    rcases ha.buffer_cases hd with hd | ⟨j, rfl, hnew⟩
    · exact (h.origin hd).mono hext
    · exact ha.origin hnew
  case rooted =>
    intro b src d
    exact ha.rooted_cases h
  case unrooted =>
    intro b
    exact ha.unrooted_cases h
  case bound => exact (List.getElem?_eq_some_iff.1 hn).1
  case length =>
    rw [ha.body, List.length_append, h.length]
    rfl
  case emits =>
    intro i m hi hm
    rcases Nat.lt_succ_iff_lt_or_eq.1 hi with hi | rfl
    · obtain ⟨y, hy, he⟩ := h.emits hi hm
      exact ⟨y, hext.body hy, he.mono hext⟩
    · obtain rfl : n = m := Option.some.inj (hn.symm.trans hm)
      exact ⟨x, by rw [ha.instruction h.length, if_pos rfl], ha.emits⟩
  case momentum_injective =>
    intro i j b hi hj
    rcases ha.momentum_cases h.length hi with hi' | rfl <;>
      rcases ha.momentum_cases h.length hj with hj' | rfl
    · exact h.momentum_injective hi' hj'
    · exact absurd (h.lt_of_momentum hi') (Nat.not_lt.2 (ha.momentum hj))
    · exact absurd (h.lt_of_momentum hj') (Nat.not_lt.2 (ha.momentum hi))
    · rfl

end AddsNode

end Stream

end TensorCompiler.Lowering
