import Mathlib.Data.List.Induction
import TensorCompiler.Proofs.Graph.Typing
import TensorCompiler.Proofs.Lowering.Stream

/-!
Lowering succeeds on a well-typed node and keeps `Stream.Describes`. The operands come first, then
one of four shapes of instruction; `stream_describes` is the run over all nodes.
-/

namespace TensorCompiler.Lowering

open TensorCompiler.Lowering.Stream

variable {s : Storage} {f : Function} {k : Nat} {seen : List StorageRef} {st : Stream}

theorem run_bind_ok {α β : Type} {x : Emit α} {g : α → Emit β} {st : Stream} {a : α}
    (st' : Stream) (h : x.run st = .ok (a, st')) : (x >>= g).run st = (g a).run st' := by
  rw [StateT.run_bind, h]
  rfl

/-! ## Operands -/

theorem weight_describes (h : Describes s f k seen st) {ref : StorageRef} {type : TensorType}
    (htype : s.type? ref = some type) :
    ∃ b st', (weight s ref).run st = .ok (b, st') ∧ Describes s f k (seen ++ [ref]) st' ∧
      Extends st st' ∧ st'.bufferOf? (.storage ref) = some b := by
  cases hw : st.weights.lookup ref with
  | some b =>
    refine ⟨b, st, ?_, ?_, .refl st, hw⟩
    · unfold weight
      rw [run_bind_ok st (x := get) (a := st) rfl]
      simp only [hw]
      rfl
    · have hmem : ref ∈ seen := (h.seen_iff ref).1 ⟨b, hw⟩
      refine { h with seen_iff := fun ref' => ?_ }
      rw [h.seen_iff, List.mem_append, List.mem_singleton]
      exact ⟨.inl, fun hr => hr.elim id fun hr => hr ▸ hmem⟩
  | none =>
    obtain ⟨name, hname⟩ : ∃ name, s.name? ref = some name := by
      cases ref <;> simp_all [Storage.type?, Storage.name?] <;> obtain ⟨_, h, _⟩ := htype <;> simp [h]
    refine ⟨st.buffers.length, st.withWeight ref name type, ?_, h.withWeight hw hname htype,
      extends_withWeight hw, (weights_withWeight hw ref).trans (if_pos rfl)⟩
    unfold weight
    rw [run_bind_ok st (x := get) (a := st) rfl]
    simp only [hw, htype, hname]
    rfl

theorem operand_describes (h : Describes s f k seen st) {v : Value} {type : TensorType}
    (hv : Function.OperandType s f k v type) :
    ∃ b st', (operand s f v).run st = .ok (b, st') ∧
      Describes s f k (seen ++ v.storage?.toList) st' ∧ Extends st st' ∧
      st'.bufferOf? v = some b := by
  cases v with
  | node id result =>
    obtain ⟨hid, n, hn, ht⟩ := hv
    obtain ⟨b, hb⟩ := h.defined hid hn ht
    refine ⟨b, st, ?_, by simpa [Value.storage?] using h, .refl st, hb⟩
    unfold operand
    rw [run_bind_ok st (x := get) (a := st) rfl]
    simp only [hb]
    rfl
  | storage ref => exact weight_describes h hv

theorem operands_describes {inputs : List Value} {types : List TensorType}
    (hin : List.Forall₂ (Function.OperandType s f k) inputs types) (h : Describes s f k seen st) :
    ∃ bs st', (inputs.mapM (operand s f)).run st = .ok (bs, st') ∧
      Describes s f k (seen ++ inputs.filterMap Value.storage?) st' ∧ Extends st st' ∧
      List.Forall₂ (fun v b => st'.bufferOf? v = some b) inputs bs := by
  induction hin generalizing seen st with
  | nil => exact ⟨[], st, rfl, by simpa using h, .refl st, .nil⟩
  | @cons v type vs types hv _ ih =>
    obtain ⟨b, st₁, hrun, h₁, hext₁, hb⟩ := operand_describes h hv
    obtain ⟨bs, st₂, hrun₂, h₂, hext₂, hbs⟩ := ih h₁
    refine ⟨b :: bs, st₂, ?_, ?_, hext₁.trans hext₂, .cons (hext₂.bufferOf hb) hbs⟩
    · rw [List.mapM_cons, run_bind_ok _ hrun, run_bind_ok _ hrun₂]
      rfl
    · have hseen : seen ++ (v :: vs).filterMap Value.storage? =
          seen ++ v.storage?.toList ++ vs.filterMap Value.storage? := by
        cases v <;> simp [Value.storage?, List.filterMap_cons]
      exact hseen ▸ h₂

/-! ## Results -/

theorem declareResults_run (n : Node) (id : Nat) (types : List TensorType) (j : Nat) (st : Stream) :
    ((types.zipIdx j).mapM (fun (type, i) => do
        let buffer ← declare (resultName n i) type .activation
        bindValue (id, i) buffer
        return buffer : TensorType × Nat → Emit Nat)).run st =
      .ok (List.range' st.buffers.length types.length, { st with
        buffers := st.buffers ++ types.mapIdx fun i type =>
          ⟨st.buffers.length + i, resultName n (j + i), type, .activation⟩
        values := st.values ++ types.mapIdx fun i _ => ((id, j + i), st.buffers.length + i) }) := by
  induction types generalizing j st with
  | nil =>
    simp only [List.mapIdx_nil, List.append_nil]
    rfl
  | cons type types ih =>
    rw [List.zipIdx_cons, List.mapM_cons, run_bind_ok ({ st with
      buffers := st.buffers ++ [⟨st.buffers.length, resultName n j, type, .activation⟩]
      values := st.values ++ [((id, j), st.buffers.length)] } ) rfl, run_bind_ok _ (ih (j + 1) _)]
    simp only [List.mapIdx_cons, List.length_append, List.length_nil, List.length_cons,
      List.range'_succ, List.append_assoc, List.singleton_append, Nat.add_assoc, Nat.add_comm 1,
      Nat.add_zero, Nat.zero_add]
    rfl

theorem results_run (n : Node) (id : Nat) (st : Stream) : (results n id).run st =
    .ok (List.range' st.buffers.length n.results.length, { st with
      buffers := st.buffers ++ n.results.mapIdx fun i type =>
        ⟨st.buffers.length + i, resultName n i, type, .activation⟩
      values := st.values ++ n.results.mapIdx fun i _ => ((id, i), st.buffers.length + i) }) := by
  have h := declareResults_run n id n.results 0 st
  simp only [Nat.zero_add] at h
  exact h

theorem lookup_resultValues {α : Type} (types : List α) (id base : Nat) (v : Nat × Nat) :
    (types.mapIdx fun i _ => ((id, i), base + i)).lookup v =
      if v.1 = id ∧ v.2 < types.length then some (base + v.2) else none := by
  induction types using List.reverseRecOn with
  | nil => simp
  | append_singleton types type ih =>
    rw [List.mapIdx_concat, List.lookup_append, ih]
    grind

/-! ## Instructions -/

/-- Values keep their buffers while others are entered. -/
theorem bufferOf_append {v : Value} {b : Nat} (hb : st.bufferOf? v = some b) {st' : Stream}
    {vals : List ((Nat × Nat) × Nat)} (hvalues : st'.values = st.values ++ vals)
    (hweights : st'.weights = st.weights) : st'.bufferOf? v = some b := by
  cases v with
  | node id result =>
    simp only [bufferOf?] at hb ⊢
    rw [hvalues, List.lookup_append, hb, Option.some_or]
  | storage ref =>
    simp only [bufferOf?] at hb ⊢
    rw [hweights, hb]

/-- Every number that could be declared next is unrooted. -/
theorem Stream.Describes.unrooted_of_le (h : Describes s f k seen st) {b : Nat}
    (hb : st.buffers.length ≤ b) : st.roots.get? b = none :=
  h.unrooted fun hd => absurd (List.getElem?_eq_some_iff.1 hd).1 (Nat.not_lt.2 hb)

/-- A node whose instruction is no step of descent has no momentum. -/
theorem Stream.Describes.not_momentum (h : Describes s f k seen st) {st' : Stream}
    {x : Instruction} (hbody : st'.body = st.body ++ [x]) (hx : ∀ p, x.op ≠ .sgd p) {b : Nat} :
    ¬ st'.Momentum k b := by
  rintro ⟨p, o₁, o₂, hsgd⟩
  rw [hbody, getElem?_snoc, if_pos h.length.symm] at hsgd
  exact hx p (congrArg Instruction.op (Option.some.inj hsgd))

/-- A node whose results have elements of their own. -/
theorem compute_describes (h : Describes s f k seen st) {n : Node} (hn : f.nodes[k]? = some n)
    {code : Opcode} (hop : opcode? n.op = some code) {srcs : List Nat}
    (hsrcs : List.Forall₂ (fun v b => st.bufferOf? v = some b) n.inputs srcs) :
    ∃ st', (do emit (.ofBuffers code (← results n k) (read n.op srcs)) : Emit Unit).run st =
      .ok ((), st') ∧ Describes s f (k + 1) seen st' ∧ Extends st st' := by
  have hkind (st' : Stream) : st'.ResultKind n .activation := by
    unfold ResultKind
    split
    · next hreshape => simp [hreshape, opcode?] at hop
    · rfl
  have hresult {r : Nat} (hr : r < n.results.length) :
      (st.values ++ n.results.mapIdx fun i _ => ((k, i), st.buffers.length + i)).lookup (k, r) =
        some (st.buffers.length + r) := by
    rw [List.lookup_append, h.lookup_eq_none (Nat.le_refl k), lookup_resultValues,
      if_pos ⟨rfl, hr⟩, Option.none_or]
  let st' : Stream := { st with
    buffers := st.buffers ++ n.results.mapIdx fun i type =>
      ⟨st.buffers.length + i, resultName n i, type, .activation⟩
    values := st.values ++ n.results.mapIdx fun i _ => ((k, i), st.buffers.length + i)
    body := st.body ++
      [.ofBuffers code (List.range' st.buffers.length n.results.length) (read n.op srcs)] }
  have hadds : st.AddsNode k n _ _ _ st' := {
    buffers := rfl
    weights := rfl
    values := rfl
    body := rfl
    roots := fun _ _ => rfl
    ids := by
      intro j d hd
      obtain ⟨type, -, rfl⟩ := by simpa using hd
      rfl
    value := by
      intro v b hv
      rw [lookup_resultValues] at hv
      split at hv
      · next hlt =>
        obtain ⟨rfl, hlt⟩ := hlt
        refine ⟨v.2, ⟨st.buffers.length + v.2, resultName n v.2, n.results[v.2], .activation⟩, rfl,
          (Option.some.inj hv).symm, ?_, List.getElem?_eq_getElem hlt, hkind st'⟩
        simp [hlt]
      · cases hv
    defined := by
      intro r type hr
      have hlt : r < n.results.length := (List.getElem?_eq_some_iff.1 hr).1
      exact ⟨st.buffers.length + r, by rw [lookup_resultValues, if_pos ⟨rfl, hlt⟩]⟩
    origin := by
      intro j d hd
      obtain ⟨type, hj, rfl⟩ := by simpa using hd
      exact ⟨(k, j), hresult (List.getElem?_eq_some_iff.1 hj).1⟩
    rooted := by
      intro j src d hd hview
      obtain ⟨type, -, rfl⟩ := by simpa using hd
      cases hview
    unrooted := fun _ => h.unrooted_of_le (Nat.le_add_right ..)
    emits := by
      have hold {v : Value} {b : Nat} (hv : st.bufferOf? v = some b) : st'.bufferOf? v = some b :=
        bufferOf_append hv rfl rfl
      refine .compute hop (hsrcs.imp fun _ _ => hold) (by simp) fun {r b} hb => ?_
      obtain ⟨hr, rfl⟩ := List.getElem?_eq_some_iff.1 hb
      rw [List.getElem_range', Nat.one_mul]
      exact hresult (by simpa using hr)
    momentum := fun hm => absurd hm (h.not_momentum rfl fun p hp =>
      opcode?_ne_sgd n.op p (hop.trans (congrArg some hp))) }
  refine ⟨st', ?_, hadds.describes h hn, hadds.mono h.length⟩
  rw [run_bind_ok _ (results_run n k st)]
  rfl

/-- A reshape. -/
theorem view_describes (h : Describes s f k seen st) {n : Node} (hn : f.nodes[k]? = some n)
    {shape : Shape} (hop : n.op = .reshape shape) {v : Value} (hin : n.inputs = [v])
    {type : TensorType} (hres : n.results = [type]) {src : Nat} (hsrc : st.bufferOf? v = some src) :
    ∃ st', (lowerReshape f n k src).run st = .ok ((), st') ∧ Describes s f (k + 1) seen st' ∧
      Extends st st' := by
  let view : Buffer := ⟨st.buffers.length, n.name, type, .view src⟩
  let st' : Stream := { st with
    buffers := st.buffers ++ [view]
    values := st.values ++ [((k, 0), view.id)]
    roots := st.roots.insert view.id (rootOf st.roots src)
    body := st.body ++ [.ofBuffers .view [view.id] [src]] }
  have hlookup (w : Nat × Nat) : st'.values.lookup w =
      if w = (k, 0) then some view.id else st.values.lookup w :=
    lookup_snoc (h.lookup_eq_none (Nat.le_refl k) 0) w
  have hroots (b : Nat) : st'.roots.get? b =
      if view.id = b then some (rootOf st.roots src) else st.roots.get? b := IdMap.get?_insert ..
  have hsrc' : st'.bufferOf? v = some src := bufferOf_append hsrc rfl rfl
  have hkind : st'.ResultKind n view.kind := by
    simp only [ResultKind, hop]
    exact ⟨v, src, hin, hsrc', rfl⟩
  have honly {j : Nat} {d : Buffer} (hd : [view][j]? = some d) : j = 0 ∧ view = d := by
    rcases j with _ | j <;> simp_all
  have hadds : st.AddsNode k n [view] [((k, 0), view.id)] _ st' := {
    buffers := rfl
    weights := rfl
    values := rfl
    body := rfl
    roots := fun b hb => (hroots b).trans (if_neg (Nat.ne_of_gt hb))
    ids := by
      intro j d hd
      obtain ⟨rfl, rfl⟩ := honly hd
      rfl
    value := by
      intro w b hw
      rw [← List.nil_append [_], lookup_snoc rfl] at hw
      split at hw
      · next hwk =>
        exact ⟨0, view, hwk, (Option.some.inj hw).symm, rfl, by simp [hres, view], hkind⟩
      · cases hw
    defined := by
      intro r t hr
      obtain rfl : r = 0 := by rcases r with _ | r <;> simp_all
      exact ⟨view.id, List.lookup_cons_self⟩
    origin := by
      intro j d hd
      obtain ⟨rfl, rfl⟩ := honly hd
      exact ⟨(k, 0), (hlookup (k, 0)).trans (if_pos rfl)⟩
    rooted := by
      intro j src' d hd hview
      obtain ⟨rfl, rfl⟩ := honly hd
      obtain rfl : src = src' := BufferKind.view.inj hview
      exact ⟨h.lt_of_bufferOf hsrc, (hroots _).trans (if_pos rfl)⟩
    unrooted := by
      intro j hj
      have hj0 : j ≠ 0 := by
        rintro rfl
        exact hj rfl rfl
      have hne : view.id ≠ st.buffers.length + j := by
        show st.buffers.length ≠ _
        omega
      exact (hroots _).trans ((if_neg hne).trans (h.unrooted_of_le (Nat.le_add_right ..)))
    emits := .view hop hin hsrc' ((hlookup (k, 0)).trans (if_pos rfl))
    momentum := fun hm => absurd hm (h.not_momentum rfl fun p hp => by cases hp) }
  refine ⟨st', ?_, hadds.describes h hn, hadds.mono h.length⟩
  simp only [lowerReshape, hres]
  rfl

/-- A node that declares nothing: a save. -/
theorem save_describes (h : Describes s f k seen st) {n : Node} (hn : f.nodes[k]? = some n)
    {ref : StorageRef} (hop : n.op = .save ref) {v : Value} (hin : n.inputs = [v])
    (hres : n.results = []) {src dst : Nat} (hsrc : st.bufferOf? v = some src)
    (hdst : st.bufferOf? (.storage ref) = some dst) :
    ∃ st', (emit (.ofBuffers .copy [dst] [src])).run st = .ok ((), st') ∧
      Describes s f (k + 1) seen st' ∧ Extends st st' := by
  let st' : Stream := { st with body := st.body ++ [.ofBuffers .copy [dst] [src]] }
  have hbuf {w : Value} : st'.bufferOf? w = st.bufferOf? w := by cases w <;> rfl
  have hadds : st.AddsNode k n [] [] _ st' := {
    buffers := (List.append_nil _).symm
    weights := rfl
    values := (List.append_nil _).symm
    body := rfl
    roots := fun _ _ => rfl
    ids := nofun
    value := nofun
    defined := by simp [hres]
    origin := nofun
    rooted := nofun
    unrooted := fun _ => h.unrooted_of_le (Nat.le_add_right ..)
    emits := .save hop hin (hbuf.trans hsrc) (hbuf.trans hdst)
    momentum := fun hm => absurd hm (h.not_momentum rfl fun p hp => by cases hp) }
  exact ⟨st', rfl, hadds.describes h hn, hadds.mono h.length⟩

/-- A step of gradient descent, with a momentum of its own. -/
theorem descent_describes (h : Describes s f k seen st) {n : Node} (hn : f.nodes[k]? = some n)
    {p : Descent} (hop : n.op = .sgd p) {g : Value} {ref : StorageRef}
    (hin : n.inputs = [g, .storage ref]) (hres : n.results = []) {gradient weight : Nat}
    (hg : st.bufferOf? g = some gradient) (hw : st.bufferOf? (.storage ref) = some weight) :
    ∃ st', (lowerDescent n p gradient weight).run st = .ok ((), st') ∧
      Describes s f (k + 1) seen st' ∧ Extends st st' := by
  obtain ⟨wname, wtype, -, -, hd⟩ := h.weight hw
  let state : Buffer := ⟨st.buffers.length, n.name ++ ".momentum", wtype, .state⟩
  let x : Instruction :=
    ⟨.sgd p, [⟨weight, .readWrite⟩, ⟨gradient, .read⟩, ⟨state.id, .readWrite⟩]⟩
  let st' : Stream := { st with
    buffers := st.buffers ++ [state]
    body := st.body ++ [x] }
  have hbody : st'.body[k]? = some x := (getElem?_snoc ..).trans (if_pos h.length.symm)
  have hbuf {w : Value} : st'.bufferOf? w = st.bufferOf? w := by cases w <;> rfl
  have hbuffers (b : Nat) : st'.buffers[b]? =
      if b = st.buffers.length then some state else st.buffers[b]? := getElem?_snoc ..
  have honly {j : Nat} {d : Buffer} (hd : [state][j]? = some d) : j = 0 ∧ state = d := by
    rcases j with _ | j <;> simp_all
  have hadds : st.AddsNode k n [state] [] x st' := {
    buffers := rfl
    weights := rfl
    values := (List.append_nil _).symm
    body := rfl
    roots := fun _ _ => rfl
    ids := by
      intro j d hd
      obtain ⟨rfl, rfl⟩ := honly hd
      rfl
    value := nofun
    defined := by simp [hres]
    origin := by
      intro j d hd
      obtain ⟨rfl, rfl⟩ := honly hd
      exact ⟨k, p, _, _, hbody⟩
    rooted := by
      intro j src d hd hview
      obtain ⟨rfl, rfl⟩ := honly hd
      cases hview
    unrooted := fun _ => h.unrooted_of_le (Nat.le_add_right ..)
    emits := by
      have hweight := (List.getElem?_eq_some_iff.1 hd).1
      exact .descent hop hin (hbuf.trans hg) (hbuf.trans hw)
        ((hbuffers weight).trans ((if_neg (Nat.ne_of_lt hweight)).trans hd))
        ((hbuffers _).trans (if_pos rfl))
    momentum := by
      rintro b ⟨p', o₁, o₂, hx⟩
      rw [hbody] at hx
      obtain ⟨-, -, -, rfl⟩ : _ ∧ _ ∧ _ ∧ state.id = b := by simpa [x] using hx
      exact Nat.le_refl _ }
  refine ⟨st', ?_, hadds.describes h hn, hadds.mono h.length⟩
  unfold lowerDescent
  rw [run_bind_ok st (x := get) (a := st) rfl]
  simp only [hd]
  rfl

/-! ## All nodes -/

/-- A node keeps the description: its operands come first, and then its instruction. -/
theorem lowerNode_describes (h : Describes s f k seen st) {n : Node} (hn : f.nodes[k]? = some n)
    {types : List TensorType} (hwt : Function.WellTyped s f k n types) :
    ∃ st', (lowerNode s f n k).run st = .ok ((), st') ∧
      Describes s f (k + 1) (seen ++ n.storageRefs) st' ∧ Extends st st' := by
  obtain ⟨srcs, st₁, hrun₁, h₁, hext₁, hsrcs⟩ := operands_describes hwt.operands h
  have htyped := Typing.typed_of_resultTypes hwt.results
  have hops := hwt.operands
  unfold lowerNode
  rw [run_bind_ok _ hrun₁]
  cases hcode : opcode? n.op with
  | some code =>
    obtain ⟨st', hrun, hd, hext⟩ := compute_describes h₁ hn hcode hsrcs
    have hrefs : n.storageRefs = n.storageReads := by
      cases hop : n.op <;> simp_all [opcode?, Node.storageRefs, Node.destination?]
    refine ⟨st', ?_, hrefs ▸ hd, hext₁.trans hext⟩
    rw [← hrun]
    cases hop : n.op <;> simp_all [opcode?]
  | none =>
    -- the operators without an instruction of their own kind; each fixes its operands
    obtain ⟨name, op, inputs, results⟩ := n
    simp only [Node.storageRefs, Node.storageReads, Node.destination?, ← List.append_assoc] at *
    cases op <;> simp only [opcode?, reduceCtorEq] at hcode
    case reshape shape =>
      cases htyped
      obtain ⟨v, -, rfl⟩ := by simpa [List.forall₂_cons_right_iff] using hops
      obtain ⟨src, hsrc, rfl⟩ := by simpa [List.forall₂_cons_left_iff] using hsrcs
      obtain ⟨st', hrun, hd, hext⟩ := view_describes h₁ hn rfl rfl rfl hsrc
      exact ⟨st', hrun, by simpa using hd, hext₁.trans hext⟩
    case save ref =>
      cases htyped with
      | save _ type htype =>
        obtain ⟨v, -, rfl⟩ := by simpa [List.forall₂_cons_right_iff] using hops
        obtain ⟨src, hsrc, rfl⟩ := by simpa [List.forall₂_cons_left_iff] using hsrcs
        obtain ⟨dst, st₂, hrun₂, h₂, hext₂, hdst⟩ := weight_describes h₁ htype
        obtain ⟨st', hrun, hd, hext⟩ :=
          save_describes h₂ hn rfl rfl rfl (hext₂.bufferOf hsrc) hdst
        exact ⟨st', (run_bind_ok _ hrun₂).trans hrun, hd, hext₁.trans (hext₂.trans hext)⟩
    case sgd p =>
      cases htyped
      obtain ⟨g, -, w, -, rfl⟩ := by simpa [List.forall₂_cons_right_iff] using hops
      obtain ⟨gradient, hg, weight, hw, rfl⟩ := by simpa [List.forall₂_cons_left_iff] using hsrcs
      have hweight := hwt.weight
      cases w with
      | node producer result => simp [Function.hasWeight, Value.storage?] at hweight
      | storage ref =>
        obtain ⟨st', hrun, hd, hext⟩ := descent_describes h₁ hn rfl rfl rfl hg hw
        exact ⟨st', hrun, by simpa using hd, hext₁.trans hext⟩

/-- The nodes from position `k` on are lowered one after the other. -/
theorem nodes_describe (hverify : f.verify s = .ok ()) (rest : List Node) :
    ∀ {k : Nat} {seen : List StorageRef} {st : Stream}, f.nodes.drop k = rest →
      Describes s f k seen st →
      ∃ st', ((rest.zipIdx k).forM fun (n, id) => lowerNode s f n id : Emit Unit).run st =
          .ok ((), st') ∧
        Describes s f f.nodes.length (seen ++ rest.flatMap Node.storageRefs) st' ∧
        Extends st st' := by
  induction rest with
  | nil =>
    intro k seen st hrest h
    have hk : k = f.nodes.length :=
      Nat.le_antisymm h.bound (List.drop_eq_nil_iff.1 hrest)
    subst hk
    exact ⟨st, rfl, by simpa using h, .refl st⟩
  | cons n rest ih =>
    intro k seen st hrest h
    obtain ⟨hn, hrest'⟩ := getElem?_of_drop hrest
    obtain ⟨types, hwt⟩ := Function.wellTyped_of_verify hverify hn
    obtain ⟨st₁, hrun₁, h₁, hext₁⟩ := lowerNode_describes h hn hwt
    obtain ⟨st', hrun, h', hext⟩ := ih hrest' h₁
    refine ⟨st', ?_, by simpa [List.append_assoc] using h', hext₁.trans hext⟩
    exact (run_bind_ok _ hrun₁).trans hrun

/-- A verified function has a stream, which names the storage of the function and no other. -/
theorem stream_describes (hverify : f.verify s = .ok ()) :
    ∃ st, stream s f = .ok st ∧
      Describes s f f.nodes.length (f.nodes.flatMap Node.storageRefs) st := by
  obtain ⟨st, hrun, h, -⟩ := nodes_describe hverify f.nodes rfl (Describes.empty s f)
  refine ⟨st, ?_, by simpa using h⟩
  unfold stream
  rw [hrun]
  rfl

end TensorCompiler.Lowering
