import TensorCompiler.Proofs.Graph.Evaluated
import TensorCompiler.Proofs.Run.Compute
import TensorCompiler.Proofs.Run.Reuse

/-!
A run of a lowered function does what the evaluation of the function does. After `j` nodes the memory
holds the storage and the momentum of the evaluation, and every activation that is still read holds
the value of its node (`Simulates`). One instruction keeps this (`execute_simulates`), so all of them
do.
-/

namespace TensorCompiler

variable {α : Type}

/-- The instructions that are no markers: one for every node. -/
def Artifact.operations (a : Artifact) : List Instruction :=
  a.instructions.filter fun x => !x.op.isMarker

/-- The buffer of the momentum of node `i`, when that is a step of descent. -/
def Artifact.momentumOf? (a : Artifact) (i : Nat) : Option Nat :=
  match a.operations[i]? with
  | some ⟨.sgd _, [_, _, ⟨b, .readWrite⟩]⟩ => some b
  | _ => none

/-- The momentum of every node in an optimizer state. -/
def Artifact.momentum (a : Artifact) (state : IdMap (Tensor α)) (i : Nat) : Option (Tensor α) :=
  (a.momentumOf? i).bind state.get?

namespace Lowering

open TensorCompiler.Lowering.Stream TensorCompiler.Instruction

variable {s : Storage} {f : Function} {reuse : Bool} {st : Stream} {a : Artifact}

namespace Lowered

theorem operations_eq (h : Lowered s f reuse st a) : a.operations = st.body := by
  rw [Artifact.operations, h.instructions, filter_withMarkers h.not_marker]

/-- Markers do nothing, so a run is a run of the operations. -/
theorem run_eq [Scalar α] (h : Lowered s f reuse st a) (m : Memory α) :
    a.run m = a.runFrom m a.operations := by
  have htaken := h.run_taken m a.instructions.length
  rw [List.take_length] at htaken
  exact htaken.2

theorem momentumOf?_eq_some (h : Lowered s f reuse st a) {i b : Nat} :
    a.momentumOf? i = some b ↔ st.Momentum i b := by
  unfold Artifact.momentumOf? Stream.Momentum
  rw [h.operations_eq]
  constructor
  · intro hb
    split at hb
    · next heq =>
      obtain rfl := Option.some.inj hb
      exact ⟨_, _, _, heq⟩
    · cases hb
  · rintro ⟨p, o₁, o₂, hx⟩
    rw [hx]

end Lowered

/-- The memory `m` before instruction `j` of the body, against the evaluation of the nodes before
`j`. -/
structure Simulates (st : Stream) (a : Artifact) (j : Nat) (g : Valuation α) (m : Memory α) :
    Prop where
  vars : m.vars = g.vars
  bindings : m.bindings = g.bindings
  momentum : a.momentum m.state = g.momentum
  fits : m.SlotsFit a
  live : ∀ l ∈ lifetimes st, Live j l → ∀ {i r : Nat}, st.values.lookup (i, r) = some l.buffer →
    ∃ t, g.value? (.node i r) = some t ∧ m.source a l.buffer = .ok t.payload

variable {j : Nat} {g : Valuation α} {m : Memory α}

/-! ## Reads -/

theorem typeOf_operand (h : Lowered s f reuse st a) {v : Value} {b : Nat}
    (hb : st.bufferOf? v = some b) {type : TensorType} (htype : Function.OperandType s f j v type) :
    a.typeOf b = .ok type := by
  rw [h.typeOf_eq]
  cases v with
  | node i r =>
    obtain ⟨-, n, hn, hr⟩ := htype
    obtain ⟨-, n', d, hn', hr', hd, -⟩ := h.describes.value hb
    obtain rfl := Option.some.inj (hn.symm.trans hn')
    rw [hd, Option.some.inj (hr.symm.trans hr')]
  | storage ref =>
    obtain ⟨name, type', -, htype', hd⟩ := h.describes.weight hb
    rw [hd]
    exact congrArg _ (Option.some.inj (htype'.symm.trans htype))

/-- Storage in memory is storage in the evaluation. -/
theorem get?_storage (hsim : Simulates st a j g m) (ref : StorageRef) :
    m.get? ref.location = g.storage? ref ∧
      ∀ t, (m.set t ref.location).vars = (g.store t ref).vars ∧
        (m.set t ref.location).bindings = (g.store t ref).bindings ∧
        (m.set t ref.location).state = m.state := by
  have hvars := hsim.vars
  have hbindings := hsim.bindings
  cases ref <;> simp [StorageRef.location, Memory.get?, Memory.set, Valuation.storage?,
    Valuation.store, hvars, hbindings]

/-- The instruction of node `j` reads the values of the operands of `j`. -/
theorem read_simulates (h : Lowered s f reuse st a) (heval : Evaluated s f j g)
    (hsim : Simulates st a j g m) {n : Node} (hn : f.nodes[j]? = some n) {x : Instruction}
    (hx : st.body[j]? = some x) {v : Value} (hv : v ∈ n.inputs) {b : Nat}
    (hb : st.bufferOf? v = some b) (hsource : b ∈ x.sources) {t : Tensor α}
    (ht : g.value? v = some t) (htype : Function.OperandType s f j v t.type) :
    m.read a b = .ok t := by
  have hsrc : m.source a b = .ok t.payload := by
    rcases shown_cases h.verified h.describes hb with
      ⟨ref, hshows, hw⟩ | ⟨l, hl, hroot, i, r, hshows, hw⟩
    · obtain ⟨t', ht', hpayload⟩ := heval.payload_shown hn hv htype hshows ht
      have hlocate := h.locate_shown hw
      have hget : m.get? ref.location = some t' := (get?_storage hsim ref).1.trans ht'
      simp only [Memory.source, Memory.fetch, hlocate, bind, Except.bind, hget, hpayload]
      rfl
    · obtain ⟨t', ht', hpayload⟩ := heval.payload_shown hn hv htype hshows ht
      obtain ⟨t'', ht'', hsource⟩ := hsim.live l hl (h.live_of_source hx hsource hl hroot) hw
      rw [source_root h h.hosts hl hroot, hsource, hpayload, Option.some.inj (ht''.symm.trans ht')]
  rw [Memory.read_eq_source, typeOf_operand h hb htype, hsrc]
  simp only [bind, Except.bind]
  rw [(Tensor.ofPayload_eq_ok).2 ⟨rfl, rfl⟩]
  rfl

/-! ## Stores -/

/-- A store outside the slots. -/
theorem store_persistent {b : Nat} {type : TensorType} {target t : Tensor α} {location : Location}
    (htype : a.typeOf b = .ok type) (hlocate : a.locate b = .ok location)
    (hget : m.get? location = some target) (ht : t.type = target.type) (hfits : t.payload.Fits type) :
    m.store a b t.payload = .ok (m.set t location) := by
  rw [Memory.store_of_fits htype hfits, hlocate]
  simp only [bind, Except.bind, Memory.fetch, hget, Tensor.withPayload]
  rw [Tensor.ofPayload_eq_ok.2 ⟨ht, rfl⟩]
  rfl

/-- A new momentum of node `j` leaves those of the other nodes. -/
theorem momentum_insert (h : Lowered s f reuse st a) {b : Nat} (hb : st.Momentum j b)
    (state : IdMap (Tensor α)) (t : Tensor α) : a.momentum (state.insert b t) = fun i =>
      if i = j then some t else a.momentum state i := by
  funext i
  unfold Artifact.momentum
  by_cases hi : i = j
  · rw [if_pos hi, hi, h.momentumOf?_eq_some.2 hb, Option.bind_some, IdMap.get?_insert, if_pos rfl]
  · rw [if_neg hi]
    cases hb' : a.momentumOf? i with
    | none => rfl
    | some b' =>
      have hne : b ≠ b' := by
        rintro rfl
        exact hi (h.describes.momentum_injective (h.momentumOf?_eq_some.1 hb') hb)
      rw [Option.bind_some, Option.bind_some, IdMap.get?_insert, if_neg hne]

/-- The stores of a node's results. -/
theorem commit_results (h : Lowered s f reuse st a) {dsts : List Nat} {types : List TensorType}
    (htypes : List.Forall₂ (fun b type => a.typeOf b = .ok type) dsts types)
    (hdsts : ∀ b ∈ dsts, ∃ l ∈ lifetimes st, l.buffer = b ∧ l.first = j) (hnodup : dsts.Nodup) :
    ∀ {ps : List (Payload α)} {m : Memory α}, ps.length = dsts.length → m.SlotsFit a →
      match tensors types ps with
      | none => ∃ e m', commit a m (dsts.zip ps) = (.error e, m') ∧ m'.persistent = m.persistent
      | some ts => ∃ m', commit a m (dsts.zip ps) = (.ok (), m') ∧ m'.persistent = m.persistent ∧
        m'.SlotsFit a ∧ List.Forall₂ (fun b t => m'.source a b = .ok t.payload) dsts ts ∧
        ∀ l ∈ lifetimes st, l.buffer ∉ dsts → l.first ≤ j ∧ j ≤ l.last →
          m'.source a l.buffer = m.source a l.buffer := by
  induction htypes with
  | nil =>
    intro ps m hlen hfits
    obtain rfl := List.length_eq_zero_iff.1 hlen
    exact ⟨m, rfl, rfl, hfits, .nil, fun _ _ _ _ => rfl⟩
  | @cons b type dsts types hb htypes ih =>
    intro ps m hlen hfits
    obtain ⟨hb', hnodup⟩ := List.nodup_cons.1 hnodup
    have ih := @ih (fun b hb => hdsts b (List.mem_cons_of_mem _ hb)) hnodup
    match ps, hlen with
    | p :: ps, hlen =>
      rw [tensors, List.zip_cons_cons, commit]
      cases ht : Tensor.ofPayload type p with
      | error e => exact ⟨_, m, by rw [Memory.store_of_misfit hb ht], rfl⟩
      | ok t =>
        obtain ⟨l, hl, rfl, hfirst⟩ := hdsts b List.mem_cons_self
        obtain ⟨d, hd, -⟩ := (h.alive l hl).declared
        have hdtype : d.type = type := by
          have htype := h.typeOf_eq l.buffer
          rw [hb, hd] at htype
          exact (Except.ok.inj htype).symm
        have hp := (Tensor.ofPayload_eq_ok.1 ht).2
        obtain ⟨m₁, hstore, hpersist, hfits₁, hself, hrest⟩ :=
          store_activation h h.hosts hfits hl hd (hdtype ▸ Tensor.fits_of_ofPayload ht)
        have hj : l.first ≤ j ∧ j ≤ l.last := by
          subst hfirst
          exact ⟨Nat.le_refl _, (h.alive l hl).first_le⟩
        have ih := ih (Nat.succ.inj hlen) hfits₁
        rw [hstore]
        cases hts : tensors types ps with
        | none =>
          rw [hts] at ih
          obtain ⟨e, m', hcommit, hpersist'⟩ := ih
          exact ⟨e, m', hcommit, hpersist'.trans hpersist⟩
        | some ts =>
          rw [hts] at ih
          obtain ⟨m', hcommit, hpersist', hfits', hsources, hkept⟩ := ih
          refine ⟨m', hcommit, hpersist'.trans hpersist, hfits', .cons ?_ hsources, ?_⟩
          · rw [hkept l hl hb' hj, hself, hp]
          · intro l' hl' hmem hj'
            obtain ⟨hne, hmem⟩ := not_or.1 (List.mem_cons.not.1 hmem)
            rw [hkept l' hl' hmem hj', hrest hl' (Ne.symm hne) hj hj']

/-! ## Steps -/

/-- The lifetime of a result starts at its node. -/
theorem first_of_value (h : Lowered s f reuse st a) {l : Lifetime} (hl : l ∈ lifetimes st)
    {i r : Nat} (hvalue : st.values.lookup (i, r) = some l.buffer) : l.first = i := by
  obtain ⟨x, hx, hwrite⟩ := (h.alive l hl).written
  exact eq_of_write h.describes ⟨hvalue, (h.alive l hl).declared⟩ hx hwrite

/-- The memory after instruction `j`, where the activations of other nodes are as before and those of
node `j` hold its results. -/
theorem Simulates.next (h : Lowered s f reuse st a) (heval : Evaluated s f j g)
    (hsim : Simulates st a j g m) {g' : Valuation α} {m' : Memory α} (ts : List (Tensor α))
    (hvalues : g'.values = g.values ++ [ts]) (hvars : m'.vars = g'.vars)
    (hbindings : m'.bindings = g'.bindings) (hmomentum : a.momentum m'.state = g'.momentum)
    (hfits : m'.SlotsFit a)
    (hkept : ∀ l ∈ lifetimes st, Live j l → m'.source a l.buffer = m.source a l.buffer)
    (hnew : ∀ l ∈ lifetimes st, ∀ {r : Nat}, st.values.lookup (j, r) = some l.buffer →
      ∃ t, ts[r]? = some t ∧ m'.source a l.buffer = .ok t.payload) :
    Simulates st a (j + 1) g' m' := by
  refine ⟨hvars, hbindings, hmomentum, hfits, fun l hl hlive i r hvalue => ?_⟩
  have hfirst := first_of_value h hl hvalue
  rcases Nat.lt_succ_iff_lt_or_eq.1 hlive.1 with hlt | heq
  · have hlive' : Live j l := ⟨hlt, Nat.le_of_succ_le hlive.2⟩
    obtain ⟨t, ht, hsource⟩ := hsim.live l hl hlive' hvalue
    refine ⟨t, ?_, (hkept l hl hlive').trans hsource⟩
    rw [Valuation.value?, hvalues, List.getElem?_append_left (by rw [heval.length]; omega)]
    exact ht
  · obtain rfl : i = j := hfirst.symm.trans heq
    obtain ⟨t, ht, hsource⟩ := hnew l hl hvalue
    refine ⟨t, ?_, hsource⟩
    rw [Valuation.value?, hvalues, getElem?_snoc, if_pos heval.length.symm]
    exact ht

/-- A node that computes nothing has no activations. -/
theorem not_value_of_opcode? (h : Lowered s f reuse st a) {n : Node} (hn : f.nodes[j]? = some n)
    (hop : opcode? n.op = none) {l : Lifetime} (hl : l ∈ lifetimes st) {r : Nat} :
    st.values.lookup (j, r) ≠ some l.buffer := by
  intro hvalue
  obtain ⟨n', types, code, srcs, dsts, hn', -, hcode, -⟩ :=
    compute_of_activation h.verified h.describes ⟨hvalue, (h.alive l hl).declared⟩
  rw [Option.some.inj (hn'.symm.trans hn), hop] at hcode
  cases hcode

/-- The memory after a save into `ref`. -/
theorem Simulates.saved (h : Lowered s f reuse st a) (heval : Evaluated s f j g)
    (hsim : Simulates st a j g m) {n : Node} (hn : f.nodes[j]? = some n) (hop : opcode? n.op = none)
    (ref : StorageRef) (t : Tensor α) :
    Simulates st a (j + 1) ((g.store t ref).push []) (m.set t ref.location) := by
  obtain ⟨hvars, hbindings, hstate⟩ := (get?_storage hsim ref).2 t
  refine hsim.next h heval [] ?_ hvars hbindings ?_ ?_ ?_ ?_
  · cases ref <;> rfl
  · rw [hstate, hsim.momentum]
    cases ref <;> rfl
  · exact hsim.fits.set_persistent ref.location_ne_slot t
  · exact fun l hl _ => source_set_persistent h h.hosts hl ref.location_ne_slot t
  · exact fun l hl _ hvalue => absurd hvalue (not_value_of_opcode? h hn hop hl)

/-- The memory after a step of descent, which has stored the weight `ref` and the momentum of its node. -/
theorem Simulates.descended (h : Lowered s f reuse st a) (heval : Evaluated s f j g)
    (hsim : Simulates st a j g m) {n : Node} (hn : f.nodes[j]? = some n) (hop : opcode? n.op = none)
    (ref : StorageRef) {state : Nat} (hm : st.Momentum j state) (w mt : Tensor α) :
    Simulates st a (j + 1) (Valuation.push { g.store w ref with
        momentum := fun i => if i = j then some mt else g.momentum i } [])
      ((m.set w ref.location).set mt (.state state)) := by
  obtain ⟨hvars, hbindings, hstate⟩ := (get?_storage hsim ref).2 w
  refine hsim.next h heval [] ?_ hvars hbindings ?_ ?_ ?_ ?_
  · cases ref <;> rfl
  · show a.momentum ((m.set w ref.location).state.insert state mt) = _
    rw [hstate, momentum_insert h hm, hsim.momentum]
    rfl
  · exact (hsim.fits.set_persistent ref.location_ne_slot w).set_persistent (by simp) mt
  · intro l hl _
    rw [source_set_persistent h h.hosts hl (by simp),
      source_set_persistent h h.hosts hl ref.location_ne_slot]
  · exact fun l hl _ hvalue => absurd hvalue (not_value_of_opcode? h hn hop hl)

/-- The destinations of a node that computes are its activations, once each. -/
theorem destinations (h : Lowered s f reuse st a) {n : Node} (hn : f.nodes[j]? = some n)
    {code : Opcode} (hop : opcode? n.op = some code) {dsts : List Nat}
    (hlen : dsts.length = n.results.length)
    (hdsts : ∀ {r b : Nat}, dsts[r]? = some b → st.bufferOf? (.node j r) = some b) :
    List.Forall₂ (fun b type => a.typeOf b = .ok type) dsts n.results ∧
      (∀ b ∈ dsts, ∃ l ∈ lifetimes st, l.buffer = b ∧ l.first = j) ∧ dsts.Nodup := by
  refine ⟨List.forall₂_iff_get.2 ⟨hlen, fun r hr hr' => ?_⟩, fun b hb => ?_, ?_⟩
  · have hb := hdsts (List.getElem?_eq_getElem hr)
    obtain ⟨-, n', d, hn', htype, hd, -⟩ := h.describes.value hb
    obtain rfl := Option.some.inj (hn.symm.trans hn')
    rw [List.getElem?_eq_getElem hr'] at htype
    simp only [List.get_eq_getElem, h.typeOf_eq, hd, Option.some.inj htype]
  · obtain ⟨r, hr⟩ := List.mem_iff_getElem?.1 hb
    have hvalue : st.values.lookup (j, r) = some b := hdsts hr
    obtain ⟨-, n', d, hn', -, hd, hkind⟩ := h.describes.value hvalue
    obtain rfl := Option.some.inj (hn.symm.trans hn')
    obtain ⟨l, hl, rfl⟩ := exists_lifetime h.verified h.describes hd (hkind.of_computes hop)
    exact ⟨l, hl, rfl, first_of_value h hl hvalue⟩
  · refine List.nodup_iff_injective_getElem.2 fun r r' heq => Fin.ext ?_
    have hb := hdsts (List.getElem?_eq_getElem r.2)
    have hb' := hdsts (List.getElem?_eq_getElem r'.2)
    have heq : dsts[r.1] = dsts[r'.1] := heq
    rw [← heq] at hb'
    exact (Prod.mk.inj (h.describes.injective hb hb')).2

/-- The memory after a node that computes, whose results have been stored in its destinations. -/
theorem Simulates.computed (h : Lowered s f reuse st a) (heval : Evaluated s f j g)
    (hsim : Simulates st a j g m) {n : Node} (hn : f.nodes[j]? = some n) {code : Opcode}
    (hop : opcode? n.op = some code) {dsts : List Nat} (hlen : dsts.length = n.results.length)
    (hdsts : ∀ {r b : Nat}, dsts[r]? = some b → st.bufferOf? (.node j r) = some b)
    {ts : List (Tensor α)} {m' : Memory α} (hpersist : m'.persistent = m.persistent)
    (hfits : m'.SlotsFit a)
    (hnew : List.Forall₂ (fun b t => m'.source a b = .ok t.payload) dsts ts)
    (hkept : ∀ l ∈ lifetimes st, l.buffer ∉ dsts → l.first ≤ j ∧ j ≤ l.last →
      m'.source a l.buffer = m.source a l.buffer) : Simulates st a (j + 1) (g.push ts) m' := by
  simp only [Memory.persistent, Persistent.mk.injEq] at hpersist
  obtain ⟨hvars, hbindings, hstate⟩ := hpersist
  refine hsim.next h heval ts rfl (hvars.trans hsim.vars) (hbindings.trans hsim.bindings)
    (hstate ▸ hsim.momentum) hfits ?_ ?_
  · intro l hl hlive
    refine hkept l hl (fun hmem => ?_) ⟨Nat.le_of_lt hlive.1, hlive.2⟩
    obtain ⟨l', hl', hbuffer, hfirst⟩ := (destinations h hn hop hlen hdsts).2.1 _ hmem
    obtain rfl := eq_of_buffer (lifetimes_nodup h.describes) hl' hl hbuffer
    exact absurd hlive.1 (by omega)
  · intro l hl r hvalue
    have hr : r < dsts.length := by
      obtain ⟨-, n', d, hn', htype, -⟩ := h.describes.value hvalue
      obtain rfl := Option.some.inj (hn.symm.trans hn')
      exact hlen ▸ (List.getElem?_eq_some_iff.1 htype).1
    have hb : dsts[r] = l.buffer :=
      Option.some.inj ((hdsts (List.getElem?_eq_getElem hr)).symm.trans hvalue)
    have hr' : r < ts.length := hnew.length_eq ▸ hr
    refine ⟨ts[r], List.getElem?_eq_getElem hr', ?_⟩
    rw [← hb]
    exact hnew.get hr hr'

variable [Scalar α]

theorem execute_of_error {x : Instruction} (hnone : (x.effects a m).toOption = none) :
    ∃ e, x.execute a m = (.error ⟨some x, e⟩, m) := by
  unfold execute
  cases hx : x.effects a m with
  | error e => exact ⟨e, rfl⟩
  | ok ws =>
    rw [hx] at hnone
    cases hnone

theorem execute_of_effects {x : Instruction} {ws : List (Nat × Payload α)}
    (hws : (x.effects a m).toOption = some ws) : x.execute a m =
      ((commit a m ws).1.mapError (⟨some x, ·⟩), (commit a m ws).2) := by
  unfold execute
  rw [toOption_eq_some.1 hws]

theorem execute_view (h : Lowered s f reuse st a) (heval : Evaluated s f j g)
    (hsim : Simulates st a j g m) {n : Node} (hn : f.nodes[j]? = some n)
    (hop : opcode? n.op = none) {src dst : Nat} {ts : List (Tensor α)} :
    ∃ m', (Instruction.ofBuffers .view [dst] [src]).execute a m = (.ok (), m') ∧
      Simulates st a (j + 1) (g.push ts) m' :=
  ⟨m, rfl, hsim.next h heval ts rfl hsim.vars hsim.bindings hsim.momentum hsim.fits
    (fun _ _ _ => rfl) fun _ hl _ hvalue => absurd hvalue (not_value_of_opcode? h hn hop hl)⟩

theorem execute_save (h : Lowered s f reuse st a) (heval : Evaluated s f j g)
    (hsim : Simulates st a j g m) {n : Node} (hn : f.nodes[j]? = some n)
    {types : List TensorType} (hwt : Function.WellTyped s f j n types) {ref : StorageRef} {v : Value}
    {src dst : Nat} (hop : n.op = .save ref) (hin : n.inputs = [v]) (hsrc : st.bufferOf? v = some src)
    (hdst : st.weights.lookup ref = some dst)
    (hx : st.body[j]? = some (.ofBuffers .copy [dst] [src])) :
    ∃ g' m', g.step n = some g' ∧
      (Instruction.ofBuffers .copy [dst] [src]).execute a m = (.ok (), m') ∧
      Simulates st a (j + 1) g' m' := by
  obtain ⟨v', t, hin', -, ht, htype, href, hstep⟩ := heval.step_save hn hwt hop
  obtain rfl : v = v' := List.singleton_inj.1 (hin.symm.trans hin')
  have hread : m.read a src = .ok t :=
    read_simulates h heval hsim hn hx (hin ▸ List.mem_singleton_self _) hsrc
      (List.mem_singleton_self src) ht htype
  have hdtype := typeOf_operand h (v := .storage ref) (j := j) hdst href
  have hget := (get?_storage hsim ref).1
  obtain ⟨w, hw, hwtype⟩ := heval.storage (List.mem_flatMap.2 ⟨n, List.mem_of_getElem? hn,
    by simp [Node.storageRefs, Node.destination?, hop]⟩) href
  have hstore := store_persistent hdtype (h.locate_weight hdst) (hget.trans hw) hwtype.symm t.payload_fits
  have hexecute : (Instruction.ofBuffers .copy [dst] [src]).execute a m =
      (.ok (), m.set t ref.location) := by
    have heffects : (Instruction.ofBuffers .copy [dst] [src]).effects a m =
        .ok [(dst, t.payload)] := by
      simp only [effects, Instruction.buffers, Instruction.ofBuffers, List.map_cons, List.map_nil,
        List.cons_append, List.nil_append, hdtype, hread]
      rfl
    unfold execute
    simp only [heffects, commit, hstore]
    rfl
  exact ⟨_, _, hstep, hexecute, hsim.saved h heval hn (by rw [hop]; rfl) ref t⟩

theorem execute_descent (h : Lowered s f reuse st a) (heval : Evaluated s f j g)
    (hsim : Simulates st a j g m) {n : Node} (hn : f.nodes[j]? = some n)
    {types : List TensorType} (hwt : Function.WellTyped s f j n types) {p : Descent} {v : Value}
    {ref : StorageRef} {gradient weight state : Nat} {name : String} {d : Buffer}
    (hop : n.op = .sgd p) (hin : n.inputs = [v, .storage ref])
    (hgradient : st.bufferOf? v = some gradient) (hweight : st.weights.lookup ref = some weight)
    (hd : st.buffers[weight]? = some d)
    (hstate : st.buffers[state]? = some ⟨state, name, d.type, .state⟩) {x : Instruction}
    (hx : st.body[j]? = some x)
    (hxe : x = ⟨.sgd p, [⟨weight, .readWrite⟩, ⟨gradient, .read⟩, ⟨state, .readWrite⟩]⟩) :
    match g.step n with
    | none => ∃ e, x.execute a m = (.error ⟨some x, e⟩, m)
    | some g' => ∃ m', x.execute a m = (.ok (), m') ∧ Simulates st a (j + 1) g' m' := by
  obtain ⟨v', ref', t, w, hin', -, ht, hw, hvtype, href, htw, hstep⟩ := heval.step_descent hn hwt hop
  obtain ⟨rfl, rfl⟩ : v = v' ∧ ref = ref' := by simpa using hin.symm.trans hin'
  have hsources : x.sources = [weight, gradient, state] := by
    rw [hxe]
    rfl
  have hreadw : m.read a weight = .ok w :=
    read_simulates h heval hsim hn hx (v := .storage ref) (by simp [hin]) hweight
      (by simp [hsources]) hw href
  have hreadx : m.read a gradient = .ok t :=
    read_simulates h heval hsim hn hx (by simp [hin]) hgradient (by simp [hsources]) ht hvtype
  have hwtype := typeOf_operand h (v := .storage ref) (j := j) hweight href
  have hdtype : d.type = w.type := by
    have htype := h.typeOf_eq weight
    rw [hwtype, hd] at htype
    exact (Except.ok.inj htype).symm
  have hstype : a.typeOf state = .ok w.type := by rw [h.typeOf_eq, hstate, ← hdtype]
  have hm : st.Momentum j state := ⟨p, _, _, hxe ▸ hx⟩
  have hslocate := h.locate_momentum hm
  have hmomentum : m.state.get? state = g.momentum j := by
    rw [← hsim.momentum, Artifact.momentum, h.momentumOf?_eq_some.2 hm]
    rfl
  have heffects := effects_descent (p := p) hreadw hreadx hstype hslocate
  rw [← hxe, hmomentum] at heffects
  cases hmt : g.momentum j with
  | none =>
    rw [hstep, hmt]
    exact execute_of_error (by rw [heffects, hmt]; rfl)
  | some mt =>
    rw [hstep, hmt, Option.bind_some]
    rw [hmt, Option.bind_some] at heffects
    cases hdescended : Valuation.descended p w t mt with
    | none => exact execute_of_error (by rw [heffects, hdescended]; rfl)
    | some q =>
      obtain ⟨w', mt'⟩ := q
      obtain ⟨hwtype', hmtype', hfits⟩ := Valuation.type_of_descended hdescended
      obtain ⟨hget, hset⟩ := get?_storage hsim ref
      have hstorew : m.store a weight w'.payload = .ok (m.set w' ref.location) :=
        store_persistent hwtype (h.locate_weight hweight) (hget.trans hw) hwtype' (hwtype' ▸ w'.payload_fits)
      have hstorem : (m.set w' ref.location).store a state mt'.payload =
          .ok ((m.set w' ref.location).set mt' (.state state)) :=
        store_persistent hstype hslocate
          (by rw [Memory.get?, (hset w').2.2, hmomentum, hmt]) hmtype' hfits
      rw [hdescended] at heffects
      have hexecute := execute_of_effects heffects
      simp only [commit, hstorew, hstorem] at hexecute
      exact ⟨_, hexecute, hsim.descended h heval hn (by rw [hop]; rfl) ref hm w' mt'⟩

theorem execute_compute (h : Lowered s f reuse st a) (heval : Evaluated s f j g)
    (hsim : Simulates st a j g m) {n : Node} (hn : f.nodes[j]? = some n)
    {types : List TensorType} (hwt : Function.WellTyped s f j n types) {code : Opcode}
    {srcs dsts : List Nat} (hop : opcode? n.op = some code)
    (hsrcs : List.Forall₂ (fun v b => st.bufferOf? v = some b) n.inputs srcs)
    (hlen : dsts.length = n.results.length)
    (hdsts : ∀ {r b : Nat}, dsts[r]? = some b → st.bufferOf? (.node j r) = some b) {x : Instruction}
    (hx : st.body[j]? = some x) (hxe : x = .ofBuffers code dsts (read n.op srcs)) :
    match g.step n with
    | none => ∃ e m', x.execute a m = (.error ⟨some x, e⟩, m') ∧ m'.persistent = m.persistent
    | some g' => ∃ m', x.execute a m = (.ok (), m') ∧ Simulates st a (j + 1) g' m' := by
  have hsave (ref : StorageRef) : n.op ≠ .save ref := fun hsave => by simp [hsave, opcode?] at hop
  have hsgd (p : Descent) : n.op ≠ .sgd p := fun hsgd => by simp [hsgd, opcode?] at hop
  obtain ⟨ts, hvalues, htypes, hstep⟩ := heval.step_compute hn hwt hsave hsgd
  have hsources : x.sources = read n.op srcs := hxe ▸ (compute_parts hwt hop hsrcs hlen).1
  have hreads : List.Forall₂ (fun b t => b ∈ read n.op srcs → m.read a b = .ok t) srcs ts :=
    forall₂_of_left hsrcs hvalues fun hv hb ht hmem =>
      read_simulates h heval hsim hn hx hv hb (hsources ▸ hmem) ht.1 ht.2
  have htyped := Typing.typed_of_resultTypes hwt.results
  obtain ⟨hdtypes, hactivations, hnodup⟩ := destinations h hn hop hlen hdsts
  have heffects := effects_compute hop htyped htypes hreads hdtypes
  rw [← hxe] at heffects
  rw [hstep]
  cases hcompute : n.op.compute n.results ts with
  | none =>
    obtain ⟨e, he⟩ := execute_of_error (by rw [heffects, hcompute]; rfl)
    exact ⟨e, m, he, rfl⟩
  | some ps =>
    have hps := length_of_compute htyped htypes hcompute
    have hcommit := commit_results h hdtypes hactivations hnodup (hps.trans hlen.symm) hsim.fits
    rw [hcompute] at heffects
    have hexecute := execute_of_effects heffects
    simp only [Option.bind_some]
    cases hresults : tensors n.results ps with
    | none =>
      rw [hresults] at hcommit
      obtain ⟨e, m', hcommit, hpersist⟩ := hcommit
      rw [hcommit] at hexecute
      exact ⟨e, m', hexecute, hpersist⟩
    | some rs =>
      rw [hresults] at hcommit
      obtain ⟨m', hcommit, hpersist, hfits, hnew, hkept⟩ := hcommit
      rw [hcommit] at hexecute
      exact ⟨m', hexecute, hsim.computed h heval hn hop hlen hdsts hpersist hfits hnew hkept⟩

/-- One instruction of the body does what the visit of its node does. -/
theorem execute_simulates (h : Lowered s f reuse st a) (heval : Evaluated s f j g)
    (hsim : Simulates st a j g m) {n : Node} (hn : f.nodes[j]? = some n) {x : Instruction}
    (hx : st.body[j]? = some x) :
    match g.step n with
    | none => ∃ e m', x.execute a m = (.error ⟨some x, e⟩, m') ∧ m'.persistent = m.persistent
    | some g' => ∃ m', x.execute a m = (.ok (), m') ∧ Simulates st a (j + 1) g' m' := by
  obtain ⟨n', types, hn', hwt, he⟩ := h.emitted hx
  obtain rfl := Option.some.inj (hn.symm.trans hn')
  cases he with
  | view hop hin hsrc hdst =>
    obtain ⟨ts, hstep⟩ := heval.step_reshape hn hwt hop
    rw [hstep]
    exact execute_view h heval hsim hn (by rw [hop]; rfl)
  | save hop hin hsrc hdst =>
    obtain ⟨g', m', hstep, hexecute, hsim'⟩ :=
      execute_save h heval hsim hn hwt hop hin hsrc hdst hx
    rw [hstep]
    exact ⟨m', hexecute, hsim'⟩
  | descent hop hin hg hw hd hstate =>
    have hexecute := execute_descent h heval hsim hn hwt hop hin hg hw hd hstate hx rfl
    cases hstep : g.step n with
    | none =>
      rw [hstep] at hexecute
      obtain ⟨e, he⟩ := hexecute
      exact ⟨e, m, he, rfl⟩
    | some g' =>
      rw [hstep] at hexecute
      exact hexecute
  | compute hop hsrcs hlen hdsts =>
    exact execute_compute h heval hsim hn hwt hop hsrcs hlen hdsts hx rfl

end Lowering

end TensorCompiler
