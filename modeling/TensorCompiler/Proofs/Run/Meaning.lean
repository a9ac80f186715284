import TensorCompiler.Proofs.Lowering.Total
import TensorCompiler.Proofs.Run.Simulation

/-!
Lowering preserves the meaning of a function: a run of its instructions ends as its evaluation does,
and leaves the same in storage and in the momentum of every step of descent.
-/

namespace TensorCompiler

variable {α : Type} [Scalar α]

/-- What a run leaves is what an evaluation leaves. -/
structure Leaves (a : Artifact) (m : Memory α) (g : Valuation α) : Prop where
  vars : m.vars = g.vars
  bindings : m.bindings = g.bindings
  momentum : a.momentum m.state = g.momentum

/-- A run ends as an evaluation does: both succeed, or the run fails in the instruction of the node
whose visit fails, after those of the nodes before it. -/
def Artifact.EndsAs (a : Artifact) (m : Memory α) : Except Nat Unit → Prop
  | .ok () => (a.run m).1 = .ok ()
  | .error i => ∃ x fault, a.operations[i]? = some x ∧
    (a.runFrom m (a.operations.take i)).1 = .ok () ∧
    (a.runFrom m (a.operations.take (i + 1))).1 = .error ⟨some x, fault⟩ ∧
    (a.run m).1 = .error ⟨some x, fault⟩

namespace Lowering

open TensorCompiler.Lowering.Stream

variable {s : Storage} {f : Function} {reuse : Bool} {st : Stream} {a : Artifact}

/-- The instructions from position `j` on, against the visits of the nodes from `j` on. -/
theorem runFrom_simulates (h : Lowered s f reuse st a) (hstable : f.ReshapesStable)
    (ns : List Node) : ∀ {j : Nat} {g : Valuation α} {m : Memory α}, f.nodes.drop j = ns →
      Evaluated s f j g → Simulates st a j g m →
      match g.visit ns with
      | (.ok (), g') => ∃ m', a.runFrom m (st.body.drop j) = (.ok (), m') ∧ Leaves a m' g'
      | (.error i, g') => ∃ x fault m₁ m', j ≤ i ∧ st.body[i]? = some x ∧
        a.runFrom m ((st.body.drop j).take (i - j)) = (.ok (), m₁) ∧
        x.execute a m₁ = (.error ⟨some x, fault⟩, m') ∧ Leaves a m' g' := by
  induction ns with
  | nil =>
    intro j g m hdrop heval hsim
    have hbody : st.body.drop j = [] := by
      rw [List.drop_eq_nil_iff] at hdrop ⊢
      exact h.describes.length ▸ hdrop
    rw [hbody]
    exact ⟨m, rfl, hsim.vars, hsim.bindings, hsim.momentum⟩
  | cons n ns ih =>
    intro j g m hdrop heval hsim
    obtain ⟨hn, hrest⟩ := getElem?_of_drop hdrop
    have hj : j < st.body.length := h.describes.length ▸ (List.getElem?_eq_some_iff.1 hn).1
    have hx := List.getElem?_eq_getElem hj
    obtain ⟨types, hwt⟩ := Function.wellTyped_of_verify h.verified hn
    have hstep := execute_simulates h heval hsim hn hx
    rw [List.drop_eq_getElem_cons hj, Valuation.visit]
    cases hg : g.step n with
    | none =>
      rw [hg] at hstep
      obtain ⟨fault, m', hexecute, hpersist⟩ := hstep
      simp only [Memory.persistent, Persistent.mk.injEq] at hpersist
      obtain ⟨hvars, hbindings, hstate⟩ := hpersist
      refine ⟨_, fault, m, m', Nat.le_of_eq heval.length.symm, heval.length ▸ hx, ?_, hexecute, ?_⟩
      · rw [heval.length, Nat.sub_self]
        rfl
      · exact ⟨hvars.trans hsim.vars, hbindings.trans hsim.bindings, hstate ▸ hsim.momentum⟩
    | some g₁ =>
      rw [hg] at hstep
      obtain ⟨m₁, hexecute, hsim₁⟩ := hstep
      have ih := ih hrest (heval.step hstable hn hwt hg) hsim₁
      have hrun := Artifact.runFrom_cons (a := a) hexecute
      simp only
      split at ih
      · rw [hrun]
        exact ih
      · next i g' hvisit =>
        obtain ⟨x, fault, m₂, m', hi, hxi, htaken, hfail, hleaves⟩ := ih
        refine ⟨x, fault, m₂, m', Nat.le_of_succ_le hi, hxi, ?_, hfail, hleaves⟩
        obtain ⟨k, rfl⟩ := Nat.exists_eq_add_of_le hi
        rw [show j + 1 + k - j = k + 1 by omega, List.take_succ_cons, hrun, ← htaken]
        congr 2
        omega

/-- A whole run. -/
theorem run_simulates (h : Lowered s f reuse st a) (hstable : f.ReshapesStable) {g : Valuation α}
    {m : Memory α} (heval : Evaluated s f 0 g) (hsim : Simulates st a 0 g m) :
    a.EndsAs m (g.visit f.nodes).1 ∧ Leaves a (a.run m).2 (g.visit f.nodes).2 := by
  have hrun : a.run m = a.runFrom m st.body := h.operations_eq ▸ h.run_eq m
  have hsteps := runFrom_simulates h hstable f.nodes rfl heval hsim
  unfold Artifact.EndsAs
  rw [h.operations_eq, hrun]
  rw [List.drop_zero] at hsteps
  cases hvisit : g.visit f.nodes with
  | mk outcome g' =>
    rw [hvisit] at hsteps
    cases outcome with
    | ok _ =>
      obtain ⟨m', hm', hleaves⟩ := hsteps
      rw [hm']
      exact ⟨rfl, hleaves⟩
    | error i =>
      obtain ⟨x, fault, m₁, m', -, hx, htaken, hfail, hleaves⟩ := hsteps
      rw [Nat.sub_zero] at htaken
      have hstop (ys : List Instruction) :
          a.runFrom m (st.body.take i ++ x :: ys) = (.error ⟨some x, fault⟩, m') := by
        rw [a.runFrom_append htaken, Artifact.runFrom, hfail]
      have hwhole : st.body = st.body.take i ++ x :: st.body.drop (i + 1) := by
        obtain ⟨hi, rfl⟩ := List.getElem?_eq_some_iff.1 hx
        rw [← List.drop_eq_getElem_cons hi, List.take_append_drop]
      have hone : st.body.take (i + 1) = st.body.take i ++ [x] := by
        rw [List.take_add_one, hx]
        rfl
      have hstopped := hstop (st.body.drop (i + 1))
      rw [← hwhole] at hstopped
      rw [hstopped]
      refine ⟨⟨x, fault, hx, ?_, ?_, rfl⟩, hleaves⟩
      · rw [htaken]
      · rw [hone, hstop]

/-- Storage of the declared types, as an evaluation starts with it. -/
theorem start_evaluated {vars : List (Tensor Single)} {bindings : Context}
    {momentum : Nat → Option (Tensor Single)} (h : Lowered s f reuse st a)
    (hvars : vars.map Tensor.type = s.vars.map (·.payload.type))
    (hbindings : Engine.checkBindings s bindings a = .ok ()) :
    Evaluated s f 0 ⟨vars, bindings, momentum, []⟩ := by
  refine ⟨rfl, fun hi => absurd hi (Nat.not_lt_zero _), ?_, fun hi => absurd hi (Nat.not_lt_zero _)⟩
  intro ref type href htype
  cases ref with
  | var id =>
    have hid := congrArg (·[id]?) hvars
    simp only [List.getElem?_map] at hid
    rw [Storage.type?, ← hid] at htype
    exact Option.map_eq_some_iff.1 htype
  | placeholder id =>
    obtain ⟨b, hb⟩ := (h.describes.seen_iff _).2 href
    obtain ⟨t, ht, htype'⟩ := bound_of_checkBindings hbindings (h.mem_weights_iff.2 hb)
    exact ⟨t, ht, Option.some.inj (htype'.symm.trans htype)⟩

theorem start_simulates (p : Persistent Single) (a : Artifact) (st : Stream) :
    Simulates st a 0 ⟨p.vars, p.bindings, a.momentum p.state, []⟩ (a.startOn p) :=
  ⟨rfl, rfl, rfl, Memory.start_slotsFit a _ _ _, fun _ _ hl => absurd hl.1 (Nat.not_lt_zero _)⟩

/-- The momentum buffers are those of the steps of descent, one each. -/
theorem momentum_buffers (h : Lowered s f reuse st a) :
    (∀ {i : Nat} {n : Node} {p : Descent}, f.nodes[i]? = some n → n.op = .sgd p →
      ∃ b ∈ a.stateBuffers, a.momentumOf? i = some b.id) ∧
    (∀ b ∈ a.stateBuffers, ∃ i, a.momentumOf? i = some b.id) ∧
    ∀ {i j b : Nat}, a.momentumOf? i = some b → a.momentumOf? j = some b → i = j := by
  refine ⟨fun {i n p} hn hop => ?_, fun b hb => ?_, fun hi hj =>
    h.describes.momentum_injective (h.momentumOf?_eq_some.1 hi) (h.momentumOf?_eq_some.1 hj)⟩
  · obtain ⟨x, hx, he⟩ := h.describes.emits (List.getElem?_eq_some_iff.1 hn).1 hn
    cases he with
    | view hop' => simp [hop] at hop'
    | save hop' => simp [hop] at hop'
    | compute hop' => simp [hop, opcode?] at hop'
    | @descent p _ _ _ _ state name d _ _ _ _ _ hstate =>
      refine ⟨_, List.mem_filter.2 ⟨h.buffers ▸ List.mem_of_getElem? hstate, by simp⟩, ?_⟩
      exact h.momentumOf?_eq_some.2 ⟨p, _, _, hx⟩
  · obtain ⟨hmem, hkind⟩ := List.mem_filter.1 hb
    obtain ⟨k, hk⟩ := List.mem_iff_getElem?.1 (h.buffers ▸ hmem)
    have horigin := h.describes.origin hk
    rw [show b.kind = .state by simpa using hkind] at horigin
    obtain ⟨i, hi⟩ := horigin
    exact ⟨i, by rw [h.describes.ids hk]; exact h.momentumOf?_eq_some.2 hi⟩

/-- Lowering preserves meaning. The artifact has one operation for every node and one momentum for
every step of descent. From contents of the declared types, bindings that pass the check before a
run and any momentum, with slots reused or not, the run of the artifact ends as the evaluation of the
function does: with success, or in the instruction of the same node. It leaves the same in every
variable, binding and momentum. There is an artifact if a word counts the bytes of its slots. -/
theorem lower_preserves (hverify : f.verify s = .ok ()) (hstable : f.ReshapesStable) (reuse : Bool) :
    (arenaBytes s f reuse < Word.size → ∃ a, f.lower s reuse = .ok a) ∧
    ∀ a, f.lower s reuse = .ok a → a.operations.length = f.nodes.length ∧
      (∀ {i : Nat} {n : Node} {p : Descent}, f.nodes[i]? = some n → n.op = .sgd p →
        ∃ b ∈ a.stateBuffers, a.momentumOf? i = some b.id) ∧
      (∀ b ∈ a.stateBuffers, ∃ i, a.momentumOf? i = some b.id) ∧
      (∀ {i j b : Nat}, a.momentumOf? i = some b → a.momentumOf? j = some b → i = j) ∧
      ∀ p : Persistent Single, p.vars.map Tensor.type = s.vars.map (·.payload.type) →
        Engine.checkBindings s p.bindings a = .ok () →
        let (outcome, g) := f.evaluate p.vars p.bindings (a.momentum p.state)
        a.EndsAs (a.startOn p) outcome ∧ Leaves a (a.run (a.startOn p)).2 g := by
  refine ⟨exists_lower hverify, fun a hlower => ?_⟩
  obtain ⟨st, -, h, -⟩ := lowered_of_lower hlower
  obtain ⟨hdescents, hstates, hinjective⟩ := momentum_buffers h
  refine ⟨by rw [h.operations_eq, h.describes.length], hdescents, hstates, hinjective,
    fun p hvars hbindings => ?_⟩
  exact run_simulates h hstable (start_evaluated h hvars hbindings) (start_simulates p a st)

/-! ## The sample function -/

/-- Bindings of the right types for the placeholders of a function pass the check before a run. -/
theorem checkBindings_ok (h : Lowered s f reuse st a) {c : Context}
    (hc : ∀ id, .placeholder id ∈ f.storageRefs → ∃ d t, s.placeholders[id]? = some d ∧
      c.get? id = some t ∧ t.type = d.type) : Engine.checkBindings s c a = .ok () := by
  refine (forM_ok_iff _ _).2 fun ⟨b, ref⟩ hb => ?_
  cases ref with
  | var id => rfl
  | placeholder id =>
    obtain ⟨d, t, hd, ht, htype⟩ :=
      hc id (h.weights_perm.mem_iff.1 (List.mem_map.2 ⟨_, hb, rfl⟩))
    simp only [hd, ht, htype, if_true]

/-- The reshape of the sample function is of a placeholder, and it writes no placeholder. -/
theorem reshapesStable_sample : Sample.function.ReshapesStable := by
  intro i j k ref writer reader _ _ hshows hwriter hwrites _
  obtain rfl : ref = .placeholder 0 := by
    cases hshows with
    | reshape hn hop hin hchain =>
      match i, hn with
      | 0, hn =>
        cases hn
        cases hin
        cases hchain.storage
        rfl
      | 1, hn => cases hn; cases hop
      | 2, hn => cases hn; cases hop
      | 3, hn => cases hn; cases hop
  match j, hwriter with
  | 0, hn => cases hn; simp [Function.Writes] at hwrites
  | 1, hn => cases hn; simp [Function.Writes] at hwrites
  | 2, hn => cases hn; simp [Function.Writes] at hwrites
  | 3, hn => cases hn; simp [Function.Writes] at hwrites

/-- The run of the sample function from zeros, against its evaluation. -/
theorem lower_preserves_sample : Sample.function.verify Sample.storage = .ok () ∧
    Sample.function.ReshapesStable ∧ ∃ a, Sample.function.lower Sample.storage true = .ok a ∧
      let p : Persistent Single := ⟨[.zeros (.float [2])],
        IdMap.empty.insert 0 (.zeros (.float [1, 2])), Engine.zeroState a⟩
      p.vars.map Tensor.type = Sample.storage.vars.map (·.payload.type) ∧
        Engine.checkBindings Sample.storage p.bindings a = .ok () ∧
        a.EndsAs (a.startOn p)
          (Sample.function.evaluate p.vars p.bindings (a.momentum p.state)).1 := by
  obtain ⟨hlowers, hpreserves⟩ := lower_preserves Sample.verify_function reshapesStable_sample true
  obtain ⟨a', hlower⟩ := hlowers (Sample.arenaBytes_function true)
  obtain ⟨st, -, h, -⟩ := lowered_of_lower hlower
  obtain ⟨-, -, -, -, hrun⟩ := hpreserves a' hlower
  have hbindings : Engine.checkBindings Sample.storage
      (IdMap.empty.insert 0 (.zeros (.float [1, 2]))) a' = .ok () := by
    refine checkBindings_ok h fun id hid => ?_
    rw [Function.storageRefs, List.mem_mergeSort] at hid
    obtain rfl : id = 0 := by
      have hid : StorageRef.placeholder id ∈ [StorageRef.placeholder 0, .var 0] := hid
      simpa using hid
    exact ⟨_, _, rfl, rfl, rfl⟩
  exact ⟨Sample.verify_function, reshapesStable_sample, a', hlower, rfl, hbindings,
    (hrun ⟨_, _, Engine.zeroState a'⟩ rfl hbindings).1⟩

end Lowering

end TensorCompiler
