import TensorCompiler.Proofs.Run.Descent
import TensorCompiler.Proofs.Run.Progress
import TensorCompiler.Proofs.Training.Ordering

/-!
The stream of a training function, in two parts. From its first step of descent on it descends
(`Lowered.descends_late`). Before that it stores into slots, and into storage where a node saves
(`Lowered.target_of_other`).
-/

namespace TensorCompiler

open Lowering TensorCompiler.Lowering.Stream Instruction

variable {s : Storage} {f : Function} {reuse : Bool} {st : Stream} {a : Artifact} {x : Instruction}
  {j b : Nat}

theorem Instruction.not_marker_of_step (h : x.isStep = true) : x.op.isMarker = false := by
  unfold isStep at h
  split at h
  · next p hop => rw [hop]; rfl
  · cases h

namespace Artifact

/-- The instructions before the first step of descent. -/
def early (a : Artifact) : List Instruction := a.instructions.takeWhile fun x => !x.isStep

/-- The first step of descent and all that comes after it. -/
def late (a : Artifact) : List Instruction := a.instructions.dropWhile fun x => !x.isStep

theorem early_append_late (a : Artifact) : a.early ++ a.late = a.instructions :=
  List.takeWhile_append_dropWhile

theorem not_step_of_early (hx : x ∈ a.early) : x.isStep = false := by
  simpa using List.all_eq_true.1 (List.all_takeWhile (l := a.instructions)) x hx

theorem others_early (a : Artifact) : others a.early = a.early :=
  others_eq_self fun _ hx => not_step_of_early hx

theorem step_of_late {rest : List Instruction} (h : a.late = x :: rest) : x.isStep = true := by
  have hhead := List.head?_dropWhile_not (fun x => !x.isStep) a.instructions
  rw [← late, h] at hhead
  simpa using hhead

end Artifact

namespace Lowering.Lowered

/-- An operand that shows no storage shows an activation. -/
theorem exists_lifetime_of_not_shows (h : Lowered s f reuse st a) {v : Value}
    (hb : st.bufferOf? v = some b) (hno : ∀ ref, ¬ f.Shows v (.storage ref)) :
    ∃ l ∈ lifetimes st, rootOf st.roots b = l.buffer := by
  rcases shown_cases h.verified h.describes hb with ⟨ref, hshows, -⟩ | ⟨l, hl, hroot, -⟩
  · exact absurd hshows (hno ref)
  · exact ⟨l, hl, hroot⟩

theorem exists_slot_of_not_shows (h : Lowered s f reuse st a) {v : Value}
    (hb : st.bufferOf? v = some b) (hno : ∀ ref, ¬ f.Shows v (.storage ref)) :
    ∃ k, a.locate b = .ok (.slot k) := by
  obtain ⟨l, hl, hroot⟩ := h.exists_lifetime_of_not_shows hb hno
  obtain ⟨k, hk⟩ := h.exists_slot hl
  exact ⟨k, hk.located hroot⟩

/-! ## Steps of the body -/

/-- A step in the body is the step of a node, with the weight that the node moves and an optimizer state
of its own. -/
theorem step_of_body (h : Lowered s f reuse st a) (hx : st.body[j]? = some x)
    (hstep : x.isStep = true) : ∃ n p v ref w g m, f.nodes[j]? = some n ∧ n.op = .sgd p ∧
      n.inputs = [v, .storage ref] ∧ x = step p w g m ∧ st.bufferOf? v = some g ∧
      st.weights.lookup ref = some w ∧ st.Momentum j m := by
  obtain ⟨n, types, hn, -, he⟩ := h.emitted hx
  cases he with
  | view => cases hstep
  | save => cases hstep
  | descent hop hin hg hw =>
    exact ⟨n, _, _, _, _, _, _, hn, hop, hin, rfl, hg, hw, _, _, _, hx⟩
  | @compute code _ _ hop =>
    unfold isStep Instruction.ofBuffers at hstep
    split at hstep
    · next p heq => exact absurd (hop.trans (congrArg some heq)) (opcode?_ne_sgd n.op p)
    · cases hstep

/-- No two steps store at one place. -/
theorem apart_of_body (h : Lowered s f reuse st a) (hf : f.DescendsLast) :
    st.body.Pairwise fun x y => x.isStep = true → y.isStep = true →
      ∀ b ∈ x.targets, ∀ c ∈ y.targets, a.locate b ≠ a.locate c := by
  refine List.pairwise_iff_getElem.2 fun i j hi hj hij hx hy b hb c hc heq => ?_
  obtain ⟨m, p, u, ref, w, g, v, hm, hop, hin, hxe, -, hw, hv⟩ :=
    h.step_of_body (List.getElem?_eq_getElem hi) hx
  obtain ⟨n, p', u', ref', w', g', v', hn, hop', hin', hye, -, hw', hv'⟩ :=
    h.step_of_body (List.getElem?_eq_getElem hj) hy
  have href : ref ≠ ref' := by
    rintro rfl
    have hmem : Value.storage ref ∈ m.inputs := by simp [hin]
    have hmem' : Value.storage ref ∈ n.inputs := by simp [hin']
    exact hf.distinct hij hm hop hmem hn hop' hmem'
  rw [hxe, mem_targets_step] at hb
  rw [hye, mem_targets_step] at hc
  have hstate : v ≠ v' := fun heq =>
    Nat.ne_of_lt hij (h.describes.momentum_injective hv (heq ▸ hv'))
  rcases hb with rfl | rfl <;> rcases hc with rfl | rfl
  · rw [h.locate_weight hw, h.locate_weight hw'] at heq
    exact href (StorageRef.location_injective (Except.ok.inj heq))
  · rw [h.locate_weight hw, h.locate_momentum hv'] at heq
    exact ref.location_ne_state _ (Except.ok.inj heq)
  · rw [h.locate_momentum hv, h.locate_weight hw'] at heq
    exact ref'.location_ne_state _ (Except.ok.inj heq).symm
  · rw [h.locate_momentum hv, h.locate_momentum hv'] at heq
    exact hstate (Location.state.inj (Except.ok.inj heq))

/-! ## From the first step on -/

/-- The operations around one of the stream are those around it in the body. -/
theorem body_eq (h : Lowered s f reuse st a) {before after : List Instruction}
    (hsplit : a.instructions = before ++ x :: after) (hx : x.op.isMarker = false) : st.body =
      before.filter (fun x => !x.op.isMarker) ++ x :: after.filter fun x => !x.op.isMarker := by
  rw [← h.operations_eq, Artifact.operations, hsplit, List.filter_append,
    List.filter_cons_of_pos (by simp [hx])]

/-- From the first step on every instruction is a marker, or of a node not before a step's. -/
theorem cases_of_late (h : Lowered s f reuse st a) (hx : x ∈ a.late) :
    (x.op.isMarker = true ∧ ∃ b, x.buffers = [b]) ∨ ∃ (i j : Nat) (y : Instruction), i ≤ j ∧
      st.body[i]? = some y ∧ y.isStep = true ∧ st.body[j]? = some x := by
  have hmem : x ∈ a.instructions := a.early_append_late ▸ List.mem_append_right _ hx
  rcases h.instruction_cases hmem with hmarker | ⟨k, hk⟩
  · exact .inl hmarker
  · have hop := h.not_marker x (List.mem_of_getElem? hk)
    cases hlate : a.late with
    | nil => simp [hlate] at hx
    | cons y rest =>
      have hy := Artifact.step_of_late hlate
      have hbody := h.body_eq (by rw [← a.early_append_late, hlate]) (not_marker_of_step hy)
      have hlast : x ∈ y :: rest.filter fun x => !x.op.isMarker := by
        rw [hlate] at hx
        rcases List.mem_cons.1 hx with rfl | hx
        · exact List.mem_cons_self
        · exact List.mem_cons_of_mem _ (List.mem_filter.2 ⟨hx, by simp [hop]⟩)
      obtain ⟨k, hk⟩ := List.mem_iff_getElem?.1 hlast
      generalize a.early.filter (fun x => !x.op.isMarker) = before at hbody
      refine .inr ⟨before.length, before.length + k, y, Nat.le_add_right _ k, ?_, hy, ?_⟩
      · rw [hbody, List.getElem?_append_right (Nat.le_refl _), Nat.sub_self]
        rfl
      · rw [hbody, List.getElem?_append_right (Nat.le_add_right _ _), Nat.add_sub_cancel_left, hk]

variable {α : Type} [Scalar α]

theorem inSlots_of_marker (hmarker : x.op.isMarker = true) : x.InSlots a := by
  unfold InSlots sources targets
  cases hop : x.op <;> simp_all [Opcode.isMarker]

theorem quiet_of_marker (hmarker : x.op.isMarker = true) (hb : ∃ b, x.buffers = [b]) :
    x.Quiet α a := by
  obtain ⟨b, hb⟩ := hb
  refine ⟨?_, inSlots_of_marker hmarker, fun m hm => ⟨m, execute_marker a m hmarker hb, hm⟩⟩
  unfold isStep
  split
  · next p hop => simp [hop, Opcode.isMarker] at hmarker
  · rfl

/-- Gradients of one type can be added up. -/
theorem computes_add {n : Node} {types : List TensorType} (hop : n.op = .binary .add)
    (hwt : Function.WellTyped s f j n types) : Computes α n types := by
  intro _ _ ts hts hfilled
  have htyped := hwt.typed
  rw [hop] at htyped ⊢
  generalize n.results = results at htyped
  cases htyped with
  | binary op shape =>
    obtain ⟨x, y, rfl, rfl, hy⟩ := floats_two hts hfilled
    exact single_fills (Kernel.binary_total .add hy)

/-- The instruction of a node that computes has the operation of the node. -/
theorem exists_compute {n : Node} {code : Opcode} (he : st.Emits j n x)
    (hcode : opcode? n.op = some code) : ∃ srcs dsts, x = .ofBuffers code dsts (read n.op srcs) ∧
      List.Forall₂ (fun v b => st.bufferOf? v = some b) n.inputs srcs ∧
      dsts.length = n.results.length ∧
      ∀ {r b : Nat}, dsts[r]? = some b → st.bufferOf? (.node j r) = some b := by
  cases he with
  | view hop => simp [hop, opcode?] at hcode
  | save hop => simp [hop, opcode?] at hcode
  | descent hop => simp [hop, opcode?] at hcode
  | compute hop hsrcs hlen hdsts =>
    obtain rfl := Option.some.inj (hop.symm.trans hcode)
    exact ⟨_, _, rfl, hsrcs, hlen, hdsts⟩

/-- A node that adds up gradients works in slots. -/
theorem quiet_of_sum (h : Lowered s f reuse st a) {n : Node} (hn : f.nodes[j]? = some n)
    (hop : n.op = .binary .add) (hx : st.body[j]? = some x)
    (hno : ∀ v ∈ n.inputs, ∀ ref, ¬ f.Shows v (.storage ref)) : x.Quiet α a := by
  obtain ⟨n', types, hn', hwt, he⟩ := h.emitted hx
  obtain rfl := Option.some.inj (hn.symm.trans hn')
  have hcode : opcode? n.op = some (.binary .add) := hop ▸ rfl
  have hprogress : x.Progresses α a := progresses_of_effects fun m hm =>
    effects_total h hm hn hwt (computes_add hop hwt) he
  obtain ⟨srcs, dsts, rfl, hsrcs, hlen, hdsts⟩ := exists_compute he hcode
  obtain ⟨hsources, htargets⟩ := compute_parts hwt hcode hsrcs hlen
  refine ⟨rfl, fun b hb => ?_, fun m hm => ?_⟩
  · rcases hb with hb | hb
    · obtain ⟨v, hv, hsrc⟩ := exists_left_of_forall₂ hsrcs (mem_of_mem_read (hsources ▸ hb))
      exact h.exists_slot_of_not_shows hsrc (hno v hv)
    · obtain ⟨l, hl, hbuffer, -⟩ := (destinations h hn hcode hlen hdsts).2.1 b (htargets ▸ hb)
      obtain ⟨k, hk⟩ := h.exists_slot hl
      exact ⟨k, hk.located (hbuffer ▸ h.root_self hl)⟩
  · rcases hprogress m hm with ⟨m', hexecute, hm', -⟩ | ⟨_, _, ⟨hgrad, -⟩, -⟩
    · exact ⟨m', hexecute, hm'⟩
    · cases hgrad

/-- A step takes its gradient from a slot. -/
theorem steps_of_body (h : Lowered s f reuse st a) (hf : f.DescendsLast)
    (hx : st.body[j]? = some x) (hstep : x.isStep = true) :
    ∃ p w g t, x = step p w g t ∧ Steps α a p w g t := by
  obtain ⟨n, types, hn, hwt, he⟩ := h.emitted hx
  obtain ⟨n', p, v, ref, w, g, t, hn', hop, hin, heq, hg, hw, ht⟩ := h.step_of_body hx hstep
  obtain rfl := Option.some.inj (hn.symm.trans hn')
  refine ⟨p, w, g, t, heq, h.exists_slot_of_not_shows hg (hf.gradient_not_shows hn hop hin),
    fun k => ⟨?_, ?_⟩, ?_, fun m hm => ?_⟩
  · rw [h.locate_weight hw]
    exact fun heq => ref.location_ne_slot k (Except.ok.inj heq)
  · rw [h.locate_momentum ht]
    nofun
  · rw [h.locate_weight hw, h.locate_momentum ht]
    exact fun heq => ref.location_ne_state t (Except.ok.inj heq)
  · cases he with
    | compute hcode => exact absurd (hop ▸ hcode) nofun
    | view => cases heq
    | save => cases heq
    | descent hop' hin' hg' hw' hd hstate =>
      obtain ⟨rfl, rfl, rfl, rfl⟩ : _ = p ∧ _ = w ∧ _ = g ∧ _ = t := by simpa [step] using heq
      obtain ⟨W, G, V, W', V', hW, hG, hV, hdescent, heffects, hfill⟩ :=
        effects_sgd h hm hwt hop' hin' hg' hw' hd hstate rfl
      exact ⟨W, G, V, W', V', hW, hG, hV, hdescent, heffects, hfill⟩

/-- From its first step on the stream descends. -/
theorem descends_late (h : Lowered s f reuse st a) (hf : f.DescendsLast) :
    a.Descends α a.late := by
  have hsublist : a.late.Sublist a.instructions := List.dropWhile_sublist _
  refine ⟨fun x hx => ?_, List.Pairwise.sublist hsublist ?_⟩
  · rcases h.cases_of_late hx with ⟨hmarker, hb⟩ | ⟨i, j, y, hij, hy, hstep, hxj⟩
    · exact .inl (quiet_of_marker hmarker hb)
    · by_cases hxstep : x.isStep = true
      · exact .inr (h.steps_of_body hf hxj hxstep)
      · obtain ⟨m, p, _, _, _, _, _, hm, hop, -⟩ := h.step_of_body hy hstep
        obtain ⟨n, types, hn, -, he⟩ := h.emitted hxj
        rcases hf.kinds hij hm hop hn with hsum | ⟨q, k, r, ref, hsgd, hin⟩
        · exact .inl (h.quiet_of_sum hn hsum.1 hxj fun v hv =>
            hf.summand_not_shows hij hm hop hn hsum hv)
        · cases he with
          | view hview => exact absurd (hview.symm.trans hsgd) nofun
          | save hsave => exact absurd (hsave.symm.trans hsgd) nofun
          | descent => exact absurd rfl hxstep
          | compute hcode => exact absurd (hsgd ▸ hcode) nofun
  · have hbody := h.apart_of_body hf
    rw [← h.operations_eq, Artifact.operations, List.pairwise_filter] at hbody
    exact hbody.imp fun hxy hx hy =>
      hxy (by simp [not_marker_of_step hx]) (by simp [not_marker_of_step hy]) hx hy

/-- Between the definition of an activation and its last use nothing else is stored in its slot. -/
theorem apart_of_live (h : Lowered s f reuse st a) {l : Lifetime} (hl : l ∈ lifetimes st) {i c : Nat}
    (hi : l.first < i ∧ i ≤ l.last) (hx : st.body[i]? = some x) (hc : c ∈ x.targets) :
    a.locate c ≠ a.locate l.buffer := by
  obtain ⟨k, hk⟩ := h.exists_slot hl
  rw [hk.located (h.root_self hl)]
  rcases h.target_cases hx hc with ⟨l', hl', rfl, rfl⟩ | ⟨-, location, hlocated⟩
  · obtain ⟨k', hk'⟩ := h.exists_slot hl'
    have hne : l.buffer ≠ l'.buffer := fun heq => by
      obtain rfl := eq_of_buffer (lifetimes_nodup h.describes) hl hl' heq
      exact Nat.lt_irrefl _ hi.1
    have hkk' := h.slots_ne hl hl' hne ⟨hi.1.le, hi.2⟩ ⟨Nat.le_refl _, (h.alive l' hl').first_le⟩ hk hk'
    rw [hk'.located (h.root_self hl')]
    exact fun heq => hkk' (Location.slot.inj (Except.ok.inj heq)).symm
  · rw [h.hosts.located hlocated]
    exact fun heq => hlocated.ne_slot k (Except.ok.inj heq)

/-- An activation is stored by the instruction of its node only. -/
theorem first_of_target (h : Lowered s f reuse st a) {l : Lifetime} (hl : l ∈ lifetimes st) {i : Nat}
    (hx : st.body[i]? = some x) (hc : l.buffer ∈ x.targets) : l.first = i := by
  rcases h.target_cases hx hc with ⟨l', hl', hbuffer, hfirst⟩ | ⟨hno, -⟩
  · rw [← hfirst, eq_of_buffer (lifetimes_nodup h.describes) hl hl' hbuffer.symm]
  · exact absurd rfl (hno l hl)

/-- The instruction that stores an activation. -/
theorem exists_definition (h : Lowered s f reuse st a) {l : Lifetime} (hl : l ∈ lifetimes st) :
    ∃ y, st.body[l.first]? = some y ∧ l.buffer ∈ y.targets := by
  obtain ⟨d, hd, hkind⟩ := (h.alive l hl).declared
  obtain ⟨y, hy, -⟩ := (h.alive l hl).written
  obtain ⟨i, r, hactivation⟩ := exists_activation h.describes hd hkind
  refine ⟨y, hy, mem_targets_of_activation h.verified h.describes hactivation ?_⟩
  rw [← first_of_value h hl hactivation.value]
  exact hy

/-- The gradient of a step shows an activation that is defined before the step and alive then. -/
theorem gradient_of_step (h : Lowered s f reuse st a) (hf : f.DescendsLast) {p : Descent}
    {w g t : Nat} (hx : st.body[j]? = some (step p w g t)) :
    ∃ l ∈ lifetimes st, rootOf st.roots g = l.buffer ∧ l.first < j ∧ j ≤ l.last := by
  obtain ⟨n, p', v, ref, w', g', t', hn, hop, hin, heq, hg, -⟩ := h.step_of_body hx rfl
  obtain ⟨rfl, rfl, rfl, rfl⟩ : p = p' ∧ w = w' ∧ g = g' ∧ t = t' := by simpa [step] using heq
  obtain ⟨l, hl, hroot⟩ := h.exists_lifetime_of_not_shows hg (hf.gradient_not_shows hn hop hin)
  exact ⟨l, hl, hroot, h.live_of_source hx (mem_sources_step.2 (.inr (.inl rfl))) hl hroot⟩

/-- No step stores into an activation. -/
theorem not_step_of_definition (h : Lowered s f reuse st a) (hf : f.DescendsLast) {l : Lifetime}
    (hl : l ∈ lifetimes st) (hx : st.body[j]? = some x) (hmem : l.buffer ∈ x.targets) :
    x.isStep = false := by
  by_contra hstep
  obtain ⟨p, w, g, t, rfl, hsteps⟩ :=
    h.steps_of_body (α := Single) hf hx (Bool.not_eq_false _ ▸ hstep)
  obtain ⟨k, hk⟩ := h.exists_slot hl
  have hlocated := hk.located (h.root_self hl)
  rcases mem_targets_step.1 hmem with heq | heq
  · exact (hsteps.outside k).1 (heq ▸ hlocated)
  · exact (hsteps.outside k).2 (heq ▸ hlocated)

/-- As long as an activation is alive, its definition is the last to have stored in its slot. -/
theorem exists_last_store (h : Lowered s f reuse st a) (hf : f.DescendsLast) {l : Lifetime}
    (hl : l ∈ lifetimes st) {done rest : List Instruction}
    (hbody : st.body = done.filter (fun x => !x.op.isMarker) ++ rest)
    (hfirst : l.first < (done.filter fun x => !x.op.isMarker).length)
    (hlast : (done.filter fun x => !x.op.isMarker).length ≤ l.last) :
    ∃ before x after, others done = before ++ x :: after ∧ l.buffer ∈ x.targets ∧
      ∀ y ∈ after, ∀ c ∈ y.targets, a.locate c ≠ a.locate l.buffer := by
  obtain ⟨x, hx, hmem⟩ := h.exists_definition hl
  have hdefined : (done.filter fun x => !x.op.isMarker)[l.first]? = some x := by
    rw [← hx, hbody, List.getElem?_append_left hfirst]
  obtain ⟨before, after, rfl, hafter⟩ := exists_split_of_filter hdefined
  have hother := h.not_step_of_definition hf hl hx hmem
  refine ⟨others before, x, others after, ?_, hmem, fun y hy c hc => ?_⟩
  · rw [others_append]
    exact congrArg _ (List.filter_cons_of_pos (by simp [hother]))
  · have hop := (mem_buffers_of_mem_targets hc).1
    have hlater : y ∈ after.filter fun x => !x.op.isMarker :=
      List.mem_filter.2 ⟨(mem_others.1 hy).1, by simp [hop]⟩
    rw [hafter] at hlater
    obtain ⟨i, hi⟩ := List.mem_iff_getElem?.1 hlater
    rw [List.getElem?_drop] at hi
    have hbefore := (List.getElem?_eq_some_iff.1 hi).1
    have hy : st.body[l.first + 1 + i]? = some y := by
      rw [hbody, List.getElem?_append_left hbefore, hi]
    exact h.apart_of_live hl ⟨by omega, by omega⟩ hy hc

/-- Where the steps stand they find their gradients. -/
theorem rearranges_late (h : Lowered s f reuse st a) (hf : f.DescendsLast) :
    a.Rearranges a.early a.late a.late := by
  refine ⟨.refl _, rfl, fun before after p w g t heq => ?_⟩
  have hsplit : a.instructions = (a.early ++ before) ++ step p w g t :: after := by
    rw [← a.early_append_late, heq, List.append_assoc]
  have hbody := h.body_eq hsplit rfl
  have hx : st.body[((a.early ++ before).filter fun x => !x.op.isMarker).length]? =
      some (step p w g t) := by
    rw [hbody, List.getElem?_append_right (Nat.le_refl _), Nat.sub_self]
    rfl
  -- the gradient shows an activation, which is defined before the step and alive up to it
  obtain ⟨l, hl, hroot, hfirst, hlast⟩ := h.gradient_of_step hf hx
  rw [Artifact.Holds, h.root_eq, hroot]
  refine ⟨fun y hy hmem => ?_, ?_⟩
  · have hop := (mem_buffers_of_mem_targets hmem).1
    have hlater : y ∈ after.filter fun x => !x.op.isMarker :=
      List.mem_filter.2 ⟨(mem_others.1 hy).1, by simp [hop]⟩
    obtain ⟨i, hi⟩ := List.mem_iff_getElem?.1 hlater
    have hy : st.body[((a.early ++ before).filter fun x => !x.op.isMarker).length + (i + 1)]? =
        some y := by
      rw [hbody, List.getElem?_append_right (Nat.le_add_right _ _), Nat.add_sub_cancel_left,
        List.getElem?_cons_succ, hi]
    have := h.first_of_target hl hy hmem
    omega
  · obtain ⟨before', x, after', hdone, hmem, hkept⟩ := h.exists_last_store hf hl hbody hfirst hlast
    obtain ⟨k, hk⟩ := h.exists_slot hl
    have hlocate : a.locate g = a.locate l.buffer :=
      (hk.located hroot).trans (hk.located (h.root_self hl)).symm
    rw [others_append, a.others_early] at hdone
    exact ⟨before', x, after', hdone, hmem, fun y hy c hc => hlocate ▸ hkept y hy c hc⟩

/-! ## Before the first step -/

/-- An instruction that takes no step stores into slots, or into storage that its node saves; and then
it cannot fail. -/
theorem target_of_other (h : Lowered s f reuse st a) (hx : x ∈ a.instructions)
    (hother : x.isStep = false) (hb : b ∈ x.targets) : (∃ k, a.locate b = .ok (.slot k)) ∨
      (∃ ref, a.locate b = .ok ref.location ∧ (b, ref) ∈ a.weights ∧
        ∃ n ∈ f.nodes, n.op = .save ref) ∧
      ∀ m : Memory α, m.Typed a → ∃ m', x.execute a m = (.ok (), m') := by
  rcases h.instruction_cases hx with ⟨hmarker, -⟩ | ⟨j, hj⟩
  · simp [(mem_buffers_of_mem_targets hb).1] at hmarker
  · obtain ⟨n, types, hn, hwt, he⟩ := h.emitted hj
    cases he with
    | view => cases hb
    | descent => cases hother
    | save hop hin hsrc hdst =>
      obtain rfl := List.mem_singleton.1 hb
      refine .inr ⟨⟨_, h.locate_weight hdst, h.mem_weights_iff.2 hdst, n,
        List.mem_of_getElem? hn, hop⟩, fun m hm => ?_⟩
      obtain ⟨ws, heffects, hfill⟩ := effects_save h hm hwt hop hin hsrc hdst
      obtain ⟨m', hcommit, -⟩ := commit_total hm hfill
      exact ⟨m', execute_ok_iff.2 ⟨ws, heffects, hcommit⟩⟩
    | compute hcode hsrcs hlen hdsts =>
      rw [(compute_parts hwt hcode hsrcs hlen).2] at hb
      obtain ⟨l, hl, hbuffer, -⟩ := (destinations h hn hcode hlen hdsts).2.1 b hb
      obtain ⟨k, hk⟩ := h.exists_slot hl
      exact .inl ⟨k, hk.located (hbuffer ▸ h.root_self hl)⟩

end Lowering.Lowered

/-- A run from `m` has failed with `r` before the first step, and `m'` is what it left. No optimizer
state is changed, and storage only where an instruction that succeeded has stored for a node of `f` that
saves it. -/
def Artifact.Aborts {α : Type} [Scalar α] (a : Artifact) (f : Function) (m m' : Memory α)
    (r : RunFault) : Prop :=
  ∃ before x after m₁, a.early = before ++ x :: after ∧ a.runFrom m before = (.ok (), m₁) ∧
    x.execute a m₁ = (.error r, m') ∧ m'.state = m.state ∧
    ∀ ref, m'.get? ref.location = m.get? ref.location ∨ (∃ n ∈ f.nodes, n.op = .save ref) ∧
      ∃ y ∈ before, ∃ b ∈ y.targets, (b, ref) ∈ a.weights

/-- A run of what is left from the first step on has taken all steps at once, from `m` to `m'`. Every
step moves its weight and momentum from their contents in `m`, by the gradient that the instructions
other than steps compute from `m`. Nothing else is changed outside the slots. And wherever else the
steps stand, where they find their gradients, the same is left. -/
structure Artifact.StepsAtOnce {α : Type} [Scalar α] (a : Artifact) (m m' : Memory α) : Prop where
  moves : ∀ ⦃before after : List Instruction⦄ ⦃x : Instruction⦄, a.late = before ++ x :: after →
    x.isStep = true → ∃ q, a.runFrom m (others before) = (.ok (), q) ∧ x.Moves a m q m'
  kept : ∀ ⦃location : Location⦄, (∀ k, location ≠ .slot k) →
    (∀ x ∈ a.late, x.isStep = true → ∀ b ∈ x.targets, a.locate b ≠ .ok location) →
    m'.get? location = m.get? location
  order : ∀ ⦃ys : List Instruction⦄, a.Rearranges a.early a.late ys →
    ∃ m'', a.runFrom m ys = (.ok (), m'') ∧ m''.persistent = m'.persistent

namespace Lowering.Lowered

variable {α : Type} [Scalar α] {m m' : Memory α}

/-- The late part succeeds and takes all steps at once. -/
theorem late_ok (h : Lowered s f reuse st a) (hf : f.DescendsLast) (hm : m.Typed a) :
    ∃ m', a.runFrom m a.late = (.ok (), m') ∧ a.StepsAtOnce m m' := by
  have hlate := h.descends_late (α := α) hf
  obtain ⟨m', -, hrun, -⟩ := hlate.run hm rfl
  refine ⟨m', hrun, fun before after x heq hx => ?_, fun location hslot hne => ?_, fun ys hys => ?_⟩
  · rw [heq] at hlate hrun
    exact hlate.moves hm hrun hx
  · have hkept := hlate.kept hslot hne (m := m)
    rwa [hrun] at hkept
  · exact hlate.rearrange (h.rearranges_late hf) hys hm hrun

/-- The early part takes no step, also when it fails. -/
theorem early_error [Scalar.Rowwise α] (h : Lowered s f reuse st a) (hm : m.Typed a) {r : RunFault}
    (hrun : a.runFrom m a.early = (.error r, m')) : a.Aborts f m m' r := by
  obtain ⟨before, x, after, m₁, heq, hbefore, hfail⟩ := Artifact.exists_failed hrun
  have htarget {y : Instruction} (hy : y ∈ a.early) {b : Nat} (hb : b ∈ y.targets) :=
    h.target_of_other (α := α) (a.early_append_late ▸ List.mem_append_left _ hy)
      (Artifact.not_step_of_early hy) hb
  refine ⟨before, x, after, m₁, heq, hbefore, hfail, IdMap.ext_get? fun b => ?_, fun ref => ?_⟩
  · have hframe : (a.runFrom m a.early).2.get? (.state b) = m.get? (.state b) := by
      refine Artifact.runFrom_frame fun y hy c hc hlocate => ?_
      rcases htarget hy hc with ⟨k, hk⟩ | ⟨⟨ref, href, -⟩, -⟩
      · cases hk.symm.trans hlocate
      · exact ref.location_ne_state b (Except.ok.inj (href.symm.trans hlocate))
    rwa [hrun] at hframe
  · have hlocate {b : Nat} (hb : (b, ref) ∈ a.weights) : a.locate b = .ok ref.location :=
      h.locate_weight (h.mem_weights_iff.1 hb)
    have hbefore' {y : Instruction} (hy : y ∈ before) : y ∈ a.early :=
      heq ▸ List.mem_append_left _ hy
    by_cases hsaved : ∃ y ∈ before, ∃ b ∈ y.targets, (b, ref) ∈ a.weights
    · obtain ⟨y, hy, b, hb, hweight⟩ := hsaved
      rcases htarget (hbefore' hy) hb with ⟨k, hk⟩ | ⟨⟨ref', href, -, hsave⟩, -⟩
      · exact absurd (Except.ok.inj ((hlocate hweight).symm.trans hk)) (ref.location_ne_slot k)
      · obtain rfl := StorageRef.location_injective
          (Except.ok.inj ((hlocate hweight).symm.trans href))
        exact .inr ⟨hsave, y, hy, b, hb, hweight⟩
    · left
      have hframe : (a.runFrom m before).2.get? ref.location = m.get? ref.location := by
        refine Artifact.runFrom_frame fun y hy b hb heq => ?_
        rcases htarget (hbefore' hy) hb with ⟨k, hk⟩ | ⟨⟨ref', href, hweight, -⟩, -⟩
        · exact ref.location_ne_slot k (Except.ok.inj (heq.symm.trans hk))
        · obtain rfl := StorageRef.location_injective (Except.ok.inj (heq.symm.trans href))
          exact hsaved ⟨y, hy, b, hb, hweight⟩
      have hframe' : (x.execute a m₁).2.get? ref.location = m₁.get? ref.location := by
        refine execute_frame fun b hb heq' => ?_
        have hx : x ∈ a.early := heq ▸ List.mem_append_right _ List.mem_cons_self
        rcases htarget hx hb with ⟨k, hk⟩ | ⟨-, hruns⟩
        · exact ref.location_ne_slot k (Except.ok.inj (heq'.symm.trans hk))
        · have hm₁ := h.typed_runFrom hm fun y hy => a.early_append_late ▸
            List.mem_append_left _ (hbefore' hy)
          rw [hbefore] at hm₁
          obtain ⟨m₂, hexecute⟩ := hruns m₁ hm₁
          cases hfail.symm.trans hexecute
      rw [hfail] at hframe'
      rw [hbefore] at hframe
      exact hframe'.trans hframe

end Lowering.Lowered

end TensorCompiler
