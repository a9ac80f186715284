import TensorCompiler.Proofs.Lowering.Lowered
import TensorCompiler.Proofs.Run.Stores

/-!
Where the buffers of a lowered function are. An activation, and every view of it, has a slot of its
kind and size, which no other activation has while it is alive; all other buffers are in what
outlives a run, at a place that does not depend on the plan (`Hosts`).
-/

namespace TensorCompiler

/-- Where storage is while an artifact runs. -/
def StorageRef.location : StorageRef → Location
  | .var id => .variable id
  | .placeholder id => .placeholder id

theorem StorageRef.location_injective {ref ref' : StorageRef} (h : ref.location = ref'.location) :
    ref = ref' := by
  cases ref <;> cases ref' <;> cases h <;> rfl

theorem StorageRef.location_ne_slot (ref : StorageRef) (k : Nat) : ref.location ≠ .slot k := by
  cases ref <;> nofun

theorem StorageRef.location_ne_state (ref : StorageRef) (b : Nat) : ref.location ≠ .state b := by
  cases ref <;> nofun

namespace Lowering

open TensorCompiler.Lowering.Stream TensorCompiler.Plan

variable {s : Storage} {f : Function} {reuse : Bool} {st : Stream} {a : Artifact}

/-! ## Slots -/

/-- The activation of a lifetime is in slot `k`. -/
structure InSlot (st : Stream) (a : Artifact) (l : Lifetime) (k : Nat) : Prop where
  assigned : a.plan.assignments.get? l.buffer = some k
  fits : ∃ slot d, a.plan.slots[k]? = some slot ∧ st.buffers[l.buffer]? = some d ∧
    slot.kind = d.type.kind ∧ slot.len = d.type.volume
  located : ∀ {b : Nat}, rootOf st.roots b = l.buffer → a.locate b = .ok (.slot k)

namespace Lowered

/-- The location of a buffer follows from the kind of its root. -/
theorem locate_eq (h : Lowered s f reuse st a) (b : Nat) : a.locate b =
    match st.buffers[rootOf st.roots b]? with
    | none => .error (.unknownBuffer (rootOf st.roots b))
    | some d =>
      match d.kind with
      | .weight (.var id) => .ok (.variable id)
      | .weight (.placeholder id) => .ok (.placeholder id)
      | .state => .ok (.state (rootOf st.roots b))
      | .activation =>
        match a.plan.assignments.get? (rootOf st.roots b) with
        | some slot => .ok (.slot slot)
        | none => .error (.noSlot d.name)
      | .view _ => .error (.unresolvedView d.name) := by
  have hget : a.buffer? (rootOf st.roots b) = st.buffers[rootOf st.roots b]? := by
    rw [Artifact.buffer?, h.buffers]
  rw [← hget, ← h.root_eq]
  rfl

theorem exists_slot (h : Lowered s f reuse st a) {l : Lifetime} (hl : l ∈ lifetimes st) :
    ∃ k, InSlot st a l k := by
  obtain ⟨r, hr⟩ := h.exists_range hl
  obtain ⟨d, hd, hkind⟩ := (h.alive l hl).declared
  obtain ⟨k, slot, hk, hslot, hskind, hslen⟩ := h.planned.slot hr hd
  refine ⟨k, hk, ⟨slot, d, hslot, hd, hskind, hslen⟩, fun {b} hroot => ?_⟩
  rw [h.locate_eq, hroot, hd]
  simp only [hkind, hk]

/-- An activation is the root of itself. -/
theorem root_self (h : Lowered s f reuse st a) {l : Lifetime} (hl : l ∈ lifetimes st) :
    rootOf st.roots l.buffer = l.buffer := by
  obtain ⟨d, hd, hkind⟩ := (h.alive l hl).declared
  exact rootOf_eq_self h.describes hd (by simp [hkind])

/-- Activations that are alive together are in different slots. -/
theorem slots_ne (h : Lowered s f reuse st a) {l l' : Lifetime} (hl : l ∈ lifetimes st)
    (hl' : l' ∈ lifetimes st) (hne : l.buffer ≠ l'.buffer) {j k k' : Nat}
    (hj : l.first ≤ j ∧ j ≤ l.last) (hj' : l'.first ≤ j ∧ j ≤ l'.last) (hk : InSlot st a l k)
    (hk' : InSlot st a l' k') : k ≠ k' := by
  rintro rfl
  obtain ⟨r, hr⟩ := h.exists_range hl
  obtain ⟨r', hr'⟩ := h.exists_range hl'
  have hcovers {l : Lifetime} {r : LiveRange} (hl : l ∈ lifetimes st)
      (hr : a.plan.liveRanges.get? l.buffer = some r) (hj : l.first ≤ j ∧ j ≤ l.last) :
      r.start < position (lifetimes st) st.body j ∧
        position (lifetimes st) st.body j < r.stop := by
    obtain ⟨hstart, hstop⟩ := h.planned.range_iff.1 hr
    rw [h.instructions] at hstart hstop
    have hcovers := covers_of_lives h.not_marker (lifetimes_nodup h.describes) hl hstart hstop
      hj.1 hj.2
    simpa [LiveRange.covers] using hcovers
  have hc := hcovers hl hr hj
  have hc' := hcovers hl' hr' hj'
  have hapart := (h.planned.apart hne hr hr' hk.assigned hk'.assigned).2
  omega

theorem typeOf_eq (h : Lowered s f reuse st a) (b : Nat) :
    a.typeOf b = match st.buffers[b]? with
      | some d => .ok d.type
      | none => .error (.unknownBuffer b) := by
  have hget : a.buffer? b = st.buffers[b]? := by rw [Artifact.buffer?, h.buffers]
  rw [← hget]
  rfl

/-- What shows storage is where the storage is. -/
theorem locate_shown (h : Lowered s f reuse st a) {ref : StorageRef} {b : Nat}
    (hb : st.weights.lookup ref = some (rootOf st.roots b)) : a.locate b = .ok ref.location := by
  obtain ⟨name, type, -, -, hd⟩ := h.describes.weight hb
  have hlocate := h.locate_eq b
  rw [hd] at hlocate
  cases ref <;> exact hlocate

theorem locate_weight (h : Lowered s f reuse st a) {ref : StorageRef} {b : Nat}
    (hb : st.weights.lookup ref = some b) : a.locate b = .ok ref.location := by
  obtain ⟨name, type, -, -, hd⟩ := h.describes.weight hb
  refine h.locate_shown ?_
  rwa [rootOf_eq_self h.describes hd (by simp)]

theorem locate_momentum (h : Lowered s f reuse st a) {j b : Nat} (hb : st.Momentum j b) :
    a.locate b = .ok (.state b) := by
  obtain ⟨d, hd, hkind⟩ := h.describes.state_of_momentum hb
  have hlocate := h.locate_eq b
  rw [rootOf_eq_self h.describes hd (by simp [hkind]), hd] at hlocate
  simpa only [hkind] using hlocate

end Lowered

/-! ## Hosts -/

/-- Where the elements of a buffer are when they are in no slot. -/
inductive Stream.Located (st : Stream) (b : Nat) : Location → Prop
  | storage {ref : StorageRef} : st.weights.lookup ref = some (rootOf st.roots b) →
      Located st b ref.location
  | state {j : Nat} : st.Momentum j b → Located st b (.state b)

theorem Stream.Located.ne_slot {b : Nat} {location : Location} (h : st.Located b location) (k : Nat) :
    location ≠ .slot k := by
  cases h with
  | storage => exact StorageRef.location_ne_slot _ k
  | state => nofun

/-- The artifact has a place for every buffer of the stream. It may be that of a longer stream. -/
structure Hosts (st : Stream) (a : Artifact) : Prop where
  typed : ∀ {b : Nat} {d : Buffer}, st.buffers[b]? = some d → a.typeOf b = .ok d.type
  slot : ∀ {l : Lifetime}, l ∈ lifetimes st → ∃ k, InSlot st a l k
  apart : ∀ {l l' : Lifetime}, l ∈ lifetimes st → l' ∈ lifetimes st → l.buffer ≠ l'.buffer →
    ∀ {j k k' : Nat}, l.first ≤ j ∧ j ≤ l.last → l'.first ≤ j ∧ j ≤ l'.last → InSlot st a l k →
      InSlot st a l' k' → k ≠ k'
  located : ∀ {b : Nat} {location : Location}, st.Located b location → a.locate b = .ok location

theorem Lowered.hosts (h : Lowered s f reuse st a) : Hosts st a where
  typed hd := by rw [h.typeOf_eq, hd]
  slot := h.exists_slot
  apart := h.slots_ne
  located
    | .storage hb => h.locate_shown hb
    | .state hb => h.locate_momentum hb

/-! ## Reads and stores of one instruction -/

/-- An instruction of a result reads what its node reads, and stores into the results. -/
theorem compute_parts {i : Nat} {n : Node} {types : List TensorType} {code : Opcode}
    {srcs dsts : List Nat} (hwt : Function.WellTyped s f i n types) (hop : opcode? n.op = some code)
    (hsrcs : List.Forall₂ (fun v b => st.bufferOf? v = some b) n.inputs srcs)
    (hlen : dsts.length = n.results.length) :
    (Instruction.ofBuffers code dsts (read n.op srcs)).sources = read n.op srcs ∧
      (Instruction.ofBuffers code dsts (read n.op srcs)).targets = dsts := by
  have htyped := Typing.typed_of_resultTypes hwt.results
  have hlen' := hsrcs.length_eq.symm.trans hwt.operands.length_eq
  have hsignature := signature_of_typed hop htyped hlen'
  have hcount : code.signature.count .write = dsts.length := by
    rw [hsignature, List.count_append, List.count_replicate_self, List.count_replicate, hlen]
    rfl
  have hbuffers : (Instruction.ofBuffers code dsts (read n.op srcs)).buffers =
      dsts ++ read n.op srcs := by
    simp [Instruction.buffers, Instruction.ofBuffers, Function.comp_def]
  have hmarker := opcode?_not_marker hop
  have hview : code ≠ .view := by
    rintro rfl
    cases hn : n.op <;> simp [hn, opcode?] at hop
  have hsgd (p : Descent) : code ≠ .sgd p := by
    rintro rfl
    exact opcode?_ne_sgd n.op p hop
  constructor
  · rw [Instruction.sources_eq hmarker hview, hbuffers]
    exact hcount ▸ List.drop_left
  · rw [Instruction.targets_eq hmarker hview hsgd, hbuffers]
    exact hcount ▸ List.take_left

/-- What the instruction of node `j` reads: operands of the node, and its optimizer state. -/
theorem source_of_emits {j : Nat} {n : Node} {types : List TensorType} {x : Instruction}
    (hwt : Function.WellTyped s f j n types) (hx : st.body[j]? = some x) (he : st.Emits j n x)
    {b : Nat} (hb : b ∈ x.sources) :
    (∃ v ∈ n.inputs, st.bufferOf? v = some b) ∨ st.Momentum j b := by
  cases he with
  | view => cases hb
  | @save ref v src dst _ hin hsrc _ =>
    obtain rfl := List.mem_singleton.1 hb
    exact .inl ⟨v, hin ▸ List.mem_singleton_self v, hsrc⟩
  | @descent p g ref gradient weight state name d _ hin hg hw _ _ =>
    have hmem : b ∈ [weight, gradient, state] := hb
    rcases (by simpa using hmem : b = weight ∨ b = gradient ∨ b = state) with rfl | rfl | rfl
    · exact .inl ⟨.storage ref, by simp [hin], hw⟩
    · exact .inl ⟨g, by simp [hin], hg⟩
    · exact .inr ⟨p, _, _, hx⟩
  | compute hop hsrcs hlen _ =>
    rw [(compute_parts hwt hop hsrcs hlen).1] at hb
    obtain ⟨v, hv, hbuf⟩ := exists_left_of_forall₂ hsrcs (mem_of_mem_read hb)
    exact .inl ⟨v, hv, hbuf⟩

/-- What it stores into: results, storage, and its optimizer state. -/
theorem target_of_emits {k : Nat} {seen : List StorageRef} (h : Describes s f k seen st) {j : Nat}
    {n : Node} {types : List TensorType} {x : Instruction} (hn : f.nodes[j]? = some n)
    (hwt : Function.WellTyped s f j n types) (hx : st.body[j]? = some x) (he : st.Emits j n x)
    {b : Nat} (hb : b ∈ x.targets) : (∃ r, st.Activation j r b) ∨
      (∃ ref, st.weights.lookup ref = some b) ∨ st.Momentum j b := by
  cases he with
  | view => cases hb
  | @save ref v src dst _ _ _ hdst =>
    obtain rfl := List.mem_singleton.1 hb
    exact .inr (.inl ⟨ref, hdst⟩)
  | @descent p g ref gradient weight state name d _ _ _ hw _ _ =>
    rcases (by simpa [Instruction.targets, Instruction.buffers] using hb : b = weight ∨ b = state)
      with rfl | rfl
    · exact .inr (.inl ⟨ref, hw⟩)
    · exact .inr (.inr ⟨p, _, _, hx⟩)
  | @compute code srcs dsts hop hsrcs hlen hdsts =>
    rw [(compute_parts hwt hop hsrcs hlen).2] at hb
    obtain ⟨r, hr⟩ := List.mem_iff_getElem?.1 hb
    have hvalue : st.values.lookup (j, r) = some b := hdsts hr
    obtain ⟨-, n', d, hn', -, hd, hkind⟩ := h.value hvalue
    obtain rfl := Option.some.inj (hn.symm.trans hn')
    exact .inl ⟨r, hvalue, d, hd, hkind.of_computes hop⟩

/-- Every activation of a node is stored into by its instruction. -/
theorem mem_targets_of_activation (hverify : f.verify s = .ok ()) {seen : List StorageRef}
    (h : Describes s f f.nodes.length seen st) {j r b : Nat} (hb : st.Activation j r b)
    {x : Instruction} (hx : st.body[j]? = some x) : b ∈ x.targets := by
  obtain ⟨n, types, code, srcs, dsts, -, hwt, hop, hsrcs, hlen, hy, hr⟩ :=
    compute_of_activation hverify h hb
  obtain rfl := Option.some.inj (hx.symm.trans hy)
  rw [(compute_parts hwt hop hsrcs hlen).2]
  exact List.mem_of_getElem? hr

namespace Lowered

/-- An operand that shows an activation comes after its definition. -/
theorem first_lt (h : Lowered s f reuse st a) {j : Nat} {n : Node} (hn : f.nodes[j]? = some n)
    {v : Value} (hv : v ∈ n.inputs) {b : Nat} (hb : st.bufferOf? v = some b) {l : Lifetime}
    (hl : l ∈ lifetimes st) (hroot : rootOf st.roots b = l.buffer) : l.first < j := by
  have halive := h.alive l hl
  obtain ⟨d, hd, hkind⟩ := halive.declared
  obtain ⟨i, r, hvalue⟩ := exists_activation h.describes hd hkind
  obtain ⟨x, hx, hwrite⟩ := halive.written
  obtain rfl := eq_of_write h.describes hvalue hx hwrite
  obtain ⟨w, d', -, hw, -, -, hpos⟩ := exists_shown h.verified h.describes b hb
  rw [hroot] at hw
  cases w with
  | storage ref =>
    obtain ⟨name, type, -, -, hd'⟩ := h.describes.weight hw
    rw [Option.some.inj (hd.symm.trans hd')] at hkind
    cases hkind
  | node i' r' =>
    obtain ⟨heq, -⟩ := Prod.mk.inj (h.describes.injective hvalue.value hw)
    obtain ⟨p, q, rfl, hle⟩ := hpos rfl
    obtain ⟨types, hwt⟩ := Function.wellTyped_of_verify h.verified hn
    obtain ⟨type, -, htype⟩ := exists_right_of_forall₂ hwt.operands hv
    exact heq ▸ Nat.lt_of_le_of_lt hle htype.1

/-- An activation that an instruction reads is defined before and not deallocated yet. -/
theorem live_of_source (h : Lowered s f reuse st a) {j : Nat} {x : Instruction}
    (hx : st.body[j]? = some x) {b : Nat} (hb : b ∈ x.sources) {l : Lifetime}
    (hl : l ∈ lifetimes st) (hroot : rootOf st.roots b = l.buffer) :
    l.first < j ∧ j ≤ l.last := by
  obtain ⟨n, types, hn, hwt, he⟩ := h.emitted hx
  obtain ⟨o, ho, rfl⟩ := List.mem_map.1 (Instruction.mem_buffers_of_mem_sources hb)
  refine ⟨?_, ((h.alive l hl).within hx ho hroot).2⟩
  rcases source_of_emits hwt hx he hb with ⟨v, hv, hbuf⟩ | hm
  · exact h.first_lt hn hv hbuf hl hroot
  · obtain ⟨d, hd, hkind⟩ := (h.alive l hl).declared
    obtain ⟨d', hd', hstate⟩ := h.describes.state_of_momentum hm
    rw [← hroot, rootOf_eq_self h.describes hd' (by simp [hstate]), hd'] at hd
    rw [← Option.some.inj hd, hstate] at hkind
    cases hkind

/-- What an instruction reads is an activation that is alive, or not in a slot. -/
theorem source_cases (h : Lowered s f reuse st a) {j : Nat} {x : Instruction}
    (hx : st.body[j]? = some x) {b : Nat} (hb : b ∈ x.sources) :
    (∃ l ∈ lifetimes st, rootOf st.roots b = l.buffer ∧ l.first < j ∧ j ≤ l.last) ∨
      ∃ location, st.Located b location := by
  obtain ⟨n, types, hn, hwt, he⟩ := h.emitted hx
  rcases source_of_emits hwt hx he hb with ⟨v, hv, hbuf⟩ | hm
  · rcases shown_cases h.verified h.describes hbuf with ⟨ref, -, hw⟩ | ⟨l, hl, hroot, -⟩
    · exact .inr ⟨_, .storage hw⟩
    · exact .inl ⟨l, hl, hroot, h.live_of_source hx hb hl hroot⟩
  · exact .inr ⟨_, .state hm⟩

/-- What an instruction stores into is an activation of its node, or not in a slot. -/
theorem target_cases (h : Lowered s f reuse st a) {j : Nat} {x : Instruction}
    (hx : st.body[j]? = some x) {b : Nat} (hb : b ∈ x.targets) :
    (∃ l ∈ lifetimes st, l.buffer = b ∧ l.first = j) ∨
      (∀ l ∈ lifetimes st, l.buffer ≠ b) ∧ ∃ location, st.Located b location := by
  obtain ⟨n, types, hn, hwt, he⟩ := h.emitted hx
  have hother {d : Buffer} (hd : st.buffers[b]? = some d) (hno : d.kind ≠ .activation) :
      ∀ l ∈ lifetimes st, l.buffer ≠ b := by
    rintro l hl rfl
    obtain ⟨d', hd', hkind⟩ := (h.alive l hl).declared
    exact hno (Option.some.inj (hd.symm.trans hd') ▸ hkind)
  rcases target_of_emits h.describes hn hwt hx he hb with ⟨r, hact⟩ | ⟨ref, href⟩ | hm
  · obtain ⟨d, hd, hkind⟩ := hact.declared
    obtain ⟨l, hl, rfl⟩ := exists_lifetime h.verified h.describes hd hkind
    obtain ⟨y, hy, hwrite⟩ := (h.alive l hl).written
    exact .inl ⟨l, hl, rfl, eq_of_write h.describes hact hy hwrite⟩
  · obtain ⟨name, type, -, -, hd⟩ := h.describes.weight href
    have hself := rootOf_eq_self h.describes hd (by simp)
    exact .inr ⟨hother hd (by simp), _, .storage (hself.symm ▸ href)⟩
  · obtain ⟨d, hd, hkind⟩ := h.describes.state_of_momentum hm
    exact .inr ⟨hother hd (by simp [hkind]), _, .state hm⟩

end Lowered

end Lowering

end TensorCompiler
