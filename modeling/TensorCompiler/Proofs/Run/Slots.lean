import TensorCompiler.Proofs.Lowering.Locations

/-!
The slots of a lowered function in a memory: a store into an activation succeeds where the elements
fit, and leaves every other activation that is alive.
-/

namespace TensorCompiler.Lowering

open TensorCompiler.Lowering.Stream

variable {α : Type} {s : Storage} {f : Function} {reuse : Bool} {st : Stream} {a a' : Artifact}

/-! ## Markers -/

theorem execute_marker [Scalar α] (a : Artifact) (m : Memory α) {x : Instruction} {b : Nat}
    (hmarker : x.op.isMarker = true) (hb : x.buffers = [b]) : x.execute a m = (.ok (), m) := by
  unfold Instruction.execute Instruction.effects
  rw [hb]
  cases hop : x.op <;> simp [hop, Opcode.isMarker] at hmarker <;> rfl

/-- Markers compute nothing, so a run is a run of the other instructions. -/
theorem runFrom_filter [Scalar α] (a : Artifact) {xs : List Instruction}
    (hxs : ∀ x ∈ xs, x.op.isMarker = true → ∃ b, x.buffers = [b]) (m : Memory α) :
    a.runFrom m xs = a.runFrom m (xs.filter fun x => !x.op.isMarker) := by
  induction xs generalizing m with
  | nil => rfl
  | cons x xs ih =>
    have ih := ih fun y hy => hxs y (List.mem_cons_of_mem _ hy)
    by_cases hmarker : x.op.isMarker = true
    · obtain ⟨b, hb⟩ := hxs x List.mem_cons_self hmarker
      rw [List.filter_cons_of_neg (by simp [hmarker]), Artifact.runFrom,
        execute_marker a m hmarker hb]
      exact ih m
    · rw [List.filter_cons_of_pos (by simpa using hmarker), Artifact.runFrom, Artifact.runFrom]
      split <;> simp only [ih]

namespace Lowered

/-- An instruction of the stream is a marker, which names one buffer, or an instruction of the body. -/
theorem instruction_cases (h : Lowered s f reuse st a) {x : Instruction}
    (hx : x ∈ a.instructions) :
    (x.op.isMarker = true ∧ ∃ b, x.buffers = [b]) ∨
      ∃ j : Nat, st.body[j]? = some x := by
  obtain ⟨p, hp⟩ := List.mem_iff_getElem?.1 hx
  rw [h.instructions] at hp
  obtain ⟨j, -, ⟨q, l, -, rfl, -⟩ | ⟨hxj, -⟩ | ⟨q, l, -, rfl, -⟩⟩ := withMarkers_cases hp
  · exact .inl ⟨rfl, l.buffer, rfl⟩
  · exact .inr ⟨j, hxj⟩
  · exact .inl ⟨rfl, l.buffer, rfl⟩

/-- The markers of the stream come before and after instructions of the body, which they leave in
order. -/
theorem run_taken [Scalar α] (h : Lowered s f reuse st a) (m : Memory α) (k : Nat) :
    ((a.instructions.take k).filter fun x => !x.op.isMarker) <+: st.body ∧
      a.runFrom m (a.instructions.take k) =
        a.runFrom m ((a.instructions.take k).filter fun x => !x.op.isMarker) := by
  refine ⟨?_, runFrom_filter a ?_ m⟩
  · have htaken := List.take_prefix k a.instructions
    replace htaken := htaken.filter fun x => !x.op.isMarker
    rwa [h.instructions, filter_withMarkers h.not_marker, ← h.instructions] at htaken
  · intro x hx hmarker
    rcases h.instruction_cases (List.mem_of_mem_take hx) with ⟨-, hb⟩ | ⟨j, hxj⟩
    · exact hb
    · simp [h.not_marker x (List.mem_of_getElem? hxj)] at hmarker

end Lowered

/-! ## Slots -/

section Slots

variable (h : Lowered s f reuse st a) (hosts : Hosts st a') {m : Memory α}

include h hosts

/-- What shows an activation has its elements. -/
theorem source_root {l : Lifetime} (hl : l ∈ lifetimes st) {b : Nat}
    (hroot : rootOf st.roots b = l.buffer) : m.source a' b = m.source a' l.buffer := by
  obtain ⟨k, hk⟩ := hosts.slot hl
  rw [Memory.source_of_located (hk.located hroot),
    Memory.source_of_located (hk.located (h.root_self hl))]

/-- A store into the slot of an activation leaves the other activations that are alive. -/
theorem source_set_slot {l l' : Lifetime} (hl : l ∈ lifetimes st) (hl' : l' ∈ lifetimes st)
    (hne : l.buffer ≠ l'.buffer) {j k : Nat} (hj : l.first ≤ j ∧ j ≤ l.last)
    (hj' : l'.first ≤ j ∧ j ≤ l'.last) (hk : InSlot st a' l k) (t : Tensor α) :
    Memory.source a' { m with slots := m.slots.set k t } l'.buffer = m.source a' l'.buffer := by
  obtain ⟨k', hk'⟩ := hosts.slot hl'
  have hkk' := hosts.apart hl hl' hne hj hj' hk hk'
  have hself := h.root_self hl'
  rw [Memory.source_of_located (hk'.located hself), Memory.source_of_located (hk'.located hself)]
  simp only [Memory.fetch, Memory.get?, List.getElem?_set_ne hkk']

/-- So does a store into what outlives the run. -/
theorem source_set_persistent {l : Lifetime} (hl : l ∈ lifetimes st) {location : Location}
    (hno : ∀ k, location ≠ .slot k) (t : Tensor α) :
    (m.set t location).source a' l.buffer = m.source a' l.buffer := by
  obtain ⟨k, hk⟩ := hosts.slot hl
  have hself := h.root_self hl
  rw [Memory.source_of_located (hk.located hself), Memory.source_of_located (hk.located hself)]
  simp only [Memory.fetch, Memory.get?, Memory.set_slots hno]

/-- A store into an activation of the instruction's node, seen in one memory. -/
theorem store_activation (hfits : m.SlotsFit a') {l : Lifetime} (hl : l ∈ lifetimes st) {d : Buffer}
    (hd : st.buffers[l.buffer]? = some d) {p : Payload α} (hp : p.Fits d.type) :
    ∃ m₁, m.store a' l.buffer p = .ok m₁ ∧
      m₁.persistent = m.persistent ∧ m₁.SlotsFit a' ∧ m₁.source a' l.buffer = .ok p ∧
      ∀ {l' : Lifetime} {j : Nat}, l' ∈ lifetimes st → l.buffer ≠ l'.buffer →
        l.first ≤ j ∧ j ≤ l.last → l'.first ≤ j ∧ j ≤ l'.last →
        m₁.source a' l'.buffer = m.source a' l'.buffer := by
  obtain ⟨k, hk⟩ := hosts.slot hl
  obtain ⟨slot, d', hslot, hd', hskind, hslen⟩ := hk.fits
  obtain rfl := Option.some.inj (hd.symm.trans hd')
  obtain ⟨target, htarget, httype⟩ := hfits k slot hslot
  have hself := h.root_self hl
  obtain ⟨t, ht, hpayload, hstore⟩ := Memory.store_slot (hosts.typed hd) hp (hk.located hself)
    htarget (by rw [httype, hskind, hslen])
  refine ⟨_, hstore, rfl, hfits.set_slot htarget ht, ?_, ?_⟩
  · rw [Memory.source_of_located (hk.located hself)]
    have hlt := (List.getElem?_eq_some_iff.1 htarget).1
    simp only [Memory.fetch, Memory.get?, List.getElem?_set_self hlt, Except.map, hpayload]
  · intro l' j hl' hne hj hj'
    exact source_set_slot h hosts hl hl' hne hj hj' hk t

end Slots

end TensorCompiler.Lowering
