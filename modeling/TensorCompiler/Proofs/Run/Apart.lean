import TensorCompiler.Proofs.Plan.Consistent
import TensorCompiler.Proofs.Run.Typed
import Mathlib.Algebra.Order.Ring.Nat

/-!
Activations are kept apart, in artifacts that are verified and consistent. While an activation is
alive, a store into another buffer leaves it, and a store into it or a view of it is what it shows
from then on (`Activation.store`); a run is the list of its stores (`Artifact.commit_stores`).
-/

namespace TensorCompiler

variable {α : Type}

/-- There is only one way to have no elements. -/
theorem Payload.eq_of_fits {p p' : Payload α} {type : TensorType} (hp : p.Fits type)
    (hp' : p'.Fits type) (hempty : type.volume = 0) : p = p' := by
  obtain ⟨hkind, hsize⟩ := hp
  obtain ⟨hkind', hsize'⟩ := hp'
  have hvolume : type.shape.volume < Word.size := Nat.lt_of_le_of_lt (Nat.le_of_eq hempty) (by decide)
  have hsize := ((Shape.accepts_iff_of_lt hvolume).1 hsize).trans hempty
  have hsize' := ((Shape.accepts_iff_of_lt hvolume).1 hsize').trans hempty
  cases p with
  | floats values =>
    cases p' with
    | floats values' => rw [Array.eq_empty_of_size_eq_zero hsize, Array.eq_empty_of_size_eq_zero hsize']
    | indices values' => exact absurd (hkind.trans hkind'.symm) nofun
  | indices values =>
    cases p' with
    | floats values' => exact absurd (hkind.trans hkind'.symm) nofun
    | indices values' => rw [Array.eq_empty_of_size_eq_zero hsize, Array.eq_empty_of_size_eq_zero hsize']

namespace Artifact

variable {a : Artifact}

/-- A buffer in a slot has an activation for its root. -/
theorem activation_of_locate {b k : Nat} (h : a.locate b = .ok (.slot k)) :
    ∃ d, a.buffer? (a.plan.root b) = some d ∧ d.kind = .activation ∧
      a.plan.assignments.get? (a.plan.root b) = some k := by
  unfold locate at h
  dsimp only at h
  split at h
  · cases h
  · next d hd =>
    split at h
    · cases h
    · cases h
    · cases h
    · next hkind =>
      split at h
      · next slot hslot =>
        obtain rfl := Location.slot.inj (Except.ok.inj h)
        exact ⟨d, hd, hkind, hslot⟩
      · cases h
    · cases h

theorem locate_of_activation {b k : Nat} {d : Buffer} (hd : a.buffer? (a.plan.root b) = some d)
    (hkind : d.kind = .activation) (hk : a.plan.assignments.get? (a.plan.root b) = some k) :
    a.locate b = .ok (.slot k) := by
  simp only [locate, hd, hkind, hk]

/-- An instruction inside the live range accesses the buffer. -/
def Accessed (a : Artifact) (range : LiveRange) (b : Nat) : Prop :=
  ∃ q x, a.instructions[q]? = some x ∧ x.op.isMarker = false ∧ b ∈ x.buffers ∧
    range.covers q = true

/-- An activation of an artifact that is verified and consistent, with its live range. -/
structure Activation (a : Artifact) (r : Nat) (range : LiveRange) : Prop where
  verified : a.Verified
  consistent : a.Consistent
  declared : ∃ d, a.buffer? r = some d ∧ d.kind = .activation
  range : a.plan.liveRanges.get? r = some range

namespace Activation

variable {r : Nat} {range : LiveRange} {m m' : Memory α} {b : Nat} {p : Payload α}

theorem base (h : a.Activation r range) : a.Base r := by
  obtain ⟨d, hd, hkind⟩ := h.declared
  exact base_of_activation hd hkind

/-- The activation and its views are in one slot. -/
theorem exists_slot (h : a.Activation r range) : ∃ k slot, a.plan.slots[k]? = some slot ∧
    a.plan.slotOf r = some slot ∧ a.plan.assignments.get? r = some k ∧
    ∀ {b : Nat} {d : Buffer}, a.buffer? b = some d → a.ViewOf r b → a.locate b = .ok (.slot k) := by
  obtain ⟨slot, hslot⟩ := Plan.exists_slotOf h.verified.plan h.range
  obtain ⟨k, hk, hget⟩ := Option.bind_eq_some_iff.1 hslot
  obtain ⟨e, he, hkind⟩ := h.declared
  refine ⟨k, slot, hget, hslot, hk, fun {b d} hd hview => ?_⟩
  have hroot := (h.consistent.roots.root_eq_iff hd h.base).2 hview
  exact locate_of_activation (hroot ▸ he) hkind (hroot ▸ hk)

/-- Activations that are alive together are in different slots, or in one that has no elements. -/
theorem slot_ne (h : a.Activation r range) {r' : Nat} {range' : LiveRange}
    (h' : a.Activation r' range') (hne : r ≠ r') {q : Nat} (hq : range.covers q = true)
    (hq' : range'.covers q = true) {k : Nat} (hk : a.plan.assignments.get? r = some k)
    (hk' : a.plan.assignments.get? r' = some k) {slot : Slot} (hslot : a.plan.slots[k]? = some slot) :
    slot.len = 0 := by
  have hof {r : Nat} (hk : a.plan.assignments.get? r = some k) : a.plan.slotOf r = some slot :=
    Option.bind_eq_some_iff.2 ⟨k, hk, hslot⟩
  have hapart := Plan.collides_of_verify h.verified.plan hne h.range h'.range (hof hk) (hof hk')
  simp only [Plan.Placement.collides, LiveRange.overlaps, LiveRange.covers, Bool.and_eq_false_iff,
    Bool.and_eq_true_iff, decide_eq_false_iff_not, decide_eq_true_eq] at hapart hq hq'
  have hbytes : slot.len * slot.kind.bytes = 0 := by
    rw [← h.consistent.bytes slot (List.mem_of_getElem? hslot)]
    rw [Slot.stop, Word.wrap_of_lt (h.consistent.stops slot (List.mem_of_getElem? hslot))] at hapart
    omega
  have hpos : slot.kind.bytes ≠ 0 := by cases slot.kind <;> decide
  exact (Nat.mul_eq_zero.1 hbytes).resolve_right hpos

/-- A store while the activation is alive. A store into the activation or a view of it is what it
shows, and any other store leaves it. -/
theorem store (h : a.Activation r range) (hm : m.SlotsFit a) (hb : a.Accessed range b)
    (hstore : m.store a b p = .ok m') : (a.ViewOf r b → m'.source a r = .ok p) ∧
      (¬ a.ViewOf r b → m'.source a r = m.source a r) := by
  obtain ⟨k, slot, hslot, -, hk, hlocate⟩ := h.exists_slot
  obtain ⟨e, he, -⟩ := h.declared
  obtain ⟨type, location, target, t, htype, -, hloc, htarget, ht, rfl, rfl⟩ :=
    Memory.store_ok hstore
  obtain ⟨d, hd, -⟩ := Artifact.buffer_of_typeOf htype
  have hself := hlocate he .self
  have hget : (m.set t location).get? (.slot k) = if .slot k = location then some t else
      m.get? (.slot k) := Memory.get?_set htarget
  rw [Memory.source_of_located hself, Memory.source_of_located hself, Memory.fetch, Memory.fetch, hget]
  refine ⟨fun hview => ?_, fun hno => ?_⟩
  · obtain rfl := Except.ok.inj (hloc.symm.trans (hlocate hd hview))
    rw [if_pos rfl]
    rfl
  · by_cases heq : .slot k = location
    · -- the root of `b` is another activation that is alive, so the slot has no elements
      subst heq
      obtain ⟨d', hd', hkind', hk'⟩ := activation_of_locate hloc
      obtain ⟨q, x, hx, hmarker, hmem, hq⟩ := hb
      obtain ⟨range', hrange'⟩ := h.verified.allocated hd' hkind'
      have hother : a.Activation (a.plan.root b) range' :=
        ⟨h.verified, h.consistent, ⟨d', hd', hkind'⟩, hrange'⟩
      have hne : r ≠ a.plan.root b := fun heq =>
        hno ((h.consistent.roots.root_eq_iff hd h.base).1 heq.symm)
      have hlen := h.slot_ne hother hne hq (h.verified.covered hx hmarker hmem hrange') hk hk' hslot
      obtain ⟨target', htarget', hfit⟩ := hm k slot hslot
      obtain rfl : target = target' := Option.some.inj (htarget.symm.trans htarget')
      have hempty : target.type.volume = 0 := by simp [hfit, TensorType.volume, Shape.volume, hlen]
      have hsame : t.payload = target.payload :=
        Payload.eq_of_fits (ht ▸ t.payload_fits) target.payload_fits hempty
      rw [if_pos rfl, htarget]
      exact congrArg Except.ok hsame
    · rw [if_neg heq]

/-- Stores in order, all while the activation is alive: it shows the last of them that is into it or a
view of it, and what it showed before if there is none. -/
theorem commit (h : a.Activation r range)
    (hm : m.SlotsFit a) {ws : List (Nat × Payload α)} (hws : ∀ w ∈ ws, a.Accessed range w.1)
    (hcommit : Instruction.commit a m ws = (.ok (), m')) :
    ((∀ w ∈ ws, ¬ a.ViewOf r w.1) → m'.source a r = m.source a r) ∧
      ∀ before b p after, ws = before ++ (b, p) :: after → a.ViewOf r b →
        (∀ w ∈ after, ¬ a.ViewOf r w.1) → m'.source a r = .ok p := by
  induction ws generalizing m with
  | nil =>
    obtain ⟨-, rfl⟩ := Prod.mk.inj hcommit
    exact ⟨fun _ => rfl, fun before b p after heq => by simp at heq⟩
  | cons w ws ih =>
    obtain ⟨b, p⟩ := w
    unfold Instruction.commit at hcommit
    split at hcommit
    · next m₁ hstore =>
      obtain ⟨hself, hframe⟩ := h.store hm (hws _ List.mem_cons_self) hstore
      obtain ⟨hkept, hlast⟩ := ih (hm.of_alike (.of_store hstore))
        (fun w hw => hws w (List.mem_cons_of_mem _ hw)) hcommit
      refine ⟨fun hno => ?_, fun before b' p' after heq hview hafter => ?_⟩
      · exact (hkept fun w hw => hno w (List.mem_cons_of_mem _ hw)).trans
          (hframe (hno _ List.mem_cons_self))
      · cases before with
        | nil =>
          obtain ⟨hpair, rfl⟩ := List.cons.inj (heq.trans (List.nil_append _))
          obtain ⟨rfl, rfl⟩ := Prod.mk.inj hpair
          exact (hkept hafter).trans (hself hview)
        | cons w before => exact hlast before b' p' after (List.cons.inj heq).2 hview hafter
    · cases hcommit

end Activation

end Artifact

/-! ## Runs -/

namespace Artifact

variable {a : Artifact} [Scalar α]

/-- The instructions of a stream after the allocation of an activation, up to its deallocation. -/
theorem accessed_of_mem_stores {range : LiveRange} {k : Nat} (hk : k ≤ range.stop) {m : Memory α}
    {w : Nat × Payload α}
    (hw : w ∈ a.stores m ((a.instructions.take k).drop (range.start + 1))) :
    a.Accessed range w.1 := by
  obtain ⟨x, hx, htarget⟩ := mem_stores hw
  obtain ⟨hmarker, hmem⟩ := Instruction.mem_buffers_of_mem_targets htarget
  obtain ⟨i, hi⟩ := List.mem_iff_getElem?.1 hx
  rw [List.getElem?_drop, List.getElem?_take] at hi
  split at hi
  · next hlt =>
    refine ⟨_, x, hi, hmarker, hmem, ?_⟩
    simp only [LiveRange.covers, Bool.and_eq_true_iff, decide_eq_true_eq]
    omega
  · cases hi

/-- Activations are kept apart. In an artifact that is verified and whose plan agrees with its buffers,
let an activation be alive before instruction `k` of a run. Then a read of it sees the last elements
that the run has stored into it, or into a buffer declared as a view of it, since it was allocated; and
if there are none, what it showed then. Stores into other buffers do not change it. -/
theorem read_last_stored (hverify : a.verify = .ok ()) (hconsistent : a.Consistent) {r : Nat}
    {d : Buffer} {range : LiveRange} (hd : a.buffer? r = some d) (hkind : d.kind = .activation)
    (hrange : a.plan.liveRanges.get? r = some range) (vars : List (Tensor α))
    (bindings state : IdMap (Tensor α)) {k : Nat} (hstart : range.start < k) (hstop : k ≤ range.stop)
    (hrun : (a.runFrom (.start a vars bindings state) (a.instructions.take k)).1 = .ok ()) :
    let memory (k : Nat) := (a.runFrom (.start a vars bindings state) (a.instructions.take k)).2
    let allocated := memory (range.start + 1)
    let stored := a.stores allocated ((a.instructions.take k).drop (range.start + 1))
    ((∀ w ∈ stored, ¬ a.ViewOf r w.1) → (memory k).read a r = allocated.read a r) ∧
      ∀ before b p after, stored = before ++ (b, p) :: after → a.ViewOf r b →
        (∀ w ∈ after, ¬ a.ViewOf r w.1) →
        (memory k).read a r = (Tensor.ofPayload d.type p).mapError .tensor := by
  intro memory allocated stored
  have hactivation : a.Activation r range :=
    ⟨verified_of_verify hverify, hconsistent, ⟨d, hd, hkind⟩, hrange⟩
  have hsplit : a.instructions.take k = a.instructions.take (range.start + 1) ++
      (a.instructions.take k).drop (range.start + 1) := by
    conv_lhs => rw [← List.take_append_drop (range.start + 1) (a.instructions.take k)]
    rw [List.take_take, Nat.min_eq_left hstart]
  have hall : a.runFrom (.start a vars bindings state) (a.instructions.take k) =
      (.ok (), memory k) := Prod.ext hrun rfl
  rw [hsplit] at hall
  obtain ⟨m₁, hfirst, hrest⟩ := runFrom_append_ok_iff.1 hall
  obtain rfl : allocated = m₁ := congrArg Prod.snd hfirst
  have hfits : allocated.SlotsFit a :=
    (Memory.start_slotsFit a vars bindings state).of_alike (alike_runFrom a _ _)
  obtain ⟨hkept, hlast⟩ := hactivation.commit hfits
    (fun w hw => accessed_of_mem_stores hstop hw) (commit_stores hrest)
  have htype : a.typeOf r = .ok d.type := Memory.Typed.typeOf hd
  refine ⟨fun hno => Memory.read_congr rfl (hkept hno), fun before b p after heq hview hafter => ?_⟩
  rw [Memory.read_eq_source, htype, hlast before b p after heq hview hafter]
  rfl

end Artifact

/-! ## Samples -/

namespace Sample

/-- Fills two activations that are alive together, `left` with 1 and `right` with 2, and copies `left`
to a placeholder. -/
def filled (viewRoots assignments : IdMap Nat) (slots : List Slot) : Artifact where
  name := "fill"
  buffers := [⟨0, "out", .float [1], .weight (.placeholder 0)⟩,
    ⟨1, "left", .float [1], .activation⟩, ⟨2, "right", .float [1], .activation⟩]
  instructions := [.ofBuffers .alloc [1] [], .ofBuffers .alloc [2] [], .ofBuffers (.splat 1) [1] [],
    .ofBuffers (.splat ⟨0x40000000⟩) [2] [], .ofBuffers .copy [0] [1], .ofBuffers .dealloc [1] [],
    .ofBuffers .dealloc [2] []]
  plan := { liveRanges := .ofList [(1, ⟨0, 5⟩), (2, ⟨1, 6⟩)], viewRoots, assignments, slots,
            totalBytes := 8 }

/-- Each activation in a slot of its own. -/
def separate : Artifact :=
  filled .empty (.ofList [(1, 0), (2, 1)]) [⟨0, .float, 1, 0, 4⟩, ⟨1, .float, 1, 4, 4⟩]

/-- The plan takes `right` for a view of `left`, though it is declared as an activation. -/
def redirected : Artifact :=
  filled (.ofList [(2, 1)]) (.ofList [(1, 0), (2, 1)]) [⟨0, .float, 1, 0, 4⟩, ⟨1, .float, 1, 4, 4⟩]

/-- Both activations in one slot, which by its own account takes no bytes. -/
def weightless : Artifact :=
  filled .empty (.ofList [(1, 0), (2, 0)]) [⟨0, .float, 1, 0, 0⟩]

/-- Both activations in one slot, at an offset from which its end wraps around to 0. -/
def wrapped : Artifact :=
  filled .empty (.ofList [(1, 0), (2, 0)]) [⟨0, .float, 1, 2 ^ 64 - 4, 4⟩]

/-- The artifact passes its check, and yet the copy reads 2 from `left`, into which 1 has been stored
and into whose views nothing else has. -/
def Crosses (a : Artifact) : Prop :=
  let start : Memory Single := .start a [] (IdMap.empty.insert 0 (.zeros (.float [1]))) .empty
  a.verify = .ok () ∧ a.plan.liveRanges.get? 1 = some ⟨0, 5⟩ ∧ ¬ a.ViewOf 1 2 ∧
    (a.runFrom start (a.instructions.take 4)).1 = .ok () ∧
    a.stores start (a.instructions.take 4) =
      [(1, .floats #[1]), (2, .floats #[⟨0x40000000⟩])] ∧
    (a.runFrom start (a.instructions.take 4)).2.read a 1 =
      .ok (.floats ⟨[1], #[⟨0x40000000⟩], .inl rfl⟩)

theorem not_viewOf_filled (viewRoots assignments : IdMap Nat) (slots : List Slot) :
    ¬ (filled viewRoots assignments slots).ViewOf 1 2 := fun hview =>
  absurd (hview.of_base (Artifact.base_of_activation rfl rfl)) (by decide)

/-- The check of an artifact neither compares the roots of a plan with the declared views, nor the bytes
of a slot with its elements, nor does it notice an end that wraps around, and so accepts plans that do
not keep activations apart. -/
theorem crosses_of_verify : Crosses redirected ∧ Crosses weightless ∧ Crosses wrapped :=
  ⟨⟨by decide +kernel, by decide +kernel, not_viewOf_filled _ _ _, by decide +kernel,
      by decide +kernel, by decide +kernel⟩,
    ⟨by decide +kernel, by decide +kernel, not_viewOf_filled _ _ _, by decide +kernel,
      by decide +kernel, by decide +kernel⟩,
    ⟨by decide +kernel, by decide +kernel, not_viewOf_filled _ _ _, by decide +kernel,
      by decide +kernel, by decide +kernel⟩⟩

theorem consistent_separate : separate.Consistent := by
  refine ⟨fun b d hd => ?_, by decide, by decide⟩
  have hroot : separate.plan.root b = b := rfl
  rw [hroot]
  refine ⟨.self, fun d src hd => ?_⟩
  have hmem := List.mem_of_getElem? hd
  simp only [separate, filled, List.mem_cons, List.not_mem_nil, or_false] at hmem
  rcases hmem with rfl | rfl | rfl <;> nofun

/-- In slots of their own the copy reads 1 from `left`. -/
theorem read_last_stored_separate :
    let start : Memory Single := .start separate [] (IdMap.empty.insert 0 (.zeros (.float [1]))) .empty
    separate.verify = .ok () ∧ separate.Consistent ∧
      (separate.runFrom start (separate.instructions.take 4)).2.read separate 1 =
        .ok (.floats ⟨[1], #[1], .inl rfl⟩) := by
  intro start
  have hverify : separate.verify = .ok () := by decide +kernel
  have hd : separate.buffer? 1 = some ⟨1, "left", .float [1], .activation⟩ := rfl
  have hrange : separate.plan.liveRanges.get? 1 = some ⟨0, 5⟩ := by decide
  have hrun : (separate.runFrom start (separate.instructions.take 4)).1 = .ok () := by decide +kernel
  refine ⟨hverify, consistent_separate, ?_⟩
  have hread := (Artifact.read_last_stored hverify consistent_separate hd rfl hrange [] _ .empty
    (k := 4) (by decide) (by decide) hrun).2 [] 1 (.floats #[1]) [(2, .floats #[⟨0x40000000⟩])]
  refine hread (by decide +kernel) .self fun w hw => ?_
  obtain rfl := List.mem_singleton.1 hw
  exact not_viewOf_filled _ _ _

end Sample

end TensorCompiler
