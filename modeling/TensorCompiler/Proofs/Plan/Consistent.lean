import TensorCompiler.Artifact.Basic
import TensorCompiler.Proofs.Plan.Make

/-!
What `Artifact.verify` checks, and what it takes for granted: that the plan roots every buffer where
the declarations do, that the bytes of a slot are those of its elements, and that words count them
(`Artifact.Consistent`).
-/

namespace TensorCompiler

namespace Plan

variable {p : Plan}

theorem Placement.collides_symm {x y : Placement} (h : x.collides y = false) :
    y.collides x = false := by
  simp only [collides, LiveRange.overlaps, Bool.and_eq_false_iff, decide_eq_false_iff_not] at h ⊢
  tauto

theorem pairwise_of_firstCollision {l : List Placement} (h : firstCollision l = none) :
    l.Pairwise fun x y => x.collides y = false := by
  induction l with
  | nil => exact .nil
  | cons x l ih =>
    unfold firstCollision at h
    split at h
    · cases h
    · next hfind => exact .cons (fun y hy => by simpa using List.find?_eq_none.1 hfind y hy) (ih h)

theorem verify_ok_iff : p.verify = .ok () ↔
    p.placements.length = p.liveRanges.size ∧ firstCollision p.placements = none := by
  unfold verify
  split
  · next hlength => simp [hlength]
  · next hlength => split <;> simp_all

/-- A verified plan has a slot for every live range. -/
theorem exists_slotOf (h : p.verify = .ok ()) {b : Nat} {range : LiveRange}
    (hb : p.liveRanges.get? b = some range) : ∃ slot, p.slotOf b = some slot := by
  have hplaced := List.filterMap_length_eq_length.1 (verify_ok_iff.1 h).1 _
    ((IdMap.get?_eq_some_iff _ _ _).1 hb)
  simpa [Option.isSome_iff_exists] using hplaced

/-- Activations of a verified plan that are alive together share no bytes. -/
theorem collides_of_verify (h : p.verify = .ok ()) {b b' : Nat} {range range' : LiveRange}
    {slot slot' : Slot} (hne : b ≠ b') (hb : p.liveRanges.get? b = some range)
    (hb' : p.liveRanges.get? b' = some range') (hslot : p.slotOf b = some slot)
    (hslot' : p.slotOf b' = some slot') :
    Placement.collides ⟨b, range, slot⟩ ⟨b', range', slot'⟩ = false := by
  have hmem {b : Nat} {range : LiveRange} {slot : Slot} (hb : p.liveRanges.get? b = some range)
      (hslot : p.slotOf b = some slot) : (⟨b, range, slot⟩ : Placement) ∈ p.placements :=
    List.mem_filterMap.2 ⟨_, (IdMap.get?_eq_some_iff _ _ _).1 hb, by simp [hslot]⟩
  rcases pairwise_cases (pairwise_of_firstCollision (verify_ok_iff.1 h).2) (hmem hb hslot)
    (hmem hb' hslot') with heq | hno | hno
  · exact absurd (congrArg Placement.buffer heq) hne
  · exact hno
  · exact Placement.collides_symm hno

end Plan

namespace Artifact

/-- What the check of an artifact says of it. -/
structure Verified (a : Artifact) : Prop where
  positions : ∀ {b : Nat} {d : Buffer}, a.buffer? b = some d → d.id = b
  allocated : ∀ {b : Nat} {d : Buffer}, a.buffer? b = some d → d.kind = .activation →
    ∃ range, a.plan.liveRanges.get? b = some range
  covered : ∀ {q : Nat} {x : Instruction} {b : Nat} {range : LiveRange},
    a.instructions[q]? = some x → x.op.isMarker = false → b ∈ x.buffers →
    a.plan.liveRanges.get? (a.plan.root b) = some range → range.covers q = true
  plan : a.plan.verify = .ok ()

variable {a : Artifact}

theorem verified_of_verify (h : a.verify = .ok ()) : a.Verified := by
  obtain ⟨hpositions, h⟩ := check_bind_ok_iff.1 h
  obtain ⟨-, h⟩ := check_bind_ok_iff.1 h
  obtain ⟨ranges, -, h⟩ := bind_ok_iff.1 h
  split at h
  · cases h
  · next hfresh =>
    obtain ⟨hallocated, h⟩ := check_bind_ok_iff.1 h
    obtain ⟨hcovered, hplan⟩ := check_bind_ok_iff.1 h
    obtain rfl : ranges = a.plan.liveRanges := by simpa using hfresh
    have hid {b : Nat} {d : Buffer} (hd : a.buffer? b = some d) : d.id = b := by
      simpa using (forM_ok_iff _ _).1 hpositions (d, b) (List.mem_zipIdx_iff_getElem?.2 hd)
    refine ⟨hid, fun {b d} hd hkind => ?_, fun {q x b range} hx hmarker hb hrange => ?_,
      mapError_ok_iff.1 hplan⟩
    · have hd' := (forM_ok_iff _ _).1 hallocated d (List.mem_of_getElem? hd)
      simpa [Buffer.isActivation, hkind, hid hd] using hd'
    · have hq : a.checkAccesses a.plan.liveRanges q x = .ok () :=
        (forM_ok_iff _ _).1 hcovered (x, q) (List.mem_zipIdx_iff_getElem?.2 hx)
      obtain ⟨o, ho, rfl⟩ := List.mem_map.1 hb
      unfold checkAccesses at hq
      rw [if_neg (by simp [hmarker])] at hq
      simpa [hrange] using (forM_ok_iff _ _).1 hq o ho

/-! ## Views -/

/-- As the buffers are declared, `b` is `r` or a view of it. -/
inductive ViewOf (a : Artifact) (r : Nat) : Nat → Prop
  | self : ViewOf a r r
  | view {b src : Nat} {d : Buffer} : a.buffer? b = some d → d.kind = .view src →
      ViewOf a r src → ViewOf a r b

/-- The buffer is declared as no view. -/
def Base (a : Artifact) (r : Nat) : Prop :=
  ∀ d src, a.buffer? r = some d → d.kind ≠ .view src

theorem ViewOf.of_base {r b : Nat} (h : a.ViewOf r b) (hb : a.Base b) : b = r := by
  cases h with
  | self => rfl
  | view hd hkind => exact absurd hkind (hb _ _ hd)

/-- A chain of views ends in one buffer. -/
theorem ViewOf.unique {r r' b : Nat} (h : a.ViewOf r b) (h' : a.ViewOf r' b) (hr : a.Base r)
    (hr' : a.Base r') : r = r' := by
  induction h with
  | self => exact h'.of_base hr
  | view hd hkind _ ih =>
    cases h' with
    | self => exact absurd hkind (hr' _ _ hd)
    | view hd' hkind' hsrc =>
      obtain rfl := Option.some.inj (hd.symm.trans hd')
      obtain rfl := BufferKind.view.inj (hkind.symm.trans hkind')
      exact ih hsrc

/-- The root of every buffer is the end of its chain of views. -/
def RootsDeclared (a : Artifact) : Prop :=
  ∀ (b : Nat) (d : Buffer), a.buffer? b = some d →
    a.ViewOf (a.plan.root b) b ∧ a.Base (a.plan.root b)

/-- The plan roots a buffer at an activation exactly if it is declared as a view of it. -/
theorem RootsDeclared.root_eq_iff (h : a.RootsDeclared) {b r : Nat} {d : Buffer}
    (hb : a.buffer? b = some d) (hr : a.Base r) : a.plan.root b = r ↔ a.ViewOf r b := by
  obtain ⟨hview, hbase⟩ := h _ _ hb
  exact ⟨fun heq => heq ▸ hview, fun hview' => hview.unique hview' hbase hr⟩

/-- The plan agrees with the declarations where the check of an artifact does not compare the two:
buffers are rooted as they are declared, and a slot has the bytes of its elements. It ends where a
word can say. -/
structure Consistent (a : Artifact) : Prop where
  roots : a.RootsDeclared
  bytes : ∀ slot ∈ a.plan.slots, slot.bytes = slot.len * slot.kind.bytes
  stops : ∀ slot ∈ a.plan.slots, slot.offset + slot.bytes < Word.size

theorem base_of_activation {r : Nat} {d : Buffer} (hd : a.buffer? r = some d)
    (hkind : d.kind = .activation) : a.Base r := by
  intro d' src hd' hview
  obtain rfl := Option.some.inj (hd.symm.trans hd')
  exact absurd (hkind.symm.trans hview) nofun

end Artifact

end TensorCompiler
