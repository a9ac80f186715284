import TensorCompiler.Proofs.Plan.LiveRanges
import TensorCompiler.Proofs.Plan.Slots

/-!
The plan of a stream with bracketed activations over buffers whose views are rooted. `make_planned`
says that it exists and what it holds, and `Planned.verify_ok` that it passes its own check while a word
counts the bytes of the arena.
-/

namespace TensorCompiler.Plan

variable {buffers : List Buffer} {roots : IdMap Nat}

/-! ## Views -/

/-- `roots` has the root of every view, which is declared after its source, and nothing else. -/
structure Rooted (buffers : List Buffer) (roots : IdMap Nat) : Prop where
  ids : ∀ {b : Nat} {d : Buffer}, buffers[b]? = some d → d.id = b
  rooted : ∀ {b src : Nat} {d : Buffer}, buffers[b]? = some d → d.kind = .view src →
    src < b ∧ roots.get? b = some ((roots.get? src).getD src)
  unrooted : ∀ {b : Nat}, (∀ {d : Buffer} {src : Nat}, buffers[b]? = some d →
    d.kind ≠ .view src) → roots.get? b = none

theorem Rooted.get?_of_base (h : Rooted buffers roots) {b : Nat} {d : Buffer}
    (hd : buffers[b]? = some d) (hbase : ∀ src, d.kind ≠ .view src) : roots.get? b = none :=
  h.unrooted fun {_ src} hd' => Option.some.inj (hd.symm.trans hd') ▸ hbase src

theorem Rooted.get?_of_activation (h : Rooted buffers roots) {b : Nat} {d : Buffer}
    (hd : buffers[b]? = some d) (hactivation : d.isActivation = true) : roots.get? b = none :=
  h.get?_of_base hd fun src hkind => by simp [Buffer.isActivation, hkind] at hactivation

theorem Rooted.root_le (h : Rooted buffers roots) (b : Nat) : (roots.get? b).getD b ≤ b := by
  induction b using Nat.strongRecOn with
  | ind b ih =>
    by_cases hview : ∃ d src, buffers[b]? = some d ∧ d.kind = .view src
    · obtain ⟨d, src, hd, hkind⟩ := hview
      obtain ⟨hlt, hroot⟩ := h.rooted hd hkind
      rw [hroot, Option.getD_some]
      exact Nat.le_trans (ih src hlt) (Nat.le_of_lt hlt)
    · rw [h.unrooted fun hd hkind => hview ⟨_, _, hd, hkind⟩]
      exact Nat.le_refl b

/-- The roots of the buffers before `k` are known, and no others. -/
def KnownBelow (roots : IdMap Nat) (k : Nat) (known : IdMap Nat) : Prop :=
  ∀ b, known.get? b = if b < k then roots.get? b else none

/-- A buffer that is no view has no root, so the known roots already cover it. -/
theorem KnownBelow.skip {roots known : IdMap Nat} {k : Nat} (h : KnownBelow roots k known)
    (hnone : roots.get? k = none) : KnownBelow roots (k + 1) known := by
  intro b
  rw [h]
  by_cases hb : b = k
  · subst hb
    simp [hnone]
  · simp only [Nat.lt_succ_iff_lt_or_eq, hb, or_false]

theorem KnownBelow.insert {roots known : IdMap Nat} {k root : Nat} (h : KnownBelow roots k known)
    (hroot : roots.get? k = some root) : KnownBelow roots (k + 1) (known.insert k root) := by
  intro b
  rw [IdMap.get?_insert, h]
  by_cases hb : b = k
  · subst hb
    simp [hroot]
  · simp only [Nat.lt_succ_iff_lt_or_eq, hb, or_false, Ne.symm hb, if_false]

/-- The fold over the buffers from `k` on, when the roots of those before are known. -/
theorem viewRoots_fold (h : Rooted buffers roots) (rest : List Buffer) :
    ∀ {k : Nat} {known : IdMap Nat}, buffers.drop k = rest → k ≤ buffers.length →
      KnownBelow roots k known →
      rest.foldlM (fun roots b =>
        match b.kind with
        | .view source =>
          let root := (roots.get? source).getD source
          if root < buffers.length then Except.ok (roots.insert b.id root)
          else .error (PlanFault.unknownBuffer root)
        | _ => .ok roots) known = .ok roots := by
  induction rest with
  | nil =>
    intro k known hrest hk hknown
    obtain rfl := Nat.le_antisymm hk (List.drop_eq_nil_iff.1 hrest)
    refine congrArg Except.ok (IdMap.ext_get? fun b => ?_)
    rw [hknown]
    split
    · rfl
    · next hb =>
      refine (h.unrooted fun hd => ?_).symm
      exact absurd (List.getElem?_eq_some_iff.1 hd).1 hb
  | cons d rest ih =>
    intro k known hrest hk hknown
    obtain ⟨hd, hrest'⟩ := getElem?_of_drop hrest
    have hlt := (List.getElem?_eq_some_iff.1 hd).1
    have hskip (hkind : ∀ src, d.kind ≠ .view src) : KnownBelow roots (k + 1) known :=
      hknown.skip (h.get?_of_base hd hkind)
    rw [List.foldlM_cons]
    cases hkind : d.kind with
    | view src =>
      obtain ⟨hsrc, hroot⟩ := h.rooted hd hkind
      have hsource : known.get? src = roots.get? src := by rw [hknown, if_pos hsrc]
      have hbound : (roots.get? src).getD src < buffers.length :=
        Nat.lt_of_le_of_lt (h.root_le src) (Nat.lt_trans hsrc hlt)
      refine bind_ok_iff.2 ⟨known.insert k ((roots.get? src).getD src), ?_,
        ih hrest' hlt (hknown.insert hroot)⟩
      simp only [hsource, if_pos hbound, h.ids hd]
    | weight ref => exact ih hrest' hlt (hskip (by simp [hkind]))
    | activation => exact ih hrest' hlt (hskip (by simp [hkind]))
    | state => exact ih hrest' hlt (hskip (by simp [hkind]))

theorem viewRootsOf_of_rooted (h : Rooted buffers roots) : viewRootsOf buffers = .ok roots :=
  viewRoots_fold h buffers rfl (Nat.zero_le _) fun b => by simp

/-- A view gets the slot of its root, if that has one. -/
def addView (m : IdMap Nat) (x : Nat × Nat) : IdMap Nat :=
  match m.get? x.2 with
  | some slot => m.insert x.1 slot
  | none => m

/-- The slots of activations, with those of their views. -/
def withViews (roots assigned : IdMap Nat) : IdMap Nat := roots.entries.foldl addView assigned

/-- The slots of views are added after those of activations, which they leave. -/
theorem get?_addViews {entries : List (Nat × Nat)} {b : Nat} (hb : ∀ x ∈ entries, x.1 ≠ b)
    (m : IdMap Nat) : (entries.foldl addView m).get? b = m.get? b := by
  induction entries generalizing m with
  | nil => rfl
  | cons x entries ih =>
    rw [List.foldl_cons, ih fun y hy => hb y (List.mem_cons_of_mem _ hy), addView]
    split
    · exact (IdMap.get?_insert ..).trans (if_neg (hb x List.mem_cons_self))
    · rfl

theorem get?_withViews_of_base {b : Nat} (hb : roots.get? b = none) (assigned : IdMap Nat) :
    (withViews roots assigned).get? b = assigned.get? b := by
  refine get?_addViews (fun x hx heq => ?_) assigned
  have hroot := (IdMap.get?_eq_some_iff roots x.1 x.2).2 hx
  rw [heq, hb] at hroot
  cases hroot

/-! ## The plan -/

/-- What the plan `p` of the stream `xs` holds. -/
structure Planned (reuse : Bool) (buffers : List Buffer) (roots : IdMap Nat)
    (xs : List Instruction) (p : Plan) : Prop where
  liveRanges : liveRangesOf buffers xs = .ok p.liveRanges
  range_iff : ∀ {b : Nat} {r : LiveRange}, p.liveRanges.get? b = some r ↔
    Marks xs .alloc r.start b ∧ Marks xs .dealloc r.stop b
  viewRoots : p.viewRoots = roots
  slot : ∀ {b : Nat} {r : LiveRange} {d : Buffer}, p.liveRanges.get? b = some r →
    buffers[b]? = some d → ∃ i s, p.assignments.get? b = some i ∧ p.slots[i]? = some s ∧
      s.kind = d.type.kind ∧ s.len = d.type.volume
  apart : ∀ {b b' i : Nat} {r r' : LiveRange}, b ≠ b' → p.liveRanges.get? b = some r →
    p.liveRanges.get? b' = some r' → p.assignments.get? b = some i →
    p.assignments.get? b' = some i → reuse = true ∧ (r.stop < r'.start ∨ r'.stop < r.start)
  abutting : Abutting p.slots

variable {reuse : Bool} {xs : List Instruction}

/-- What a plan is made of. -/
theorem make_ok_iff {p : Plan} : make reuse buffers xs = .ok p ↔
    liveRangesOf buffers xs = .ok p.liveRanges ∧ viewRootsOf buffers = .ok p.viewRoots ∧
    p.slots = (layout reuse buffers p.liveRanges).1 ∧
    p.totalBytes = (p.slots.getLast?.map Slot.stop).getD 0 ∧
    p.assignments = withViews p.viewRoots (layout reuse buffers p.liveRanges).2 := by
  constructor
  · intro h
    obtain ⟨ranges, hranges, h⟩ := bind_ok_iff.1 h
    obtain ⟨roots, hroots, h⟩ := bind_ok_iff.1 h
    obtain rfl := pure_ok_iff.1 h
    exact ⟨hranges, hroots, rfl, rfl, rfl⟩
  · rintro ⟨hranges, hroots, hslots, htotal, hassignments⟩
    obtain ⟨ranges, assignments, roots, slots, total⟩ := p
    simp only at hranges hroots hslots htotal hassignments
    subst hslots htotal hassignments
    exact bind_ok_iff.2 ⟨_, hranges, bind_ok_iff.2 ⟨_, hroots, rfl⟩⟩

theorem make_planned (reuse : Bool) (hb : Bracketed buffers xs) (hr : Rooted buffers roots) :
    ∃ p, make reuse buffers xs = .ok p ∧ Planned reuse buffers roots xs p := by
  obtain ⟨ranges, hranges, hrange⟩ := liveRangesOf_of_bracketed hb
  have hlaid := layout_laidOut reuse buffers fun h => hb.start_le_stop ((hrange _ _).1 h)
  have hassigned {b : Nat} {r : LiveRange} (h : ranges.get? b = some r) :
      (withViews roots (layout reuse buffers ranges).2).get? b =
        (layout reuse buffers ranges).2.get? b := by
    obtain ⟨d, hd, hactivation⟩ := hb.declared ((hrange b r).1 h).1
    exact get?_withViews_of_base (hr.get?_of_activation hd hactivation) _
  have hmake : make reuse buffers xs = .ok {
      liveRanges := ranges
      viewRoots := roots
      slots := (layout reuse buffers ranges).1
      totalBytes := ((layout reuse buffers ranges).1.getLast?.map Slot.stop).getD 0
      assignments := withViews roots (layout reuse buffers ranges).2 } :=
    make_ok_iff.2 ⟨hranges, viewRootsOf_of_rooted hr, rfl, rfl, rfl⟩
  refine ⟨_, hmake, hranges, fun {b r} => hrange b r, rfl, ?_, ?_, hlaid.abutting⟩
  · intro b r d h hd
    have hgroup : groupOf buffers b = some (d.type.kind, d.type.volume) := by simp [groupOf, hd]
    obtain ⟨i, hi⟩ := hlaid.total h hgroup (mem_groups h hgroup)
    obtain ⟨_, s, -, hs, hgroup', -⟩ := hlaid.slot hi
    obtain ⟨hkind, hlen⟩ := Prod.mk.inj (Option.some.inj (hgroup.symm.trans hgroup'))
    exact ⟨i, s, (hassigned h).trans hi, hs, hkind.symm, hlen.symm⟩
  · intro b b' i r r' hne h h' hi hi'
    exact hlaid.apart hne ((hassigned h).symm.trans hi) ((hassigned h').symm.trans hi') h h'

/-! ## Its check -/

theorem firstCollision_eq_none {l : List Placement}
    (h : l.Pairwise fun a b => a.collides b = false) : firstCollision l = none := by
  induction h with
  | nil => rfl
  | @cons a l ha _ ih =>
    have hfind : l.find? a.collides = none :=
      List.find?_eq_none.2 fun b hb => by simp [ha b hb]
    unfold firstCollision
    rw [hfind, ih]

/-- Placements of different activations do not collide. -/
theorem Planned.collides_eq_false {p : Plan} (h : Planned reuse buffers roots xs p)
    (hbytes : bytesOf p.slots < Word.size) {b b' : Nat} {r r' : LiveRange} {s s' : Slot} (hne : b ≠ b')
    (hr : p.liveRanges.get? b = some r) (hr' : p.liveRanges.get? b' = some r')
    (hs : p.slotOf b = some s) (hs' : p.slotOf b' = some s') :
    Placement.collides ⟨b, r, s⟩ ⟨b', r', s'⟩ = false := by
  obtain ⟨i, hi, hs⟩ := Option.bind_eq_some_iff.1 hs
  obtain ⟨j, hj, hs'⟩ := Option.bind_eq_some_iff.1 hs'
  by_cases hij : i = j
  · subst hij
    have hapart := (h.apart hne hr hr' hi hj).2
    simp only [Placement.collides, LiveRange.overlaps, Bool.and_eq_false_iff, decide_eq_false_iff_not]
    omega
  · have hdisjoint := h.abutting.disjoint hbytes hs hs' hij
    simp only [Placement.collides, Bool.and_eq_false_iff, decide_eq_false_iff_not]
    omega

theorem Planned.verify_ok {p : Plan} (h : Planned reuse buffers roots xs p)
    (hb : Bracketed buffers xs) (hbytes : bytesOf p.slots < Word.size) : p.verify = .ok () := by
  have hslot : ∀ x ∈ p.liveRanges.entries, ∃ s, p.slotOf x.1 = some s := by
    intro x hx
    have hr := (IdMap.get?_eq_some_iff _ _ _).2 hx
    obtain ⟨d, hd, -⟩ := hb.declared (h.range_iff.1 hr).1
    obtain ⟨i, s, hi, hs, -⟩ := h.slot hr hd
    exact ⟨s, Option.bind_eq_some_iff.2 ⟨i, hi, hs⟩⟩
  have hlength : p.placements.length = p.liveRanges.size := by
    refine List.filterMap_length_eq_length.2 fun x hx => ?_
    obtain ⟨s, hs⟩ := hslot x hx
    simp [hs]
  have hpairwise : p.placements.Pairwise fun a b => a.collides b = false := by
    refine List.pairwise_filterMap.2 (p.liveRanges.ascending.imp_of_mem fun {x y} hx hy hlt => ?_)
    intro a ha a' ha'
    obtain ⟨s, hs, rfl⟩ := Option.map_eq_some_iff.1 ha
    obtain ⟨s', hs', rfl⟩ := Option.map_eq_some_iff.1 ha'
    exact h.collides_eq_false hbytes (Nat.ne_of_lt hlt) ((IdMap.get?_eq_some_iff _ _ _).2 hx)
      ((IdMap.get?_eq_some_iff _ _ _).2 hy) hs hs'
  unfold verify
  rw [if_neg (by simp [hlength]), firstCollision_eq_none hpairwise]

/-! ## Plans without sorting -/

theorem layout_of_empty (reuse : Bool) : layout reuse buffers .empty = ([], .empty) := by
  have hgroups : groups buffers .empty = [] := List.mergeSort_nil
  rw [layout, hgroups]
  rfl

/-- Activations of one group that come alive in order of their buffers get slots in that order. -/
theorem layout_of_group {ranges : IdMap LiveRange} {g : Group} (reuse : Bool)
    (hgroup : (ranges.keys.filterMap (groupOf buffers)).eraseDups = [g])
    (hall : (ranges.entries.filter fun (b, _) => groupOf buffers b = some g) = ranges.entries)
    (hsorted : ranges.entries.Pairwise fun x y =>
      (x.2.start < y.2.start || (x.2.start == y.2.start && x.1 ≤ y.1)) = true) :
    layout reuse buffers ranges = (appendSlots g (fill reuse [] ranges.entries).2.length [],
      (fill reuse [] ranges.entries).1.foldl (fun m (b, i) => m.insert b (0 + i)) .empty) := by
  have hgroups : groups buffers ranges = [g] := by
    rw [groups, hgroup]
    exact List.mergeSort_singleton g
  have hmembers : members buffers ranges g = ranges.entries := by
    rw [members, hall]
    exact List.mergeSort_of_pairwise hsorted
  simp only [layout, hgroups, List.foldl, hmembers, List.length_nil]

/-- The plan of a stream without views, from its layout. -/
theorem make_of_layout {xs : List Instruction} {p : Plan} (reuse : Bool)
    (hranges : liveRangesOf buffers xs = .ok p.liveRanges)
    (hroots : viewRootsOf buffers = .ok p.viewRoots) (hviews : p.viewRoots = .empty)
    (hlayout : layout reuse buffers p.liveRanges = (p.slots, p.assignments))
    (htotal : p.totalBytes = (p.slots.getLast?.map Slot.stop).getD 0) :
    make reuse buffers xs = .ok p := by
  refine make_ok_iff.2 ⟨hranges, hroots, by rw [hlayout], htotal, ?_⟩
  rw [hlayout, hviews]
  rfl

end TensorCompiler.Plan
