import TensorCompiler.Artifact.Plan
import TensorCompiler.Proofs.Lists
import TensorCompiler.Proofs.Maps

/-!
The assignment of arena slots. `fill` shares a slot only after its last activation has ended, and
`appendSlots` lays the slots one after the other (`Abutting`), so they are disjoint while the bytes of
all are counted by a word; `layout_laidOut` combines the two over all groups.
-/

namespace TensorCompiler.Plan

variable {reuse : Bool}

/-! ## One group -/

/-- The slots of `placed` for `members`, when `ends` are the ends of the slots already there: a slot
is taken only once it is free. -/
structure Filled (reuse : Bool) (ends : List Nat) (members : List (Nat × LiveRange))
    (placed : List (Nat × Nat)) (ends' : List Nat) : Prop where
  keys : placed.map (·.1) = members.map (·.1)
  grows : ends.length ≤ ends'.length
  bound : ∀ x ∈ placed, x.2 < ends'.length
  after : ∀ x ∈ members.zip placed, ∀ e, ends[x.2.2]? = some e → reuse = true ∧ e < x.1.2.start
  apart : (members.zip placed).Pairwise fun x y =>
    x.2.2 = y.2.2 → reuse = true ∧ x.1.2.stop < y.1.2.start

/-- The next activation takes a free slot. -/
theorem Filled.free {ends ends' : List Nat} {b i e : Nat} {r : LiveRange}
    {members : List (Nat × LiveRange)} {placed : List (Nat × Nat)} (hi : ends[i]? = some e)
    (he : e < r.start) (hr : r.start ≤ r.stop)
    (h : Filled true (ends.set i r.stop) members placed ends') :
    Filled true ends ((b, r) :: members) ((b, i) :: placed) ends' := by
  have hlt : i < ends.length := (List.getElem?_eq_some_iff.1 hi).1
  have hgrows : ends.length ≤ ends'.length := by simpa using h.grows
  have hset : (ends.set i r.stop)[i]? = some r.stop := List.getElem?_set_self hlt
  refine ⟨by simp [h.keys], hgrows, ?_, ?_, ?_⟩
  · rintro x (_ | ⟨_, hx⟩)
    · exact Nat.lt_of_lt_of_le hlt hgrows
    · exact h.bound x hx
  · rintro x (_ | ⟨_, hx⟩) e' he'
    · obtain rfl := Option.some.inj (hi.symm.trans he')
      exact ⟨rfl, he⟩
    · by_cases hxi : i = x.2.2
      · have hafter := (h.after x hx r.stop (hxi ▸ hset)).2
        obtain rfl := Option.some.inj (hi.symm.trans (hxi ▸ he'))
        exact ⟨rfl, by omega⟩
      · exact h.after x hx e' (by rw [List.getElem?_set_ne hxi, he'])
  · refine List.pairwise_cons.2 ⟨fun x hx hxi => ?_, h.apart⟩
    exact h.after x hx r.stop (by rw [← show i = x.2.2 from hxi, hset])

/-- The next activation takes a new slot. -/
theorem Filled.fresh {ends ends' : List Nat} {b : Nat} {r : LiveRange}
    {members : List (Nat × LiveRange)} {placed : List (Nat × Nat)}
    (h : Filled reuse (ends ++ [r.stop]) members placed ends') :
    Filled reuse ends ((b, r) :: members) ((b, ends.length) :: placed) ends' := by
  have hgrows : ends.length + 1 ≤ ends'.length := by simpa using h.grows
  refine ⟨by simp [h.keys], by omega, ?_, ?_, ?_⟩
  · rintro x (_ | ⟨_, hx⟩)
    · exact hgrows
    · exact h.bound x hx
  · rintro x (_ | ⟨_, hx⟩) e he
    · simp at he
    · refine h.after x hx e ?_
      rw [List.getElem?_append_left (List.getElem?_eq_some_iff.1 he).1, he]
  · refine List.pairwise_cons.2 ⟨fun x hx hxi => ?_, h.apart⟩
    refine h.after x hx r.stop ?_
    rw [← show ends.length = x.2.2 from hxi, getElem?_snoc, if_pos rfl]

/-- Every placement belongs to a member. -/
theorem Filled.exists_member {ends ends' : List Nat} {members : List (Nat × LiveRange)}
    {placed : List (Nat × Nat)} (h : Filled reuse ends members placed ends') {x : Nat × Nat}
    (hx : x ∈ placed) : ∃ m, m.1 = x.1 ∧ (m, x) ∈ members.zip placed := by
  obtain ⟨k, hk, rfl⟩ := List.mem_iff_getElem.1 hx
  have hlen : placed.length = members.length := by simpa using congrArg List.length h.keys
  have hk' : k < members.length := hlen ▸ hk
  refine ⟨members[k], ?_, List.mem_iff_getElem.2 ⟨k, by simp; omega, by simp⟩⟩
  have hkeys := congrArg (·[k]?) h.keys
  simpa [hk, hk'] using hkeys.symm

theorem fill_filled (reuse : Bool) (members : List (Nat × LiveRange)) (ends : List Nat)
    (hmembers : ∀ m ∈ members, m.2.start ≤ m.2.stop) :
    Filled reuse ends members (fill reuse ends members).1 (fill reuse ends members).2 := by
  induction members generalizing ends with
  | nil =>
    refine ⟨rfl, Nat.le_refl _, ?_, ?_, .nil⟩
    · rintro x ⟨⟩
    · rintro x ⟨⟩
  | cons m members ih =>
    obtain ⟨b, r⟩ := m
    have hrest := fun x hx => hmembers x (List.mem_cons_of_mem _ hx)
    unfold fill
    split
    · next i hfree =>
      split at hfree
      · next hreuse =>
        obtain ⟨hlt, hfree⟩ := List.findIdx?_eq_some_iff_getElem.1 hfree
        subst hreuse
        exact (ih _ hrest).free (List.getElem?_eq_getElem hlt) (by simpa using hfree.1)
          (hmembers _ List.mem_cons_self)
      · cases hfree
    · exact (ih _ hrest).fresh

/-! ## The arena -/

/-- The bytes that the elements of the slots take together. -/
def bytesOf : List Slot → Nat
  | [] => 0
  | s :: slots => s.len * s.kind.bytes + bytesOf slots

theorem bytesOf_append (slots new : List Slot) :
    bytesOf (slots ++ new) = bytesOf slots + bytesOf new := by
  induction slots with
  | nil => exact (Nat.zero_add _).symm
  | cons s slots ih => rw [List.cons_append, bytesOf, bytesOf, ih, Nat.add_assoc]

theorem bytesOf_take_le (slots : List Slot) (i : Nat) : bytesOf (slots.take i) ≤ bytesOf slots := by
  have hsplit := bytesOf_append (slots.take i) (slots.drop i)
  rw [List.take_append_drop] at hsplit
  exact hsplit ▸ Nat.le_add_right ..

/-- Every slot starts where the slots before it end, and has the bytes of its elements, as words have
these sizes. -/
def Abutting (slots : List Slot) : Prop :=
  ∀ i s, slots[i]? = some s → s.id = i ∧ s.offset = Word.wrap (bytesOf (slots.take i)) ∧
    s.bytes = Word.wrap (s.len * s.kind.bytes)

namespace Abutting

variable {slots : List Slot}

/-- The last slot ends after the bytes of all. -/
theorem stop_eq (h : Abutting slots) :
    (slots.getLast?.map Slot.stop).getD 0 = Word.wrap (bytesOf slots) := by
  rcases List.eq_nil_or_concat slots with rfl | ⟨init, s, hlast⟩
  · rfl
  · obtain rfl : slots = init ++ [s] := hlast.trans List.concat_eq_append
    have hs : (init ++ [s])[init.length]? = some s := by simp
    obtain ⟨-, hoffset, hbytes⟩ := h _ s hs
    rw [List.take_left] at hoffset
    rw [List.getLast?_concat, Option.map_some, Option.getD_some, Slot.stop, hoffset, hbytes,
      Word.wrap_add_wrap, Nat.add_comm, Word.wrap_add_wrap, Nat.add_comm, bytesOf_append]
    rfl

/-- While the bytes of all slots are counted by a word, a slot lies between the bytes of the slots
before it and those with its own. -/
theorem exact (h : Abutting slots) (hbytes : bytesOf slots < Word.size) {i : Nat} {s : Slot}
    (hs : slots[i]? = some s) : s.offset = bytesOf (slots.take i) ∧
      s.bytes = s.len * s.kind.bytes ∧ s.offset + s.bytes = bytesOf (slots.take (i + 1)) := by
  obtain ⟨-, hoffset, hsize⟩ := h i s hs
  have hnext : bytesOf (slots.take (i + 1)) =
      bytesOf (slots.take i) + s.len * s.kind.bytes := by
    rw [List.take_add_one, hs, Option.toList_some, bytesOf_append]
    rfl
  have hle := bytesOf_take_le slots (i + 1)
  rw [Word.wrap_of_lt (by omega)] at hoffset hsize
  exact ⟨hoffset, hsize, by rw [hoffset, hsize, hnext]⟩

theorem disjoint (h : Abutting slots) (hbytes : bytesOf slots < Word.size) {i j : Nat} {s t : Slot}
    (hs : slots[i]? = some s) (ht : slots[j]? = some t) (hne : i ≠ j) :
    s.stop ≤ t.offset ∨ t.stop ≤ s.offset := by
  have hle {i j : Nat} {s t : Slot} (hs : slots[i]? = some s) (ht : slots[j]? = some t)
      (hlt : i < j) : s.stop ≤ t.offset := by
    have htake := bytesOf_take_le (slots.take j) (i + 1)
    rw [List.take_take, Nat.min_eq_left hlt, ← (h.exact hbytes hs).2.2,
      ← (h.exact hbytes ht).1] at htake
    exact Nat.le_trans (Word.wrap_le _) htake
  rcases Nat.lt_or_gt_of_ne hne with hlt | hlt
  · exact .inl (hle hs ht hlt)
  · exact .inr (hle ht hs hlt)

end Abutting

/-- The slot of a group that comes after the slots already there. -/
def nextSlot (g : Group) (slots : List Slot) : Slot where
  id := slots.length
  kind := g.1
  len := g.2
  offset := (slots.getLast?.map Slot.stop).getD 0
  bytes := Word.wrap (g.2 * g.1.bytes)

theorem Abutting.snoc {slots : List Slot} (h : Abutting slots) (g : Group) :
    Abutting (slots ++ [nextSlot g slots]) := by
  intro i s hs
  rw [getElem?_snoc] at hs
  split at hs
  · next hi =>
    subst hi
    obtain rfl := Option.some.inj hs
    rw [List.take_left]
    exact ⟨rfl, h.stop_eq, rfl⟩
  · have hi := (List.getElem?_eq_some_iff.1 hs).1
    rw [List.take_append_of_le_length (Nat.le_of_lt hi)]
    exact h i s hs

theorem appendSlots_succ (g : Group) (count : Nat) (slots : List Slot) :
    appendSlots g (count + 1) slots =
      appendSlots g count slots ++ [nextSlot g (appendSlots g count slots)] := by
  rw [appendSlots, List.range_succ, List.foldl_append]
  rfl

theorem appendSlots_eq (g : Group) (count : Nat) {slots : List Slot} (h : Abutting slots) :
    ∃ new, appendSlots g count slots = slots ++ new ∧ new.length = count ∧
      (∀ s ∈ new, s.kind = g.1 ∧ s.len = g.2) ∧ Abutting (slots ++ new) := by
  induction count with
  | zero => exact ⟨[], by simp [appendSlots], rfl, by simp, by simpa using h⟩
  | succ count ih =>
    obtain ⟨new, heq, hlen, hnew, habutting⟩ := ih
    rw [appendSlots_succ, heq, List.append_assoc]
    refine ⟨_, rfl, by simp [hlen], fun s hs => ?_, ?_⟩
    · rcases List.mem_append.1 hs with hs | hs
      · exact hnew s hs
      · rw [List.mem_singleton.1 hs]
        exact ⟨rfl, rfl⟩
    · rw [← List.append_assoc]
      exact habutting.snoc g

/-! ## All groups -/

/-- The slots of the activations whose groups are in `gs`. -/
structure LaidOut (reuse : Bool) (buffers : List Buffer) (ranges : IdMap LiveRange)
    (gs : List Group) (slots : List Slot) (assigned : IdMap Nat) : Prop where
  abutting : Abutting slots
  total : ∀ {b : Nat} {r : LiveRange} {g : Group}, ranges.get? b = some r →
    groupOf buffers b = some g → g ∈ gs → ∃ i, assigned.get? b = some i
  slot : ∀ {b i : Nat}, assigned.get? b = some i → ∃ r s, ranges.get? b = some r ∧
    slots[i]? = some s ∧ groupOf buffers b = some (s.kind, s.len) ∧ (s.kind, s.len) ∈ gs
  apart : ∀ {b b' i : Nat} {r r' : LiveRange}, b ≠ b' → assigned.get? b = some i →
    assigned.get? b' = some i → ranges.get? b = some r → ranges.get? b' = some r' →
    reuse = true ∧ (r.stop < r'.start ∨ r'.stop < r.start)

variable {buffers : List Buffer} {ranges : IdMap LiveRange}

theorem mem_groups {b : Nat} {r : LiveRange} {g : Group} (hr : ranges.get? b = some r)
    (hg : groupOf buffers b = some g) : g ∈ groups buffers ranges := by
  refine List.mem_mergeSort.2 (List.mem_eraseDups.2 (List.mem_filterMap.2 ⟨b, ?_, hg⟩))
  exact List.mem_map.2 ⟨(b, r), (IdMap.get?_eq_some_iff _ _ _).1 hr, rfl⟩

theorem groups_nodup : (groups buffers ranges).Nodup :=
  (List.mergeSort_perm ..).nodup_iff.2 (nodup_eraseDups _)

theorem mem_members {g : Group} {x : Nat × LiveRange} : x ∈ members buffers ranges g ↔
    ranges.get? x.1 = some x.2 ∧ groupOf buffers x.1 = some g := by
  simp [members, List.mem_mergeSort, IdMap.get?_eq_some_iff]

theorem members_nodup (g : Group) : ((members buffers ranges g).map (·.1)).Nodup := by
  have hkeys : (ranges.entries.map (·.1)).Nodup :=
    List.pairwise_map.2 (ranges.ascending.imp Nat.ne_of_lt)
  have hperm : (members buffers ranges g).Perm
      (ranges.entries.filter fun x => groupOf buffers x.1 = some g) := List.mergeSort_perm ..
  exact (hperm.map _).nodup_iff.2 (hkeys.sublist (List.filter_sublist.map _))

theorem LaidOut.lt_length {gs : List Group} {slots : List Slot} {assigned : IdMap Nat}
    (h : LaidOut reuse buffers ranges gs slots assigned) {b i : Nat}
    (hi : assigned.get? b = some i) : i < slots.length := by
  obtain ⟨r, s, -, hs, -⟩ := h.slot hi
  exact (List.getElem?_eq_some_iff.1 hs).1

/-- What has been placed is an activation of the group. -/
theorem Filled.exists_range {g : Group} {placed : List (Nat × Nat)} {ends : List Nat}
    (h : Filled reuse [] (members buffers ranges g) placed ends) {x : Nat × Nat} (hx : x ∈ placed) :
    ∃ r, ranges.get? x.1 = some r ∧ groupOf buffers x.1 = some g ∧
      ((x.1, r), x) ∈ (members buffers ranges g).zip placed := by
  obtain ⟨⟨b, r⟩, rfl, hzip⟩ := h.exists_member hx
  obtain ⟨hr, hgroup⟩ := mem_members.1 (List.of_mem_zip hzip).1
  exact ⟨r, hr, hgroup, hzip⟩

/-- Two activations of a group in one slot are alive at different times. -/
theorem Filled.apart_of_slot {g : Group} {placed : List (Nat × Nat)} {ends : List Nat}
    (h : Filled reuse [] (members buffers ranges g) placed ends) {x y : Nat × Nat} (hx : x ∈ placed)
    (hy : y ∈ placed) (hne : x.1 ≠ y.1) (hslot : x.2 = y.2) {r r' : LiveRange}
    (hr : ranges.get? x.1 = some r) (hr' : ranges.get? y.1 = some r') :
    reuse = true ∧ (r.stop < r'.start ∨ r'.stop < r.start) := by
  obtain ⟨q, hq, -, hxzip⟩ := h.exists_range hx
  obtain ⟨q', hq', -, hyzip⟩ := h.exists_range hy
  obtain rfl := Option.some.inj (hr.symm.trans hq)
  obtain rfl := Option.some.inj (hr'.symm.trans hq')
  rcases pairwise_cases h.apart hxzip hyzip with heq | hlt | hlt
  · exact absurd (congrArg (·.2.1) heq) hne
  · exact (hlt hslot).imp_right .inl
  · exact (hlt hslot.symm).imp_right .inr

/-- Adding the slots of one more group. -/
theorem LaidOut.addGroup {gs : List Group} {slots : List Slot} {assigned : IdMap Nat}
    (h : LaidOut reuse buffers ranges gs slots assigned) {g : Group} (hg : g ∉ gs)
    {placed : List (Nat × Nat)} {ends : List Nat}
    (hplaced : Filled reuse [] (members buffers ranges g) placed ends) :
    LaidOut reuse buffers ranges (gs ++ [g]) (appendSlots g ends.length slots)
      (placed.foldl (fun m x => m.insert x.1 (slots.length + x.2)) assigned) := by
  obtain ⟨new, heq, hlen, hnew, habutting⟩ := appendSlots_eq g ends.length h.abutting
  rw [heq]
  have hnodup : placed.Pairwise fun x y => x.1 ≠ y.1 :=
    List.pairwise_map.1 (hplaced.keys ▸ members_nodup g)
  have hget (b j : Nat) := IdMap.get?_foldl_insert (slots.length + ·.2) hnodup assigned b j
  constructor
  case abutting => exact habutting
  case total =>
    intro b r g' hr hgroup hg'
    by_cases hb : ∃ x ∈ placed, x.1 = b
    · obtain ⟨x, hx, rfl⟩ := hb
      exact ⟨_, (hget _ _).2 (.inl ⟨x, hx, rfl, rfl⟩)⟩
    · rcases List.mem_append.1 hg' with hg' | hg'
      · obtain ⟨i, hi⟩ := h.total hr hgroup hg'
        exact ⟨i, (hget _ _).2 (.inr ⟨fun x hx hxb => hb ⟨x, hx, hxb⟩, hi⟩)⟩
      · obtain rfl := List.mem_singleton.1 hg'
        have hmem : b ∈ placed.map (·.1) :=
          hplaced.keys ▸ List.mem_map.2 ⟨(b, r), mem_members.2 ⟨hr, hgroup⟩, rfl⟩
        exact absurd (List.mem_map.1 hmem) hb
  case slot =>
    intro b i hi
    rcases (hget b i).1 hi with ⟨x, hx, rfl, rfl⟩ | ⟨-, hi⟩
    · obtain ⟨r, hr, hgroup, -⟩ := hplaced.exists_range hx
      have hlt : x.2 < new.length := hlen ▸ hplaced.bound x hx
      have hs := hnew _ (List.getElem_mem hlt)
      refine ⟨r, new[x.2], hr, ?_, ?_, ?_⟩
      · rw [List.getElem?_append_right (Nat.le_add_right ..), Nat.add_sub_cancel_left,
          List.getElem?_eq_getElem hlt]
      · rw [hgroup, hs.1, hs.2]
      · rw [hs.1, hs.2]
        exact List.mem_append_right _ (List.mem_singleton_self g)
    · obtain ⟨r, s, hr, hs, hgroup, hmem⟩ := h.slot hi
      refine ⟨r, s, hr, ?_, hgroup, List.mem_append_left _ hmem⟩
      rw [List.getElem?_append_left (List.getElem?_eq_some_iff.1 hs).1, hs]
  case apart =>
    intro b b' i r r' hne hi hi' hr hr'
    rcases (hget b i).1 hi with ⟨x, hx, rfl, rfl⟩ | ⟨-, hi⟩ <;>
      rcases (hget b' _).1 hi' with ⟨y, hy, rfl, hxy⟩ | ⟨-, hi'⟩
    · exact hplaced.apart_of_slot hx hy hne (Nat.add_left_cancel hxy).symm hr hr'
    · -- slots of the new group come after all others
      exact absurd (h.lt_length hi') (by omega)
    · exact absurd (h.lt_length hi) (by omega)
    · exact h.apart hne hi hi' hr hr'

theorem layout_fold
    (hranges : ∀ {b : Nat} {r : LiveRange}, ranges.get? b = some r → r.start ≤ r.stop)
    (gs : List Group) : ∀ {done : List Group} {slots : List Slot} {assigned : IdMap Nat},
      (done ++ gs).Nodup → LaidOut reuse buffers ranges done slots assigned →
      let result := gs.foldl (fun (slots, assigned) g =>
        let (placed, ends) := fill reuse [] (members buffers ranges g)
        (appendSlots g ends.length slots,
          placed.foldl (fun m (b, i) => m.insert b (slots.length + i)) assigned)) (slots, assigned)
      LaidOut reuse buffers ranges (done ++ gs) result.1 result.2 := by
  induction gs with
  | nil =>
    intro done slots assigned _ h
    simpa using h
  | cons g gs ih =>
    intro done slots assigned hnodup h
    have hg : g ∉ done := by
      intro hmem
      exact (List.nodup_append.1 hnodup).2.2 g hmem g List.mem_cons_self rfl
    have hfilled := fill_filled reuse (members buffers ranges g) [] fun m hm =>
      hranges (mem_members.1 hm).1
    have hnext := ih (by simpa using hnodup) (h.addGroup hg hfilled)
    simpa using hnext

/-- The layout of all activations: each has a slot of its kind and size, and two in one slot are
never alive together. -/
theorem layout_laidOut (reuse : Bool) (buffers : List Buffer)
    (hranges : ∀ {b : Nat} {r : LiveRange}, ranges.get? b = some r → r.start ≤ r.stop) :
    LaidOut reuse buffers ranges (groups buffers ranges) (layout reuse buffers ranges).1
      (layout reuse buffers ranges).2 := by
  have hempty : LaidOut reuse buffers ranges [] [] .empty := by
    constructor
    · simp [Abutting]
    all_goals simp
  exact layout_fold hranges _ groups_nodup hempty

end TensorCompiler.Plan
