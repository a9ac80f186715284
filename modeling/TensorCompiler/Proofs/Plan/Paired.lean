import TensorCompiler.Proofs.Plan.LiveRanges

/-!
The streams that have live ranges. The scan of the markers succeeds on no other streams than the
bracketed ones (`liveRangesOf_ok_iff`); `Recorded` is what it knows of a stream when it has come to a
position without a fault. `Paired` says of a stream that it is bracketed marker by marker.
-/

namespace TensorCompiler.Plan

/-- Every marker names a declared activation by its first operand, and a buffer that a marker names is
allocated once and deallocated once, later. -/
structure Paired (buffers : List Buffer) (xs : List Instruction) : Prop where
  declared : ∀ {op : Opcode} {k b : Nat}, op.isMarker = true → Marks xs op k b →
    ∃ d, buffers[b]? = some d ∧ d.isActivation = true
  once : ∀ {op : Opcode} {k b : Nat}, op.isMarker = true → Marks xs op k b → ∃ p q, p < q ∧
    (∀ j, Marks xs .alloc j b ↔ j = p) ∧ ∀ j, Marks xs .dealloc j b ↔ j = q

variable {buffers : List Buffer} {xs : List Instruction}

theorem Bracketed.paired (h : Bracketed buffers xs) : Paired buffers xs := by
  have hallocated {op : Opcode} {k b : Nat} (hop : op.isMarker = true) (hk : Marks xs op k b) :
      ∃ p, Marks xs .alloc p b := by
    cases op with
    | alloc => exact ⟨k, hk⟩
    | dealloc =>
      obtain ⟨p, -, hp⟩ := h.opened hk
      exact ⟨p, hp⟩
    | _ => cases hop
  refine ⟨fun hop hk => ?_, fun hop hk => ?_⟩
  · obtain ⟨p, hp⟩ := hallocated hop hk
    exact h.declared hp
  · obtain ⟨p, hp⟩ := hallocated hop hk
    obtain ⟨q, hq⟩ := h.closed hp
    refine ⟨p, q, h.lt hp hq, fun j => ⟨fun hj => h.alloc_unique hj hp, ?_⟩,
      fun j => ⟨fun hj => h.dealloc_unique hj hq, ?_⟩⟩
    · rintro rfl
      exact hp
    · rintro rfl
      exact hq

/-- What the scan has recorded of the markers before position `k`: every allocation is open or
closed, every deallocation has closed a range, and nothing else is open or closed. -/
structure Recorded (buffers : List Buffer) (xs : List Instruction) (k : Nat) (l : Lifetimes) :
    Prop where
  opened : ∀ {b p : Nat}, l.opened.get? b = some p → p < k ∧ Marks xs .alloc p b ∧
    l.closed.get? b = none ∧ ∃ d, buffers[b]? = some d ∧ d.isActivation = true
  closed : ∀ {b : Nat} {r : LiveRange}, l.closed.get? b = some r → r.start < r.stop ∧
    Marks xs .alloc r.start b ∧ Marks xs .dealloc r.stop b ∧
    ∃ d, buffers[b]? = some d ∧ d.isActivation = true
  allocs : ∀ {b p : Nat}, p < k → Marks xs .alloc p b →
    l.opened.get? b = some p ∨ ∃ r, l.closed.get? b = some r ∧ r.start = p
  deallocs : ∀ {b q : Nat}, q < k → Marks xs .dealloc q b →
    ∃ r, l.closed.get? b = some r ∧ r.stop = q

namespace Recorded

variable {k : Nat} {l : Lifetimes}

/-- An allocation of a buffer that was neither open nor closed opens it. -/
theorem alloc (h : Recorded buffers xs k l) {b : Nat} {d : Buffer} (hk : Marks xs .alloc k b)
    (hd : buffers[b]? = some d) (hactivation : d.isActivation = true)
    (hopened : l.opened.get? b = none) (hclosed : l.closed.get? b = none) :
    Recorded buffers xs (k + 1) { l with opened := l.opened.insert b k } := by
  refine ⟨fun {b' p} hp => ?_, h.closed, fun {b' p} hlt hp => ?_, fun {b' q} hlt hq => ?_⟩
  · rw [IdMap.get?_insert] at hp
    split at hp
    · next heq =>
      subst heq
      obtain rfl := Option.some.inj hp
      exact ⟨Nat.lt_succ_self _, hk, hclosed, d, hd, hactivation⟩
    · obtain ⟨hlt, hrest⟩ := h.opened hp
      exact ⟨Nat.lt_succ_of_lt hlt, hrest⟩
  · rw [IdMap.get?_insert]
    rcases Nat.lt_succ_iff_lt_or_eq.1 hlt with hlt | rfl
    · split
      · next heq =>
        subst heq
        rcases h.allocs hlt hp with hp | ⟨r, hr, -⟩
        · cases hopened.symm.trans hp
        · cases hclosed.symm.trans hr
      · exact h.allocs hlt hp
    · rw [if_pos (hk.eq hp).2]
      exact .inl rfl
  · rcases Nat.lt_succ_iff_lt_or_eq.1 hlt with hlt | rfl
    · exact h.deallocs hlt hq
    · cases (hk.eq hq).1

/-- A deallocation of a buffer that was open closes its range. -/
theorem dealloc (h : Recorded buffers xs k l) {b p : Nat} (hk : Marks xs .dealloc k b)
    (hp : l.opened.get? b = some p) :
    Recorded buffers xs (k + 1)
      { opened := l.opened.erase b, closed := l.closed.insert b ⟨p, k⟩ } := by
  obtain ⟨hpk, halloc, hclosed, hactivation⟩ := h.opened hp
  refine ⟨fun {b' p'} hp' => ?_, fun {b' r} hr => ?_, fun {b' p'} hlt hp' => ?_,
    fun {b' q} hlt hq => ?_⟩
  · rw [IdMap.get?_erase] at hp'
    split at hp'
    · cases hp'
    · next hne =>
      obtain ⟨hlt, hmark, hnone, hrest⟩ := h.opened hp'
      refine ⟨Nat.lt_succ_of_lt hlt, hmark, ?_, hrest⟩
      rw [IdMap.get?_insert, if_neg hne, hnone]
  · rw [IdMap.get?_insert] at hr
    split at hr
    · next heq =>
      subst heq
      obtain rfl := Option.some.inj hr
      exact ⟨hpk, halloc, hk, hactivation⟩
    · exact h.closed hr
  · rw [IdMap.get?_erase, IdMap.get?_insert]
    rcases Nat.lt_succ_iff_lt_or_eq.1 hlt with hlt | rfl
    · split
      · next heq =>
        subst heq
        rcases h.allocs hlt hp' with hp' | ⟨r, hr, -⟩
        · exact .inr ⟨_, rfl, Option.some.inj (hp.symm.trans hp')⟩
        · cases hclosed.symm.trans hr
      · exact h.allocs hlt hp'
    · cases (hk.eq hp').1
  · rw [IdMap.get?_insert]
    rcases Nat.lt_succ_iff_lt_or_eq.1 hlt with hlt | rfl
    · split
      · next heq =>
        subst heq
        obtain ⟨r, hr, -⟩ := h.deallocs hlt hq
        cases hclosed.symm.trans hr
      · exact h.deallocs hlt hq
    · rw [if_pos (hk.eq hq).2]
      exact ⟨_, rfl, rfl⟩

/-- Any other instruction leaves everything as it is. -/
theorem skip (h : Recorded buffers xs k l) (halloc : ∀ b, ¬ Marks xs .alloc k b)
    (hdealloc : ∀ b, ¬ Marks xs .dealloc k b) : Recorded buffers xs (k + 1) l := by
  refine ⟨fun hp => ?_, h.closed, fun {b p} hlt hp => ?_, fun {b q} hlt hq => ?_⟩
  · obtain ⟨hlt, hrest⟩ := h.opened hp
    exact ⟨Nat.lt_succ_of_lt hlt, hrest⟩
  · rcases Nat.lt_succ_iff_lt_or_eq.1 hlt with hlt | rfl
    · exact h.allocs hlt hp
    · exact absurd hp (halloc b)
  · rcases Nat.lt_succ_iff_lt_or_eq.1 hlt with hlt | rfl
    · exact h.deallocs hlt hq
    · exact absurd hq (hdealloc b)

theorem step (h : Recorded buffers xs k l) {x : Instruction} (hx : xs[k]? = some x)
    {l' : Lifetimes} (hstep : l.step buffers k x = .ok l') : Recorded buffers xs (k + 1) l' := by
  unfold Lifetimes.step at hstep
  split at hstep
  · next o hop ho =>
    have hk : Marks xs .alloc k o.buffer := ⟨x, o, hx, hop, ho, rfl⟩
    simp only at hstep
    split at hstep
    · cases hstep
    · next d hd =>
      obtain ⟨hactivation, hstep⟩ := ite_ok_iff.1 hstep |>.resolve_left nofun
      obtain ⟨hfresh, hstep⟩ := ite_ok_iff.1 hstep |>.resolve_left nofun
      obtain rfl := Except.ok.inj hstep
      simp only [IdMap.contains, Bool.or_eq_true, not_or, Bool.not_eq_true,
        Option.isSome_eq_false_iff, Option.isNone_iff_eq_none] at hfresh
      exact h.alloc hk hd (by simpa using hactivation) hfresh.1 hfresh.2
  · next o hop ho =>
    have hk : Marks xs .dealloc k o.buffer := ⟨x, o, hx, hop, ho, rfl⟩
    simp only at hstep
    split at hstep
    · cases hstep
    · next p hp =>
      obtain rfl := Except.ok.inj hstep
      exact h.dealloc hk hp
  · next halloc hdealloc =>
    obtain rfl := Except.ok.inj hstep
    exact h.skip (not_marks hx halloc) (not_marks hx hdealloc)

end Recorded

end TensorCompiler.Plan
