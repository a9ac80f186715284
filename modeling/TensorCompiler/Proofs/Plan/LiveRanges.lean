import TensorCompiler.Artifact.Plan
import TensorCompiler.Proofs.Lists
import TensorCompiler.Proofs.Maps

/-!
The live ranges of a stream. Where every activation is allocated once and deallocated once, later,
the ranges exist and are exactly the pairs of markers (`liveRangesOf_of_bracketed`). The proof reads
the stream from the left; `Reached` says what is open and what is closed at a position.
-/

namespace TensorCompiler.Plan

/-- The instruction at position `p` is a marker of kind `op` for the buffer `b`. -/
def Marks (xs : List Instruction) (op : Opcode) (p b : Nat) : Prop :=
  ∃ x o, xs[p]? = some x ∧ x.op = op ∧ x.operands.head? = some o ∧ o.buffer = b

/-- Every buffer that is allocated is an activation, and has one allocation before one
deallocation. -/
structure Bracketed (buffers : List Buffer) (xs : List Instruction) : Prop where
  declared : ∀ {p b : Nat}, Marks xs .alloc p b → ∃ d, buffers[b]? = some d ∧ d.isActivation = true
  alloc_unique : ∀ {p q b : Nat}, Marks xs .alloc p b → Marks xs .alloc q b → p = q
  dealloc_unique : ∀ {p q b : Nat}, Marks xs .dealloc p b → Marks xs .dealloc q b → p = q
  closed : ∀ {p b : Nat}, Marks xs .alloc p b → ∃ q, Marks xs .dealloc q b
  opened : ∀ {q b : Nat}, Marks xs .dealloc q b → ∃ p < q, Marks xs .alloc p b

/-- The buffer is allocated at `p`, before `k`, and not deallocated before `k`. -/
def OpenAt (xs : List Instruction) (k b p : Nat) : Prop :=
  p < k ∧ Marks xs .alloc p b ∧ ∀ q < k, ¬ Marks xs .dealloc q b

/-- The buffer has the range `r`, which ends before `k`. -/
def ClosedAt (xs : List Instruction) (k b : Nat) (r : LiveRange) : Prop :=
  r.stop < k ∧ Marks xs .alloc r.start b ∧ Marks xs .dealloc r.stop b

/-- What is known before position `k`: the activations that are open, and the closed ranges. -/
structure Reached (xs : List Instruction) (k : Nat) (l : Lifetimes) : Prop where
  opened : ∀ b p, l.opened.get? b = some p ↔ OpenAt xs k b p
  closed : ∀ b r, l.closed.get? b = some r ↔ ClosedAt xs k b r

variable {buffers : List Buffer} {xs : List Instruction}

theorem Marks.eq {op op' : Opcode} {p b b' : Nat} (h : Marks xs op p b) (h' : Marks xs op' p b') :
    op = op' ∧ b = b' := by
  obtain ⟨x, o, hx, rfl, ho, rfl⟩ := h
  obtain ⟨x', o', hx', rfl, ho', rfl⟩ := h'
  obtain rfl := Option.some.inj (hx.symm.trans hx')
  obtain rfl := Option.some.inj (ho.symm.trans ho')
  exact ⟨rfl, rfl⟩

theorem Marks.lt_length {op : Opcode} {p b : Nat} (h : Marks xs op p b) : p < xs.length := by
  obtain ⟨x, o, hx, -⟩ := h
  exact (List.getElem?_eq_some_iff.1 hx).1

theorem not_marks {op : Opcode} {k : Nat} {x : Instruction} (hx : xs[k]? = some x)
    (h : ∀ o, x.op = op → x.operands.head? ≠ some o) (b : Nat) : ¬ Marks xs op k b := by
  rintro ⟨x', o, hx', hop, ho, -⟩
  obtain rfl := Option.some.inj (hx.symm.trans hx')
  exact h o hop ho

theorem Bracketed.lt (h : Bracketed buffers xs) {p q b : Nat} (hp : Marks xs .alloc p b)
    (hq : Marks xs .dealloc q b) : p < q := by
  obtain ⟨p', hlt, hp'⟩ := h.opened hq
  exact h.alloc_unique hp hp' ▸ hlt

theorem Bracketed.start_le_stop (h : Bracketed buffers xs) {b : Nat} {r : LiveRange}
    (hr : Marks xs .alloc r.start b ∧ Marks xs .dealloc r.stop b) : r.start ≤ r.stop :=
  Nat.le_of_lt (h.lt hr.1 hr.2)

/-- A position without a marker of the buffer does not open or close it. -/
theorem openAt_succ {k b p : Nat} (halloc : ¬ Marks xs .alloc k b)
    (hdealloc : ¬ Marks xs .dealloc k b) : OpenAt xs (k + 1) b p ↔ OpenAt xs k b p := by
  constructor
  · rintro ⟨hp, hmark, hno⟩
    refine ⟨?_, hmark, fun q hq => hno q (Nat.lt_succ_of_lt hq)⟩
    rcases Nat.lt_succ_iff_lt_or_eq.1 hp with hp | rfl
    · exact hp
    · exact absurd hmark halloc
  · rintro ⟨hp, hmark, hno⟩
    refine ⟨Nat.lt_succ_of_lt hp, hmark, fun q hq hd => ?_⟩
    rcases Nat.lt_succ_iff_lt_or_eq.1 hq with hq | rfl
    · exact hno q hq hd
    · exact hdealloc hd

theorem closedAt_succ {k b : Nat} {r : LiveRange} (hdealloc : ¬ Marks xs .dealloc k b) :
    ClosedAt xs (k + 1) b r ↔ ClosedAt xs k b r := by
  constructor
  · rintro ⟨hlt, halloc, hd⟩
    refine ⟨?_, halloc, hd⟩
    rcases Nat.lt_succ_iff_lt_or_eq.1 hlt with hlt | heq
    · exact hlt
    · exact absurd (heq ▸ hd) hdealloc
  · rintro ⟨hlt, hmarks⟩
    exact ⟨Nat.lt_succ_of_lt hlt, hmarks⟩

/-- An allocation opens its buffer. -/
theorem Reached.alloc (hb : Bracketed buffers xs) {k b : Nat} {l : Lifetimes}
    (h : Reached xs k l) (hk : Marks xs .alloc k b) :
    Reached xs (k + 1) { l with opened := l.opened.insert b k } := by
  have hdealloc (b' : Nat) : ¬ Marks xs .dealloc k b' := fun hd => nomatch (hd.eq hk).1
  refine ⟨fun b' p => ?_, fun b' r => (h.closed b' r).trans (closedAt_succ (hdealloc b')).symm⟩
  rw [IdMap.get?_insert]
  split
  · next heq =>
    subst heq
    rw [Option.some.injEq]
    constructor
    · rintro rfl
      refine ⟨Nat.lt_succ_self k, hk, fun q hq hd => ?_⟩
      exact absurd (hb.lt hk hd) (by omega)
    · rintro ⟨-, hp, -⟩
      exact hb.alloc_unique hk hp
  · next hne =>
    have halloc : ¬ Marks xs .alloc k b' := fun ha => hne (ha.eq hk).2.symm
    exact (h.opened b' p).trans (openAt_succ halloc (hdealloc b')).symm

/-- A deallocation closes the range of its buffer. -/
theorem Reached.dealloc (hb : Bracketed buffers xs) {k b p : Nat} {l : Lifetimes}
    (h : Reached xs k l) (hk : Marks xs .dealloc k b) (hp : Marks xs .alloc p b) :
    Reached xs (k + 1)
      { opened := l.opened.erase b, closed := l.closed.insert b ⟨p, k⟩ } := by
  have halloc (b' : Nat) : ¬ Marks xs .alloc k b' := fun ha => nomatch (ha.eq hk).1
  have hother {b' : Nat} (hne : b ≠ b') : ¬ Marks xs .dealloc k b' :=
    fun hd => hne (hd.eq hk).2.symm
  constructor
  · intro b' q
    rw [IdMap.get?_erase]
    split
    · next heq =>
      subst heq
      simp only [reduceCtorEq, false_iff]
      exact fun ⟨_, _, hno⟩ => hno k (Nat.lt_succ_self k) hk
    · next hne => exact (h.opened b' q).trans (openAt_succ (halloc b') (hother hne)).symm
  · intro b' r
    rw [IdMap.get?_insert]
    split
    · next heq =>
      subst heq
      rw [Option.some.injEq]
      constructor
      · rintro rfl
        exact ⟨Nat.lt_succ_self k, hp, hk⟩
      · rintro ⟨-, hstart, hstop⟩
        rw [hb.alloc_unique hp hstart, hb.dealloc_unique hk hstop]
    · next hne => exact (h.closed b' r).trans (closedAt_succ (hother hne)).symm

/-- Any other instruction leaves everything as it is. -/
theorem Reached.skip {k : Nat} {l : Lifetimes} (h : Reached xs k l)
    (halloc : ∀ b, ¬ Marks xs .alloc k b) (hdealloc : ∀ b, ¬ Marks xs .dealloc k b) :
    Reached xs (k + 1) l :=
  ⟨fun b p => (h.opened b p).trans (openAt_succ (halloc b) (hdealloc b)).symm,
    fun b r => (h.closed b r).trans (closedAt_succ (hdealloc b)).symm⟩

/-- One instruction of a bracketed stream is accepted. -/
theorem step_reached (hb : Bracketed buffers xs) {k : Nat} {l : Lifetimes} (h : Reached xs k l)
    {x : Instruction} (hx : xs[k]? = some x) :
    ∃ l', l.step buffers k x = .ok l' ∧ Reached xs (k + 1) l' := by
  unfold Lifetimes.step
  split
  · next o hop ho =>
    have hk : Marks xs .alloc k o.buffer := ⟨x, o, hx, hop, ho, rfl⟩
    obtain ⟨d, hd, hactivation⟩ := hb.declared hk
    have hopened : l.opened.contains o.buffer = false := by
      refine IdMap.contains_eq_false fun p hp => ?_
      obtain ⟨hlt, hmark, -⟩ := (h.opened _ _).1 hp
      exact absurd (hb.alloc_unique hk hmark) (by omega)
    have hclosed : l.closed.contains o.buffer = false := by
      refine IdMap.contains_eq_false fun r hr => ?_
      obtain ⟨hlt, hstart, hstop⟩ := (h.closed _ _).1 hr
      have hstart' := hb.alloc_unique hk hstart
      have hbefore := hb.lt hstart hstop
      omega
    refine ⟨_, ?_, h.alloc hb hk⟩
    simp [hd, hactivation, hopened, hclosed]
  · next o hop ho =>
    have hk : Marks xs .dealloc k o.buffer := ⟨x, o, hx, hop, ho, rfl⟩
    obtain ⟨p, hlt, hp⟩ := hb.opened hk
    have hopened : l.opened.get? o.buffer = some p := by
      refine (h.opened _ _).2 ⟨hlt, hp, fun q hq hd => ?_⟩
      exact absurd (hb.dealloc_unique hk hd) (by omega)
    exact ⟨_, by simp [hopened], h.dealloc hb hk hp⟩
  · next halloc hdealloc =>
    exact ⟨l, rfl, h.skip (not_marks hx halloc) (not_marks hx hdealloc)⟩

theorem fold_reached (hb : Bracketed buffers xs) (rest : List Instruction) :
    ∀ {k : Nat} {l : Lifetimes}, xs.drop k = rest → k ≤ xs.length → Reached xs k l →
      ∃ l', (rest.zipIdx k).foldlM (fun l (x, p) => l.step buffers p x) l = .ok l' ∧
        Reached xs xs.length l' := by
  induction rest with
  | nil =>
    intro k l hrest hk h
    obtain rfl := Nat.le_antisymm hk (List.drop_eq_nil_iff.1 hrest)
    exact ⟨l, rfl, h⟩
  | cons x rest ih =>
    intro k l hrest hk h
    obtain ⟨hx, hrest'⟩ := getElem?_of_drop hrest
    obtain ⟨l₁, hstep, h₁⟩ := step_reached hb h hx
    obtain ⟨l', hfold, h'⟩ := ih hrest' (List.getElem?_eq_some_iff.1 hx).1 h₁
    refine ⟨l', ?_, h'⟩
    rw [List.zipIdx_cons, List.foldlM_cons]
    exact bind_ok_iff.2 ⟨l₁, hstep, hfold⟩

/-- The live ranges of a bracketed stream are its pairs of markers. -/
theorem liveRangesOf_of_bracketed (hb : Bracketed buffers xs) :
    ∃ ranges, liveRangesOf buffers xs = .ok ranges ∧ ∀ b r, ranges.get? b = some r ↔
      Marks xs .alloc r.start b ∧ Marks xs .dealloc r.stop b := by
  have h₀ : Reached xs 0 ⟨.empty, .empty⟩ := by
    constructor <;> simp [OpenAt, ClosedAt]
  obtain ⟨l, hfold, h⟩ := fold_reached hb xs rfl (Nat.zero_le _) h₀
  have hnone (b p : Nat) : l.opened.get? b ≠ some p := by
    intro hp
    obtain ⟨-, halloc, hno⟩ := (h.opened _ _).1 hp
    obtain ⟨q, hq⟩ := hb.closed halloc
    exact hno q hq.lt_length hq
  have hkeys : l.opened.keys = [] := by
    refine List.eq_nil_iff_forall_not_mem.2 fun b hmem => ?_
    obtain ⟨⟨b', p⟩, hentry, rfl⟩ := List.mem_map.1 hmem
    exact hnone b' p ((IdMap.get?_eq_some_iff _ _ _).2 hentry)
  refine ⟨l.closed, ?_, fun b r => ?_⟩
  · unfold liveRangesOf
    refine bind_ok_iff.2 ⟨l, hfold, ?_⟩
    rw [hkeys]
    rfl
  · rw [h.closed]
    exact ⟨fun hr => hr.2, fun hr => ⟨hr.2.lt_length, hr⟩⟩

end TensorCompiler.Plan
