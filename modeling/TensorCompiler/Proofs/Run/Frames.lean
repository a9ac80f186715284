import TensorCompiler.Proofs.Maps
import TensorCompiler.Proofs.Run.Typed

/-!
What a run leaves as it was, also when it fails: every location that no instruction stores into. And
what it does to the slots: instructions that read and store into slots only do it alike in all memories
with the same slots.
-/

namespace TensorCompiler

variable {α : Type} {a : Artifact} {m m' q : Memory α} {location : Location}

/-! ## Locations -/

namespace Memory

/-- A store leaves every other location. -/
theorem store_frame {b : Nat} {p : Payload α} (h : m.store a b p = .ok m')
    (hne : a.locate b ≠ .ok location) : m'.get? location = m.get? location := by
  obtain ⟨_, location', _, t, -, -, hlocate, htarget, -, -, rfl⟩ := store_ok h
  rw [get?_set htarget, if_neg]
  rintro rfl
  exact hne hlocate

/-- What a buffer shows depends on its location only. -/
theorem source_congr {b : Nat} (h : ∀ location, a.locate b = .ok location →
    m'.get? location = m.get? location) : m'.source a b = m.source a b := by
  unfold source
  cases hlocate : a.locate b with
  | error e => rfl
  | ok location =>
    simp only [bind, Except.bind, fetch, h location hlocate]

theorem slots_congr (h : ∀ k, m'.get? (.slot k) = m.get? (.slot k)) : m'.slots = m.slots :=
  List.ext_getElem? h

theorem persistent_congr (h : ∀ location, (∀ k, location ≠ .slot k) →
    m'.get? location = m.get? location) : m'.persistent = m.persistent := by
  have hvars : m'.vars = m.vars := List.ext_getElem? fun id => h (.variable id) nofun
  have hbindings : m'.bindings = m.bindings := IdMap.ext_get? fun id => h (.placeholder id) nofun
  have hstate : m'.state = m.state := IdMap.ext_get? fun b => h (.state b) nofun
  rw [persistent, hvars, hbindings, hstate, persistent]

/-- Where two memories alike show the same elements, they hold the same tensor. -/
theorem Alike.get?_eq {b : Nat} {p : Payload α} (halike : Alike m m')
    (hlocate : a.locate b = .ok location) (h : m.source a b = .ok p) (h' : m'.source a b = .ok p) :
    m'.get? location = m.get? location := by
  have hheld {m : Memory α} (h : m.source a b = .ok p) :
      ∃ t, m.get? location = some t ∧ t.payload = p := by
    unfold source at h
    simp only [hlocate, bind_ok_iff, pure_ok_iff, fetch] at h
    obtain ⟨_, ⟨⟩, t, ht, rfl⟩ := h
    split at ht
    · next hget => exact ⟨t, hget.trans (congrArg some (Except.ok.inj ht)), rfl⟩
    · cases ht
  obtain ⟨t, ht, hp⟩ := hheld h
  obtain ⟨t', ht', hp'⟩ := hheld h'
  have htype := halike location
  rw [ht, ht'] at htype
  rw [ht, ht', Tensor.eq_of_payload (Option.some.inj htype) (hp'.trans hp.symm)]

end Memory

theorem Instruction.commit_frame {ws : List (Nat × Payload α)}
    (hne : ∀ w ∈ ws, a.locate w.1 ≠ .ok location) :
    (commit a m ws).2.get? location = m.get? location := by
  induction ws generalizing m with
  | nil => rfl
  | cons w ws ih =>
    rw [commit]
    split
    · next m₁ hstore =>
      exact (ih fun w hw => hne w (List.mem_cons_of_mem _ hw)).trans
        (Memory.store_frame hstore (hne w List.mem_cons_self))
    · rfl

/-- An instruction leaves every location that none of its targets is at. -/
theorem Instruction.execute_frame [Scalar α] {x : Instruction}
    (hne : ∀ b ∈ x.targets, a.locate b ≠ .ok location) :
    (x.execute a m).2.get? location = m.get? location := by
  unfold execute
  cases heffects : x.effects a m with
  | error e => rfl
  | ok ws =>
    refine commit_frame fun w hw => hne w.1 ?_
    rw [← effects_targets heffects]
    exact List.mem_map_of_mem hw

/-- So does a run, whether it succeeds or not. -/
theorem Artifact.runFrom_frame [Scalar α] {xs : List Instruction}
    (hne : ∀ x ∈ xs, ∀ b ∈ x.targets, a.locate b ≠ .ok location) :
    (a.runFrom m xs).2.get? location = m.get? location := by
  induction xs generalizing m with
  | nil => rfl
  | cons x xs ih =>
    have hx : (x.execute a m).2.get? location = m.get? location :=
      Instruction.execute_frame (hne x List.mem_cons_self)
    rw [runFrom]
    split
    · next m₁ hexecute =>
      rw [hexecute] at hx
      exact (ih fun y hy => hne y (List.mem_cons_of_mem _ hy)).trans hx
    · next m₁ hexecute =>
      rw [hexecute] at hx
      exact hx

/-- A buffer still shows the same after a run that stores nothing at its location. -/
theorem Artifact.source_of_runFrom [Scalar α] {xs : List Instruction} {b : Nat}
    {r : Except RunFault Unit} (hne : ∀ x ∈ xs, ∀ c ∈ x.targets, a.locate c ≠ a.locate b)
    (hrun : a.runFrom m xs = (r, m')) : m'.source a b = m.source a b := by
  refine Memory.source_congr fun location hlocate => ?_
  have hframe : (a.runFrom m xs).2.get? location = m.get? location :=
    runFrom_frame fun x hx c hc => hlocate ▸ hne x hx c hc
  rw [← hframe, hrun]

/-- A run that fails has executed some instructions, and one that failed. -/
theorem Artifact.exists_failed [Scalar α] {xs : List Instruction} {r : RunFault}
    (h : a.runFrom m xs = (.error r, m')) : ∃ before x after m₁, xs = before ++ x :: after ∧
      a.runFrom m before = (.ok (), m₁) ∧ x.execute a m₁ = (.error r, m') := by
  induction xs generalizing m with
  | nil => cases h
  | cons x xs ih =>
    rw [runFrom] at h
    split at h
    · next m₂ hexecute =>
      obtain ⟨before, y, after, m₁, rfl, hrun, hfail⟩ := ih h
      exact ⟨x :: before, y, after, m₁, rfl, (runFrom_cons hexecute before).trans hrun, hfail⟩
    · next m₂ hexecute => exact ⟨[], x, xs, m, rfl, rfl, hexecute.trans h⟩

/-! ## Slots -/

/-- The instruction reads and stores into slots only. -/
def Instruction.InSlots (a : Artifact) (x : Instruction) : Prop :=
  ∀ b, b ∈ x.sources ∨ b ∈ x.targets → ∃ k, a.locate b = .ok (.slot k)

/-- A store into a slot, in memories with the same slots. -/
theorem Memory.store_of_slots {b k : Nat} {p : Payload α} (hb : a.locate b = .ok (.slot k))
    (hslots : q.slots = m.slots) (h : m.store a b p = .ok m') : ∃ q', q.store a b p = .ok q' ∧
      q'.slots = m'.slots ∧ q'.persistent = q.persistent := by
  have hget {location : Location} (hloc : a.locate b = .ok location) :
      m.get? location = q.get? location := by
    obtain rfl := Except.ok.inj (hb.symm.trans hloc)
    simp only [get?, hslots]
  rcases store_congr rfl rfl hget (p := p) with
    ⟨e, herror, -⟩ | ⟨location, t, -, hloc, -, -, hstore, hstore'⟩
  · cases h.symm.trans herror
  · obtain rfl := Except.ok.inj (hb.symm.trans hloc)
    obtain rfl := Except.ok.inj (h.symm.trans hstore)
    exact ⟨_, hstore', by simp only [set, hslots], rfl⟩

theorem Instruction.commit_of_slots {ws : List (Nat × Payload α)}
    (hws : ∀ w ∈ ws, ∃ k, a.locate w.1 = .ok (.slot k)) (hslots : q.slots = m.slots)
    (h : commit a m ws = (.ok (), m')) : ∃ q', commit a q ws = (.ok (), q') ∧
      q'.slots = m'.slots ∧ q'.persistent = q.persistent := by
  induction ws generalizing m q with
  | nil =>
    obtain ⟨-, rfl⟩ := Prod.mk.inj h
    exact ⟨q, rfl, hslots, rfl⟩
  | cons w ws ih =>
    obtain ⟨k, hk⟩ := hws w List.mem_cons_self
    rw [commit] at h
    split at h
    · next m₁ hstore =>
      obtain ⟨q₁, hstore', hslots₁, hkept⟩ := Memory.store_of_slots hk hslots hstore
      obtain ⟨q', hcommit, hslots', hkept'⟩ :=
        ih (fun w hw => hws w (List.mem_cons_of_mem _ hw)) hslots₁ h
      refine ⟨q', ?_, hslots', hkept'.trans hkept⟩
      rw [commit, hstore']
      exact hcommit
    · cases h

/-- An instruction on slots succeeds alike in memories with the same slots, and changes nothing else. -/
theorem Instruction.InSlots.execute [Scalar α] {x : Instruction} (hx : x.InSlots a)
    (hslots : q.slots = m.slots) (h : x.execute a m = (.ok (), m')) :
    ∃ q', x.execute a q = (.ok (), q') ∧ q'.slots = m'.slots ∧ q'.persistent = q.persistent := by
  obtain ⟨ws, heffects, hcommit⟩ := execute_ok_iff.1 h
  have hread : ∀ b ∈ x.sources, m.read a b = q.read a b := by
    intro b hb
    refine Memory.read_congr rfl (Memory.source_congr fun location hloc => ?_)
    obtain ⟨k, hk⟩ := hx b (.inl hb)
    obtain rfl := Except.ok.inj (hk.symm.trans hloc)
    simp only [Memory.get?, hslots]
  have hws : ∀ w ∈ ws, ∃ k, a.locate w.1 = .ok (.slot k) := fun w hw =>
    hx w.1 (.inr (effects_targets heffects ▸ List.mem_map_of_mem hw))
  obtain ⟨q', hcommit', hslots', hkept⟩ := commit_of_slots hws hslots hcommit
  exact ⟨q', execute_ok_iff.2 ⟨ws, (effects_congr (fun _ _ => rfl) hread).symm.trans heffects,
    hcommit'⟩, hslots', hkept⟩

end TensorCompiler
