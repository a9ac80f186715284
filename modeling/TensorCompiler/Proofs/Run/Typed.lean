import TensorCompiler.Proofs.Run.Stores

/-!
Typed memories. Every buffer of the artifact has a location that holds a filled tensor of its kind and
volume (`Memory.Typed`), so reads succeed, stores of elements that fill the buffer succeed, and a store
leaves every location with a tensor of the type that it had.
-/

namespace TensorCompiler

variable {α : Type}

namespace Memory

variable {a : Artifact} {m m' m'' : Memory α}

/-- What the memory has for the buffers of the artifact is filled. Tensors always are whose volume is a
word (`Tensor.filled_of_lt`). -/
def Full (a : Artifact) (m : Memory α) : Prop :=
  ∀ ⦃b : Nat⦄ ⦃d : Buffer⦄ ⦃location : Location⦄ ⦃t : Tensor α⦄, a.buffer? b = some d →
    a.locate b = .ok location → m.get? location = some t → t.Filled

/-- Every buffer has a location, with a tensor of the kind and volume of its type. -/
def Located (a : Artifact) (m : Memory α) : Prop :=
  ∀ ⦃b : Nat⦄ ⦃d : Buffer⦄, a.buffer? b = some d → ∃ location t,
    a.locate b = .ok location ∧ m.get? location = some t ∧ t.type.kind = d.type.kind ∧
      t.type.volume = d.type.volume

/-- Every buffer has a location, with a filled tensor of the kind and volume of its type. -/
structure Typed (a : Artifact) (m : Memory α) : Prop where
  located : m.Located a
  full : m.Full a

theorem Located.full (h : m.Located a)
    (hvolume : ∀ ⦃b : Nat⦄ ⦃d : Buffer⦄, a.buffer? b = some d → d.type.volume < Word.size) :
    m.Full a := by
  intro b d location t hd hlocate ht
  obtain ⟨location', t', hlocate', ht', -, hsame⟩ := h hd
  obtain rfl := Except.ok.inj (hlocate.symm.trans hlocate')
  obtain rfl := Option.some.inj (ht.symm.trans ht')
  exact Tensor.filled_of_lt (hsame ▸ hvolume hd)

/-- Every run starts with the same slots, so it is enough for the next one that storage and optimizer
state are filled. -/
theorem Full.start [Zero α] {vars vars' : List (Tensor α)}
    {bindings bindings' state state' : IdMap (Tensor α)}
    (hstart : (Memory.start a vars bindings state).Full a) (h : m.Full a)
    (hsame : (Memory.start a vars' bindings' state').persistent = m.persistent) :
    (Memory.start a vars' bindings' state').Full a := by
  intro b d location t hd hlocate ht
  by_cases hslot : ∃ k, location = .slot k
  · obtain ⟨k, rfl⟩ := hslot
    exact hstart hd hlocate ht
  · rw [get?_of_persistent hsame fun k heq => hslot ⟨k, heq⟩] at ht
    exact h hd hlocate ht

/-- The memories hold tensors of the same types at the same locations. -/
def Alike (m m' : Memory α) : Prop :=
  ∀ location, (m'.get? location).map Tensor.type = (m.get? location).map Tensor.type

theorem Alike.refl (m : Memory α) : Alike m m := fun _ => rfl

theorem Alike.trans (h : Alike m m') (h' : Alike m' m'') : Alike m m'' :=
  fun location => (h' location).trans (h location)

theorem Alike.symm (h : Alike m m') : Alike m' m := fun location => (h location).symm

theorem get?_set {location location' : Location} {t target : Tensor α}
    (h : m.get? location = some target) : (m.set t location).get? location' =
      if location' = location then some t else m.get? location' := by
  rcases location with id | id | b | k <;> rcases location' with id' | id' | b' | k' <;>
    simp only [reduceCtorEq, if_false, Location.variable.injEq, Location.placeholder.injEq,
      Location.state.injEq, Location.slot.injEq]
  case variable.variable =>
    have hlt := (List.getElem?_eq_some_iff.1 h).1
    simp [set, get?, List.getElem?_set, hlt, eq_comm]
  case slot.slot =>
    have hlt := (List.getElem?_eq_some_iff.1 h).1
    simp [set, get?, List.getElem?_set, hlt, eq_comm]
  case placeholder.placeholder => simp [set, get?, IdMap.get?_insert, eq_comm]
  case state.state => simp [set, get?, IdMap.get?_insert, eq_comm]
  all_goals rfl

theorem Alike.set {location : Location} {t target : Tensor α} (h : m.get? location = some target)
    (htype : t.type = target.type) : Alike m (m.set t location) := by
  intro location'
  rw [get?_set h]
  split
  · next heq => rw [heq, h, Option.map_some, Option.map_some, htype]
  · rfl

theorem SlotsFit.of_alike (h : m.SlotsFit a) (halike : Alike m m') : m'.SlotsFit a := by
  intro i s hs
  obtain ⟨t, ht, hfit⟩ := h i s hs
  have htype := halike (.slot i)
  simp only [get?, ht, Option.map_some, Option.map_eq_some_iff] at htype
  obtain ⟨t', ht', htype⟩ := htype
  exact ⟨t', ht', htype.trans hfit⟩

/-- A store keeps the type of what it replaces. -/
theorem Alike.of_store {b : Nat} {p : Payload α} (h : m.store a b p = .ok m') : Alike m m' := by
  obtain ⟨_, _, _, _, -, -, -, htarget, htype, -, rfl⟩ := store_ok h
  exact .set htarget htype

theorem Typed.typeOf {b : Nat} {d : Buffer} (hd : a.buffer? b = some d) :
    a.typeOf b = .ok d.type := by
  rw [Artifact.typeOf, hd]

theorem Typed.read (h : Typed a m) {b : Nat} {d : Buffer} (hd : a.buffer? b = some d) :
    ∃ t, m.read a b = .ok t ∧ t.type = d.type ∧ t.Filled := by
  obtain ⟨location, t, hlocate, ht, hkind, hvolume⟩ := h.located hd
  obtain ⟨t', ht', htype, hpayload⟩ :=
    Tensor.ofPayload_of_fits (t.payload_fits.of_volume hkind hvolume)
  refine ⟨t', ?_, htype, ?_⟩
  · rw [Memory.read, Typed.typeOf hd, hlocate]
    simp only [bind, Except.bind, fetch, ht, ht', Except.mapError]
  · rw [Tensor.Filled, hpayload, htype, ← hvolume]
    exact h.full hd hlocate ht

/-- A store of elements that fill the buffer is what the buffer shows, and keeps the memory typed. -/
theorem Typed.store (h : Typed a m) {b : Nat} {d : Buffer} (hd : a.buffer? b = some d)
    {p : Payload α} (hp : p.Fills d.type) :
    ∃ m', m.store a b p = .ok m' ∧ Typed a m' ∧ m'.source a b = .ok p := by
  obtain ⟨location, target, hlocate, htarget, hkind, hvolume⟩ := h.located hd
  obtain ⟨t, ht, htype, rfl⟩ :=
    Tensor.ofPayload_of_fits (hp.fits.of_volume hkind.symm hvolume.symm)
  have hstore : m.store a b t.payload = .ok (m.set t location) := by
    rw [store_of_fits (Typed.typeOf hd) hp.fits, hlocate]
    simp only [bind, Except.bind, fetch, htarget, Tensor.withPayload, ht, Except.mapError]
    rfl
  have hfilled : t.Filled := by rw [Tensor.Filled, hp.2, htype, hvolume]
  refine ⟨_, hstore, ⟨fun b' d' hd' => ?_, fun b' d' location' t' hd' hlocate' ht' => ?_⟩, ?_⟩
  · obtain ⟨location', t', hlocate', ht', hfits⟩ := h.located hd'
    by_cases heq : location' = location
    · subst heq
      obtain rfl := Option.some.inj (htarget.symm.trans ht')
      exact ⟨location', t, hlocate', by rw [get?_set htarget, if_pos rfl], htype ▸ hfits⟩
    · exact ⟨location', t', hlocate', by rw [get?_set htarget, if_neg heq, ht'], hfits⟩
  · rw [get?_set htarget] at ht'
    split at ht'
    · exact Option.some.inj ht' ▸ hfilled
    · exact h.full hd' hlocate' ht'
  · unfold source
    simp only [hlocate, bind, Except.bind, fetch, get?_set htarget, if_pos]
    rfl

end Memory

/-! ## Execution -/

theorem Instruction.alike_commit (a : Artifact) (m : Memory α) (ws : List (Nat × Payload α)) :
    m.Alike (commit a m ws).2 := by
  induction ws generalizing m with
  | nil => exact Memory.Alike.refl m
  | cons w ws ih =>
    rw [commit]
    split
    · next m₁ hstore => exact (Memory.Alike.of_store hstore).trans (ih m₁)
    · exact Memory.Alike.refl m

theorem Instruction.alike_execute [Scalar α] (a : Artifact) (m : Memory α) (x : Instruction) :
    m.Alike (x.execute a m).2 := by
  unfold execute
  cases x.effects a m with
  | error e => exact Memory.Alike.refl m
  | ok ws => exact alike_commit a m ws

/-- A run keeps the types of all that is in memory, also when it fails. -/
theorem Artifact.alike_runFrom [Scalar α] (a : Artifact) (m : Memory α) (xs : List Instruction) :
    m.Alike (a.runFrom m xs).2 := by
  induction xs generalizing m with
  | nil => exact Memory.Alike.refl m
  | cons x xs ih =>
    have hx := x.alike_execute a m
    rw [runFrom]
    split
    · next m₁ hexecute =>
      rw [hexecute] at hx
      exact hx.trans (ih m₁)
    · next m₁ hexecute =>
      rw [hexecute] at hx
      exact hx

namespace Instruction

/-- Every effect fills the buffer that it is for. -/
def EffectsFill (a : Artifact) (ws : List (Nat × Payload α)) : Prop :=
  ∀ w ∈ ws, ∃ d, a.buffer? w.1 = some d ∧ w.2.Fills d.type

theorem commit_total {a : Artifact} {m : Memory α} (h : m.Typed a) {ws : List (Nat × Payload α)}
    (hws : EffectsFill a ws) : ∃ m', commit a m ws = (.ok (), m') ∧ m'.Typed a := by
  induction ws generalizing m with
  | nil => exact ⟨m, rfl, h⟩
  | cons w ws ih =>
    obtain ⟨d, hd, hfills⟩ := hws w List.mem_cons_self
    obtain ⟨m₁, hstore, hm₁, -⟩ := h.store hd hfills
    obtain ⟨m', hcommit, hm'⟩ := ih hm₁ fun w' hw' => hws w' (List.mem_cons_of_mem _ hw')
    refine ⟨m', ?_, hm'⟩
    rw [commit, hstore]
    exact hcommit

end Instruction

end TensorCompiler
