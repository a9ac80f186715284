import TensorCompiler.Proofs.Run.Effects

/-!
Reads and stores. A read sees the elements at the buffer's location under the buffer's type; a store
into a slot that fits the buffer fails only where the elements do not make a tensor of the type.
-/

namespace TensorCompiler

variable {α : Type}

/-- Elements of the kind that a type asks for, in a number that it takes. -/
def Payload.Fits (type : TensorType) (p : Payload α) : Prop :=
  p.kind = type.kind ∧ type.shape.Accepts p.size

/-- Elements of one kind and number fit the same types. -/
theorem Payload.Fits.of_size {type : TensorType} {p q : Payload α} (h : p.Fits type)
    (hkind : q.kind = p.kind) (hsize : q.size = p.size) : q.Fits type :=
  ⟨hkind.trans h.1, hsize ▸ h.2⟩

/-- Types of one kind and volume ask for the same elements. -/
theorem Payload.Fits.of_volume {type type' : TensorType} {p : Payload α} (h : p.Fits type)
    (hkind : type.kind = type'.kind) (hvolume : type.volume = type'.volume) : p.Fits type' :=
  ⟨h.1.trans hkind, (Shape.accepts_congr hvolume).1 h.2⟩

/-- Elements of the kind that a type asks for, one for each coordinate list. -/
def Payload.Fills (type : TensorType) (p : Payload α) : Prop :=
  p.kind = type.kind ∧ p.size = type.volume

theorem Payload.Fills.fits {type : TensorType} {p : Payload α} (h : p.Fills type) : p.Fits type :=
  ⟨h.1, .inr h.2⟩

/-- The tensor has an element for each coordinate list. -/
def Tensor.Filled (t : Tensor α) : Prop := t.payload.size = t.type.volume

instance (t : Tensor α) : Decidable t.Filled := inferInstanceAs (Decidable (_ = _))

theorem Tensor.payload_fits (t : Tensor α) : t.payload.Fits t.type := by
  cases t with
  | floats d => exact ⟨rfl, d.size_accepted⟩
  | indices d => exact ⟨rfl, d.size_accepted⟩

theorem Tensor.Filled.fills {t : Tensor α} (h : t.Filled) : t.payload.Fills t.type :=
  ⟨t.payload_fits.1, h⟩

/-- A tensor is filled if the volume of its shape is a word. -/
theorem Tensor.filled_of_lt {t : Tensor α} (h : t.type.volume < Word.size) : t.Filled :=
  (Shape.accepts_iff_of_lt h).1 t.payload_fits.2

/-- A word counts the elements, as it does in every tensor that a machine holds. -/
def Tensor.Held (t : Tensor α) : Prop := t.payload.size < Word.size

instance (t : Tensor α) : Decidable t.Held := inferInstanceAs (Decidable (_ < _))

/-- Held tensors of one type have equally many elements. -/
theorem Tensor.Held.size_eq {t : Tensor α} (h : t.Held) : t.payload.size = t.type.shape.elements := by
  rcases t.payload_fits.2 with hsize | hsize
  · exact hsize
  · rw [Shape.elements_of_lt (hsize ▸ h), hsize]

theorem Dense.filled_floats (d : Dense α) : (Tensor.floats d.toShaped).Filled := d.size_eq

theorem Tensor.ofPayload_of_fits {type : TensorType} {p : Payload α} (h : p.Fits type) :
    ∃ t, Tensor.ofPayload type p = .ok t ∧ t.type = type ∧ t.payload = p := by
  obtain ⟨kind, shape⟩ := type
  obtain ⟨hkind, hsize⟩ := h
  cases p with
  | floats values =>
    obtain rfl : ElementKind.float = kind := hkind
    have hsize : shape.Accepts values.size := hsize
    exact ⟨.floats ⟨shape, values, hsize⟩, by simp [ofPayload, hsize], rfl, rfl⟩
  | indices values =>
    obtain rfl : ElementKind.index = kind := hkind
    have hsize : shape.Accepts values.size := hsize
    exact ⟨.indices ⟨shape, values, hsize⟩, by simp [ofPayload, hsize], rfl, rfl⟩

theorem Tensor.fits_of_ofPayload {type : TensorType} {p : Payload α} {t : Tensor α}
    (h : Tensor.ofPayload type p = .ok t) : p.Fits type := by
  obtain ⟨rfl, rfl⟩ := Tensor.ofPayload_eq_ok.1 h
  exact t.payload_fits

theorem Tensor.eq_of_payload {t t' : Tensor α} (htype : t.type = t'.type)
    (hpayload : t.payload = t'.payload) : t = t' :=
  Except.ok.inj ((ofPayload_eq_ok.2 ⟨rfl, rfl⟩).symm.trans (ofPayload_eq_ok.2 ⟨htype.symm, hpayload.symm⟩))

theorem exists_floats {t : Tensor α} {shape : Shape} (h : t.type = .float shape) :
    ∃ d, t = .floats d ∧ d.shape = shape := by
  cases t with
  | floats d => exact ⟨d, rfl, congrArg TensorType.shape h⟩
  | indices d => cases h

theorem exists_indices {t : Tensor α} {shape : Shape} (h : t.type = .index shape) :
    ∃ d, t = .indices d ∧ d.shape = shape := by
  cases t with
  | floats d => cases h
  | indices d => exact ⟨d, rfl, congrArg TensorType.shape h⟩

/-- A filled tensor of numbers is an array that fills its shape. -/
theorem exists_filled_floats {t : Tensor α} {shape : Shape} (h : t.type = .float shape)
    (hfilled : t.Filled) : ∃ d : Dense α, t = .floats d ∧ d.shape = shape := by
  obtain ⟨d, rfl, hshape⟩ := exists_floats h
  exact ⟨⟨d, hfilled⟩, rfl, hshape⟩

theorem exists_filled_indices {t : Tensor α} {shape : Shape} (h : t.type = .index shape)
    (hfilled : t.Filled) : ∃ d : Dense Int64, t = .indices d ∧ d.shape = shape := by
  obtain ⟨d, rfl, hshape⟩ := exists_indices h
  exact ⟨⟨d, hfilled⟩, rfl, hshape⟩

theorem floats_one {ts : List (Tensor α)} {a : Shape} (h : ts.map Tensor.type = [.float a])
    (hfilled : ∀ t ∈ ts, t.Filled) : ∃ x : Dense α, ts = [.floats x] ∧ x.shape = a := by
  obtain ⟨t, rfl, ht⟩ := List.map_eq_singleton_iff.1 h
  obtain ⟨x, rfl, hx⟩ := exists_filled_floats ht (hfilled _ List.mem_cons_self)
  exact ⟨x, rfl, hx⟩

theorem floats_two {ts : List (Tensor α)} {a b : Shape}
    (h : ts.map Tensor.type = [.float a, .float b]) (hfilled : ∀ t ∈ ts, t.Filled) :
    ∃ x y : Dense α, ts = [.floats x, .floats y] ∧ x.shape = a ∧ y.shape = b := by
  obtain ⟨t, rest, rfl, ht, hrest⟩ := List.map_eq_cons_iff.1 h
  obtain ⟨hfirst, hothers⟩ := List.forall_mem_cons.1 hfilled
  obtain ⟨x, rfl, hx⟩ := exists_filled_floats ht hfirst
  obtain ⟨y, rfl, hy⟩ := floats_one hrest hothers
  exact ⟨x, y, rfl, hx, hy⟩

theorem floats_three {ts : List (Tensor α)} {a b : Shape} {type : TensorType}
    (h : ts.map Tensor.type = [.float a, .float b, type]) (hfilled : ∀ t ∈ ts, t.Filled) :
    ∃ (x y : Dense α) (t : Tensor α), ts = [.floats x, .floats y, t] ∧ x.shape = a ∧
      y.shape = b ∧ t.type = type ∧ t.Filled := by
  obtain ⟨t, rest, rfl, ht, hrest⟩ := List.map_eq_cons_iff.1 h
  obtain ⟨hfirst, hothers⟩ := List.forall_mem_cons.1 hfilled
  obtain ⟨x, rfl, hx⟩ := exists_filled_floats ht hfirst
  obtain ⟨u, rest, rfl, hu, hlast⟩ := List.map_eq_cons_iff.1 hrest
  obtain ⟨hsecond, hthird⟩ := List.forall_mem_cons.1 hothers
  obtain ⟨y, rfl, hy⟩ := exists_filled_floats hu hsecond
  obtain ⟨v, rfl, hv⟩ := List.map_eq_singleton_iff.1 hlast
  exact ⟨x, y, v, rfl, hx, hy, hv, hthird v (List.mem_singleton_self v)⟩

/-- What outlives a run: the variables, the bound placeholders and the optimizer state. -/
structure Persistent (α : Type) where
  vars : List (Tensor α)
  bindings : IdMap (Tensor α)
  state : IdMap (Tensor α)

def Memory.persistent (m : Memory α) : Persistent α := ⟨m.vars, m.bindings, m.state⟩

theorem Artifact.buffer_of_typeOf {a : Artifact} {b : Nat} {type : TensorType} (h : a.typeOf b = .ok type) :
    ∃ d, a.buffer? b = some d ∧ d.type = type := by
  unfold Artifact.typeOf at h
  split at h
  · next d hd => exact ⟨d, hd, Except.ok.inj h⟩
  · cases h

namespace Memory

/-- The elements at the location of a buffer. -/
def source (a : Artifact) (m : Memory α) (b : Nat) : Except ExecutionFault (Payload α) := do
  return (← m.fetch (← a.locate b)).payload

theorem read_eq_source (a : Artifact) (m : Memory α) (b : Nat) : m.read a b = (do
    let type ← a.typeOf b
    let p ← m.source a b
    (Tensor.ofPayload type p).mapError .tensor) := by
  unfold read source
  cases a.typeOf b with
  | error e => rfl
  | ok type =>
    cases a.locate b with
    | error e => rfl
    | ok location => cases hfetch : m.fetch location <;> simp [bind, Except.bind, hfetch]; rfl

theorem read_congr {a a' : Artifact} {m m' : Memory α} {b : Nat} (htype : a.typeOf b = a'.typeOf b)
    (hsource : m.source a b = m'.source a' b) : m.read a b = m'.read a' b := by
  rw [read_eq_source, read_eq_source, htype, hsource]

theorem source_of_located {a : Artifact} {m : Memory α} {b k : Nat} (h : a.locate b = .ok (.slot k)) :
    m.source a b = (m.fetch (.slot k)).map Tensor.payload := by
  unfold source
  rw [h]
  cases hfetch : m.fetch (.slot k) <;> simp [bind, Except.bind, hfetch, Except.map, pure, Except.pure]

/-- Every slot holds a tensor of the slot's own type. -/
def SlotsFit (a : Artifact) (m : Memory α) : Prop :=
  ∀ (i : Nat) (s : Slot), a.plan.slots[i]? = some s →
    ∃ t, m.slots[i]? = some t ∧ t.type = ⟨s.kind, [s.len]⟩

theorem start_slotsFit [Zero α] (a : Artifact) (vars : List (Tensor α))
    (bindings state : IdMap (Tensor α)) : SlotsFit a (start a vars bindings state) := by
  intro i s hs
  exact ⟨.zeros ⟨s.kind, [s.len]⟩, by simp [start, hs], Tensor.type_zeros _⟩

/-- A store whose elements fit replaces what is at the location, or fails on the type there. -/
theorem store_of_fits {a : Artifact} {m : Memory α} {b : Nat} {type : TensorType}
    {p : Payload α} (htype : a.typeOf b = .ok type) (hp : p.Fits type) : m.store a b p = (do
      let location ← a.locate b
      let target ← m.fetch location
      let t ← (target.withPayload p).mapError .tensor
      return m.set t location) := by
  obtain ⟨t, ht, httype, hpayload⟩ := Tensor.ofPayload_of_fits hp
  unfold store write
  rw [htype]
  simp only [bind, Except.bind, ht, Except.mapError, httype, hpayload, ne_eq, not_true_eq_false,
    if_false]

theorem store_of_misfit {a : Artifact} {m : Memory α} {b : Nat} {type : TensorType}
    {p : Payload α} {e : TensorError} (htype : a.typeOf b = .ok type)
    (hp : Tensor.ofPayload type p = .error e) : m.store a b p = .error (.tensor e) := by
  unfold store
  rw [htype]
  simp only [bind, Except.bind, hp, Except.mapError]

/-- A store into a slot that fits the buffer. -/
theorem store_slot {a : Artifact} {m : Memory α} {b k : Nat} {type : TensorType} {p : Payload α}
    {target : Tensor α} (htype : a.typeOf b = .ok type) (hp : p.Fits type)
    (hlocate : a.locate b = .ok (.slot k)) (htarget : m.slots[k]? = some target)
    (hfit : target.type = ⟨type.kind, [type.volume]⟩) : ∃ t, t.type = target.type ∧
      t.payload = p ∧ m.store a b p = .ok { m with slots := m.slots.set k t } := by
  have hp' : p.Fits target.type := by
    rw [hfit]
    exact hp.of_volume rfl (Nat.mul_one _).symm
  obtain ⟨t, ht, httype, hpayload⟩ := Tensor.ofPayload_of_fits hp'
  refine ⟨t, httype, hpayload, ?_⟩
  rw [store_of_fits htype hp, hlocate]
  simp only [bind, Except.bind, fetch, get?, htarget, Tensor.withPayload, ht, Except.mapError]
  rfl

/-- Two artifacts that have a buffer at one location store alike where the memories agree there. -/
theorem store_congr {a a' : Artifact} {m m' : Memory α} {b : Nat} {p : Payload α}
    (htype : a.typeOf b = a'.typeOf b) (hlocate : a.locate b = a'.locate b)
    (hget : ∀ {location : Location}, a.locate b = .ok location → m.get? location = m'.get? location) :
    (∃ e, m.store a b p = .error e ∧ m'.store a' b p = .error e) ∨
      ∃ location t target, a.locate b = .ok location ∧ m.get? location = some target ∧
        t.type = target.type ∧ m.store a b p = .ok (m.set t location) ∧
        m'.store a' b p = .ok (m'.set t location) := by
  cases hb : a.typeOf b with
  | error e =>
    refine .inl ⟨e, ?_, ?_⟩
    · rw [store, hb]
      rfl
    · rw [store, ← htype, hb]
      rfl
  | ok type =>
    have hb' := htype ▸ hb
    cases hp : Tensor.ofPayload type p with
    | error e => exact .inl ⟨_, store_of_misfit hb hp, store_of_misfit hb' hp⟩
    | ok t₀ =>
      have hfits := Tensor.fits_of_ofPayload hp
      rw [store_of_fits hb hfits, store_of_fits hb' hfits, ← hlocate]
      cases hloc : a.locate b with
      | error e => exact .inl ⟨e, rfl, rfl⟩
      | ok location =>
        have hfetch : m'.fetch location = m.fetch location := by rw [fetch, fetch, hget hloc]
        simp only [bind, Except.bind, hfetch]
        cases htarget : m.get? location with
        | none => exact .inl ⟨.notMaterialised location, by simp only [fetch, htarget],
            by simp only [fetch, htarget]⟩
        | some target =>
          have hfetch : m.fetch location = .ok target := by rw [fetch, htarget]
          simp only [hfetch]
          cases ht : target.withPayload p with
          | error e => exact .inl ⟨.tensor e, rfl, rfl⟩
          | ok t => exact .inr ⟨location, t, target, rfl, htarget, (Tensor.ofPayload_eq_ok.1 ht).1,
              rfl, rfl⟩

/-- What a store that succeeds has found and done. -/
theorem store_ok {a : Artifact} {m m' : Memory α} {b : Nat} {p : Payload α}
    (h : m.store a b p = .ok m') : ∃ type location target t, a.typeOf b = .ok type ∧ p.Fits type ∧
      a.locate b = .ok location ∧ m.get? location = some target ∧ t.type = target.type ∧
      t.payload = p ∧ m' = m.set t location := by
  cases hb : a.typeOf b with
  | error e =>
    rw [store, hb] at h
    cases h
  | ok type =>
    cases hp : Tensor.ofPayload type p with
    | error e =>
      rw [store_of_misfit hb hp] at h
      cases h
    | ok t₀ =>
      have hfits := Tensor.fits_of_ofPayload hp
      rw [store_of_fits hb hfits] at h
      simp only [bind_ok_iff, mapError_ok_iff, pure_ok_iff] at h
      obtain ⟨location, hlocate, target, hfetch, t, ht, hm⟩ := h
      obtain ⟨htype, hpayload⟩ := Tensor.ofPayload_eq_ok.1 ht
      refine ⟨type, location, target, t, rfl, hfits, hlocate, ?_, htype, hpayload, hm.symm⟩
      unfold fetch at hfetch
      split at hfetch
      · next hget => exact hget.trans (congrArg some (Except.ok.inj hfetch))
      · cases hfetch

theorem SlotsFit.set_slot {a : Artifact} {m : Memory α} (h : SlotsFit a m) {k : Nat}
    {t target : Tensor α} (htarget : m.slots[k]? = some target) (ht : t.type = target.type) :
    SlotsFit a { m with slots := m.slots.set k t } := by
  intro i s hs
  obtain ⟨t', ht', htype⟩ := h i s hs
  by_cases hi : k = i
  · subst hi
    obtain rfl := Option.some.inj (htarget.symm.trans ht')
    exact ⟨t, List.getElem?_set_self (List.getElem?_eq_some_iff.1 htarget).1, ht.trans htype⟩
  · exact ⟨t', by rw [List.getElem?_set_ne hi, ht'], htype⟩

theorem set_slots {location : Location} (h : ∀ k, location ≠ .slot k) (m : Memory α)
    (t : Tensor α) : (m.set t location).slots = m.slots := by
  cases location
  case slot k => exact absurd rfl (h k)
  all_goals rfl

/-- Outside the slots two memories that persist alike hold the same. -/
theorem get?_of_persistent {m m' : Memory α} (h : m.persistent = m'.persistent) {location : Location}
    (hno : ∀ k, location ≠ .slot k) : m.get? location = m'.get? location := by
  simp only [persistent, Persistent.mk.injEq] at h
  obtain ⟨hvars, hbindings, hstate⟩ := h
  cases location
  case slot k => exact absurd rfl (hno k)
  all_goals simp only [get?, hvars, hbindings, hstate]

theorem SlotsFit.set_persistent {a : Artifact} {m : Memory α} (h : SlotsFit a m)
    {location : Location} (hno : ∀ k, location ≠ .slot k) (t : Tensor α) :
    SlotsFit a (m.set t location) := by
  intro i s hs
  rw [set_slots hno]
  exact h i s hs

end Memory

end TensorCompiler
