import TensorCompiler.Proofs.Run.Engine
import TensorCompiler.Proofs.Training.Differentiate

/-!
Functions that are kept sound: every node is well typed over the storage of the module, and every
use-list is the list of readers. A new node, the removal of dead nodes, differentiation, and storage
that grows keep a function sound. The one thing verification can find wrong with a sound function is a
dead node (`Function.Sound.verify_iff`).
-/

namespace TensorCompiler

/-! ## Storage -/

/-- What has a type in `s` has the same type in `s'`. -/
def Storage.KeepsTypes (s s' : Storage) : Prop :=
  ∀ ⦃ref : StorageRef⦄ ⦃type : TensorType⦄, s.type? ref = some type → s'.type? ref = some type

namespace Storage

variable {s s' s'' : Storage}

theorem KeepsTypes.trans (h : s.KeepsTypes s') (h' : s'.KeepsTypes s'') : s.KeepsTypes s'' :=
  fun _ _ htype => h' (h htype)

theorem keepsTypes_of_eq (h : ∀ ref, s'.type? ref = s.type? ref) : s.KeepsTypes s' :=
  fun ref _ htype => (h ref).trans htype

theorem keepsTypes_addVariable (s : Storage) (name : String) (payload : Tensor Single)
    (isPublic trainable : Bool) : s.KeepsTypes (s.addVariable name payload isPublic trainable) := by
  intro ref type htype
  cases ref with
  | placeholder id => exact htype
  | var id =>
    obtain ⟨v, hv, hvtype⟩ := Option.map_eq_some_iff.1 htype
    refine Option.map_eq_some_iff.2 ⟨v, ?_, hvtype⟩
    exact (List.getElem?_append_left (List.getElem?_eq_some_iff.1 hv).1).trans hv

theorem keepsTypes_addPlaceholder (s : Storage) (name : String) (t : TensorType)
    (trainable : Bool) : s.KeepsTypes (s.addPlaceholder name t trainable) := by
  intro ref type htype
  cases ref with
  | var id => exact htype
  | placeholder id =>
    obtain ⟨p, hp, hptype⟩ := Option.map_eq_some_iff.1 htype
    refine Option.map_eq_some_iff.2 ⟨p, ?_, hptype⟩
    exact (List.getElem?_append_left (List.getElem?_eq_some_iff.1 hp).1).trans hp

/-- A change of one variable that leaves its type. -/
theorem keepsTypes_modify {id : Nat} {change : Variable → Variable}
    (h : ∀ v, s.vars[id]? = some v → (change v).payload.type = v.payload.type) :
    s.KeepsTypes { s with vars := s.vars.modify id change } := by
  refine keepsTypes_of_eq fun ref => ?_
  cases ref with
  | placeholder i => rfl
  | var i =>
    simp only [type?, List.getElem?_modify]
    by_cases hi : id = i
    · subst hi
      cases hv : s.vars[id]? with
      | none => rfl
      | some v => simp [h v hv]
    · simp [hi]

end Storage

theorem Typing.Typed.mono {s s' : Storage} (hs : s.KeepsTypes s') {op : Operator}
    {types results : List TensorType} (h : Typed s op types results) : Typed s' op types results := by
  cases h with
  | save ref x hx => exact .save ref x (hs hx)
  | _ => constructor <;> assumption

/-! ## Functions -/

namespace Function

variable {s s' : Storage} {f : Function}

theorem OperandType.of_storage (hs : s.KeepsTypes s') {i : Nat} {v : Value} {type : TensorType}
    (h : OperandType s f i v type) : OperandType s' f i v type := by
  cases v with
  | node j r => exact h
  | storage ref => exact hs h

theorem WellTyped.of_storage (hs : s.KeepsTypes s') {i : Nat} {n : Node} {types : List TensorType}
    (h : WellTyped s f i n types) : WellTyped s' f i n types :=
  ⟨h.arity, h.operands.imp fun _ _ ht => ht.of_storage hs, h.weight,
    Typing.resultTypes_of_typed (h.typed.mono hs)⟩

/-- Well typed over the storage, with the readers of every node on its use-list. -/
structure Sound (s : Storage) (f : Function) : Prop where
  arena : f.Arena s
  wired : f.Wired

theorem sound_nil (s : Storage) (name : String) : Sound s { name, nodes := [] } :=
  ⟨nofun, nofun⟩

namespace Sound

theorem of_storage (h : f.Sound s) (hs : s.KeepsTypes s') : f.Sound s' := by
  refine ⟨fun i n hn => ?_, h.wired⟩
  obtain ⟨types, hwt⟩ := h.arena hn
  exact ⟨types, hwt.of_storage hs⟩

theorem rename (h : f.Sound s) (name : String) : Sound s { f with name } :=
  ⟨h.arena.rename name, h.wired⟩

theorem append (h : f.Sound s) {f' : Function} {name : String} {op : Operator}
    {inputs : List Value} (hf : f.append s name op inputs = .ok f') : f'.Sound s := by
  obtain ⟨types, n, htypes, rfl, rfl, hweight, htyped, -, rfl⟩ := append_ok hf
  exact ⟨h.arena.append htypes hweight htyped,
    h.wired.push h.arena.readsEarlier (producers_lt_size htypes)⟩

theorem eliminateDead (h : f.Sound s) : f.eliminateDead.Sound s :=
  ⟨h.arena.eliminateDead, h.wired.eliminateDead h.arena.readsEarlier⟩

theorem derivative (h : f.Sound s) (hverify : f.verify s = .ok ()) {settings : Descent}
    {derived : Function}
    (hderived : (Training.Source.ofFunction s f).derivative settings = .ok derived) :
    derived.Sound s := by
  obtain ⟨derived', hderived', hd, -⟩ :=
    Module.exists_derived hverify (Training.hasRule_of_derivative hderived) settings
  obtain rfl := Except.ok.inj (hderived.symm.trans hderived')
  exact ⟨hd.draft.arena, hd.draft.wired h.wired⟩

theorem verify_eliminateDead (h : f.Sound s) : f.eliminateDead.verify s = .ok () :=
  h.arena.verify_eliminateDead h.wired.linked

/-- Verification accepts a sound function exactly when elimination removes no node. -/
theorem verify_iff (h : f.Sound s) : f.verify s = .ok () ↔ f.deadCount = 0 := by
  have hle : f.eliminateDead.size ≤ f.size := by
    rw [size_eliminateDead]
    exact List.countP_le_length.trans_eq (List.length_range ..)
  have hcount : f.deadCount = 0 ↔ f.eliminateDead.size = f.size := by
    rw [deadCount]
    omega
  rw [hcount]
  constructor
  · intro hverify
    exact size_eliminateDead_eq_iff.2 fun i hi =>
      live_of_verify hverify (List.prefix_refl _) h.arena hi
  · intro hsize
    rw [← h.arena.readsEarlier.eliminateDead_eq hsize]
    exact h.verify_eliminateDead

end Sound

end Function

end TensorCompiler
