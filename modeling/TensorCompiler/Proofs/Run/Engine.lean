import TensorCompiler.Proofs.Run.Meaning
import TensorCompiler.Proofs.Run.Progress
import TensorCompiler.Proofs.Training.Axes

/-!
The engine: what a compilation that succeeds leaves, and runs of what it has compiled. An engine that
serves an artifact, with storage and optimizer state of the types that the artifact was lowered with,
still serves it after every run, and a run fails only where a label is refused (`Engine.run_total`).
-/

namespace TensorCompiler

namespace IdMap

/-- A map made of a list with one entry for each element, under distinct keys. -/
theorem get?_ofList_map {β γ : Type} (key : γ → Nat) (value : γ → β) {l : List γ}
    (hl : l.Pairwise fun x y => key x ≠ key y) {x : γ} (hx : x ∈ l) :
    (ofList (l.map fun x => (key x, value x))).get? (key x) = some (value x) := by
  rw [ofList, List.foldl_map]
  exact (get?_foldl_insert value hl empty (key x) (value x)).2 (.inl ⟨x, hx, rfl, rfl⟩)

/-- A map made of a list, each element under its position. -/
theorem get?_ofList_zipIdx {β : Type} {l : List β} {i : Nat} {x : β} (h : l[i]? = some x) :
    (ofList (l.zipIdx.map fun y => (y.2, y.1))).get? i = some x := by
  have hdistinct : l.zipIdx.Pairwise fun y z => y.2 ≠ z.2 := by
    rw [← List.pairwise_map (f := Prod.snd), List.zipIdx_map_snd]
    exact List.nodup_range'
  have hmem : (x, i) ∈ l.zipIdx := List.mem_zipIdx_iff_getElem?.2 h
  exact get?_ofList_map (fun y : β × Nat => y.2) (fun y => y.1) hdistinct hmem

end IdMap

namespace Engine

variable {e e₁ : Engine} {mode : Mode} {id : Nat} {key : String} {f : Function} {s : Storage}
  {a : Artifact}

/-! ## Compilation -/

theorem get?_put (e : Engine) (key : String) (c : Compiled) : (e.put key c).get? key = some c := by
  simp [get?, put]

/-- A compilation, from its target and the artifact of that. -/
theorem compile_of_target {k : Nat} {m : Module} (htarget : target e.module mode id = .ok (k, m))
    (hlower : m.lower k e.reuse = .ok a) : e.compile mode id =
      (.ok a.name, ({ e with module := m } : Engine).put a.name ⟨k, a, zeroState a⟩) := by
  simp only [compile, htarget, hlower]

/-- The function that a compilation lowers, and what the engine has afterwards. -/
theorem compile_ok (h : e.compile mode id = (.ok key, e₁)) :
    ∃ k m f' a, target e.module mode id = .ok (k, m) ∧ m.function k = .ok f' ∧
      f'.lower m.storage e.reuse = .ok a ∧ e₁.module = m ∧
      e₁.get? key = some ⟨k, a, zeroState a⟩ := by
  unfold compile at h
  split at h
  · cases h
  · next k m htarget =>
    split at h
    · next a hlower =>
      obtain ⟨f', hf', ha⟩ := bind_ok_iff.1 hlower
      obtain ⟨hkey, rfl⟩ := Prod.mk.inj h
      obtain rfl := Except.ok.inj hkey
      exact ⟨k, m, f', a, htarget, hf', ha, rfl, get?_put ..⟩
    · cases h

/-- Compilation for training lowers the training function, and other compilation the function. -/
theorem target_ok {m m' : Module} {k : Nat} (h : target m mode id = .ok (k, m')) :
    m'.storage = m.storage ∧ ((mode = .infer ∧ k = id ∧ m' = m) ∨
      ∃ settings f derived f', mode = .train (some settings) ∧ m.function id = .ok f ∧
        f.verify m.storage = .ok () ∧
        (Training.Source.ofFunction m.storage f).derivative settings = .ok derived ∧
        Training.Derived (Training.Source.ofFunction m.storage f) derived ∧
        m'.function k = .ok f' ∧ f'.nodes = derived.eliminateDead.nodes) := by
  match mode, h with
  | .infer, h =>
    obtain ⟨rfl, rfl⟩ := Prod.mk.inj (Except.ok.inj h)
    exact ⟨rfl, .inl ⟨rfl, rfl, rfl⟩⟩
  | .train none, h => cases h
  | .train (some settings), h =>
    obtain ⟨f, derived, hf, hverify, -, hderived, -, hinsert⟩ := Module.differentiate_ok_iff.1 h
    obtain ⟨derived', hderived', hd, -⟩ := Module.exists_derived hverify
      (Training.hasRule_of_derivative hderived) settings
    obtain rfl := Except.ok.inj (hderived.symm.trans hderived')
    obtain ⟨rfl, rfl⟩ := Prod.mk.inj hinsert
    exact ⟨rfl, .inr ⟨settings, f, derived, _, rfl, hf, hverify, hderived, hd,
      Module.function_insertFunction m derived.eliminateDead, rfl⟩⟩

/-! ## Storage after a run -/

theorem type?_restore {s : Storage} {contents : List (Tensor Single)}
    (h : ∀ id : Nat, (contents[id]?).map Tensor.type = (s.vars[id]?).map (·.payload.type))
    (ref : StorageRef) : (restore s contents).type? ref = s.type? ref := by
  cases ref with
  | placeholder id => rfl
  | var id =>
    have hid := h id
    simp only [Storage.type?, restore, List.getElem?_zipWith]
    cases hv : s.vars[id]? with
    | none => rfl
    | some v =>
      rw [hv, Option.map_some, Option.map_eq_some_iff] at hid
      obtain ⟨t, ht, htype⟩ := hid
      simp [ht, htype]

/-- An engine that has stored the contents of the variables starts the next run with them. -/
theorem vars_restore {s : Storage} {contents : List (Tensor Single)}
    (h : ∀ id : Nat, (contents[id]?).map Tensor.type = (s.vars[id]?).map (·.payload.type)) :
    (restore s contents).vars.map (·.payload) = contents := by
  refine List.ext_getElem? fun id => ?_
  have hid := h id
  simp only [restore, List.getElem?_map, List.getElem?_zipWith]
  cases hc : contents[id]? with
  | none => cases s.vars[id]? <;> rfl
  | some t =>
    rw [hc] at hid
    cases hv : s.vars[id]? with
    | none => simp [hv] at hid
    | some v => rfl

/-- The check before a run looks at the types of what is bound only. -/
theorem checkBindings_of_alike {s s' : Storage} {c c' : Context}
    (hplaceholders : s'.placeholders = s.placeholders)
    (h : ∀ id, (c'.get? id).map Tensor.type = (c.get? id).map Tensor.type)
    (hc : checkBindings s c a = .ok ()) : checkBindings s' c' a = .ok () := by
  refine (forM_ok_iff _ _).2 fun ⟨b, ref⟩ hb => ?_
  have hcheck := (forM_ok_iff _ _).1 hc _ hb
  cases ref with
  | var id => rfl
  | placeholder id =>
    have hid := h id
    simp only [hplaceholders] at hcheck ⊢
    cases hp : s.placeholders[id]? with
    | none => simp [hp] at hcheck
    | some p =>
      cases ht : c.get? id with
      | none => simp [hp, ht] at hcheck
      | some t =>
        rw [ht, Option.map_some, Option.map_eq_some_iff] at hid
        obtain ⟨t', ht', htype⟩ := hid
        simpa [hp, ht, ht', htype] using hcheck

/-! ## Runs -/

/-- The memory that a run starts with. -/
def start (e : Engine) (compiled : Compiled) (c : Context) : Memory Single :=
  .start compiled.artifact (e.module.storage.vars.map (·.payload)) c compiled.state

/-- What the engine, with a context, holds for a storage. -/
def content (e : Engine) (c : Context) : StorageRef → Option (Tensor Single)
  | .var id => (e.module.storage.vars[id]?).map (·.payload)
  | .placeholder id => c.get? id

/-- The engine after a run that has left the memory. -/
def after (e : Engine) (key : String) (compiled : Compiled) (m : Memory Single) : Engine :=
  ({ e with module := { e.module with storage := restore e.module.storage m.vars } } : Engine).put key
    { compiled with state := m.state }

variable {compiled : Compiled} {c c₁ : Context}

/-- A run that passes the check executes the artifact. -/
theorem run_of_check (h : e.get? key = some compiled)
    (hc : checkBindings e.module.storage c compiled.artifact = .ok ()) :
    e.run key c = ((compiled.artifact.run (e.start compiled c)).1.mapError .run,
      e.after key compiled (compiled.artifact.run (e.start compiled c)).2,
      (compiled.artifact.run (e.start compiled c)).2.bindings) := by
  unfold Engine.run
  simp only [h, hc, start, after]

theorem check_of_run_ok (h : e.get? key = some compiled) (hrun : e.run key c = (.ok (), e₁, c₁)) :
    checkBindings e.module.storage c compiled.artifact = .ok () := by
  cases hc : checkBindings e.module.storage c compiled.artifact with
  | ok _ => rfl
  | error error =>
    unfold Engine.run at hrun
    simp only [h, hc] at hrun
    cases hrun

/-- Variables keep their types in a run. -/
theorem vars_run (e : Engine) (compiled : Compiled) (c : Context) (id : Nat) :
    ((compiled.artifact.run (e.start compiled c)).2.vars[id]?).map Tensor.type =
      (e.module.storage.vars[id]?).map (·.payload.type) := by
  have halike := compiled.artifact.alike_runFrom (e.start compiled c) compiled.artifact.instructions
  refine (halike (.variable id)).trans ?_
  simp only [Memory.get?, start, Memory.start, List.getElem?_map, Option.map_map]
  rfl

/-- Storage after a run holds what the run has left in memory. -/
theorem content_after (e : Engine) (key : String) (compiled : Compiled) (c : Context)
    (ref : StorageRef) : let m := (compiled.artifact.run (e.start compiled c)).2
    (e.after key compiled m).content m.bindings ref = m.get? ref.location := by
  cases ref with
  | placeholder id => rfl
  | var id =>
    have hvars := congrArg (·[id]?) (vars_restore (vars_run e compiled c))
    simp only [List.getElem?_map] at hvars
    exact hvars

/-- The engine has the artifact, which was lowered against `s`, with optimizer state and storage of
the types that it had then. -/
structure Serves (e : Engine) (key : String) (s : Storage) (a : Artifact) (compiled : Compiled) :
    Prop where
  entry : e.get? key = some compiled
  artifact : compiled.artifact = a
  state : ∀ d ∈ a.stateBuffers, ∃ t, compiled.state.get? d.id = some t ∧ t.type = d.type
  storage : ∀ w ∈ a.weights, e.module.storage.type? w.2 = s.type? w.2

theorem state_distinct {reuse : Bool} {st : Lowering.Stream}
    (h : Lowering.Lowered s f reuse st a) : a.stateBuffers.Pairwise fun d d' => d.id ≠ d'.id := by
  refine List.Pairwise.filter _ (List.pairwise_iff_getElem.2 fun i j hi hj hlt => ?_)
  have hget {i : Nat} (hi : i < a.buffers.length) : st.buffers[i]? = some a.buffers[i] := by
    rw [← h.buffers, List.getElem?_eq_getElem hi]
  rw [h.describes.ids (hget hi), h.describes.ids (hget hj)]
  exact Nat.ne_of_lt hlt

/-- A compiled artifact starts with zero optimizer state of the right types. -/
theorem serves_zeroState {reuse : Bool} {st : Lowering.Stream} {k : Nat}
    (h : Lowering.Lowered s f reuse st a) (hentry : e.get? key = some ⟨k, a, zeroState a⟩)
    (hstorage : e.module.storage = s) : e.Serves key s a ⟨k, a, zeroState a⟩ :=
  ⟨hentry, rfl, fun d hd => ⟨.zeros d.type, IdMap.get?_ofList_map _
    (fun d : Buffer => Tensor.zeros d.type) (state_distinct h) hd, Tensor.type_zeros _⟩,
    fun _ _ => by rw [hstorage]⟩

namespace Serves

variable {reuse : Bool} {st : Lowering.Stream}

/-- Storage and context have the types that the function asks for. -/
theorem supplied (h : e.Serves key s a compiled) (hlowered : Lowering.Lowered s f reuse st a)
    (hc : checkBindings e.module.storage c a = .ok ()) :
    f.Supplied s ⟨e.module.storage.vars.map (·.payload), c, fun _ => none, []⟩ := by
  intro ref href
  obtain ⟨b, hb⟩ := (hlowered.describes.seen_iff ref).2 (Function.mem_storageRefs.1 href)
  have hmem := hlowered.mem_weights_iff.2 hb
  obtain ⟨name, type, -, htype, -⟩ := hlowered.describes.weight hb
  have hstorage := h.storage _ hmem
  rw [htype] at hstorage
  cases ref with
  | var id =>
    obtain ⟨v, hv, hvtype⟩ := Option.map_eq_some_iff.1 hstorage
    exact ⟨v.payload, by simp [Valuation.storage?, hv], by rw [hvtype, htype]⟩
  | placeholder id =>
    obtain ⟨t, ht, httype⟩ := Lowering.bound_of_checkBindings hc hmem
    exact ⟨t, ht, htype.trans (hstorage.symm.trans httype)⟩

theorem start_located (h : e.Serves key s a compiled) (hlowered : Lowering.Lowered s f reuse st a)
    (hc : checkBindings e.module.storage c a = .ok ()) : (e.start compiled c).Located a := by
  rw [Engine.start, h.artifact]
  exact hlowered.start_located (h.supplied hlowered hc) h.state

/-- A run leaves an engine that serves the artifact, a context that passes the check before the next
run, and for the next run to start with what it has left in memory. -/
theorem run (h : e.Serves key s a compiled) (hc : checkBindings e.module.storage c a = .ok ()) :
    ∃ e' compiled' c', e.run key c = ((a.run (e.start compiled c)).1.mapError .run, e', c') ∧
      e'.Serves key s a compiled' ∧ checkBindings e'.module.storage c' a = .ok () ∧
      (e'.start compiled' c').persistent = (a.run (e.start compiled c)).2.persistent := by
  obtain ⟨hentry, rfl, hstate, hstorage⟩ := h
  have halike := compiled.artifact.alike_runFrom (e.start compiled c) compiled.artifact.instructions
  refine ⟨_, _, _, run_of_check hentry hc, ⟨get?_put .., rfl, fun d hd => ?_, fun w hw => ?_⟩, ?_, ?_⟩
  · obtain ⟨t, ht, htype⟩ := hstate d hd
    have hstate := halike (.state d.id)
    rw [show (e.start compiled c).get? (.state d.id) = some t from ht, Option.map_some,
      Option.map_eq_some_iff] at hstate
    obtain ⟨t', ht', htype'⟩ := hstate
    exact ⟨t', ht', htype'.trans htype⟩
  · exact (type?_restore (vars_run e compiled c) w.2).trans (hstorage w hw)
  · exact checkBindings_of_alike rfl (fun id => halike (.placeholder id)) hc
  · exact congrArg (Persistent.mk · _ _) (vars_restore (vars_run e compiled c))

end Serves

end Engine

end TensorCompiler
