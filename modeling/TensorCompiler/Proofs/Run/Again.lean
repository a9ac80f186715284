import TensorCompiler.Proofs.Run.Engine
import TensorCompiler.Proofs.Run.Reuse
import TensorCompiler.Proofs.Run.Views

/-!
Runs of the same artifact one after the other. A run leaves all storage that its function does not write.
If what it writes is never read, a second run sees at every instruction what the first has seen, so it
ends as the first does and leaves everything as it is (`Engine.run_keeps`).
-/

namespace TensorCompiler

variable {α : Type} {a : Artifact}

/-! ## Memories -/

namespace Memory

variable {p q p₁ q₁ p' q' m : Memory α}

theorem ext_get? (h : ∀ location, q.get? location = p.get? location) : q = p := by
  have hslots : q.slots = p.slots := slots_congr fun k => h (.slot k)
  have hkept : q.persistent = p.persistent := persistent_congr fun location _ => h location
  obtain ⟨hvars, hbindings, hstate⟩ := Persistent.mk.inj hkept
  cases p
  cases q
  subst hslots hvars hbindings hstate
  rfl

/-- The same has been done to both memories: where `q'` and `p'` do not hold the same, they hold what `q`
and `p` did. -/
def Follows (q p q' p' : Memory α) : Prop :=
  ∀ location, q'.get? location = p'.get? location ∨
    q'.get? location = q.get? location ∧ p'.get? location = p.get? location

theorem Follows.refl (q p : Memory α) : Follows q p q p := fun _ => .inr ⟨rfl, rfl⟩

theorem Follows.trans (h : Follows q p q₁ p₁) (h' : Follows q₁ p₁ q' p') : Follows q p q' p' := by
  intro location
  rcases h' location with heq | ⟨hq, hp⟩
  · exact .inl heq
  · rw [hq, hp]
    exact h location

/-- Memories alike take or refuse a store together. -/
theorem store_follows (halike : Alike p q) (b : Nat) (v : Payload α) :
    (∃ e, p.store a b v = .error e ∧ q.store a b v = .error e) ∨
      ∃ p' q', p.store a b v = .ok p' ∧ q.store a b v = .ok q' ∧ Follows q p q' p' := by
  cases htype : a.typeOf b with
  | error e =>
    refine .inl ⟨e, ?_, ?_⟩ <;> · rw [store, htype]; rfl
  | ok type =>
    cases hv : Tensor.ofPayload type v with
    | error e => exact .inl ⟨_, store_of_misfit htype hv, store_of_misfit htype hv⟩
    | ok t₀ =>
      have hfits := Tensor.fits_of_ofPayload hv
      rw [store_of_fits htype hfits, store_of_fits htype hfits]
      cases hlocate : a.locate b with
      | error e => exact .inl ⟨e, rfl, rfl⟩
      | ok location =>
        have hlocation := halike location
        cases hp : p.get? location with
        | none =>
          rw [hp, Option.map_none, Option.map_eq_none_iff] at hlocation
          exact .inl ⟨.notMaterialised location, by simp only [bind, Except.bind, fetch, hp],
            by simp only [bind, Except.bind, fetch, hlocation]⟩
        | some target =>
          rw [hp, Option.map_some, Option.map_eq_some_iff] at hlocation
          obtain ⟨target', hq, hsame⟩ := hlocation
          -- what is stored depends on the type of the target only
          cases ht : Tensor.ofPayload target.type v with
          | error e =>
            refine .inl ⟨.tensor e, ?_, ?_⟩
            · simp only [bind, Except.bind, fetch, hp, Tensor.withPayload, ht, Except.mapError]
            · simp only [bind, Except.bind, fetch, hq, Tensor.withPayload, hsame, ht, Except.mapError]
          | ok t =>
            refine .inr ⟨p.set t location, q.set t location, ?_, ?_, fun location' => ?_⟩
            · simp only [bind, Except.bind, fetch, hp, Tensor.withPayload, ht, Except.mapError]
              rfl
            · simp only [bind, Except.bind, fetch, hq, Tensor.withPayload, hsame, ht, Except.mapError]
              rfl
            · rw [get?_set hp, get?_set hq]
              by_cases heq : location' = location
              · exact .inl (by rw [if_pos heq, if_pos heq])
              · exact .inr ⟨if_neg heq, if_neg heq⟩

end Memory

open Memory

/-! ## Instructions -/

variable {p q m : Memory α}

theorem Instruction.commit_follows (halike : Alike p q) (ws : List (Nat × Payload α)) :
    (commit a q ws).1 = (commit a p ws).1 ∧ Follows q p (commit a q ws).2 (commit a p ws).2 := by
  induction ws generalizing p q with
  | nil => exact ⟨rfl, .refl q p⟩
  | cons w ws ih =>
    rcases store_follows (a := a) halike w.1 w.2 with ⟨e, hp, hq⟩ | ⟨p₁, q₁, hp, hq, hfollows⟩
    · simp only [commit, hp, hq]
      exact ⟨trivial, .refl q p⟩
    · have halike₁ : Alike p₁ q₁ :=
        (Alike.of_store hp).symm.trans (halike.trans (Alike.of_store hq))
      obtain ⟨hresult, hrest⟩ := ih halike₁
      simp only [commit, hp, hq]
      exact ⟨hresult, hfollows.trans hrest⟩

/-- An instruction that reads the same in memories alike ends the same. -/
theorem Instruction.execute_follows [Scalar α] {x : Instruction} (halike : Alike p q)
    (hsources : ∀ b ∈ x.sources, ∀ location, a.locate b = .ok location →
      q.get? location = p.get? location) :
    (x.execute a q).1 = (x.execute a p).1 ∧ Follows q p (x.execute a q).2 (x.execute a p).2 := by
  have heffects : x.effects a q = x.effects a p :=
    effects_congr (fun _ _ => rfl) fun b hb => read_congr rfl (source_congr (hsources b hb))
  unfold execute
  rw [heffects]
  cases x.effects a p with
  | error e => exact ⟨rfl, .refl q p⟩
  | ok ws =>
    obtain ⟨hresult, hfollows⟩ := commit_follows (a := a) halike ws
    exact ⟨congrArg (Except.mapError _) hresult, hfollows⟩

/-! ## Runs -/

namespace Artifact

variable [Scalar α]

/-- A run that is ahead of another at some locations, with what the other will have left there, and that
does not read them, ends the same. -/
theorem runFrom_again {xs : List Instruction} (hahead : ∀ location,
      q.get? location = p.get? location ∨ q.get? location = (a.runFrom p xs).2.get? location ∧
        ∀ x ∈ xs, ∀ b ∈ x.sources, a.locate b ≠ .ok location) :
    a.runFrom q xs = a.runFrom p xs := by
  induction xs generalizing p q with
  | nil =>
    have heq : q = p := ext_get? fun location => (hahead location).elim id And.left
    rw [heq]
  | cons x xs ih =>
    have halike : Alike p q := by
      intro location
      rcases hahead location with heq | ⟨heq, -⟩ <;> rw [heq]
      exact a.alike_runFrom p (x :: xs) location
    have hsources : ∀ b ∈ x.sources, ∀ location, a.locate b = .ok location →
        q.get? location = p.get? location := fun b hb location hlocate =>
      (hahead location).elim id fun h => absurd hlocate (h.2 x List.mem_cons_self b hb)
    obtain ⟨hresult, hfollows⟩ := Instruction.execute_follows halike hsources
    rcases hp : x.execute a p with ⟨r, p'⟩
    rcases hq : x.execute a q with ⟨r', q'⟩
    rw [hp, hq] at hresult hfollows
    obtain rfl : r' = r := hresult
    cases r' with
    | error fault =>
      have hrun : a.runFrom p (x :: xs) = (.error fault, p') := by rw [runFrom, hp]
      rw [hrun] at hahead ⊢
      rw [runFrom, hq]
      refine congrArg _ (ext_get? fun location => ?_)
      rcases hfollows location with heq | ⟨hq', hp'⟩
      · exact heq
      · rcases hahead location with heq | ⟨heq, -⟩
        · exact hq'.trans (heq.trans hp'.symm)
        · exact hq'.trans heq
    | ok _ =>
      rw [runFrom_cons hp] at hahead
      rw [runFrom_cons hp, runFrom_cons hq]
      refine ih fun location => ?_
      rcases hfollows location with heq | ⟨hq', hp'⟩
      · exact .inl heq
      · rcases hahead location with heq | ⟨heq, hunread⟩
        · exact .inl (hq'.trans (heq.trans hp'.symm))
        · exact .inr ⟨hq'.trans heq, fun y hy => hunread y (List.mem_cons_of_mem _ hy)⟩

/-- Where no instruction stores into what an instruction reads, slots apart, a second run ends as the
first one and leaves everything as it is. -/
theorem startOn_again {xs : List Instruction} (hapart : ∀ x ∈ xs, ∀ d ∈ x.targets, ∀ y ∈ xs,
      ∀ b ∈ y.sources, ∀ location, a.locate d = .ok location → a.locate b = .ok location →
        ∃ k, location = .slot k) (p : Persistent α) :
    a.runFrom (a.startOn (a.runFrom (a.startOn p) xs).2.persistent) xs =
      a.runFrom (a.startOn p) xs := by
  refine runFrom_again fun location => ?_
  by_cases hslot : ∃ k, location = .slot k
  · obtain ⟨k, rfl⟩ := hslot
    exact .inl rfl
  · have hkept : (a.startOn (a.runFrom (a.startOn p) xs).2.persistent).get? location =
        (a.runFrom (a.startOn p) xs).2.get? location := by
      refine get?_of_persistent ?_ fun k heq => hslot ⟨k, heq⟩
      rfl
    by_cases hstored : ∃ x ∈ xs, ∃ d ∈ x.targets, a.locate d = .ok location
    · obtain ⟨x, hx, d, hd, hlocate⟩ := hstored
      exact .inr ⟨hkept, fun y hy b hb hb' => hslot (hapart x hx d hd y hy b hb location hlocate hb')⟩
    · refine .inl (hkept.trans (runFrom_frame fun x hx d hd hlocate => ?_))
      exact hstored ⟨x, hx, d, hd, hlocate⟩

end Artifact

/-! ## Functions -/

/-- What a value that a node reads shows is an operand too: of the first of the reshapes. -/
theorem Function.Shows.exists_reader {f : Function} {v w : Value} (h : f.Shows v w) :
    ∀ {n : Node}, n ∈ f.nodes → v ∈ n.inputs → ∃ n' ∈ f.nodes, w ∈ n'.inputs := by
  induction h with
  | self v => exact fun {n} hn hv => ⟨n, hn, hv⟩
  | reshape hget _ hin _ ih =>
    exact fun {n} _ _ => ih (List.mem_of_getElem? hget) (hin ▸ List.mem_singleton_self _)

namespace Lowering.Lowered

open TensorCompiler.Lowering.Stream

variable {s : Storage} {f : Function} {reuse : Bool} {st : Stream} {ref : StorageRef}

/-- An operation reads where a storage is only if the storage is an operand. -/
theorem reads_of_source (h : Lowered s f reuse st a) {j : Nat} {x : Instruction}
    (hx : a.operations[j]? = some x) {b : Nat} (hb : b ∈ x.sources)
    (hlocate : a.locate b = .ok ref.location) : ∃ n ∈ f.nodes, .storage ref ∈ n.inputs := by
  rw [h.operations_eq] at hx
  obtain ⟨n, types, hn, hwt, he⟩ := h.emitted hx
  rcases source_of_emits hwt hx he hb with ⟨v, hv, hbuf⟩ | hm
  · rcases shown_cases h.verified h.describes hbuf with ⟨ref', hshows, hw⟩ | ⟨l, hl, hroot, -⟩
    · obtain rfl : ref' = ref :=
        StorageRef.location_injective (Except.ok.inj ((h.locate_shown hw).symm.trans hlocate))
      exact hshows.exists_reader (List.mem_of_getElem? hn) hv
    · obtain ⟨slot, hslot⟩ := h.exists_slot hl
      exact absurd (Except.ok.inj ((hslot.located hroot).symm.trans hlocate)).symm
        (ref.location_ne_slot slot)
  · exact absurd (Except.ok.inj ((h.locate_momentum hm).symm.trans hlocate)).symm
      (ref.location_ne_state b)

/-- A run leaves storage that no node writes, also when it fails. -/
theorem get?_run [Scalar α] (h : Lowered s f reuse st a)
    (hunwritten : ∀ n ∈ f.nodes, ¬ Function.Writes n ref) (m : Memory α) :
    (a.run m).2.get? ref.location = m.get? ref.location := by
  rw [h.run_eq]
  refine Artifact.runFrom_frame fun x hx b hb hlocate => ?_
  obtain ⟨j, hj⟩ := List.mem_iff_getElem?.1 hx
  obtain ⟨n, hn, hwrites⟩ := h.writes_of_target hj hb hlocate
  exact hunwritten n (List.mem_of_getElem? hn) hwrites

/-- Without steps of descent, and if no node reads what another saves to, what operations store outside
the slots is not read. -/
theorem apart_of_unread (h : Lowered s f reuse st a) (hforward : ∀ n ∈ f.nodes, ∀ p, n.op ≠ .sgd p)
    (hunread : ∀ n ∈ f.nodes, ∀ ref, n.op = .save ref → ∀ n' ∈ f.nodes, .storage ref ∉ n'.inputs)
    {x y : Instruction} (hx : x ∈ a.operations) (hy : y ∈ a.operations) {d b : Nat}
    (hd : d ∈ x.targets) (hb : b ∈ y.sources) {location : Location}
    (hlocated : a.locate d = .ok location) (hlocate : a.locate b = .ok location) :
    ∃ k, location = .slot k := by
  obtain ⟨i, hi⟩ := List.mem_iff_getElem?.1 hx
  obtain ⟨j, hj⟩ := List.mem_iff_getElem?.1 hy
  rcases h.target_cases (h.operations_eq ▸ hi) hd with ⟨l, hl, rfl, -⟩ | ⟨-, location', hdata⟩
  · obtain ⟨slot, hslot⟩ := h.exists_slot hl
    exact ⟨slot, Except.ok.inj (hlocated.symm.trans (hslot.located (h.root_self hl)))⟩
  · cases hdata with
    | @storage ref hw =>
      obtain rfl : ref.location = location :=
        Except.ok.inj ((h.locate_shown hw).symm.trans hlocated)
      obtain ⟨n, hn, hsave | ⟨p, hsgd, -⟩⟩ := h.writes_of_target hi hd hlocated
      · obtain ⟨n', hn', hread⟩ := h.reads_of_source hj hb hlocate
        exact absurd hread (hunread n (List.mem_of_getElem? hn) ref hsave n' hn')
      · exact absurd hsgd (hforward n (List.mem_of_getElem? hn) p)
    | state hm =>
      obtain ⟨p, o₁, o₂, hsgd⟩ := hm
      obtain ⟨n, types, hn, -, he⟩ := h.emitted hsgd
      exact absurd (he.sgd rfl) (hforward n (List.mem_of_getElem? hn) p)

theorem run_again [Scalar α] (h : Lowered s f reuse st a)
    (hforward : ∀ n ∈ f.nodes, ∀ p, n.op ≠ .sgd p)
    (hunread : ∀ n ∈ f.nodes, ∀ ref, n.op = .save ref → ∀ n' ∈ f.nodes, .storage ref ∉ n'.inputs)
    (p : Persistent α) : a.run (a.startOn (a.run (a.startOn p)).2.persistent) =
      a.run (a.startOn p) := by
  simp only [h.run_eq]
  exact Artifact.startOn_again (fun x hx d hd y hy b hb _ =>
    h.apart_of_unread hforward hunread hx hy hd hb) p

end Lowering.Lowered

/-! ## Engines -/

namespace Engine

/-- Apart from what its variables hold, the module is as it was. -/
structure Declares (m m' : Module) : Prop where
  vars : m'.storage.vars.map (fun v => (v.name, v.isPublic, v.trainable)) =
    m.storage.vars.map fun v => (v.name, v.isPublic, v.trainable)
  placeholders : m'.storage.placeholders = m.storage.placeholders
  functions : m'.functions = m.functions
  next : m'.nextFunction = m.nextFunction
  generator : m'.generator = m.generator

variable {e e₁ : Engine} {key : String} {compiled : Compiled} {c c₁ : Context}
  {result : Except Error Unit}

theorem restore_restore (s : Storage) (contents : List (Tensor Single)) :
    restore (restore s contents) contents = restore s contents := by
  simp only [restore, Storage.mk.injEq, and_true]
  generalize s.vars = vars
  induction vars generalizing contents with
  | nil => rfl
  | cons v vars ih => cases contents with
    | nil => rfl
    | cons t contents => simp [ih]

/-- The engine after a run that has left what was there. -/
theorem after_after (e : Engine) (key : String) (compiled : Compiled) (m : Memory Single) :
    (e.after key compiled m).after key { compiled with state := m.state } m =
      e.after key compiled m := by
  simp [after, put, restore_restore]

theorem start_after (e : Engine) (key : String) (compiled : Compiled) (c : Context) :
    let m := (compiled.artifact.run (e.start compiled c)).2
    (e.after key compiled m).start { compiled with state := m.state } m.bindings =
      compiled.artifact.startOn m.persistent := by
  exact congrArg (Memory.start compiled.artifact · _ _) (vars_restore (vars_run e compiled c))

theorem declared_restore {s : Storage} {contents : List (Tensor Single)}
    (h : ∀ id : Nat, (contents[id]?).map Tensor.type = (s.vars[id]?).map (·.payload.type)) :
    (restore s contents).vars.map (fun v => (v.name, v.isPublic, v.trainable)) =
      s.vars.map fun v => (v.name, v.isPublic, v.trainable) := by
  refine List.ext_getElem? fun id => ?_
  have hid := h id
  simp only [restore, List.getElem?_map, List.getElem?_zipWith]
  cases hv : s.vars[id]? with
  | none => rfl
  | some v =>
    rw [hv, Option.map_some, Option.map_eq_some_iff] at hid
    obtain ⟨t, ht, -⟩ := hid
    rw [ht]
    rfl

theorem declares_after (e : Engine) (key : String) (compiled : Compiled) (c : Context) :
    Declares e.module
      (e.after key compiled (compiled.artifact.run (e.start compiled c)).2).module :=
  ⟨declared_restore (vars_run e compiled c), rfl, rfl, rfl, rfl⟩

/-- The next run, if the artifact runs from what it has left as it has run. -/
theorem run_after (hcheck : checkBindings e.module.storage c compiled.artifact = .ok ())
    (hagain : compiled.artifact.run (compiled.artifact.startOn
      (compiled.artifact.run (e.start compiled c)).2.persistent) =
        compiled.artifact.run (e.start compiled c)) :
    let (r, m) := compiled.artifact.run (e.start compiled c)
    (e.after key compiled m).run key m.bindings =
      (r.mapError .run, e.after key compiled m, m.bindings) := by
  have halike := compiled.artifact.alike_runFrom (e.start compiled c) compiled.artifact.instructions
  have hstart := e.start_after key compiled c
  have hentry : (e.after key compiled (compiled.artifact.run (e.start compiled c)).2).get? key =
      some { compiled with state := (compiled.artifact.run (e.start compiled c)).2.state } :=
    get?_put ..
  have hcheck' : checkBindings
      (e.after key compiled (compiled.artifact.run (e.start compiled c)).2).module.storage
      (compiled.artifact.run (e.start compiled c)).2.bindings compiled.artifact = .ok () :=
    checkBindings_of_alike rfl (fun id => halike (.placeholder id)) hcheck
  refine (run_of_check hentry hcheck').trans ?_
  dsimp only
  rw [hstart, hagain, after_after]
  rfl

/-- A run, whether it succeeds or fails, leaves what variables and bindings hold that the function neither
saves to nor descends on, and the types of all of them. If the function has no steps of descent and reads
no storage that it saves to, the next run ends as this one does, and leaves the engine and the context,
with everything they hold, as they are. -/
theorem run_keeps {f : Function} {s : Storage} {reuse : Bool}
    (hlower : f.lower s reuse = .ok compiled.artifact) (hentry : e.get? key = some compiled)
    (hrun : e.run key c = (result, e₁, c₁)) :
    (∀ ref, (∀ n ∈ f.nodes, ¬ Function.Writes n ref) → e₁.content c₁ ref = e.content c ref) ∧
      (∀ ref, (e₁.content c₁ ref).map Tensor.type = (e.content c ref).map Tensor.type) ∧
      Declares e.module e₁.module ∧
      ((∀ n ∈ f.nodes, ∀ p, n.op ≠ .sgd p) →
        (∀ n ∈ f.nodes, ∀ ref, n.op = .save ref → ∀ n' ∈ f.nodes, .storage ref ∉ n'.inputs) →
        e₁.run key c₁ = (result, e₁, c₁)) := by
  obtain ⟨st, -, hlowered, -⟩ := Lowering.lowered_of_lower hlower
  cases hcheck : checkBindings e.module.storage c compiled.artifact with
  | error error =>
    have hrefused : e.run key c = (.error error, e, c) := by
      unfold Engine.run
      simp only [hentry, hcheck]
    obtain ⟨rfl, rfl, rfl⟩ : _ ∧ _ ∧ _ := by
      simpa only [Prod.mk.injEq] using hrefused.symm.trans hrun
    exact ⟨fun _ _ => rfl, fun _ => rfl, ⟨rfl, rfl, rfl, rfl, rfl⟩, fun _ _ => hrefused⟩
  | ok _ =>
    have hpassed := run_of_check hentry hcheck
    obtain ⟨rfl, rfl, rfl⟩ : _ ∧ _ ∧ _ := by
      simpa only [Prod.mk.injEq] using hpassed.symm.trans hrun
    have hstart (ref : StorageRef) :
        (e.start compiled c).get? ref.location = e.content c ref := by
      cases ref with
      | placeholder id => rfl
      | var id => simp [Memory.get?, StorageRef.location, start, Memory.start, content]
    have halike := compiled.artifact.alike_runFrom (e.start compiled c) compiled.artifact.instructions
    refine ⟨fun ref href => ?_, fun ref => ?_, declares_after e key compiled c,
      fun hforward hunread => ?_⟩
    · rw [content_after, hlowered.get?_run href, hstart]
    · rw [content_after, ← hstart]
      exact halike ref.location
    · have hagain := hlowered.run_again hforward hunread
        ⟨e.module.storage.vars.map (fun v => v.payload), c, compiled.state⟩
      exact run_after hcheck hagain

end Engine

namespace Sample

/-- Saves `x`, reshaped, to `y`. -/
def flattening : Function where
  name := "flattening"
  nodes := [
    ⟨"flat", .reshape [1], [.storage (.placeholder 0)], [.float [1]]⟩,
    ⟨"keep", .save (.placeholder 1), [.node 0 0], []⟩]

/-- What `flattening` is lowered to. -/
def copying : Artifact where
  name := "flattening"
  buffers := [⟨0, "x", .float [1], .weight (.placeholder 0)⟩, ⟨1, "flat", .float [1], .view 0⟩,
    ⟨2, "y", .float [1], .weight (.placeholder 1)⟩]
  instructions := [.ofBuffers .view [1] [0], .ofBuffers .copy [2] [1]]
  plan := viewing.plan

theorem lower_flattening (reuse : Bool) : flattening.lower scalars reuse = .ok copying := by
  have hranges : Plan.liveRangesOf copying.buffers copying.instructions = .ok .empty := rfl
  have hroots : Plan.viewRootsOf copying.buffers = .ok (.ofList [(1, 0)]) := rfl
  refine Lowering.lower_of_parts rfl rfl ?_ rfl rfl
  rw [Plan.make, hranges, hroots]
  simp only [bind, Except.bind, Plan.layout_of_empty]
  rfl

/-- An engine in which `flattening` is compiled. -/
def flattener : Engine where
  module := { (Module.withSeed 0) with storage := scalars, functions := .ofList [(0, flattening)] }
  reuse := true
  compiled := [("flattening", ⟨0, copying, .empty⟩)]

theorem content_flattener : (flattener.run "flattening" distinct).1 = .ok () ∧
    flattener.content distinct (.placeholder 1) = some (scalar ⟨0x40000000⟩) ∧
    (flattener.run "flattening" distinct).2.1.content (flattener.run "flattening" distinct).2.2
      (.placeholder 1) = some (scalar 1) := by
  decide +kernel

/-- The first run changes `y` and leaves `x`, and the second changes nothing. -/
theorem run_keeps_flattening : ∃ e c, flattener.run "flattening" distinct = (.ok (), e, c) ∧
    e.content c (.placeholder 0) = some (scalar 1) ∧
    e.content c (.placeholder 1) ≠ flattener.content distinct (.placeholder 1) ∧
    e.run "flattening" c = (.ok (), e, c) := by
  obtain ⟨hok, hbefore, hafter⟩ := content_flattener
  rcases hrun : flattener.run "flattening" distinct with ⟨result, e, c⟩
  rw [hrun] at hok hafter
  obtain rfl : result = .ok () := hok
  obtain ⟨hkept, -, -, hagain⟩ := Engine.run_keeps (lower_flattening true) rfl hrun
  refine ⟨e, c, rfl, hkept (.placeholder 0) ?_, ?_, hagain ?_ ?_⟩
  · simp [flattening, Function.Writes]
  · rw [hbefore]
    exact fun heq => absurd (hafter.symm.trans heq) (by decide)
  · simp [flattening]
  · simp [flattening]

end Sample

end TensorCompiler
