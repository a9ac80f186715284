import TensorCompiler.Proofs.Graph.Evolution

/-!
What a key names in the course of an engine's history. The key of an artifact is the name of the
function that it was lowered from. As long as that function is in the module, no other function has the
name, so nothing but a compilation of the function itself replaces the artifact, and nothing but a run
of the key changes its optimizer state (`Engine.key_names_artifact`). Once the function has been erased
its name is free, and the artifact goes when a function that has taken the name is compiled
(`Sample.key_of_erased_function`).
-/

namespace TensorCompiler

/-- An artifact has the name of its function. -/
theorem Function.name_of_lower {f : Function} {s : Storage} {reuse : Bool} {a : Artifact}
    (h : f.lower s reuse = .ok a) : a.name = f.name := by
  simp only [lower, bind_ok_iff, pure_ok_iff] at h
  obtain ⟨_, -, _, -, _, -, _, -, rfl⟩ := h
  rfl

namespace Engine

variable {e e₁ e' : Engine} {mode : Mode} {id f k : Nat} {key : String} {a : Artifact}
  {state : IdMap (Tensor Single)}

/-- Dropping the entries of another key does not change what a key finds. -/
theorem lookup_filter_ne {key key' : String} (hne : key ≠ key') (l : List (String × Compiled)) :
    (l.filter (·.1 ≠ key')).lookup key = l.lookup key := by
  induction l with
  | nil => rfl
  | cons x l ih =>
    by_cases hx : x.1 = key'
    · rw [List.filter_cons_of_neg (by simpa using hx), ih, List.lookup_cons,
        beq_false_of_ne (hx ▸ hne)]
    · rw [List.filter_cons_of_pos (by simpa using hx), List.lookup_cons, List.lookup_cons, ih]

theorem get?_put_ne {key' : String} (hne : key ≠ key') (c : Compiled) :
    (e.put key' c).get? key = e.get? key := by
  simp only [get?, put, List.lookup_cons, beq_false_of_ne hne]
  exact lookup_filter_ne hne e.compiled

/-! ## Histories -/

/-- What is done with an engine: a change to its module or settings, a compilation, or a run. -/
inductive Action where
  | edit
  | compile (mode : Mode) (id : Nat)
  | run (key : String) (c : Context)

/-- One action. Edits are the operations on modules, and any change of what storage is declared and
holds. -/
inductive Step : Engine → Action → Engine → Prop
  | edit {e : Engine} {m : Module} (h : Module.Step e.module m) : Step e .edit { e with module := m }
  | store (e : Engine) (s : Storage) :
      Step e .edit { e with module := { e.module with storage := s } }
  | reuse (e : Engine) (reuse : Bool) : Step e .edit { e with reuse }
  | compile (e : Engine) (mode : Mode) (id : Nat) :
      Step e (.compile mode id) (e.compile mode id).2
  | run (e : Engine) (key : String) (c : Context) : Step e (.run key c) (e.run key c).2.1

/-- Actions one after the other, each with the engine that it was done with. -/
inductive Steps : Engine → List (Engine × Action) → Engine → Prop
  | nil (e : Engine) : Steps e [] e
  | cons {e e₁ e' : Engine} {action : Action} {history : List (Engine × Action)}
      (h : Step e action e₁) (hrest : Steps e₁ history e') : Steps e ((e, action) :: history) e'

/-- The action may replace the artifact that `key` names and that was lowered from `f`: it compiles `f`
as it is, or, after `f` has been erased, a function that has been given the key as its name. -/
def Retakes (key : String) (f : Nat) : Engine × Action → Prop
  | (e, .compile mode id) => (mode = .infer ∧ id = f) ∨
      (e.module.functions.get? f = none ∧ (e.compile mode id).1 = .ok key)
  | _ => False

theorem evolves_step {action : Action} (h : Step e action e') : e.module.Evolves e'.module := by
  cases h with
  | edit h => exact .step h
  | store s => exact .of_same rfl rfl rfl
  | reuse reuse => exact .refl _
  | compile mode id => exact .compile mode id
  | run key c => exact .run e key c

theorem evolves_steps {history : List (Engine × Action)} (h : Steps e history e') :
    e.module.Evolves e'.module := by
  induction h with
  | nil e => exact .refl _
  | cons h _ ih => exact (evolves_step h).trans ih

/-! ## Compilation -/

/-- The key is the name of the function that was lowered, and names its artifact. -/
theorem key_of_compile (h : e.compile mode id = (.ok key, e₁)) : ∃ k m g a,
    target e.module mode id = .ok (k, m) ∧ m.function k = .ok g ∧ g.name = key ∧
      e₁ = ({ e with module := m } : Engine).put key ⟨k, a, zeroState a⟩ := by
  obtain ⟨k, m, g, a, htarget, hg, ha, -, -⟩ := compile_ok h
  have hcompile := compile_of_target htarget (bind_ok_iff.2 ⟨g, hg, ha⟩)
  obtain ⟨hkey, rfl⟩ := Prod.mk.inj (h.symm.trans hcompile)
  obtain rfl := Except.ok.inj hkey
  exact ⟨k, m, g, a, htarget, hg, (Function.name_of_lower ha).symm, rfl⟩

theorem compiled_of_error {error : Error} (h : e.compile mode id = (.error error, e₁)) :
    e₁.compiled = e.compiled := by
  unfold compile at h
  split at h
  · obtain ⟨-, rfl⟩ := Prod.mk.inj h
    rfl
  · split at h
    · cases h
    · obtain ⟨-, rfl⟩ := Prod.mk.inj h
      rfl

/-- A function that has the name of `f` when it is compiled is `f`, unless `f` is gone. -/
theorem infer_of_name {m : Module} {g g' : Function} (hnamed : e.module.Named)
    (hf : e.module.functions.get? f = some g') (htarget : target e.module mode id = .ok (k, m))
    (hg : m.function k = .ok g) (hname : g'.name = g.name) : mode = .infer ∧ id = f := by
  rcases target_cases htarget with ⟨rfl, rfl, rfl⟩ | ⟨-, d, hinsert⟩
  · exact ⟨rfl, (hnamed.distinct hf (Module.function_ok_iff.1 hg) hname).symm⟩
  · -- the training function has a number and a name that no function had
    have hm : m.Named := (Module.Evolves.target htarget).named hnamed
    obtain ⟨rfl, rfl⟩ := Prod.mk.inj hinsert
    have hlt := hnamed.numbered hf
    have hf' : (e.module.insertFunction d).2.functions.get? f = some g' := by
      simp only [Module.insertFunction, IdMap.get?_insert, if_neg (Nat.ne_of_gt hlt), hf]
    exact absurd (hm.distinct hf' (Module.function_ok_iff.1 hg) hname) (Nat.ne_of_lt hlt)

/-! ## Keys -/

/-- The key names an artifact of function `f`, which, as long as it is there, has the key as its name. -/
structure Holds (e : Engine) (key : String) (f : Nat) (a : Artifact)
    (state : IdMap (Tensor Single)) : Prop where
  entry : e.get? key = some ⟨f, a, state⟩
  bound : f < e.module.nextFunction
  name : ∀ ⦃g : Function⦄, e.module.functions.get? f = some g → g.name = key

namespace Holds

theorem of_evolves (h : e.Holds key f a state) (hevolves : e.module.Evolves e'.module)
    {state' : IdMap (Tensor Single)} (hentry : e'.get? key = some ⟨f, a, state'⟩) :
    e'.Holds key f a state' where
  entry := hentry
  bound := h.bound.trans_le hevolves.next
  name g hg := by
    obtain ⟨g', hg', hname⟩ := hevolves.kept h.bound hg
    exact hname ▸ h.name hg'

/-- A compilation that succeeds puts its artifact under the key that it returns. -/
theorem of_compile (h : e.compile mode id = (.ok key, e₁)) (hnamed : e.module.Named) :
    ∃ k a, e₁.Holds key k a (zeroState a) ∧ (mode = .infer → k = id) := by
  obtain ⟨k, m, g, a, htarget, hg, hname, rfl⟩ := key_of_compile h
  have hm : m.Named := (Module.Evolves.target htarget).named hnamed
  refine ⟨k, a, ⟨get?_put .., hm.numbered (Module.function_ok_iff.1 hg), fun g' hg' => ?_⟩, ?_⟩
  · have heq := hg'.symm.trans (Module.function_ok_iff.1 hg)
    exact Option.some.inj heq ▸ hname
  · rintro rfl
    obtain ⟨rfl, -⟩ := Prod.mk.inj (Except.ok.inj htarget)
    rfl

theorem compile (h : e.Holds key f a state) (hnamed : e.module.Named)
    (hkept : ¬ Retakes key f (e, .compile mode id)) : (e.compile mode id).2.Holds key f a state := by
  refine h.of_evolves (.compile mode id) ?_
  rcases hcompile : e.compile mode id with ⟨_ | key', e₁⟩
  · rw [get?, compiled_of_error hcompile]
    exact h.entry
  · obtain ⟨k, m, g, a', htarget, hg, hname, rfl⟩ := key_of_compile hcompile
    have hne : key ≠ key' := by
      rintro rfl
      cases hf : e.module.functions.get? f with
      | none => exact hkept (.inr ⟨hf, by rw [hcompile]⟩)
      | some g' => exact hkept (.inl (infer_of_name hnamed hf htarget hg ((h.name hf).trans hname.symm)))
    exact (get?_put_ne hne _).trans h.entry

/-- A run of the key changes the optimizer state, and a run of another key does not. -/
theorem run (h : e.Holds key f a state) (key' : String) (c : Context) :
    ∃ state', (e.run key' c).2.1.Holds key f a state' ∧ (key' ≠ key → state' = state) := by
  suffices hentry : ∃ state', (e.run key' c).2.1.get? key = some ⟨f, a, state'⟩ ∧
      (key' ≠ key → state' = state) by
    obtain ⟨state', hentry, hstate⟩ := hentry
    exact ⟨state', h.of_evolves (.run e key' c) hentry, hstate⟩
  unfold Engine.run
  split
  · exact ⟨state, h.entry, fun _ => rfl⟩
  · next compiled hcompiled =>
    dsimp only
    split
    · exact ⟨state, h.entry, fun _ => rfl⟩
    · by_cases hkey : key' = key
      · subst hkey
        obtain rfl := Option.some.inj (h.entry.symm.trans hcompiled)
        exact ⟨_, get?_put .., fun hne => absurd rfl hne⟩
      · exact ⟨state, (get?_put_ne (Ne.symm hkey) _).trans h.entry, fun _ => rfl⟩

/-- What one action leaves under a key. -/
theorem step (h : e.Holds key f a state) (hnamed : e.module.Named) {action : Action}
    (hstep : Step e action e') (hkept : ¬ Retakes key f (e, action)) :
    ∃ state', e'.Holds key f a state' ∧ ((∀ c, action ≠ .run key c) → state' = state) := by
  have hevolves := evolves_step hstep
  cases hstep with
  | edit hm => exact ⟨state, h.of_evolves hevolves h.entry, fun _ => rfl⟩
  | store s => exact ⟨state, h.of_evolves hevolves h.entry, fun _ => rfl⟩
  | reuse reuse => exact ⟨state, h.of_evolves hevolves h.entry, fun _ => rfl⟩
  | compile mode id => exact ⟨state, h.compile hnamed hkept, fun _ => rfl⟩
  | run key' c =>
    obtain ⟨state', hholds, hstate⟩ := h.run key' c
    refine ⟨state', hholds, fun hother => hstate ?_⟩
    rintro rfl
    exact hother c rfl

/-- What a history leaves under a key. -/
theorem steps {history : List (Engine × Action)} (hsteps : Steps e history e')
    (h : e.Holds key f a state) (hnamed : e.module.Named)
    (hkept : ∀ x ∈ history, ¬ Retakes key f x) :
    ∃ state', e'.Holds key f a state' ∧
      ((∀ x ∈ history, ∀ c, x.2 ≠ .run key c) → state' = state) := by
  induction hsteps generalizing state with
  | nil e => exact ⟨state, h, fun _ => rfl⟩
  | cons hstep _ ih =>
    obtain ⟨hfirst, hrest⟩ := List.forall_mem_cons.1 hkept
    obtain ⟨state₁, h₁, hstate₁⟩ := h.step hnamed hstep hfirst
    obtain ⟨state', h', hstate'⟩ := ih h₁ ((evolves_step hstep).named hnamed) hrest
    refine ⟨state', h', fun hidle => ?_⟩
    obtain ⟨hidle, hidle'⟩ := List.forall_mem_cons.1 hidle
    exact (hstate' hidle').trans (hstate₁ hidle)

end Holds

/-- After a compilation has returned a key, in every history in which the function that was lowered is
not compiled again, and no function that has taken its name after it was erased is compiled, the key
names the artifact of that function; its optimizer state starts at zero, and is changed by runs of the
key only. -/
theorem key_names_artifact {seed : UInt64} {reuse : Bool} {before : List (Engine × Action)}
    (hbefore : Steps (ofModule (.withSeed seed) reuse) before e)
    (hcompile : e.compile mode id = (.ok key, e₁)) :
    ∃ f a, e₁.get? key = some ⟨f, a, zeroState a⟩ ∧ (mode = .infer → f = id) ∧
      ∀ ⦃history later : List (Engine × Action)⦄ ⦃e₂ e₃ : Engine⦄, Steps e₁ history e₂ →
        Steps e₂ later e₃ → (∀ x ∈ history ++ later, ¬ Retakes key f x) →
          ∃ state₂ state₃, e₂.get? key = some ⟨f, a, state₂⟩ ∧ e₃.get? key = some ⟨f, a, state₃⟩ ∧
            ((∀ x ∈ later, ∀ c, x.2 ≠ .run key c) → state₃ = state₂) := by
  have hnamed : e.module.Named := (evolves_steps hbefore).named (Module.named_withSeed seed)
  obtain ⟨f, a, hholds, hf⟩ := Holds.of_compile hcompile hnamed
  have hnamed₁ : e₁.module.Named := by
    have hevolves := Module.Evolves.compile (e := e) mode id
    rw [hcompile] at hevolves
    exact hevolves.named hnamed
  refine ⟨f, a, hholds.entry, hf, fun history later e₂ e₃ hhistory hlater hkept => ?_⟩
  obtain ⟨hkept, hkept'⟩ := List.forall_mem_append.1 hkept
  obtain ⟨state₂, hholds₂, -⟩ := hholds.steps hhistory hnamed₁ hkept
  obtain ⟨state₃, hholds₃, hstate⟩ :=
    hholds₂.steps hlater ((evolves_steps hhistory).named hnamed₁) hkept'
  exact ⟨state₂, state₃, hholds₂.entry, hholds₃.entry, hstate⟩

end Engine

namespace Sample

open Engine

/-- An engine over a module with one function, which has no nodes. -/
def named : Engine := .ofModule (Module.createFunction (.withSeed 0) "main").2 true

/-- The engine after that function has been compiled. -/
def compiled : Engine := (named.compile .infer 0).2

theorem steps_named : Steps (.ofModule (.withSeed 0) true) [(.ofModule (.withSeed 0) true, .edit)]
    named :=
  .cons (.edit (.createFunction _ "main")) (.nil _)

theorem compile_named : named.compile .infer 0 = (.ok "main", compiled) := rfl

/-- While the function is there, another function that asks for the name gets another one, and its
compilation leaves what the key names. -/
theorem key_names_artifact_compiled :
    let more : Engine := { compiled with module := (compiled.module.createFunction "main").2 }
    Steps compiled [(compiled, .edit)] more ∧ (more.compile .infer 1).1 = .ok "main__1" ∧
      ∃ a state₂ state₃, more.get? "main" = some ⟨0, a, state₂⟩ ∧
        (more.compile .infer 1).2.get? "main" = some ⟨0, a, state₃⟩ ∧ state₃ = state₂ := by
  intro more
  have hmore : Steps compiled [(compiled, .edit)] more :=
    .cons (.edit (.createFunction _ "main")) (.nil _)
  have hlater : Steps more [(more, .compile .infer 1)] (more.compile .infer 1).2 :=
    .cons (.compile _ _ _) (.nil _)
  obtain ⟨f, a, -, hf, hkept⟩ := Engine.key_names_artifact steps_named compile_named
  obtain rfl := hf rfl
  refine ⟨hmore, rfl, a, ?_⟩
  obtain ⟨state₂, state₃, h₂, h₃, hstate⟩ := hkept hmore hlater (by
    intro x hx
    rcases List.mem_pair.1 hx with rfl | rfl
    · exact id
    · rintro (⟨-, hid⟩ | ⟨hgone, -⟩)
      · cases hid
      · cases hgone)
  exact ⟨state₂, state₃, h₂, h₃, hstate (by
    intro x hx
    obtain rfl := List.mem_singleton.1 hx
    nofun)⟩

/-- The engine after the function has been erased, and after another function has got its name. -/
def erased : Engine :=
  { compiled with module := compiled.module.withoutFunction 0 }

def recreated : Engine := { erased with module := (erased.module.createFunction "main").2 }

/-- Once the function is erased, the next function gets its name; the compilation of that function, which
has another number, replaces what the key names. -/
theorem key_of_erased_function :
    Steps (.ofModule (.withSeed 0) true) [(.ofModule (.withSeed 0) true, .edit)] named ∧
      named.compile .infer 0 = (.ok "main", compiled) ∧
      (compiled.get? "main").map (·.function) = some 0 ∧
      Steps compiled [(compiled, .edit), (erased, .edit), (recreated, .compile .infer 1)]
        (recreated.compile .infer 1).2 ∧
      ((recreated.compile .infer 1).2.get? "main").map (·.function) = some 1 := by
  have herase : compiled.module.eraseFunction 0 = .ok ({ name := "main", nodes := [] },
    erased.module) := rfl
  exact ⟨steps_named, rfl, rfl, .cons (.edit (.eraseFunction herase))
    (.cons (.edit (.createFunction _ "main")) (.cons (.compile _ _ _) (.nil _))), rfl⟩

end Sample

end TensorCompiler
