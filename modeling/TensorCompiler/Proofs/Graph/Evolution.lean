import TensorCompiler.Proofs.Graph.Factories
import TensorCompiler.Proofs.Graph.Steps

/-!
How the functions of a module change. Names are handed out, given back by erasure and handed out again,
but numbers are not: what an operation leaves under a number that has been used is the function that was
there, under the name that it had (`Module.Evolves`). At any time names are distinct.
-/

namespace TensorCompiler

/-- What a compilation lowers is the given function, or one that it has just inserted. -/
theorem Engine.target_cases {m m' : Module} {mode : Mode} {id k : Nat}
    (h : target m mode id = .ok (k, m')) : (mode = .infer ∧ k = id ∧ m' = m) ∨
      mode ≠ .infer ∧ ∃ f, m.insertFunction f = (k, m') := by
  cases mode with
  | infer =>
    obtain ⟨rfl, rfl⟩ := Prod.mk.inj (Except.ok.inj h)
    exact .inl ⟨rfl, rfl, rfl⟩
  | train settings => cases settings with
    | none => cases h
    | some settings =>
      obtain ⟨_, derived, -, -, -, -, -, hinsert⟩ := Module.differentiate_ok_iff.1 h
      exact .inr ⟨nofun, _, hinsert⟩

namespace Module

variable {m m' m'' : Module} {k id : Nat} {f g : Function}

/-- Functions have numbers below the next one, and names of their own, which are the names taken. -/
structure Named (m : Module) : Prop where
  numbered : m.Numbered
  distinct : ∀ ⦃i j : Nat⦄ ⦃f g : Function⦄, m.functions.get? i = some f →
    m.functions.get? j = some g → f.name = g.name → i = j
  taken : ∀ name, name ∈ m.functionNames ↔ ∃ k f, m.functions.get? k = some f ∧ f.name = name

theorem named_withSeed (seed : UInt64) : (withSeed seed).Named :=
  ⟨nofun, nofun, fun _ => ⟨nofun, fun ⟨_, _, hf, _⟩ => nomatch hf⟩⟩

/-- A function more under a free name. -/
theorem Named.insertFunction (h : m.Named) (f : Function) : (m.insertFunction f).2.Named := by
  have hget (k : Nat) : (m.insertFunction f).2.functions.get? k =
      if m.nextFunction = k then some { f with name := Names.fresh m.functionNames f.name }
      else m.functions.get? k := IdMap.get?_insert ..
  have hfree {k : Nat} {g : Function} (hk : m.functions.get? k = some g) :
      g.name ≠ Names.fresh m.functionNames f.name := fun heq =>
    Names.fresh_notMem m.functionNames f.name ((h.taken _).2 ⟨k, g, hk, heq⟩)
  have hnext {k : Nat} {g : Function} (hk : m.functions.get? k = some g) : m.nextFunction ≠ k :=
    Nat.ne_of_gt (h.numbered hk)
  refine ⟨h.numbered.change (.insert f), fun i j f' g' hf' hg' hname => ?_, fun name => ?_⟩
  · rw [hget] at hf' hg'
    split at hf' <;> split at hg'
    · omega
    · exact absurd (hname.symm.trans (Option.some.inj hf' ▸ rfl)) (hfree hg')
    · exact absurd (hname.trans (Option.some.inj hg' ▸ rfl)) (hfree hf')
    · exact h.distinct hf' hg' hname
  · simp only [Module.insertFunction, List.mem_append, List.mem_singleton, h.taken]
    constructor
    · rintro (⟨k, g, hk, rfl⟩ | rfl)
      · exact ⟨k, g, by rw [IdMap.get?_insert, if_neg (hnext hk), hk], rfl⟩
      · exact ⟨_, _, by rw [IdMap.get?_insert, if_pos rfl], rfl⟩
    · rintro ⟨k, g, hk, rfl⟩
      rw [IdMap.get?_insert] at hk
      split at hk
      · exact .inr (by rw [← Option.some.inj hk])
      · exact .inl ⟨k, g, hk, rfl⟩

/-- Another function in the place of one, under the same name. -/
theorem Named.setFunction (h : m.Named) (hf : m.function id = .ok f) (hname : g.name = f.name) :
    (m.setFunction id g).Named := by
  have hnameOf (k : Nat) : ((m.setFunction id g).functions.get? k).map (·.name) =
      (m.functions.get? k).map (·.name) := by
    simp only [Module.setFunction, IdMap.get?_insert]
    split
    · next heq => simp [← heq, function_ok_iff.1 hf, hname]
    · rfl
  have hback {k : Nat} {g' : Function} (hk : (m.setFunction id g).functions.get? k = some g') :
      ∃ f', m.functions.get? k = some f' ∧ f'.name = g'.name :=
    Option.map_eq_some_iff.1 ((hnameOf k).symm.trans (by rw [hk]; rfl))
  have hforth {k : Nat} {f' : Function} (hk : m.functions.get? k = some f') :
      ∃ g', (m.setFunction id g).functions.get? k = some g' ∧ g'.name = f'.name :=
    Option.map_eq_some_iff.1 ((hnameOf k).trans (by rw [hk]; rfl))
  refine ⟨h.numbered.change (.replace hf hname), fun i j f' g' hf' hg' heq => ?_, fun name => ?_⟩
  · obtain ⟨f₁, hf₁, hname₁⟩ := hback hf'
    obtain ⟨g₁, hg₁, hname₂⟩ := hback hg'
    exact h.distinct hf₁ hg₁ (hname₁.trans (heq.trans hname₂.symm))
  · refine (h.taken name).trans ⟨?_, ?_⟩
    · rintro ⟨k, f', hk, rfl⟩
      exact ⟨k, hforth hk⟩
    · rintro ⟨k, g', hk, rfl⟩
      exact ⟨k, hback hk⟩

/-- A function less, and its name. -/
theorem Named.erase (h : m.Named) (id : Nat) : (m.withoutFunction id).Named := by
  have hget (k : Nat) (g : Function) : (m.withoutFunction id).functions.get? k = some g ↔
      id ≠ k ∧ m.functions.get? k = some g := by
    simp only [withoutFunction, IdMap.get?_erase]
    split <;> simp_all
  refine ⟨h.numbered.change (.erase id), fun i j f' g' hf' hg' => ?_, fun name => ?_⟩
  · exact h.distinct ((hget i f').1 hf').2 ((hget j g').1 hg').2
  · simp only [withoutFunction, Names.mem_release, h.taken, List.mem_map, Option.mem_toList]
    constructor
    · rintro ⟨⟨k, g, hk, rfl⟩, hgone⟩
      refine ⟨k, g, (hget k g).2 ⟨fun heq => hgone ⟨g, heq ▸ hk, rfl⟩, hk⟩, rfl⟩
    · rintro ⟨k, g, hk, rfl⟩
      obtain ⟨hne, hk⟩ := (hget k g).1 hk
      refine ⟨⟨k, g, hk, rfl⟩, ?_⟩
      rintro ⟨f', hf', hname⟩
      exact hne (h.distinct hf' hk hname)

/-- Operations have led from `m` to `m'`: functions that were there are still there under their names, or
are gone for good. -/
structure Evolves (m m' : Module) : Prop where
  next : m.nextFunction ≤ m'.nextFunction
  kept : ∀ ⦃k : Nat⦄ ⦃g : Function⦄, k < m.nextFunction → m'.functions.get? k = some g →
    ∃ f, m.functions.get? k = some f ∧ f.name = g.name
  named : m.Named → m'.Named

namespace Evolves

theorem refl (m : Module) : m.Evolves m := ⟨le_rfl, fun _ g _ hg => ⟨g, hg, rfl⟩, id⟩

theorem trans (h : m.Evolves m') (h' : m'.Evolves m'') : m.Evolves m'' where
  next := h.next.trans h'.next
  kept k g hk hg := by
    obtain ⟨f', hf', hname'⟩ := h'.kept (hk.trans_le h.next) hg
    obtain ⟨f, hf, hname⟩ := h.kept hk hf'
    exact ⟨f, hf, hname.trans hname'⟩
  named hm := h'.named (h.named hm)

theorem of_same (hfunctions : m'.functions = m.functions)
    (hnames : m'.functionNames = m.functionNames) (hnext : m'.nextFunction = m.nextFunction) :
    m.Evolves m' where
  next := hnext.ge
  kept _ g _ hg := ⟨g, hfunctions ▸ hg, rfl⟩
  named hm := by
    refine ⟨hm.numbered.change (.same hfunctions hnames hnext), ?_, ?_⟩
    · rw [hfunctions]
      exact hm.distinct
    · rw [hfunctions, hnames]
      exact hm.taken

theorem insertFunction (m : Module) (f : Function) : m.Evolves (m.insertFunction f).2 where
  next := Nat.le_succ _
  kept k g hk hg := by
    simp only [Module.insertFunction, IdMap.get?_insert, if_neg (Nat.ne_of_gt hk)] at hg
    exact ⟨g, hg, rfl⟩
  named hm := hm.insertFunction f

theorem setFunction (hf : m.function id = .ok f) (hname : g.name = f.name) :
    m.Evolves (m.setFunction id g) where
  next := le_rfl
  kept k g' _ hg' := by
    simp only [Module.setFunction, IdMap.get?_insert] at hg'
    split at hg'
    · next heq =>
      obtain rfl := Option.some.inj hg'
      exact ⟨f, heq ▸ function_ok_iff.1 hf, hname.symm⟩
    · exact ⟨g', hg', rfl⟩
  named hm := hm.setFunction hf hname

theorem erase (m : Module) (id : Nat) : m.Evolves (m.withoutFunction id) where
  next := le_rfl
  kept k g _ hg := by
    simp only [withoutFunction, IdMap.get?_erase] at hg
    split at hg
    · cases hg
    · exact ⟨g, hg, rfl⟩
  named hm := hm.erase id

theorem of_change (h : Change m m') : m.Evolves m' := by
  cases h with
  | same hfunctions hnames hnext => exact of_same hfunctions hnames hnext
  | insert f => exact insertFunction m f
  | replace hf hname => exact setFunction hf hname
  | erase id => exact erase m id

theorem of_changed (h : m.Changed m') : m.Evolves m' := by
  induction h with
  | refl => exact refl m
  | tail _ hchange ih => exact ih.trans (of_change hchange)

theorem target {mode : Mode} (hm : Engine.target m mode id = .ok (k, m')) : m.Evolves m' :=
  of_changed (.target hm)

theorem compile {e : Engine} (mode : Mode) (id : Nat) :
    e.module.Evolves (e.compile mode id).2.module :=
  of_changed (.compile e mode id)

theorem run (e : Engine) (key : String) (c : Context) :
    e.module.Evolves (e.run key c).2.1.module :=
  of_changed (.run e key c)

/-- Every operation lets the functions evolve. -/
theorem step (h : Step m m') : m.Evolves m' := by
  refine of_changed ?_
  cases h with
  | createVariable _ name payload isPublic trainable => exact .createVariable ..
  | createPlaceholder _ name type trainable => exact .createPlaceholder ..
  | setPayload hm htype => exact .setPayload hm
  | setElements hm => exact .setElements hm
  | setTrainable hm => exact .setTrainable hm
  | createFunction _ name => exact .createFunction ..
  | createNode _ f name op inputs => exact .createNode ..
  | createConvolution _ f name input p => exact .createConvolution ..
  | createDense _ f name input depth => exact .createDense ..
  | createOutput _ f name value => exact .createOutput ..
  | cloneFunction hm => exact .cloneFunction hm
  | eraseFunction hm => exact .eraseFunction hm
  | eliminateDead hm => exact .eliminateDead hm
  | differentiate hm => exact .differentiate hm
  | compile e mode id => exact .compile ..
  | run e key c => exact .run ..

end Evolves

end Module

end TensorCompiler
