import TensorCompiler.Proofs.Run.Frames

/-!
Streams that descend: steps of descent, and between them instructions that work in slots and cannot
fail. The steps take each weight and its momentum from where they stood before all of them, by a
gradient that the other instructions compute (`Artifact.Descends.moves`), and their order does not
matter, as long as every step finds its gradient (`Artifact.Descends.rearrange`).
-/

namespace TensorCompiler

variable {α : Type} {a : Artifact} {m m' q : Memory α}

namespace Instruction

/-- The instruction takes a step of descent. -/
def isStep (x : Instruction) : Bool :=
  match x.op with
  | .sgd _ => true
  | _ => false

/-- The step that moves a weight and its momentum by a gradient. -/
def step (p : Descent) (weight gradient momentum : Nat) : Instruction :=
  ⟨.sgd p, [⟨weight, .readWrite⟩, ⟨gradient, .read⟩, ⟨momentum, .readWrite⟩]⟩

/-- The instructions that take no step, in order. -/
def others (xs : List Instruction) : List Instruction := xs.filter fun x => !x.isStep

theorem others_append (xs ys : List Instruction) : others (xs ++ ys) = others xs ++ others ys :=
  List.filter_append xs ys

theorem mem_others {xs : List Instruction} {x : Instruction} :
    x ∈ others xs ↔ x ∈ xs ∧ x.isStep = false := by
  simp [others]

theorem others_eq_self {xs : List Instruction} (h : ∀ x ∈ xs, x.isStep = false) :
    others xs = xs :=
  List.filter_eq_self.2 fun x hx => by simp [h x hx]

/-- The step has taken the weight and the momentum of `m` to those of `m'`, by the gradient in `q`. -/
def Moves (a : Artifact) (m q m' : Memory α) [Scalar α] (x : Instruction) : Prop :=
  ∃ p weight gradient momentum W G V W' V', x = step p weight gradient momentum ∧
    m.readFloats a weight = .ok W ∧ q.readFloats a gradient = .ok G ∧
    m.readFloats a momentum = .ok V ∧ Kernel.descent p W G V = .ok (W', V') ∧
    m'.source a weight = .ok (.floats W') ∧ m'.source a momentum = .ok (.floats V')

variable [Scalar α]

/-- The instruction takes no step, works in slots, and succeeds in every typed memory and leaves it
typed. -/
structure Quiet (α : Type) [Scalar α] (a : Artifact) (x : Instruction) : Prop where
  other : x.isStep = false
  slots : x.InSlots a
  runs : ∀ m : Memory α, m.Typed a → ∃ m', x.execute a m = (.ok (), m') ∧ m'.Typed a

/-- The step takes its gradient from a slot. Its weight and momentum are outside the slots, and it moves
them in every typed memory. -/
structure Steps (α : Type) [Scalar α] (a : Artifact) (p : Descent)
    (weight gradient momentum : Nat) : Prop where
  slot : ∃ k, a.locate gradient = .ok (.slot k)
  outside : ∀ k, a.locate weight ≠ .ok (.slot k) ∧ a.locate momentum ≠ .ok (.slot k)
  apart : a.locate weight ≠ a.locate momentum
  runs : ∀ m : Memory α, m.Typed a → ∃ W G V W' V', m.readFloats a weight = .ok W ∧
    m.readFloats a gradient = .ok G ∧ m.readFloats a momentum = .ok V ∧
    Kernel.descent p W G V = .ok (W', V') ∧ (step p weight gradient momentum).effects a m =
      .ok [(weight, .floats W'), (momentum, .floats V')] ∧
    EffectsFill a [(weight, .floats W'), (momentum, .floats V')]

theorem mem_sources_step {p : Descent} {w g v b : Nat} :
    b ∈ (step p w g v).sources ↔ b = w ∨ b = g ∨ b = v := by
  show b ∈ [w, g, v].drop 0 ↔ _
  simp

theorem mem_targets_step {p : Descent} {w g v b : Nat} :
    b ∈ (step p w g v).targets ↔ b = w ∨ b = v := by
  simp [targets, step, buffers]

end Instruction

variable [Scalar α]

namespace Instruction

theorem Steps.execute {p : Descent} {w g v : Nat} (h : Steps α a p w g v) (hm : m.Typed a) :
    ∃ m', (step p w g v).execute a m = (.ok (), m') ∧ (step p w g v).Moves a m m m' ∧
      m'.slots = m.slots ∧ m'.Typed a := by
  obtain ⟨W, G, V, W', V', hW, hG, hV, hdescent, heffects, hfill⟩ := h.runs m hm
  obtain ⟨dw, hdw, hW'⟩ := hfill _ List.mem_cons_self
  obtain ⟨dv, hdv, hV'⟩ := hfill _ (List.mem_cons_of_mem _ List.mem_cons_self)
  obtain ⟨m₁, hstore, hm₁, hsource⟩ := hm.store hdw hW'
  obtain ⟨m₂, hstore', hm₂, hsource'⟩ := hm₁.store hdv hV'
  have hcommit : commit a m [(w, .floats W'), (v, .floats V')] = (.ok (), m₂) := by
    simp only [commit, hstore, hstore']
  refine ⟨m₂, execute_ok_iff.2 ⟨_, heffects, hcommit⟩,
    ⟨p, w, g, v, W, G, V, W', V', rfl, hW, hG, hV, hdescent, ?_, hsource'⟩, ?_, hm₂⟩
  · rw [← hsource]
    exact Memory.source_congr fun location hlocate =>
      Memory.store_frame hstore' (hlocate ▸ h.apart.symm)
  · refine Memory.slots_congr fun k => ?_
    rw [Memory.store_frame hstore' (h.outside k).2, Memory.store_frame hstore (h.outside k).1]

end Instruction

open Instruction

namespace Artifact

/-- The instructions are steps, of which no two store at one place, and others that work in slots and
cannot fail. -/
structure Descends (α : Type) [Scalar α] (a : Artifact) (xs : List Instruction) : Prop where
  kinds : ∀ x ∈ xs, x.Quiet α a ∨ ∃ p w g v, x = step p w g v ∧ Steps α a p w g v
  apart : xs.Pairwise fun x y => x.isStep = true → y.isStep = true →
    ∀ b ∈ x.targets, ∀ c ∈ y.targets, a.locate b ≠ a.locate c

/-- After `done`, and before the instructions in `rest`, a buffer shows what has been computed for it:
no later instruction stores into its root, and since the last one that did nothing has been stored over
it. -/
def Holds (a : Artifact) (done rest : List Instruction) (b : Nat) : Prop :=
  (∀ x ∈ rest, a.plan.root b ∉ x.targets) ∧ ∃ before x after, done = before ++ x :: after ∧
    a.plan.root b ∈ x.targets ∧ ∀ y ∈ after, ∀ c ∈ y.targets, a.locate c ≠ a.locate b

/-- After `done`, the instructions `ys` are `xs` with the steps in another order and at other places
between the other instructions, where each finds its gradient. -/
structure Rearranges (a : Artifact) (done xs ys : List Instruction) : Prop where
  perm : ys.Perm xs
  others_eq : others ys = others xs
  holds : ∀ ⦃before after : List Instruction⦄ ⦃p : Descent⦄ ⦃w g v : Nat⦄,
    ys = before ++ step p w g v :: after → a.Holds (done ++ others before) (others after) g

variable {xs ys before after done : List Instruction} {x : Instruction}

namespace Descends

theorem perm (h : a.Descends α xs) (hys : ys.Perm xs) : a.Descends α ys := by
  refine ⟨fun x hx => h.kinds x (hys.mem_iff.1 hx), h.apart.perm hys.symm ?_⟩
  intro x y hxy hy hx b hb c hc
  exact (hxy hx hy c hc b hb).symm

theorem sublist (h : a.Descends α xs) (hys : ys.Sublist xs) : a.Descends α ys :=
  ⟨fun x hx => h.kinds x (hys.subset hx), h.apart.sublist hys⟩

/-- Nothing else is stored at the place of a step's target. -/
theorem apart_of_step (h : a.Descends α (before ++ x :: after)) (hx : x.isStep = true) {b : Nat}
    (hb : b ∈ x.targets) : ∀ y ∈ before ++ after, ∀ c ∈ y.targets, a.locate c ≠ a.locate b := by
  intro y hy c hc
  have hperm : (x :: (before ++ after)).Perm (before ++ x :: after) := List.perm_middle.symm
  obtain ⟨hall, -⟩ := List.pairwise_cons.1 (h.perm hperm).apart
  rcases h.kinds y (hperm.subset (List.mem_cons_of_mem _ hy)) with hquiet | ⟨p, w, g, v, rfl, hsteps⟩
  · rcases h.kinds x (hperm.subset List.mem_cons_self) with hquiet' | ⟨p, w, g, v, rfl, hsteps⟩
    · simp [hquiet'.other] at hx
    · obtain ⟨k, hk⟩ := hquiet.slots c (.inr hc)
      rw [hk]
      rcases mem_targets_step.1 hb with rfl | rfl
      · exact fun heq => (hsteps.outside k).1 heq.symm
      · exact fun heq => (hsteps.outside k).2 heq.symm
  · exact (hall _ hy hx rfl b hb c hc).symm

/-- The run succeeds. In the slots it does what the instructions other than steps do by themselves. -/
theorem run (h : a.Descends α xs) (hm : m.Typed a) (hslots : q.slots = m.slots) :
    ∃ m' q', a.runFrom m xs = (.ok (), m') ∧ m'.Typed a ∧
      a.runFrom q (others xs) = (.ok (), q') ∧ q'.slots = m'.slots ∧
      q'.persistent = q.persistent := by
  induction xs generalizing m q with
  | nil => exact ⟨m, q, rfl, hm, rfl, hslots, rfl⟩
  | cons x xs ih =>
    have hrest := h.sublist (List.sublist_cons_self x xs)
    rcases h.kinds x List.mem_cons_self with hquiet | ⟨p, w, g, v, rfl, hsteps⟩
    · obtain ⟨m₁, hexecute, hm₁⟩ := hquiet.runs m hm
      obtain ⟨q₁, hexecute', hslots₁, hkept⟩ := hquiet.slots.execute hslots hexecute
      obtain ⟨m', q', hrun, hm', hrun', hslots', hkept'⟩ := ih hrest hm₁ hslots₁
      refine ⟨m', q', (runFrom_cons hexecute xs).trans hrun, hm', ?_, hslots', hkept'.trans hkept⟩
      rw [others, List.filter_cons_of_pos (by simp [hquiet.other])]
      exact (runFrom_cons hexecute' _).trans hrun'
    · obtain ⟨m₁, hexecute, -, hslots₁, hm₁⟩ := hsteps.execute hm
      obtain ⟨m', q', hrun, hm', hrun', hslots', hkept⟩ :=
        ih hrest hm₁ (hslots.trans hslots₁.symm)
      exact ⟨m', q', (runFrom_cons hexecute xs).trans hrun, hm', hrun', hslots', hkept⟩

/-- Every step moves its weight and momentum from where they stood before all steps, by the gradient
that the instructions other than steps have computed up to there. -/
theorem moves (h : a.Descends α (before ++ x :: after)) (hm : m.Typed a)
    (hrun : a.runFrom m (before ++ x :: after) = (.ok (), m')) (hx : x.isStep = true) :
    ∃ q, a.runFrom m (others before) = (.ok (), q) ∧ x.Moves a m q m' := by
  obtain ⟨m₁, hbefore, hrest⟩ := runFrom_append_ok_iff.1 hrun
  obtain ⟨m₁', q, hbefore', hm₁, hothers, hslots, -⟩ :=
    (h.sublist (List.sublist_append_left ..)).run hm rfl
  obtain rfl : m₁ = m₁' := (Prod.mk.inj (hbefore.symm.trans hbefore')).2
  have hapart {b : Nat} (hb : b ∈ x.targets) := h.apart_of_step hx hb
  rcases h.kinds x (by simp) with hquiet | ⟨p, w, g, v, rfl, hsteps⟩
  · simp [hquiet.other] at hx
  · obtain ⟨m₂, hexecute, hmoves, -⟩ := hsteps.execute hm₁
    obtain ⟨p', w', g', v', W, G, V, W', V', heq, hW, hG, hV, hdescent, hW', hV'⟩ := hmoves
    obtain ⟨rfl, rfl, rfl, rfl⟩ : p = p' ∧ w = w' ∧ g = g' ∧ v = v' := by simpa [step] using heq
    rw [runFrom_cons hexecute] at hrest
    -- the weight and the momentum are as in `m` before the step, and left alone after it
    have hfirst {b : Nat} (hb : b ∈ (step p w g v).targets) : m₁.source a b = m.source a b :=
      source_of_runFrom (fun y hy => hapart hb y (List.mem_append_left _ hy)) hbefore
    have hlast {b : Nat} (hb : b ∈ (step p w g v).targets) : m'.source a b = m₂.source a b :=
      source_of_runFrom (fun y hy => hapart hb y (List.mem_append_right _ hy)) hrest
    have hw : w ∈ (step p w g v).targets := mem_targets_step.2 (.inl rfl)
    have hv : v ∈ (step p w g v).targets := mem_targets_step.2 (.inr rfl)
    obtain ⟨k, hk⟩ := hsteps.slot
    have hgradient : m₁.source a g = q.source a g := Memory.source_congr fun location hlocate => by
      obtain rfl := Except.ok.inj (hk.symm.trans hlocate)
      simp only [Memory.get?, hslots]
    have hread {m m₁ : Memory α} {b : Nat} (hsource : m₁.source a b = m.source a b) :
        m.readFloats a b = m₁.readFloats a b :=
      Memory.readFloats_congr (Memory.read_congr rfl hsource.symm)
    exact ⟨q, hothers, p, w, g, v, W, G, V, W', V', rfl, (hread (hfirst hw)).trans hW,
      (hread hgradient).trans hG, (hread (hfirst hv)).trans hV, hdescent, (hlast hw).trans hW',
      (hlast hv).trans hV'⟩

/-- What no step stores into is kept, outside the slots. -/
theorem kept (h : a.Descends α xs) {location : Location} (hslot : ∀ k, location ≠ .slot k)
    (hne : ∀ x ∈ xs, x.isStep = true → ∀ b ∈ x.targets, a.locate b ≠ .ok location) :
    (a.runFrom m xs).2.get? location = m.get? location := by
  refine runFrom_frame fun x hx b hb heq => ?_
  rcases h.kinds x hx with hquiet | ⟨p, w, g, v, rfl, -⟩
  · obtain ⟨k, hk⟩ := hquiet.slots b (.inr hb)
    exact hslot k (Except.ok.inj (heq.symm.trans hk))
  · exact hne _ hx rfl b hb heq

end Descends

/-! ## Rearrangement -/

/-- Nothing that is executed while the buffer holds what has been computed for it is stored over it. -/
theorem Holds.apart {rest : List Instruction} {b : Nat} (h : a.Holds (done ++ xs) rest b)
    (hxs : ∀ x ∈ xs, a.plan.root b ∉ x.targets) :
    ∀ x ∈ xs, ∀ c ∈ x.targets, a.locate c ≠ a.locate b := by
  obtain ⟨-, before, x, after, heq, hx, hafter⟩ := h
  -- the last instruction that stores into the root is not among `xs`
  rcases List.append_eq_append_iff.1 heq with ⟨more, -, hmore⟩ | ⟨more, -, hmore⟩
  · exact absurd hx (hxs x (by simp [hmore]))
  · cases more with
    | nil => exact absurd hx (hxs x (by simp [← show x :: after = xs from hmore]))
    | cons y more =>
      obtain ⟨-, rfl⟩ := List.cons.inj hmore
      exact fun z hz => hafter z (List.mem_append_right _ hz)

/-- Between two points of a run where a buffer holds what has been computed for it, it shows the same. -/
theorem Holds.source_eq {left right rest : List Instruction} {b : Nat} {ql qr : Memory α}
    (hl : a.Holds (done ++ left) rest b) {rest' : List Instruction}
    (hr : a.Holds (done ++ right) rest' b) (heq : left ++ rest = right ++ rest')
    (hql : a.runFrom m left = (.ok (), ql)) (hqr : a.runFrom m right = (.ok (), qr)) :
    qr.source a b = ql.source a b := by
  have hframe {xs between rest : List Instruction} {q q' : Memory α}
      (hholds : a.Holds (done ++ (xs ++ between)) rest b)
      (hcomputed : ∀ x ∈ between, a.plan.root b ∉ x.targets)
      (hq : a.runFrom m xs = (.ok (), q)) (hq' : a.runFrom m (xs ++ between) = (.ok (), q')) :
      q'.source a b = q.source a b := by
    rw [a.runFrom_append hq] at hq'
    rw [← List.append_assoc] at hholds
    exact source_of_runFrom (hholds.apart hcomputed) hq'
  rcases List.append_eq_append_iff.1 heq with ⟨between, rfl, rfl⟩ | ⟨between, rfl, rfl⟩
  · exact hframe hr (fun x hx => hl.1 x (List.mem_append_left _ hx)) hql hqr
  · exact (hframe hl (fun x hx => hr.1 x (List.mem_append_left _ hx)) hqr hql).symm

/-- Rearranged or not, a step moves its targets to the same elements. -/
theorem Descends.moved_eq (h : a.Descends α xs) (hxs : a.Rearranges done xs xs)
    (hys : a.Rearranges done xs ys) (hm : m.Typed a) {m'' : Memory α}
    (hrun : a.runFrom m xs = (.ok (), m')) (hrun' : a.runFrom m ys = (.ok (), m''))
    (hx : x ∈ xs) (hstep : x.isStep = true) {b : Nat} (hb : b ∈ x.targets) :
    ∃ p, m'.source a b = .ok p ∧ m''.source a b = .ok p := by
  obtain ⟨before, after, rfl⟩ := List.append_of_mem hx
  obtain ⟨before', after', rfl⟩ := List.append_of_mem (hys.perm.mem_iff.2 hx)
  obtain ⟨q, hq, p, w, g, v, W, G, V, W', V', rfl, hW, hG, hV, hdescent, hW', hV'⟩ :=
    h.moves hm hrun hstep
  obtain ⟨q', hq', _, _, _, _, W₁, G₁, V₁, W₁', V₁', heq, hW₁, hG₁, hV₁, hdescent₁, hW₁', hV₁'⟩ :=
    (h.perm hys.perm).moves hm hrun' hstep
  obtain ⟨rfl, rfl, rfl, rfl⟩ : p = _ ∧ w = _ ∧ g = _ ∧ v = _ := by simpa [step] using heq
  have hothers := hys.others_eq
  rw [others_append, others_append] at hothers
  have hgradient : q'.source a g = q.source a g :=
    (hxs.holds rfl).source_eq (hys.holds rfl) hothers.symm hq hq'
  obtain rfl : G = G₁ := Except.ok.inj
    (hG.symm.trans ((Memory.readFloats_congr (Memory.read_congr rfl hgradient.symm)).trans hG₁))
  obtain rfl : W = W₁ := Except.ok.inj (hW.symm.trans hW₁)
  obtain rfl : V = V₁ := Except.ok.inj (hV.symm.trans hV₁)
  obtain ⟨rfl, rfl⟩ := Prod.mk.inj (Except.ok.inj (hdescent.symm.trans hdescent₁))
  rcases mem_targets_step.1 hb with rfl | rfl
  · exact ⟨_, hW', hW₁'⟩
  · exact ⟨_, hV', hV₁'⟩

/-- The order of the steps does not matter: with the steps rearranged the run succeeds too, and leaves
the same behind. -/
theorem Descends.rearrange (h : a.Descends α xs) (hxs : a.Rearranges done xs xs)
    (hys : a.Rearranges done xs ys) (hm : m.Typed a) (hrun : a.runFrom m xs = (.ok (), m')) :
    ∃ m'', a.runFrom m ys = (.ok (), m'') ∧ m''.persistent = m'.persistent := by
  obtain ⟨m'', -, hrun', -⟩ := (h.perm hys.perm).run hm rfl
  have halike {xs : List Instruction} {m' : Memory α} (hrun : a.runFrom m xs = (.ok (), m')) :
      m.Alike m' := by
    have h := a.alike_runFrom m xs
    rwa [hrun] at h
  refine ⟨m'', hrun', Memory.persistent_congr fun location hslot => ?_⟩
  by_cases htarget : ∃ x ∈ xs, x.isStep = true ∧ ∃ b ∈ x.targets, a.locate b = .ok location
  · obtain ⟨x, hx, hstep, b, hb, hlocate⟩ := htarget
    obtain ⟨p, hsource, hsource'⟩ := h.moved_eq hxs hys hm hrun hrun' hx hstep hb
    exact ((halike hrun).symm.trans (halike hrun')).get?_eq hlocate hsource hsource'
  · have hne : ∀ x ∈ xs, x.isStep = true → ∀ b ∈ x.targets, a.locate b ≠ .ok location :=
      fun x hx hstep b hb hlocate => htarget ⟨x, hx, hstep, b, hb, hlocate⟩
    have hkept := h.kept hslot hne (m := m)
    have hkept' := (h.perm hys.perm).kept hslot (m := m) fun x hx => hne x (hys.perm.mem_iff.1 hx)
    rw [hrun] at hkept
    rw [hrun'] at hkept'
    exact hkept'.trans hkept.symm

end Artifact

end TensorCompiler
