import TensorCompiler.Proofs.Lowering.Total
import TensorCompiler.Proofs.Run.Agree
import TensorCompiler.Run.Engine

/-!
Sharing slots is not observable. Two artifacts of one function run in step, and what outlives a run is
equal in both memories after every instruction; so it is equal after every one of successive runs
(`Lowering.reuse_unobservable`).
-/

namespace TensorCompiler

variable {α : Type}

/-- The memory of a run that starts with what another has left. -/
def Artifact.startOn [Zero α] (a : Artifact) (p : Persistent α) : Memory α :=
  .start a p.vars p.bindings p.state

/-- One run, with what it leaves. -/
def Artifact.runOn [Scalar α] (a : Artifact) (p : Persistent α) :
    Except RunFault Unit × Persistent α :=
  let (result, m) := a.run (a.startOn p)
  (result, m.persistent)

/-- Successive runs. Before each one its caller may change what the last one has left: bind other
placeholders, set variables, or leave all as it is. -/
def Artifact.runs [Scalar α] (a : Artifact) :
    Persistent α → List (Persistent α → Persistent α) →
      List (Except RunFault Unit × Persistent α)
  | _, [] => []
  | p, change :: changes =>
    let (result, p) := a.runOn (change p)
    (result, p) :: a.runs p changes

namespace Lowering

open TensorCompiler.Lowering.Stream TensorCompiler.Instruction

variable {s : Storage} {f : Function} {reuse reuse' : Bool} {st : Stream} {a a' : Artifact}

/-- A run up to any instruction. -/
theorem runFrom_take_agree [Scalar α] (h : Lowered s f reuse st a)
    (h' : Lowered s f reuse' st a') (p : Persistent α) (k : Nat) :
    (a.runFrom (a.startOn p) (a.instructions.take k)).1 =
        (a'.runFrom (a'.startOn p) (a'.instructions.take k)).1 ∧
      (a.runFrom (a.startOn p) (a.instructions.take k)).2.persistent =
        (a'.runFrom (a'.startOn p) (a'.instructions.take k)).2.persistent := by
  have hstream : a'.instructions = a.instructions := h'.instructions.trans h.instructions.symm
  obtain ⟨htaken, hrun⟩ := h.run_taken (a.startOn p) k
  rw [hrun, (h'.run_taken (a'.startOn p) k).2, hstream]
  have hpersist : (a.startOn p).persistent = (a'.startOn p).persistent := rfl
  have hstart : Agree st a a' (fun location => ∀ k, location ≠ .slot k) (Live 0) (a.startOn p)
      (a'.startOn p) := start_agree (Memory.get?_of_persistent hpersist)
  obtain ⟨hresult, hout⟩ :=
    runFrom_agree h h'.hosts ⟨id, Located.ne_slot⟩ _ (by simpa using htaken) hstart
  exact ⟨hresult, Memory.persistent_congr fun location => hout⟩

theorem runOn_agree [Scalar α] (h : Lowered s f reuse st a) (h' : Lowered s f reuse' st a')
    (p : Persistent α) : a.runOn p = a'.runOn p := by
  have hstream : a'.instructions = a.instructions := h'.instructions.trans h.instructions.symm
  have hrun := runFrom_take_agree h h' p a.instructions.length
  rw [hstream, List.take_length] at hrun
  unfold Artifact.runOn Artifact.run
  rw [hstream]
  exact Prod.ext hrun.1 hrun.2

theorem runs_agree [Scalar α] (h : Lowered s f reuse st a) (h' : Lowered s f reuse' st a')
    (p : Persistent α) (changes : List (Persistent α → Persistent α)) :
    a.runs p changes = a'.runs p changes := by
  induction changes generalizing p with
  | nil => rfl
  | cons change changes ih =>
    unfold Artifact.runs
    simp only [runOn_agree h h', ih]

/-- The two artifacts of a verified function, with shared slots and without, have the same buffers
and instructions. From the same state they do the same up to every instruction, and leave the same
after every one of successive runs. There is such an artifact if a word counts the bytes of its
slots. -/
theorem reuse_unobservable (α : Type) [Scalar α] (hverify : f.verify s = .ok ()) :
    (∀ reuse, arenaBytes s f reuse < Word.size → ∃ a, f.lower s reuse = .ok a) ∧
    ∀ a a', f.lower s true = .ok a → f.lower s false = .ok a' →
      a.buffers = a'.buffers ∧ a.instructions = a'.instructions ∧
      (∀ c, Engine.checkBindings s c a = Engine.checkBindings s c a') ∧
      (∀ (p : Persistent α) (k : Nat),
        (a.runFrom (a.startOn p) (a.instructions.take k)).1 =
            (a'.runFrom (a'.startOn p) (a'.instructions.take k)).1 ∧
          (a.runFrom (a.startOn p) (a.instructions.take k)).2.persistent =
            (a'.runFrom (a'.startOn p) (a'.instructions.take k)).2.persistent) ∧
      ∀ (p : Persistent α) (changes : List (Persistent α → Persistent α)),
        a.runs p changes = a'.runs p changes := by
  refine ⟨fun _ => exists_lower hverify, fun a a' hlower hlower' => ?_⟩
  obtain ⟨st, hstream, h, -⟩ := lowered_of_lower hlower
  obtain ⟨st', hstream', h', -⟩ := lowered_of_lower hlower'
  obtain rfl := Except.ok.inj (hstream.symm.trans hstream')
  have hbuffers : a.buffers = a'.buffers := h.buffers.trans h'.buffers.symm
  refine ⟨hbuffers, h.instructions.trans h'.instructions.symm, fun c => ?_,
    runFrom_take_agree h h', runs_agree h h'⟩
  unfold Engine.checkBindings Artifact.weights
  rw [hbuffers]

/-- The sample function does the same in shared slots. -/
theorem reuse_unobservable_sample : Sample.function.verify Sample.storage = .ok () ∧
    ∃ a a', Sample.function.lower Sample.storage true = .ok a ∧
      Sample.function.lower Sample.storage false = .ok a' ∧
      ∀ (p : Persistent Single) (changes : List (Persistent Single → Persistent Single)),
        a.runs p changes = a'.runs p changes := by
  obtain ⟨hlowers, hsame⟩ := reuse_unobservable Single Sample.verify_function
  obtain ⟨a, hlower⟩ := hlowers true (Sample.arenaBytes_function true)
  obtain ⟨a', hlower'⟩ := hlowers false (Sample.arenaBytes_function false)
  obtain ⟨-, -, -, -, hruns⟩ := hsame a a' hlower hlower'
  exact ⟨Sample.verify_function, a, a', hlower, hlower', hruns⟩

end Lowering

end TensorCompiler
