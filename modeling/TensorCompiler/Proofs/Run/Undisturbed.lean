import TensorCompiler.Proofs.Lowering.Prefix
import TensorCompiler.Proofs.Run.Agree
import TensorCompiler.Proofs.Run.Rereads
import TensorCompiler.Proofs.Training.Reach

/-!
Training does not disturb its source. The stream of a training function starts with that of its source,
and the artifact runs it in slots of its own, in step with the artifact of the source. What comes after it
writes weights only, so a training run leaves all other storage as a run of the source does
(`Module.differentiate_undisturbed`).
-/

namespace TensorCompiler

open Lowering TensorCompiler.Lowering.Stream

variable {s : Storage} {f g : Function} {reuse reuse' : Bool} {st st' : Stream} {a a' : Artifact}

namespace Training.Trains

/-- Nothing after the source writes storage, except steps of descent their weights. -/
theorem unwritten_after (h : Trains s f g) (hverify : g.verify s = .ok ()) {ref : StorageRef}
    (href : ref ∉ g.weights) : g.Unwritten ref f.size g.size := by
  intro j n hj _ hn hwrites
  rcases hwrites with hsave | ⟨p, hop, hin⟩
  · exact h.noSave hj hn hsave
  · obtain ⟨types, hwt⟩ := Function.wellTyped_of_verify hverify hn
    have harity := hwt.arity
    rw [hop] at harity
    obtain ⟨v, w, hinputs⟩ := List.length_eq_two.1 harity
    obtain rfl : w = .storage ref := by simpa [hinputs] using hin
    exact href (List.mem_filterMap.2
      ⟨n, List.mem_of_getElem? hn, Node.weight?_eq_some_iff.2 ⟨p, v, hop, hinputs⟩⟩)

/-- The source has no optimizer state: what it uses outside the slots is storage. -/
theorem surrounds (h : Trains s f g) (hlowered : Lowered s f reuse st a) :
    Surrounds st fun location => ∃ ref : StorageRef, location = ref.location where
  ne_slot := by
    rintro _ ⟨ref, rfl⟩
    exact ref.location_ne_slot
  located
    | .storage _ => ⟨_, rfl⟩
    | .state ⟨p, o₁, o₂, hx⟩ => by
      obtain ⟨n, types, hn, -, he⟩ := hlowered.emitted hx
      exact absurd (he.sgd rfl) (h.forward n (List.mem_of_getElem? hn) p)

/-- Where a run of the training function succeeds, a run of the source does, and leaves the same in all
storage but the weights. -/
theorem run_source {α : Type} [Scalar α] (h : Trains s f g) (hf : Lowered s f reuse st a)
    (hg : Lowered s g reuse' st' a') (hext : Extends st st') {vars : List (Tensor α)}
    {bindings state' : IdMap (Tensor α)} {m' : Memory α}
    (hrun : a'.run (.start a' vars bindings state') = (.ok (), m')) (state : IdMap (Tensor α)) :
    ∃ m, a.run (.start a vars bindings state) = (.ok (), m) ∧
      ∀ ref, ref ∉ g.weights → m.get? ref.location = m'.get? ref.location := by
  have hall : a'.operations.take g.size = a'.operations :=
    List.take_of_length_le (Nat.le_of_eq (by rw [hg.operations_eq, hg.describes.length]; rfl))
  have hsource : a'.operations.take f.size = a.operations := by
    rw [hf.operations_eq, hg.operations_eq, List.prefix_iff_eq_take.1 hext.body_prefix,
      hf.describes.length]
    rfl
  rw [hg.run_eq, ← hall] at hrun
  have hsize : f.size ≤ g.size := h.source.length_le
  obtain ⟨m₁', hfirst, hrest⟩ := Artifact.runFrom_take_of_le hsize hrun
  have hstart : Agree st a a' (fun location => ∃ ref : StorageRef, location = ref.location) (Live 0)
      (.start a vars bindings state) (.start a' vars bindings state') := by
    refine start_agree ?_
    rintro _ ⟨ref, rfl⟩
    cases ref <;> rfl
  obtain ⟨hresult, hout⟩ := runFrom_agree hf (hosts_of_extends hf hg hext) (h.surrounds hf)
    a.operations (hf.operations_eq ▸ List.prefix_refl _) hstart
  rw [hsource] at hfirst
  rw [hfirst] at hresult hout
  refine ⟨(a.runFrom (.start a vars bindings state) a.operations).2, ?_, fun ref href => ?_⟩
  · rw [hf.run_eq]
    exact Prod.ext hresult rfl
  · exact (hout ⟨ref, rfl⟩).trans (hg.get?_between (h.unwritten_after hg.verified href) hrest).symm

end Training.Trains

/-- The check before a run asks for the storage of the artifact. -/
theorem Engine.checkBindings_of_weights {c : Context}
    (h : ∀ w ∈ a.weights, ∃ b, (b, w.2) ∈ a'.weights) (hc : checkBindings s c a' = .ok ()) :
    checkBindings s c a = .ok () := by
  refine (forM_ok_iff _ _).2 fun ⟨b, ref⟩ hb => ?_
  obtain ⟨b', hb'⟩ := h _ hb
  have hcheck := (forM_ok_iff _ _).1 hc _ hb'
  cases ref with
  | var id => rfl
  | placeholder id => exact hcheck

namespace Module

/-- The training function starts with the nodes of its source: their names, operators, operands and
results, in the same places. From any storage and bindings from which a run of the training function
succeeds, with any optimizer state, a run of the source succeeds, and leaves the same elements in all
storage that no step of descent updates, such as what the source saves to. Both functions are lowered,
each if a word counts the bytes of its slots. -/
theorem differentiate_undisturbed {m m' : Module} {id k : Nat} {settings : Descent}
    (h : m.differentiate id settings = .ok (k, m')) :
    ∃ f g, m.function id = .ok f ∧ m'.function k = .ok g ∧ f.nodes <+: g.nodes ∧
      (∀ reuse, arenaBytes m.storage f reuse < Word.size → ∃ a, m.lower id reuse = .ok a) ∧
      (∀ reuse, arenaBytes m'.storage g reuse < Word.size → ∃ a, m'.lower k reuse = .ok a) ∧
      ∀ reuse reuse' a a', m.lower id reuse = .ok a → m'.lower k reuse' = .ok a' →
        ∀ (e e' : Engine) (key key' : String) (compiled compiled' : Compiled),
          e.get? key = some compiled → compiled.artifact = a →
          e'.get? key' = some compiled' → compiled'.artifact = a' →
          e.module.storage = e'.module.storage →
          ∀ (c : Context) (e₁' : Engine) (c₁' : Context), e'.run key' c = (.ok (), e₁', c₁') →
            ∃ e₁ c₁, e.run key c = (.ok (), e₁, c₁) ∧
              ∀ ref, ref ∉ g.weights → e₁.content c₁ ref = e₁'.content c₁' ref := by
  obtain ⟨f, g, hf, hg, hstorage, hverify, hverify', htrains⟩ := exists_trains h
  obtain ⟨st, st', hext, hsource, htraining⟩ := exists_streams hverify hverify' htrains.source
  have hlowers {reuse : Bool} {a : Artifact} (hlower : m.lower id reuse = .ok a) :
      Lowered m.storage f reuse st a := by
    obtain ⟨f', hf', ha⟩ := bind_ok_iff.1 hlower
    obtain rfl := Except.ok.inj (hf.symm.trans hf')
    obtain ⟨st', hstream, hlowered, -⟩ := lowered_of_lower ha
    obtain rfl := Except.ok.inj (hsource.symm.trans hstream)
    exact hlowered
  have hlowers' {reuse : Bool} {a : Artifact} (hlower : m'.lower k reuse = .ok a) :
      Lowered m.storage g reuse st' a := by
    obtain ⟨g', hg', ha⟩ := bind_ok_iff.1 hlower
    obtain rfl := Except.ok.inj (hg.symm.trans hg')
    rw [hstorage] at ha
    obtain ⟨st₁, hstream, hlowered, -⟩ := lowered_of_lower ha
    obtain rfl := Except.ok.inj (htraining.symm.trans hstream)
    exact hlowered
  refine ⟨f, g, hf, hg, htrains.source, fun reuse hbytes => ?_, fun reuse hbytes => ?_, ?_⟩
  · obtain ⟨a, ha⟩ := exists_lower hverify hbytes
    exact ⟨a, bind_ok_iff.2 ⟨f, hf, ha⟩⟩
  · obtain ⟨a, ha⟩ := exists_lower (hstorage ▸ hverify') hbytes
    exact ⟨a, bind_ok_iff.2 ⟨g, hg, ha⟩⟩
  rintro reuse reuse' a a' hlower hlower' e e' key key' compiled compiled' hentry rfl hentry' rfl
    hsame c e₁' c₁' hrun
  have hlowered := hlowers hlower
  have hlowered' := hlowers' hlower'
  have hcheck' := Engine.check_of_run_ok hentry' hrun
  have hcheck : Engine.checkBindings e.module.storage c compiled.artifact = .ok () := by
    refine Engine.checkBindings_of_weights (fun w hw => ?_) (hsame ▸ hcheck')
    exact ⟨w.1, hlowered'.mem_weights_iff.2 (hext.weights (hlowered.mem_weights_iff.1 hw))⟩
  rw [Engine.run_of_check hentry' hcheck'] at hrun
  obtain ⟨hok, rfl, rfl⟩ : _ ∧ _ ∧ _ := by simpa only [Prod.mk.injEq] using hrun
  have hok' : (compiled'.artifact.run (e'.start compiled' c)).1 = .ok () := mapError_ok_iff.1 hok
  obtain ⟨m₁, hm₁, hleft⟩ :=
    htrains.run_source hlowered hlowered' hext (Prod.ext hok' rfl) compiled.state
  have hstart : e.start compiled c =
      .start compiled.artifact (e'.module.storage.vars.map (·.payload)) c compiled.state := by
    rw [Engine.start, hsame]
  rw [← hstart] at hm₁
  refine ⟨_, _, (Engine.run_of_check hentry hcheck).trans (Prod.ext ?_ rfl), fun ref href => ?_⟩
  · exact mapError_ok_iff.2 (congrArg Prod.fst hm₁)
  · rw [Engine.content_after, Engine.content_after, hm₁]
    exact hleft ref href

end Module

/-- The training run of `saving` moves `w`, and leaves the product in `x` as the run of its source does. -/
theorem Sample.differentiate_undisturbed_saving : ∃ key e e' e₁ e₁' c₁ c₁',
    (Engine.ofModule saving true).compile .infer 0 = (.ok key, e) ∧
      (Engine.ofModule saving true).compile (.train (some fullStep)) 0 = (.ok "train_grad", e') ∧
      e'.run "train_grad" factors = (.ok (), e₁', c₁') ∧ e.run key factors = (.ok (), e₁, c₁) ∧
      e₁.content c₁ (.placeholder 1) = e₁'.content c₁' (.placeholder 1) := by
  obtain ⟨⟨k, m'⟩, hdifferentiate, hg⟩ := Option.bind_eq_some_iff.1 differentiate_saving
  replace hdifferentiate := toOption_eq_some.1 hdifferentiate
  replace hg : m'.function k = .ok savedFactor := toOption_eq_some.1 hg
  obtain ⟨f, -, hf, -, hstorage', hverify, -⟩ := Module.exists_trains hdifferentiate
  have hlower' : m'.lower k true = .ok rereading :=
    bind_ok_iff.2 ⟨savedFactor, hg, hstorage' ▸ lower_savedFactor⟩
  have hresults : (saving.function 0).toOption.map resultBytes = some 8 := by decide +kernel
  rw [hf] at hresults
  obtain ⟨f', g, hf', hg', -, hlowers, -, hruns⟩ := Module.differentiate_undisturbed hdifferentiate
  obtain rfl : f = f' := Except.ok.inj (hf.symm.trans hf')
  obtain rfl : savedFactor = g := Except.ok.inj (hg.symm.trans hg')
  obtain ⟨a, hlower⟩ := hlowers true <| (arenaBytes_le hverify true).trans_lt <| by
    rw [Option.some.inj hresults]
    decide
  have htarget : Engine.target (Engine.ofModule saving true).module .infer 0 = .ok (0, saving) := rfl
  have hcompile := Engine.compile_of_target htarget hlower
  obtain ⟨e', compiled', hcompile', hserves, hstorage, -, hstart⟩ :=
    Engine.compile_of_differentiate differentiate_saving lower_savedFactor
  have hcheck : Engine.checkBindings e'.module.storage factors compiled'.artifact = .ok () := by
    rw [hstorage, hserves.artifact]
    decide +kernel
  have hok : (compiled'.artifact.run (e'.start compiled' factors)).1 = .ok () := by
    rw [hserves.artifact, hstart]
    decide +kernel
  have hrun := Engine.run_of_check hserves.entry hcheck
  rw [hok] at hrun
  obtain ⟨e₁, c₁, hrun₁, hleft⟩ := hruns true true a rereading hlower hlower'
    ((Engine.ofModule saving true).put a.name _) e' a.name _
    ⟨0, a, Engine.zeroState a⟩ compiled' (Engine.get?_put ..) rfl hserves.entry
    hserves.artifact hstorage.symm factors _ _ hrun
  exact ⟨_, _, e', e₁, _, c₁, _, hcompile, hcompile', hrun, hrun₁, hleft _ (by decide)⟩

end TensorCompiler
