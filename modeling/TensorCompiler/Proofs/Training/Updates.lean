import TensorCompiler.Proofs.Training.Sweep

/-!
The updates after the sweep: one step of descent for each trained storage that is owed something,
handed all of it. The steps read and write only their own storage, so the order does not matter.
-/

namespace TensorCompiler

variable {I : Interpretation}

/-- The inner product of a float tensor with a tangent. -/
def Tensor.pair (t : Tensor (Exact I)) (tangent : Tangent I) : Exact I :=
  match t with
  | .floats d => d.pair tangent
  | .indices _ => 0

theorem Storage.mem_refs {s : Storage} {ref : StorageRef} {type : TensorType}
    (h : s.type? ref = some type) : ref ∈ s.refs := by
  cases ref with
  | var id =>
    obtain ⟨v, hv, -⟩ := Option.map_eq_some_iff.1 h
    simp [refs, (List.getElem?_eq_some_iff.1 hv).1]
  | placeholder id =>
    obtain ⟨v, hv, -⟩ := Option.map_eq_some_iff.1 h
    simp [refs, (List.getElem?_eq_some_iff.1 hv).1]

theorem Storage.nodup_refs (s : Storage) : s.refs.Nodup := by
  refine List.nodup_append.2 ⟨?_, ?_, ?_⟩
  · exact List.nodup_range.map fun _ _ h => StorageRef.var.inj h
  · exact List.nodup_range.map fun _ _ h => StorageRef.placeholder.inj h
  · intro a ha b hb
    obtain ⟨i, -, rfl⟩ := List.mem_map.1 ha
    obtain ⟨j, -, rfl⟩ := List.mem_map.1 hb
    nofun

namespace Training

open World

/-! ## Nodes of updates -/

/-- A step of descent, with a gradient that is a node. -/
def IsStep (n : Node) : Prop :=
  ∃ p i r ref, n.op = .sgd p ∧ n.inputs = [.node i r, .storage ref]

/-- Sums of gradients and steps of descent that read only the storage `refs`, and write only storage
that no later one reads. -/
structure Updates (refs : List StorageRef) (new : List Node) : Prop where
  reads : ∀ n ∈ new, ∀ ref, Value.storage ref ∈ n.inputs → ref ∈ refs
  kinds : ∀ n ∈ new, IsSum n ∨ IsStep n
  unread : new.Pairwise fun m n => ∀ ref, Function.Writes m ref → Value.storage ref ∉ n.inputs

namespace Updates

variable {refs refs' : List StorageRef} {new new' : List Node}

theorem nil (refs : List StorageRef) : Updates refs [] := ⟨nofun, nofun, .nil⟩

theorem noSave (h : Updates refs new) {n : Node} (hn : n ∈ new) (ref : StorageRef) :
    n.op ≠ .save ref := by
  intro hop
  rcases h.kinds n hn with ⟨hsum, -⟩ | ⟨p, i, r, weight, hstep, -⟩
  · exact absurd (hsum.symm.trans hop) nofun
  · exact absurd (hstep.symm.trans hop) nofun

/-- Descent writes the storage it reads. -/
theorem writes (h : Updates refs new) {n : Node} (hn : n ∈ new) {ref : StorageRef}
    (hw : Function.Writes n ref) : ref ∈ refs := by
  rcases hw with hop | ⟨p, -, hin⟩
  · exact absurd hop (h.noSave hn ref)
  · exact h.reads n hn ref (List.mem_of_getElem? hin)

theorem append (h : Updates refs new) (h' : Updates refs' new')
    (hdisjoint : ∀ ref ∈ refs, ref ∉ refs') : Updates (refs ++ refs') (new ++ new') := by
  refine ⟨fun n hn ref hin => ?_, fun n hn => ?_,
    List.pairwise_append.2 ⟨h.unread, h'.unread, ?_⟩⟩
  · rcases List.mem_append.1 hn with hn | hn
    · exact List.mem_append_left _ (h.reads n hn ref hin)
    · exact List.mem_append_right _ (h'.reads n hn ref hin)
  · exact (List.mem_append.1 hn).elim (h.kinds n) (h'.kinds n)
  · intro m hm n hn ref hw hin
    exact hdisjoint ref (h.writes hm hw) (h'.reads n hn ref hin)

theorem mono (h : Updates refs new) (hsubset : ∀ ref ∈ refs, ref ∈ refs') : Updates refs' new :=
  { h with reads := fun n hn ref hin => hsubset ref (h.reads n hn ref hin) }

theorem of_isSum (h : ∀ n ∈ new, IsSum n) : Updates [] new := by
  have hreads (n : Node) (hn : n ∈ new) (ref : StorageRef) : Value.storage ref ∉ n.inputs := by
    intro hin
    have hread : ref ∈ n.storageReads := Node.mem_storageReads.2 hin
    simp [(h n hn).2] at hread
  exact ⟨fun n hn ref hin => absurd hin (hreads n hn ref), fun n hn => .inl (h n hn),
    List.pairwise_of_forall_mem_list fun m _ n hn ref _ => hreads n hn ref⟩

theorem descent {n : Node} {p : Descent} {i r : Nat} {ref : StorageRef} (hop : n.op = .sgd p)
    (hin : n.inputs = [.node i r, .storage ref]) : Updates [ref] [n] := by
  refine ⟨fun m hm ref' hmem => ?_, fun m hm => ?_, List.pairwise_singleton ..⟩
  · obtain rfl := List.mem_singleton.1 hm
    simpa [hin] using hmem
  · obtain rfl := List.mem_singleton.1 hm
    exact .inr ⟨p, i, r, ref, hop, hin⟩

end Updates

/-! ## Gradients handed over -/

variable {src : Source} {w₀ w w₁ w₂ : World (Exact I)} {T : Value → Tangent I}
  {pending : List (Value × Value)} {st' : Backward} {settings : Descent}

/-- What the updates of the storage `refs` add to a world: nodes, and gradients handed to steps of
descent that come to `c`. -/
structure Updated (src : Source) (T : Value → Tangent I) (refs : List StorageRef)
    (w w' : World (Exact I)) (c : Exact I) : Prop extends Extends w w' where
  added : ∃ new, w'.function.nodes = w.function.nodes ++ new ∧ Updates refs new
  handed : ∃ gs, w'.function.handed w'.valuation = w.function.handed w.valuation ++ gs ∧
    (gs.map Prod.fst).Sublist (refs.filter src.storage.isTrainableFloat) ∧
    (gs.map fun p => p.2.pair (T (.storage p.1))).sum = c

theorem Updated.nothing (src : Source) (T : Value → Tangent I) (w : World (Exact I)) :
    Updated src T [] w w 0 :=
  ⟨Extends.refl w, ⟨[], by simp, Updates.nil []⟩, [], by simp, by simp, rfl⟩

theorem Updated.trans {refs refs' : List StorageRef} {c c' : Exact I}
    (h : Updated src T refs w w₁ c) (h' : Updated src T refs' w₁ w₂ c')
    (hdisjoint : ∀ ref ∈ refs, ref ∉ refs') : Updated src T (refs ++ refs') w w₂ (c + c') := by
  obtain ⟨new, hnodes, hnew⟩ := h.added
  obtain ⟨new', hnodes', hnew'⟩ := h'.added
  obtain ⟨gs, hgs, hkeys, hsum⟩ := h.handed
  obtain ⟨gs', hgs', hkeys', hsum'⟩ := h'.handed
  refine ⟨h.toExtends.trans h'.toExtends, ⟨new ++ new', ?_, hnew.append hnew' hdisjoint⟩,
    gs ++ gs', ?_, ?_, ?_⟩
  · rw [hnodes', hnodes, List.append_assoc]
  · rw [hgs', hgs, List.append_assoc]
  · rw [List.map_append, List.filter_append]
    exact hkeys.append hkeys'
  · rw [List.map_append, List.sum_append, hsum, hsum']

theorem Updated.mono {refs refs' : List StorageRef} {c : Exact I} (h : Updated src T refs w w₁ c)
    (hsub : refs.Sublist refs') : Updated src T refs' w w₁ c := by
  obtain ⟨new, hnodes, hnew⟩ := h.added
  obtain ⟨gs, hgs, hkeys, hsum⟩ := h.handed
  exact ⟨h.toExtends, ⟨new, hnodes, hnew.mono fun _ href => hsub.subset href⟩, gs, hgs,
    hkeys.trans (hsub.filter _), hsum⟩

/-- Sums are no steps: they hand over nothing. -/
theorem updated_sums (hsolved : src.Solved w) (hw : Extends w w₁) {new : List Node}
    (hnodes : w₁.function.nodes = w.function.nodes ++ new) (hnew : ∀ n ∈ new, IsSum n) :
    Updated src T [] w w₁ 0 := by
  have hsums : w₁.function.handed w₁.valuation = w.function.handed w.valuation := by
    rw [hsolved.handed_append hw hnodes, List.filterMap_eq_nil_iff.2, List.append_nil]
    intro n hn
    exact Node.handed_eq_none fun p v ref hop => absurd ((hnew n hn).1.symm.trans hop) nofun
  exact ⟨hw, ⟨new, hnodes, .of_isSum hnew⟩, [], by simp [hsums], by simp, rfl⟩

/-- A step of descent is handed its gradient. -/
theorem step_ok (hw : Extends w₀ w) (hsolved : src.Solved w) {ref : StorageRef} {g v : Value}
    (hg : Recorded src w₀ w (.storage ref) g) {name : String}
    (hrun : (src.emit name (.sgd settings) [g, .storage ref]).run ⟨w.function, pending⟩ =
      .ok (v, st')) :
    ∃ w', Updated src T [ref] w w' (w.valuation.pair g (T (.storage ref))) ∧ src.Solved w' ∧
      st' = ⟨w'.function, pending⟩ := by
  obtain ⟨i, r, rfl⟩ := hg.node
  obtain ⟨x, d, hx, hd, -⟩ := hg.floats
  have hts : List.Forall₂ (src.Holds w) [.node i r, .storage ref] [.floats d, .floats x] :=
    .cons hd (.cons (hx.mono hw) .nil)
  obtain ⟨n, hop, hin, hweight, htyped, -, rfl⟩ := emit_ok hts hrun
  have hresults : n.results = [] := by
    generalize [Tensor.floats d.toShaped, Tensor.floats x].map Tensor.type = ts at htyped
    generalize n.results = results at htyped ⊢
    cases htyped
    rfl
  rw [← hop] at htyped hweight
  rw [← hin] at hts hweight
  have htypes : List.Forall₂ (fun (t : Tensor (Exact I)) type => t.type = type) [] n.results :=
    hresults ▸ .nil
  obtain ⟨hsolved', -⟩ := hsolved.push hts hweight htyped htypes nofun
    (by simp [hop, Operator.isSink])
  have hext := Extends.push w n []
  have hhanded : Node.handed (w.push n []).valuation n = some (ref, .floats d) := by
    simp only [Node.handed, hop, hin, (hd.mono hext).value, Option.map_some]
  have hlast : (w.push n []).function.nodes = w.function.nodes ++ [n] := rfl
  refine ⟨w.push n [], ⟨hext, ⟨[n], hlast, .descent hop hin⟩, [(ref, .floats d)], ?_, ?_, ?_⟩,
    hsolved', rfl⟩
  · rw [hsolved.handed_append hext hlast]
    simp [hhanded]
  · simp [show src.storage.isTrainableFloat ref = true from hg.wanted]
  · rw [pair_of_holds hd]
    simp [Tensor.pair]

/-- The update of one storage. -/
def Source.update (src : Source) (settings : Descent) (ref : StorageRef) : Pass Unit := do
  if src.storage.isTrainable ref then
    let name := (src.storage.name? ref).getD ""
    match ← src.takeGradient (.storage ref) name with
    | none => return ()
    | some g =>
      let _ ← src.emit (name ++ "_sgd") (.sgd settings) [g, .storage ref]

theorem emitUpdates_eq (src : Source) (settings : Descent) :
    src.emitUpdates settings = src.storage.refs.forM (src.update settings) := rfl

/-- The update of one storage hands over all that it is owed. -/
theorem update_ok (hw : Extends w₀ w) (hsolved : src.Solved w)
    (hpending : ∀ p ∈ pending, Recorded src w₀ w p.1 p.2) {ref : StorageRef}
    (hrun : (src.update settings ref).run ⟨w.function, pending⟩ = .ok ((), st')) :
    ∃ w' c, Updated src T [ref] w w' c ∧ src.Solved w' ∧
      st' = ⟨w'.function, pending.filter (·.1 ≠ .storage ref)⟩ ∧
      owed T w pending = c + owed T w' (pending.filter (·.1 ≠ .storage ref)) := by
  have hkept (p : Value × Value) (hp : p ∈ pending.filter (·.1 ≠ .storage ref)) :
      Recorded src w₀ w p.1 p.2 := hpending p (List.mem_filter.1 hp).1
  unfold Source.update at hrun
  split at hrun
  · obtain ⟨r, st, htake, hrest⟩ := run_bind_ok_iff.1 hrun
    obtain ⟨w₁, new, hw₁, hnodes, hnew, hsolved₁, rfl, hr⟩ :=
      takeGradient_ok (T := T) hsolved hpending htake
    have hsums : Updated src T [] w w₁ 0 := updated_sums hsolved hw₁ hnodes hnew
    have howed := owed_mono (T := T) hkept hw₁
    cases r with
    | none =>
      obtain ⟨-, rfl⟩ := run_pure_ok_iff.1 hrest
      refine ⟨w₁, 0, hsums.mono (List.nil_sublist _), hsolved₁, rfl, ?_⟩
      rw [zero_add, howed, List.filter_eq_self.2 fun p hp => by simpa using hr p hp]
    | some g =>
      obtain ⟨hg, hpair⟩ := hr
      obtain ⟨v, st, hemit, hlast⟩ := run_bind_ok_iff.1 hrest
      obtain ⟨-, rfl⟩ := run_pure_ok_iff.1 hlast
      obtain ⟨w₂, hstep, hsolved₂, rfl⟩ := step_ok (T := T) (hw.trans hw₁) hsolved₁ hg hemit
      refine ⟨w₂, _, hsums.trans hstep (by simp), hsolved₂, rfl, ?_⟩
      rw [hpair, ← howed, zero_add, owed_mono (fun p hp => (hkept p hp).mono hw₁) hstep.toExtends]
  · next hno =>
    obtain ⟨-, rfl⟩ := run_pure_ok_iff.1 hrun
    have hself : pending.filter (·.1 ≠ .storage ref) = pending := by
      refine List.filter_eq_self.2 fun p hp => ?_
      have hwanted := (hpending p hp).wanted
      rw [decide_eq_true_eq]
      intro heq
      rw [heq] at hwanted
      exact hno (Bool.and_eq_true_iff.1 hwanted).1
    exact ⟨w, 0, (Updated.nothing src T w).mono (List.nil_sublist _), hsolved, by rw [hself],
      by rw [hself, zero_add]⟩

/-- The updates of a list of storage, one after the other. -/
theorem updates_ok (refs : List StorageRef) : ∀ {w : World (Exact I)} {pending : List (Value × Value)},
    refs.Nodup → Extends w₀ w → src.Solved w → (∀ p ∈ pending, Recorded src w₀ w p.1 p.2) →
      (refs.forM (src.update settings)).run ⟨w.function, pending⟩ = .ok ((), st') →
      ∃ w' pending' c, Updated src T refs w w' c ∧ src.Solved w' ∧ st' = ⟨w'.function, pending'⟩ ∧
        owed T w pending = c + owed T w' pending' ∧
        ∀ p ∈ pending', p ∈ pending ∧ ∀ ref ∈ refs, p.1 ≠ .storage ref := by
  induction refs with
  | nil =>
    intro w pending _ _ hsolved _ hrun
    obtain ⟨-, rfl⟩ := run_pure_ok_iff.1 hrun
    exact ⟨w, pending, 0, Updated.nothing src T w, hsolved, rfl, (zero_add _).symm,
      fun p hp => ⟨hp, nofun⟩⟩
  | cons ref refs ih =>
    intro w pending hnodup hw hsolved hpending hrun
    obtain ⟨hnotin, hnodup⟩ := List.nodup_cons.1 hnodup
    obtain ⟨_, st, hfirst, hrest⟩ := run_bind_ok_iff.1 hrun
    obtain ⟨w₁, c, hupdated, hsolved₁, rfl, howed⟩ := update_ok (T := T) hw hsolved hpending hfirst
    have hpending₁ (p : Value × Value) (hp : p ∈ pending.filter (·.1 ≠ .storage ref)) :
        Recorded src w₀ w₁ p.1 p.2 :=
      (hpending p (List.mem_filter.1 hp).1).mono hupdated.toExtends
    obtain ⟨w₂, pending₂, c', hupdated', hsolved₂, rfl, howed', hleft⟩ :=
      ih hnodup (hw.trans hupdated.toExtends) hsolved₁ hpending₁ hrest
    refine ⟨w₂, pending₂, c + c', hupdated.trans hupdated' (by simpa using hnotin), hsolved₂, rfl,
      by rw [howed, howed', add_assoc], fun p hp => ?_⟩
    obtain ⟨hmem, hne⟩ := hleft p hp
    obtain ⟨hmem, hfirst⟩ := List.mem_filter.1 hmem
    exact ⟨hmem, List.forall_mem_cons.2 ⟨by simpa using hfirst, hne⟩⟩

/-- The updates of all storage, when only storage is owed anything. -/
theorem emitUpdates_ok (hw : Extends w₀ w) (hsolved : src.Solved w)
    (htable : Table src w₀ w 0 pending)
    (hrun : (src.emitUpdates settings).run ⟨w.function, pending⟩ = .ok ((), st')) :
    ∃ w', Updated src T src.storage.refs w w' (owed T w pending) ∧ src.Solved w' ∧
      st'.function = w'.function := by
  rw [emitUpdates_eq] at hrun
  obtain ⟨w', pending', c, hupdated, hsolved', rfl, howed, hleft⟩ :=
    updates_ok (T := T) _ src.storage.nodup_refs hw hsolved htable.recorded hrun
  have hnone : pending' = [] := by
    refine List.eq_nil_iff_forall_not_mem.2 fun p hp => ?_
    obtain ⟨hmem, hne⟩ := hleft p hp
    cases hv : p.1 with
    | node i r => exact Nat.not_lt_zero _ (htable.before p hmem hv)
    | storage ref =>
      obtain ⟨x, d, hx, -⟩ := (htable.recorded p hmem).floats
      have htype := hx.type
      rw [hv] at htype
      simp only [Function.valueType] at htype
      cases hs : src.storage.type? ref with
      | none => simp [hs] at htype
      | some type => exact hne ref (Storage.mem_refs hs) hv
  have hall : owed T w pending = c := by
    rw [howed, hnone]
    simp [owed]
  exact ⟨w', hall ▸ hupdated, hsolved', rfl⟩

end Training

end TensorCompiler
