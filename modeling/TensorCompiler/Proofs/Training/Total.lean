import TensorCompiler.Proofs.Training.Drafts

/-!
Every rule of the gradient pass builds nodes that the typing rules accept (`passes_rule`), so the
whole pass succeeds on a source whose operators have rules (`derivative_total`); on any other source
it fails (`hasRule_of_derivative`).
-/

namespace TensorCompiler

open TensorCompiler.Function

/-- Operators that the gradient pass can pass: all but descent and the gradients themselves. -/
def Operator.hasRule : Operator → Bool
  | .sgd _ | .reluGrad | .convGrad _ | .maxPoolGrad _ | .fullyConnectedGrad | .softMaxGrad
  | .normalizationGrad _ => false
  | _ => true

namespace Training

variable {src : Source} {f f₁ : Function} {pending : List (Value × Value)} {name : String}

/-- Only floats are wanted. -/
def WantsFloats (src : Source) : Prop :=
  ∀ ⦃v : Value⦄ ⦃type : TensorType⦄, src.function.valueType src.storage v = .ok type →
    src.wants v = true → ∃ x, type = .float x

/-! ## Rules -/

section Rules

variable {x y b g out : Value} {s : Shape}

/-- A gradient for a value of any type; only floats want one. -/
theorem passes_wanted (hfloats : WantsFloats src) {v : Value} {type : TensorType}
    (hv : Usable src src.function v type) {p : Pass Value}
    (hp : ∀ x, type = .float x → Builds src f p (.float x)) :
    Passes src f (src.contributeFrom v p) := by
  refine passes_contributeFrom fun hwants => ?_
  obtain ⟨x, rfl⟩ := hfloats hv.type hwants
  exact ⟨x, hv, hp x rfl⟩

theorem builds_binary {op : BinaryOp} (hx : Usable src f x (.float s))
    (hy : Usable src f y (.float s)) (hfree : Free (.binary op) := by trivial) :
    Builds src f (src.emit name (.binary op) [x, y]) (.float s) :=
  builds_emit hfree (.cons hx (.cons hy .nil)) (.binary op s)

theorem passes_add (hx : Usable src src.function x (.float s))
    (hy : Usable src src.function y (.float s)) (hg : Gradient src f g (.float s)) :
    Passes src f (src.contribute x g >>= fun _ => src.contribute y g) :=
  (passes_contribute fun _ => ⟨s, hx, hg⟩).seq (passes_contribute fun _ => ⟨s, hy, hg⟩)

theorem builds_negation {label : String} (hg : Gradient src f g (.float s)) :
    Builds src f (src.constant name g 0 >>= fun zero => src.emit label (.binary .sub) [zero, g])
      (.float s) := by
  refine (builds_constant hg.usable 0).bind fun f₁ zero hmore hzero => ?_
  exact builds_binary hzero.usable (hg.mono hmore).usable

theorem builds_sigmoidGradient (hout : Usable src f out (.float s))
    (hg : Gradient src f g (.float s)) :
    Builds src f (src.sigmoidGradient name out g) (.float s) := by
  refine (builds_constant hout 1).bind fun f₁ one hmore₁ hone => ?_
  refine (builds_binary hone.usable (hout.mono hmore₁)).bind fun f₂ rest hmore₂ hrest => ?_
  refine (builds_binary (hout.mono (hmore₁.trans hmore₂)) hrest.usable).bind
    fun f₃ slope hmore₃ hslope => ?_
  exact builds_binary (hg.mono ((hmore₁.trans hmore₂).trans hmore₃)).usable hslope.usable

theorem builds_tanhGradient (hout : Usable src f out (.float s))
    (hg : Gradient src f g (.float s)) :
    Builds src f (src.tanhGradient name out g) (.float s) := by
  refine (builds_constant hout 1).bind fun f₁ one hmore₁ hone => ?_
  refine (builds_binary (hout.mono hmore₁) (hout.mono hmore₁)).bind fun f₂ square hmore₂ hsquare => ?_
  refine (builds_binary (hone.mono hmore₂).usable hsquare.usable).bind fun f₃ slope hmore₃ hslope => ?_
  exact builds_binary (hg.mono ((hmore₁.trans hmore₂).trans hmore₃)).usable hslope.usable

theorem builds_reshape {type : TensorType} (hx : Usable src f x type)
    (hg : Gradient src f g (.float s)) (hvolume : s.volume = type.volume) :
    Builds src f (src.typeOf x >>= fun type => src.emit name (.reshape type.shape) [g])
      (.float type.shape) := by
  refine builds_typeOf hx (builds_node (.cons hg.usable .nil)
    (.reshape (.float s) type.shape hvolume.symm) fun f₁ _ n hop hin => ?_)
  obtain ⟨i, r, rfl, hi⟩ := hg.node
  refine ⟨by simp [hin], ?_⟩
  rw [hop]
  exact ⟨i, r, hin, hi⟩

theorem builds_transpose {perm : List Nat} (hperm : Kernel.Permutes perm s.length)
    (hg : Gradient src f g (.float (Kernel.permuted perm s))) :
    Builds src f (src.emit name (.transpose (Source.inversePermutation perm)) [g]) (.float s) := by
  have hinverse : Kernel.Permutes (Source.inversePermutation perm)
      (Kernel.permuted perm s).length := by
    rw [Kernel.length_permuted, hperm.length]
    exact hperm.inverse
  have htyped : Typing.Typed src.storage (.transpose (Source.inversePermutation perm))
      [.float (Kernel.permuted perm s)] [.float (Kernel.permuted (Source.inversePermutation perm)
        (Kernel.permuted perm s))] :=
    .transpose _ _ (Kernel.isPermutation_of_permutes hinverse)
  rw [Kernel.permuted_inverse hperm] at htyped
  exact builds_emit trivial (.cons hg.usable .nil) htyped

theorem passes_layer {op : Operator} {tx tf tb tg : Shape} {type : TensorType}
    (hfree : Free op) (hfloats : WantsFloats src) (hf : src.function.nodes <+: f.nodes)
    (hx : Usable src src.function x (.float tx)) (hy : Usable src src.function y (.float tf))
    (hb : Usable src src.function b type) (hkind : ∀ z, type = .float z → z = tb)
    (hg : Gradient src f g (.float tg))
    (htyped : Typing.Typed src.storage op [.float tx, .float tf, .float tg]
      [.float tx, .float tf, .float tb]) :
    Passes src f (src.contributeLayer name op [x, y, b] g) := by
  intro f₁ pending hmore hdraft hpending
  have hinputs : List.Forall₂ (Usable src f₁) [x, y, g] [.float tx, .float tf, .float tg] :=
    .cons (hx.mono (hf.trans hmore)) (.cons (hy.mono (hf.trans hmore))
      (.cons (hg.mono hmore).usable .nil))
  have hweight : hasWeight op [x, y, g] = true := by cases htyped <;> rfl
  have hsink : op.isSink = false := by cases htyped <;> rfl
  obtain ⟨n, rfl, -, hresults, hdraft₂, hrun⟩ := emit_total name pending hdraft hinputs hweight
    htyped fun n hop hin => Free.added (hop ▸ hfree) fun ref hmem =>
      reads_of_usable hinputs (hin ▸ hmem)
  have hgrows : f₁.Grows (f₁.push n) := ⟨[n], rfl, by simpa using hsink⟩
  have hresult (r : Nat) (t : TensorType) (hr : n.results[r]? = some t) :=
    gradient_last hdraft.source hr
  have hcontribute : Passes src (f₁.push n)
      ([x, y, b].zipIdx.forM fun input => src.contribute input.1 (.node f₁.size input.2)) := by
    refine (passes_contribute fun _ => ⟨tx, hx, hresult 0 _ (by rw [hresults]; rfl)⟩).seq
      ((passes_contribute fun _ => ⟨tf, hy, hresult 1 _ (by rw [hresults]; rfl)⟩).seq
        ((passes_contribute fun hwants => ?_).seq passes_nothing))
    obtain ⟨z, rfl⟩ := hfloats hb.type hwants
    obtain rfl := hkind z rfl
    exact ⟨z, hb, hresult 2 _ (by rw [hresults]; rfl)⟩
  obtain ⟨f₃, pending₃, hrest, hgrows₃, h⟩ := hcontribute (List.prefix_refl _) hdraft₂
    (hpending.mono hgrows.nodes)
  exact ⟨f₃, pending₃, run_bind_ok_iff.2 ⟨_, _, hrun, hrest⟩, hgrows.trans hgrows₃, h⟩

/-- The right factor of a product: one for every sample, or one that all samples share. -/
inductive Factor (batch inner cols : Nat) : Shape → Prop
  | each : Factor batch inner cols [batch, inner, cols]
  | shared : Factor batch inner cols [inner, cols]

theorem builds_transposeBatch {a b c : Nat} (hx : Usable src f x (.float [a, b, c])) :
    Builds src f (src.emit name (.transpose [0, 2, 1]) [x]) (.float [a, c, b]) :=
  builds_emit trivial (.cons hx .nil) (.transpose (.float [a, b, c]) [0, 2, 1] rfl)

theorem passes_matmul {batch rows inner cols : Nat} {t : Shape}
    (hf : src.function.nodes <+: f.nodes) (ht : Factor batch inner cols t)
    (hx : Usable src src.function x (.float [batch, rows, inner]))
    (hy : Usable src src.function y (.float t))
    (hg : Gradient src f g (.float [batch, rows, cols])) :
    Passes src f (src.matmulRule name x y g) := by
  refine passes_typeOf (hy.mono hf) (Passes.seq (passes_contributeFrom fun _ => ⟨_, hx, ?_⟩)
    (passes_contributeFrom fun _ => ⟨_, hy, ?_⟩))
  · cases ht with
    | each =>
      refine (builds_transposeBatch (hy.mono hf)).bind fun f₁ v hmore hv => ?_
      exact builds_emit trivial (.cons (hg.mono hmore).usable (.cons hv.usable .nil))
        (.batchedMatMul batch rows cols inner)
    | shared =>
      have htranspose : Builds src f (src.emit (name ++ "_rhs_t") (.transpose [1, 0]) [y])
          (.float [cols, inner]) :=
        builds_emit trivial (.cons (hy.mono hf) .nil) (.transpose (.float [inner, cols]) [1, 0] rfl)
      refine htranspose.bind fun f₁ v hmore hv => ?_
      exact builds_emit trivial (.cons (hg.mono hmore).usable (.cons hv.usable .nil))
        (.sharedMatMul batch rows cols inner)
  · refine (builds_transposeBatch (hx.mono hf)).bind fun f₁ v hmore hv => ?_
    have hproduct : Builds src f₁ (src.emit (name ++ "_rhs_grad") .batchedMatMul [v, g])
        (.float [batch, inner, cols]) :=
      builds_emit trivial (.cons hv.usable (.cons (hg.mono hmore).usable .nil))
        (.batchedMatMul batch inner rows cols)
    cases ht with
    | each => exact hproduct.bind fun f₂ product _ hp => builds_pure hp
    | shared =>
      refine hproduct.bind fun f₂ product _ hp => ?_
      exact builds_emit trivial (.cons hp.usable .nil) (.batchedReduce batch [inner, cols])

theorem builds_reduced {k : Nat} (hg : Usable src f g (.float (k :: s))) :
    Builds src f (src.emit name .batchedReduce [g]) (.float s) :=
  builds_emit trivial (.cons hg .nil) (.batchedReduce k s)

theorem passes_batched {op : BatchOp} {k : Nat} (hf : src.function.nodes <+: f.nodes)
    (hx : Usable src src.function x (.float (k :: s))) (hy : Usable src src.function y (.float s))
    (hg : Gradient src f g (.float (k :: s))) : Passes src f (src.batchedRule name op x y g) := by
  cases op with
  | add =>
    exact (passes_contribute fun _ => ⟨_, hx, hg⟩).seq
      (passes_contributeFrom fun _ => ⟨_, hy, builds_reduced hg.usable⟩)
  | mul =>
    rw [batchedRule_mul]
    have hbatch : Builds src f (if src.wants x then
        src.emit (name ++ "_batch_grad") (.batched .mul) [g, y] else pure g)
        (.float (k :: s)) := by
      split
      · exact builds_emit trivial (.cons hg.usable (.cons (hy.mono hf) .nil)) (.batched .mul k s)
      · exact builds_pure hg
    refine hbatch.passes fun f₁ gradient hmore hgradient => ?_
    have hscaled : Builds src f₁ (if src.wants y then
        src.emit (name ++ "_scaled") (.binary .mul) [g, x] else pure g) (.float (k :: s)) := by
      split
      · exact builds_binary (hg.mono hmore).usable (hx.mono (hf.trans hmore))
      · exact builds_pure (hg.mono hmore)
    refine hscaled.passes fun f₂ scaled hmore₂ hv => ?_
    exact (passes_contribute fun _ => ⟨_, hx, hgradient.mono hmore₂⟩).seq
      (passes_contributeFrom fun _ => ⟨_, hy, builds_reduced hv.usable⟩)

theorem passes_batchedReduce {label : String} {k : Nat} (hf : src.function.nodes <+: f.nodes)
    (hx : Usable src src.function x (.float (k :: s))) (hg : Gradient src f g (.float s)) :
    Passes src f (src.contributeFrom x (src.constant label x 0 >>= fun zero =>
      src.emit name (.batched .add) [zero, g])) := by
  refine passes_contributeFrom fun _ => ⟨_, hx,
    (builds_constant (hx.mono hf) 0).bind fun f₁ zero hmore hzero => ?_⟩
  exact builds_emit trivial (.cons hzero.usable (.cons (hg.mono hmore).usable .nil))
    (.batched .add k s)

/-- A rule builds nodes that the typing rules accept, from a gradient of the type of the result. -/
theorem passes_rule (hfloats : WantsFloats src) (hf : src.function.nodes <+: f.nodes) {n : Node}
    {types : List TensorType} (hinputs : List.Forall₂ (Usable src src.function) n.inputs types)
    (htyped : Typing.Typed src.storage n.op types n.results)
    (hresult : n.results[0]? = some (.float s)) (hout : Usable src src.function out (.float s))
    (hg : Gradient src f g (.float s)) (hrule : n.op.hasRule = true) (hloss : n.op.isLoss = false) :
    Passes src f (src.rule n out g) := by
  obtain ⟨name, op, inputs, results⟩ := n
  dsimp only at hinputs htyped hresult hrule hloss
  cases htyped with
  | binary op x =>
    obtain rfl : x = s := by simpa [TensorType.float] using hresult
    obtain ⟨a, b, rfl, ha, hb⟩ := inputs_two hinputs
    cases op with
    | add => exact passes_add ha hb hg
    | sub =>
      exact (passes_contribute fun _ => ⟨_, ha, hg⟩).seq
        (passes_contributeFrom fun _ => ⟨_, hb, builds_negation hg⟩)
    | mul =>
      exact (passes_contributeFrom fun _ => ⟨_, ha, builds_binary hg.usable (hb.mono hf)⟩).seq
        (passes_contributeFrom fun _ => ⟨_, hb, builds_binary hg.usable (ha.mono hf)⟩)
  | unary op x =>
    obtain rfl : x = s := by simpa [TensorType.float] using hresult
    obtain ⟨a, rfl, ha⟩ := inputs_one hinputs
    have hslope {p : Pass Value} (hp : Builds src f p (.float x)) :
        Passes src f (src.contributeFrom a p) := passes_contributeFrom fun _ => ⟨x, ha, hp⟩
    cases op with
    | relu =>
      exact hslope (builds_emit trivial (.cons (hout.mono hf) (.cons hg.usable .nil)) (.reluGrad x))
    | sigmoid => exact hslope (builds_sigmoidGradient (hout.mono hf) hg)
    | tanh => exact hslope (builds_tanhGradient (hout.mono hf) hg)
  | splat value type => cases hinputs with
    | nil => exact passes_nothing
  | reshape x target hvolume =>
    obtain ⟨a, rfl, ha⟩ := inputs_one hinputs
    obtain ⟨-, rfl⟩ : x.kind = .float ∧ target = s := by simpa [TensorType.float] using hresult
    refine passes_wanted hfloats ha fun shape hx => ?_
    subst hx
    exact builds_reshape (ha.mono hf) hg hvolume
  | transpose x perm hperm =>
    obtain ⟨a, rfl, ha⟩ := inputs_one hinputs
    refine passes_wanted hfloats ha fun shape hx => ?_
    subst hx
    obtain rfl : Kernel.permuted perm shape = s :=
      congrArg TensorType.shape (Option.some.inj hresult)
    exact builds_transpose (Kernel.permutes_of_isPermutation hperm) hg
  | conv p n h w c oh ow hoh how =>
    obtain rfl : [n, oh, ow, p.depth] = s := by simpa [TensorType.float] using hresult
    obtain ⟨a, b, e, rfl, ha, hb, he⟩ := inputs_three hinputs
    exact passes_layer trivial hfloats hf ha hb he (fun z hz => (congrArg TensorType.shape hz).symm)
      hg (.convGrad p n h w c oh ow hoh how)
  | maxPool p n h w c oh ow hoh how =>
    obtain rfl : [n, oh, ow, c] = s := by simpa [TensorType.float] using hresult
    obtain ⟨a, rfl, ha⟩ := inputs_one hinputs
    exact passes_contributeFrom fun _ => ⟨_, ha, builds_emit trivial
      (.cons (ha.mono hf) (.cons hg.usable .nil)) (.maxPoolGrad p n h w c oh ow hoh how)⟩
  | fullyConnected m d depth ds bias =>
    obtain rfl : [m, depth] = s := by simpa [TensorType.float] using hresult
    obtain ⟨a, b, e, rfl, ha, hb, he⟩ := inputs_three hinputs
    exact passes_layer trivial hfloats hf ha hb he (fun z hz => (congrArg TensorType.shape hz).symm)
      hg (.fullyConnectedGrad m d depth ds)
  | normalization p n h w c =>
    obtain rfl : [n, h, w, c] = s := by simpa [TensorType.float] using hresult
    obtain ⟨a, rfl, ha⟩ := inputs_one hinputs
    exact passes_contributeFrom fun _ => ⟨_, ha, builds_emit trivial
      (.cons (ha.mono hf) (.cons hg.usable .nil)) (.normalizationGrad p n h w c)⟩
  | sharedMatMul n a b c =>
    obtain rfl : [n, a, c] = s := by simpa [TensorType.float] using hresult
    obtain ⟨u, v, rfl, hu, hv⟩ := inputs_two hinputs
    exact passes_matmul hf .shared hu hv hg
  | batchedMatMul n a b c =>
    obtain rfl : [n, a, c] = s := by simpa [TensorType.float] using hresult
    obtain ⟨u, v, rfl, hu, hv⟩ := inputs_two hinputs
    exact passes_matmul hf .each hu hv hg
  | batchedReduce n ds =>
    obtain rfl : ds = s := by simpa [TensorType.float] using hresult
    obtain ⟨a, rfl, ha⟩ := inputs_one hinputs
    exact passes_batchedReduce hf ha hg
  | batched op n ds =>
    obtain rfl : n :: ds = s := by simpa [TensorType.float] using hresult
    obtain ⟨a, b, rfl, ha, hb⟩ := inputs_two hinputs
    exact passes_batched hf ha hb hg
  | softMax | regression => cases hloss
  | save | sgd => cases hresult
  | reluGrad | convGrad | maxPoolGrad | fullyConnectedGrad | softMaxGrad | normalizationGrad =>
    cases hrule

end Rules

/-! ## Visits -/

/-- The sum of gradients of one type. -/
theorem sum_total (label : String) (pending : List (Value × Value)) {first : Value}
    {rest : List Value} {x : Shape} (hdraft : Draft src f)
    (hfirst : Gradient src f first (.float x))
    (hrest : ∀ part ∈ rest, Gradient src f part (.float x)) :
    ∃ g f₂ new, (rest.foldlM (fun total part => src.emit label (.binary .add) [total, part])
        first).run ⟨f, pending⟩ = .ok (g, ⟨f₂, pending⟩) ∧ f₂.nodes = f.nodes ++ new ∧
      (∀ n ∈ new, IsSum n) ∧ Draft src f₂ ∧ Gradient src f₂ g (.float x) := by
  induction rest generalizing f first with
  | nil => exact ⟨first, f, [], rfl, by simp, nofun, hdraft, hfirst⟩
  | cons part rest ih =>
    have hpart := hrest part List.mem_cons_self
    have hinputs : List.Forall₂ (Usable src f) [first, part] [.float x, .float x] :=
      .cons hfirst.usable (.cons hpart.usable .nil)
    obtain ⟨n, hop, hin, hresults, hdraft₁, hrun⟩ := emit_total label pending hdraft hinputs rfl
      (.binary .add x) fun n hop hin =>
        ⟨fun ref hmem => reads_of_usable hinputs (hin ▸ hmem), by
          rw [hop, hin]
          exact List.forall_mem_cons.2 ⟨hfirst.node, List.forall_mem_singleton.2 hpart.node⟩⟩
    have hmore : f.nodes <+: f.nodes ++ [n] := List.prefix_append ..
    have htotal := gradient_last hdraft.source (r := 0) (n := n) (by rw [hresults]; rfl)
    obtain ⟨g, f₂, new, hfold, hnodes, hnew, hdraft₂, hg⟩ := ih hdraft₁ htotal
      fun p hp => (hrest p (List.mem_cons_of_mem _ hp)).mono hmore
    refine ⟨g, f₂, n :: new, run_bind_ok_iff.2 ⟨_, _, hrun, hfold⟩, by simp [hnodes],
      fun m hm => ?_, hdraft₂, hg⟩
    rcases List.mem_cons.1 hm with rfl | hm
    · obtain ⟨i, r, rfl, -⟩ := hfirst.node
      obtain ⟨j, q, rfl, -⟩ := hpart.node
      exact ⟨hop, by rw [Node.storageReads, hin]; rfl⟩
    · exact hnew m hm

/-- The gradient of a value, if anything is recorded for it; it has the type of the value. -/
theorem takeGradient_total (u : Value) (label : String) (hdraft : Draft src f)
    (hpending : Contributions src f pending) :
    ∃ r f₂ new, (src.takeGradient u label).run ⟨f, pending⟩ =
        .ok (r, ⟨f₂, pending.filter (·.1 ≠ u)⟩) ∧ f₂.nodes = f.nodes ++ new ∧
      (∀ n ∈ new, IsSum n) ∧ Draft src f₂ ∧ ∀ g ∈ r, src.wants u = true ∧
        ∃ x, Usable src src.function u (.float x) ∧ Gradient src f₂ g (.float x) := by
  have htaken (part : Value) (hpart : part ∈ (pending.filter (·.1 = u)).map (·.2)) :
      src.wants u = true ∧
        ∃ x, Usable src src.function u (.float x) ∧ Gradient src f part (.float x) := by
    obtain ⟨p, hp, rfl⟩ := List.mem_map.1 hpart
    obtain ⟨hp, heq⟩ := List.mem_filter.1 hp
    have heq : p.1 = u := by simpa using heq
    exact heq ▸ hpending p hp
  generalize hparts : (pending.filter (·.1 = u)).map (·.2) = parts at htaken
  cases parts with
  | nil =>
    refine ⟨none, f, [], run_bind_ok_iff.2 ⟨_, _, rfl, ?_⟩, by simp, nofun, hdraft, nofun⟩
    rw [hparts]
    rfl
  | cons first rest =>
    obtain ⟨hwants, x, hu, hfirst⟩ := htaken first List.mem_cons_self
    have hrest (part : Value) (hpart : part ∈ rest) : Gradient src f part (.float x) := by
      obtain ⟨-, x', hu', hg⟩ := htaken part (List.mem_cons_of_mem _ hpart)
      obtain rfl : x' = x := congrArg TensorType.shape (Except.ok.inj (hu'.type.symm.trans hu.type))
      exact hg
    obtain ⟨g, f₂, new, hsum, hnodes, hnew, hdraft₂, hg⟩ := sum_total (label ++ "_grad_sum")
      (pending.filter (·.1 ≠ u)) hdraft hfirst hrest
    refine ⟨some g, f₂, new, run_bind_ok_iff.2 ⟨_, _, rfl, ?_⟩, hnodes, hnew, hdraft₂,
      fun g' hg' => ?_⟩
    · rw [hparts]
      exact run_bind_ok_iff.2 ⟨_, _, hsum, rfl⟩
    · obtain rfl := Option.some.inj hg'
      exact ⟨hwants, x, hu, hg⟩

theorem grows_of_isSum {new : List Node} (hnodes : f₁.nodes = f.nodes ++ new)
    (hnew : ∀ n ∈ new, IsSum n) : f.Grows f₁ :=
  ⟨new, hnodes, fun n hn => by rw [(hnew n hn).1]; rfl⟩

/-- The operands of a node of the source, which reads what they name. -/
theorem usable_operands {i : Nat} {n : Node} {types : List TensorType}
    (hn : src.function.nodes[i]? = some n) (hwt : WellTyped src.storage src.function i n types) :
    List.Forall₂ (Usable src src.function) n.inputs types := by
  refine forall₂_of_left (List.forall₂_same.2 fun _ _ => rfl) hwt.operands ?_
  rintro v _ type hv rfl ht
  exact ⟨(operandType_iff.1 ht).1, fun ref heq => ⟨n, List.mem_of_getElem? hn, heq ▸ hv⟩⟩

theorem passes_takePending {u : Value} {p : Pass Unit} (hp : Passes src f p) :
    Passes src f (Source.takePending u >>= fun _ => p) := by
  intro f₁ pending hmore hdraft hpending
  obtain ⟨f₂, pending₂, hrun, h⟩ := hp hmore hdraft (hpending.filter (·.1 ≠ u))
  exact ⟨f₂, pending₂, run_bind_ok_iff.2 ⟨_, _, rfl, hrun⟩, h⟩

/-- The gradient of a value is taken and passed on, if there is one. -/
theorem passes_takeGradient {u : Value} {label : String} {p : Value → Pass Unit}
    (hp : ∀ {f₂ : Function} {g : Value} {x : Shape}, f.nodes <+: f₂.nodes →
      Usable src src.function u (.float x) → Gradient src f₂ g (.float x) →
      Passes src f₂ (p g)) :
    Passes src f (src.takeGradient u label >>= fun
      | none => pure ()
      | some g => p g) := by
  intro f₁ pending hmore hdraft hpending
  obtain ⟨r, f₂, new, htake, hnodes, hnew, hdraft₂, hr⟩ := takeGradient_total u label hdraft hpending
  have hgrows := grows_of_isSum hnodes hnew
  have hpending₂ := (hpending.filter (·.1 ≠ u)).mono hgrows.nodes
  cases r with
  | none => exact ⟨f₂, _, run_bind_ok_iff.2 ⟨_, _, htake, rfl⟩, hgrows, hdraft₂, hpending₂⟩
  | some g =>
    obtain ⟨-, x, hu, hg⟩ := hr g rfl
    obtain ⟨f₃, pending₃, hrest, hgrows₃, h⟩ :=
      hp (hmore.trans hgrows.nodes) hu hg (List.prefix_refl _) hdraft₂ hpending₂
    exact ⟨f₃, pending₃, run_bind_ok_iff.2 ⟨_, _, htake, hrest⟩, hgrows.trans hgrows₃, h⟩

/-- A loss has two operands, so a node that is visited as no loss is none. -/
theorem isLoss_eq_false {R : Value → TensorType → Prop} {op : Operator} {inputs : List Value}
    {types results : List TensorType} (hinputs : List.Forall₂ R inputs types)
    (htyped : Typing.Typed src.storage op types results)
    (hsoftMax : ∀ x labels, op = .softMax → inputs ≠ [x, labels])
    (hregression : ∀ x expected, op = .regression → inputs ≠ [x, expected]) :
    op.isLoss = false := by
  cases htyped with
  | softMax =>
    obtain ⟨a, b, hin, -⟩ := inputs_two hinputs
    exact absurd hin (hsoftMax a b rfl)
  | regression =>
    obtain ⟨a, b, hin, -⟩ := inputs_two hinputs
    exact absurd hin (hregression a b rfl)
  | _ => rfl

/-- A visit of a node whose operator has a rule. -/
theorem passes_visit (hfloats : WantsFloats src) (harena : src.function.Arena src.storage)
    (hf : src.function.nodes <+: f.nodes) {i : Nat} {n : Node}
    (hn : src.function.nodes[i]? = some n) (hrule : n.op.hasRule = true) :
    Passes src f (src.visit n i) := by
  obtain ⟨types, hwt⟩ := harena hn
  have hinputs := usable_operands hn hwt
  have htyped := hwt.typed
  have hresult {type : TensorType} (hr : n.results[0]? = some type) :
      Usable src src.function (.node i 0) type :=
    ⟨valueType_node_ok_iff.2 ⟨n, hn, hr⟩, nofun⟩
  unfold Source.visit
  split
  case h_1 ref x hop hin =>
    rw [hop] at htyped
    generalize n.results = results at htyped
    cases htyped with
    | save _ type hdestination =>
      rw [hin] at hinputs
      have hx := (List.forall₂_cons.1 hinputs).1
      refine passes_wanted hfloats hx fun s htype => ?_
      subst htype
      exact builds_constant (hx.mono hf) 0
  case h_2 x labels hop hin =>
    rw [hop] at htyped
    generalize hresults : n.results = results at htyped
    cases htyped with
    | softMax rows width =>
      rw [hin] at hinputs
      have hout := hresult (by rw [hresults]; rfl)
      obtain ⟨hx, hlabels⟩ := List.forall₂_cons.1 hinputs
      refine passes_takePending (passes_contributeFrom fun _ => ⟨_, hx, builds_emit trivial
        (.cons (hout.mono hf) (hlabels.imp fun _ _ hv => hv.mono hf)) (.softMaxGrad rows width)⟩)
  case h_3 x expected hop hin =>
    rw [hop] at htyped
    generalize n.results = results at htyped
    cases htyped with
    | regression s =>
      rw [hin] at hinputs
      have hx := (List.forall₂_cons.1 hinputs).1
      refine passes_takePending (passes_contributeFrom fun _ => ⟨_, hx, builds_emit trivial
        (hinputs.imp fun _ _ hv => hv.mono hf) (.binary .sub s)⟩)
  case h_11 _ hsoftMax hregression =>
    have hloss := isLoss_eq_false hinputs htyped hsoftMax hregression
    refine passes_takeGradient fun hmore hout hg => ?_
    obtain ⟨m, hm, hzero⟩ := valueType_node_ok_iff.1 hout.type
    obtain rfl := Option.some.inj (hn.symm.trans hm)
    exact passes_rule hfloats (hf.trans hmore) hinputs htyped hzero hout hg hrule hloss
  all_goals
    next hop =>
    rw [hop] at hrule
    cases hrule

theorem passes_forM {β : Type} {p : β → Pass Unit} {l : List β} (h : ∀ x ∈ l, Passes src f (p x)) :
    Passes src f (l.forM p) := by
  induction l with
  | nil => exact passes_nothing
  | cons x l ih =>
    exact (h x List.mem_cons_self).seq (ih fun y hy => h y (List.mem_cons_of_mem _ hy))

theorem passes_backpropagate (hfloats : WantsFloats src) (harena : src.function.Arena src.storage)
    (hrules : ∀ n ∈ src.function.nodes, n.op.hasRule = true) :
    Passes src src.function src.backpropagate := by
  refine passes_forM fun ⟨n, i⟩ hx => ?_
  have hn := List.mem_zipIdx_iff_getElem?.1 (List.mem_reverse.1 hx)
  exact passes_visit hfloats harena (List.prefix_refl _) hn (hrules n (List.mem_of_getElem? hn))

/-! ## Updates -/

variable {settings : Descent}

theorem update_total (settings : Descent) (ref : StorageRef) (hdraft : Draft src f)
    (hpending : Contributions src f pending) :
    ∃ f₂ pending₂ new, (src.update settings ref).run ⟨f, pending⟩ = .ok ((), ⟨f₂, pending₂⟩) ∧
      f₂.nodes = f.nodes ++ new ∧ Updates [ref] new ∧ Draft src f₂ ∧
      Contributions src f₂ pending₂ := by
  unfold Source.update
  split
  · obtain ⟨r, f₁, new, htake, hnodes, hnew, hdraft₁, hr⟩ := takeGradient_total (.storage ref)
      ((src.storage.name? ref).getD "") hdraft hpending
    have hmore := (grows_of_isSum hnodes hnew).nodes
    have hpending₁ := (hpending.filter (·.1 ≠ .storage ref)).mono hmore
    have hsums : Updates [ref] new := (Updates.of_isSum hnew).mono (by simp)
    cases r with
    | none =>
      exact ⟨f₁, _, new, run_bind_ok_iff.2 ⟨_, _, htake, rfl⟩, hnodes, hsums, hdraft₁, hpending₁⟩
    | some g =>
      obtain ⟨htrained, x, hstorage, hg⟩ := hr g rfl
      obtain ⟨i, r, rfl, hi⟩ := hg.node
      have hinputs : List.Forall₂ (Usable src f₁) [.node i r, .storage ref] [.float x, .float x] :=
        .cons hg.usable (.cons (hstorage.mono hdraft₁.source) .nil)
      obtain ⟨n, hop, hin, -, hdraft₂, hemit⟩ := emit_total ((src.storage.name? ref).getD "" ++ "_sgd")
        (pending.filter (·.1 ≠ .storage ref)) hdraft₁ hinputs rfl (.sgd settings x)
        fun n hop hin => ⟨fun ref' hmem => reads_of_usable hinputs (hin ▸ hmem), by
          rw [hop]
          exact ⟨i, r, ref, hin, hi, htrained⟩⟩
      have hmore₂ : f₁.nodes <+: f₁.nodes ++ [n] := List.prefix_append ..
      refine ⟨_, _, new ++ [n], run_bind_ok_iff.2 ⟨_, _, htake, run_bind_ok_iff.2
        ⟨_, _, hemit, rfl⟩⟩, by simp [hnodes], ?_, hdraft₂, hpending₁.mono hmore₂⟩
      exact (Updates.of_isSum hnew).append (Updates.descent hop hin) (by simp)
  · exact ⟨f, pending, [], rfl, by simp, (Updates.nil []).mono (by simp), hdraft, hpending⟩

theorem updates_total (settings : Descent) {refs : List StorageRef} (hnodup : refs.Nodup)
    (hdraft : Draft src f) (hpending : Contributions src f pending) :
    ∃ f₂ pending₂ new, (refs.forM (src.update settings)).run ⟨f, pending⟩ =
        .ok ((), ⟨f₂, pending₂⟩) ∧ f₂.nodes = f.nodes ++ new ∧ Updates refs new ∧ Draft src f₂ := by
  induction refs generalizing f pending with
  | nil => exact ⟨f, pending, [], rfl, by simp, Updates.nil [], hdraft⟩
  | cons ref refs ih =>
    obtain ⟨hnotin, hnodup⟩ := List.nodup_cons.1 hnodup
    obtain ⟨f₁, pending₁, new, hfirst, hnodes, hnew, hdraft₁, hpending₁⟩ :=
      update_total settings ref hdraft hpending
    obtain ⟨f₂, pending₂, new', hrest, hnodes', hnew', hdraft₂⟩ := ih hnodup hdraft₁ hpending₁
    refine ⟨f₂, pending₂, new ++ new', run_bind_ok_iff.2 ⟨_, _, hfirst, hrest⟩, ?_,
      hnew.append hnew' (by simpa using hnotin), hdraft₂⟩
    rw [hnodes', hnodes, List.append_assoc]

/-! ## The training function -/

/-- A training function before its dead nodes are removed: the source, gradients, and updates. -/
structure Derived (src : Source) (f : Function) : Prop where
  draft : Draft src f
  parts : ∃ gradients updates, f.nodes = src.function.nodes ++ gradients ++ updates ∧
    (∀ n ∈ gradients, n.op.isSink = false) ∧ Updates src.storage.refs updates

/-- The pass starts from the source under another name. -/
theorem draft_source (harena : src.function.Arena src.storage) (hlinked : src.function.Linked) :
    Draft src { src.function with name := src.function.name ++ "_grad" } := by
  refine ⟨List.prefix_refl _, harena.rename _, hlinked, id, .refl, fun i n hi hn => ?_⟩
  exact absurd (List.getElem?_eq_some_iff.1 hn).1 (Nat.not_lt.2 hi)

/-- The gradient pass succeeds on a well-typed source whose operators have rules. -/
theorem derivative_total (hfloats : WantsFloats src) (harena : src.function.Arena src.storage)
    (hlinked : src.function.Linked) (hrules : ∀ n ∈ src.function.nodes, n.op.hasRule = true)
    (settings : Descent) : ∃ f, src.derivative settings = .ok f ∧ Derived src f := by
  let start : Function := { src.function with name := src.function.name ++ "_grad" }
  obtain ⟨f₁, pending₁, hback, ⟨gradients, hgradients, hquiet⟩, hdraft₁, hpending₁⟩ :=
    passes_backpropagate hfloats harena hrules
      (show src.function.nodes <+: start.nodes from List.prefix_refl _)
      (draft_source harena hlinked) (show Contributions src start [] from nofun)
  obtain ⟨f₂, pending₂, updates, hupdates, hnodes, hnew, hdraft₂⟩ :=
    updates_total settings src.storage.nodup_refs hdraft₁ hpending₁
  have hrun : (do src.backpropagate; src.emitUpdates settings : Pass Unit).run ⟨start, []⟩ =
      .ok ((), ⟨f₂, pending₂⟩) := run_bind_ok_iff.2 ⟨_, _, hback, hupdates⟩
  refine ⟨f₂, bind_ok_iff.2 ⟨_, hrun, rfl⟩, hdraft₂, gradients, updates, ?_, hquiet, hnew⟩
  rw [hnodes, hgradients]

theorem hasRule_of_visit {n : Node} {i : Nat} {st : Backward} {r : Unit × Backward}
    (h : (src.visit n i).run st = .ok r) : n.op.hasRule = true := by
  unfold Source.visit at h
  split at h
  case h_11 hsgd hrelu hconv hpool hdense hsoftMax hnorm _ _ _ =>
    cases hop : n.op with
    | sgd p => exact absurd hop (hsgd p)
    | reluGrad => exact absurd hop hrelu
    | convGrad p => exact absurd hop (hconv p)
    | maxPoolGrad w => exact absurd hop (hpool w)
    | fullyConnectedGrad => exact absurd hop hdense
    | softMaxGrad => exact absurd hop hsoftMax
    | normalizationGrad p => exact absurd hop (hnorm p)
    | _ => rfl
  case h_1 hop _ | h_2 hop _ | h_3 hop _ =>
    rw [hop]
    rfl
  all_goals cases h

theorem forM_run_ok {β : Type} {p : β → Pass Unit} {l : List β} {st st' : Backward}
    (h : (l.forM p).run st = .ok ((), st')) :
    ∀ x ∈ l, ∃ st₁ st₂, (p x).run st₁ = .ok ((), st₂) := by
  induction l generalizing st with
  | nil => nofun
  | cons x l ih =>
    obtain ⟨_, st₁, hfirst, hrest⟩ := run_bind_ok_iff.1 h
    exact List.forall_mem_cons.2 ⟨⟨st, st₁, hfirst⟩, ih hrest⟩

/-- A source with a derivative has only operators with rules. -/
theorem hasRule_of_derivative (h : src.derivative settings = .ok f) :
    ∀ n ∈ src.function.nodes, n.op.hasRule = true := by
  obtain ⟨⟨_, st⟩, hrun, -⟩ := bind_ok_iff.1 h
  obtain ⟨_, st₁, hback, -⟩ := run_bind_ok_iff.1 hrun
  intro n hn
  obtain ⟨i, hi⟩ := List.getElem?_of_mem hn
  obtain ⟨st₂, st₃, hvisit⟩ := forM_run_ok hback (n, i)
    (List.mem_reverse.2 (List.mem_zipIdx_iff_getElem?.2 hi))
  exact hasRule_of_visit hvisit

/-- Sources take no steps of descent. -/
theorem not_sgd_of_hasRule {op : Operator} (h : op.hasRule = true) (p : Descent) :
    op ≠ .sgd p := by
  rintro rfl
  cases h

end Training

end TensorCompiler
