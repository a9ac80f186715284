import TensorCompiler.Proofs.Training.Emission

/-!
The rule of every operator is adjoint to its tangent: what it contributes to its operands comes to
the inner product of the gradient it is given with the tangent of its output (`adds_rule`).
-/

namespace TensorCompiler

theorem Dense.Is.congr {α : Type} [Zero α] {d : Dense α} {shape shape' : Shape}
    {value value' : Nat → α} (h : d.Is shape value) (hshape : shape = shape')
    (hvalue : ∀ i < shape'.volume, value i = value' i) : d.Is shape' value' := by
  subst hshape
  exact ⟨h.shape_eq, fun i hi => (h.entry_eq i hi).trans (hvalue i hi)⟩

namespace Training

open World Kernel

variable {I : Interpretation} {src : Source} {w₀ w : World (Exact I)} {T : Value → Tangent I}

theorem Adds.congr {p : Pass Unit} {values : List Value} {c c' : Exact I}
    (h : Adds src w₀ T w p values c) (hc : c = c') : Adds src w₀ T w p values c' :=
  hc ▸ h

/-- A pass that builds a value, and then one that uses it. -/
theorem Makes.adds {p : Pass Value} {k : Value → Pass Unit} {P : Dense (Exact I) → Prop}
    {values : List Value} {c : Exact I} (hp : Makes src w p P)
    (hk : ∀ ⦃w₁ : World (Exact I)⦄ ⦃v : Value⦄ ⦃d : Dense (Exact I)⦄, Extends w w₁ →
      src.Holds w₁ v (.floats d) → (∃ i r, v = .node i r) → P d →
        Adds src w₀ T w₁ (k v) values c) :
    Adds src w₀ T w (p >>= k) values c := by
  intro w₁ pending st' hw hsolved hpending hrun
  obtain ⟨v, st, hfirst, hrest⟩ := run_bind_ok_iff.1 hrun
  obtain ⟨w₂, d, hw₂, hsolved₂, rfl, hv, hnode, hP⟩ := hp hw hsolved hfirst
  obtain ⟨w₃, pending₃, hw₃, hsolved₃, hst, hpending₃, howed₃, hnew₃⟩ :=
    hk (hw.trans hw₂.toExtends) hv hnode hP (Extends.refl w₂) hsolved₂
      (fun p hp => (hpending p hp).mono hw₂.toExtends) hrest
  refine ⟨w₃, pending₃, hw₂.trans hw₃, hsolved₃, hst, hpending₃, ?_, hnew₃⟩
  rw [howed₃, owed_mono hpending hw₂.toExtends]

theorem adds_typeOf {u : Value} {t : Tensor (Exact I)} {k : TensorType → Pass Unit}
    {values : List Value} {c : Exact I} (hu : src.Holds w u t)
    (hk : Adds src w₀ T w (k t.type) values c) :
    Adds src w₀ T w (src.typeOf u >>= k) values c := by
  intro w₁ pending st' hw hsolved hpending hrun
  obtain ⟨type, st, hfirst, hrest⟩ := run_bind_ok_iff.1 hrun
  rw [run_typeOf, (hu.mono hw).type] at hfirst
  obtain ⟨rfl, rfl⟩ := Prod.mk.inj (Except.ok.inj hfirst)
  exact hk hw hsolved hpending hrest

/-- A gradient with known elements, contributed to a value of its shape. -/
theorem adds_is {u : Value} {p : Pass Value} {x : Dense (Exact I)} {value : Nat → Exact I}
    (hT : src.wants u = false → T u = 0) (hu : src.Holds w₀ u (.floats x))
    (hp : Makes src w p fun d => d.Is x.shape value) :
    Adds src w₀ T w (src.contributeFrom u p) [u]
      (∑ i ∈ Finset.range x.shape.volume, value i * T u i) := by
  refine adds_contributeFrom (fun _ => ⟨x, hu, hp.imp fun d hd => ⟨hd.shape_eq, hd.pair_eq _⟩⟩) ?_
  intro hwants
  simp [hT hwants]

section Elementwise

variable {x y g : Value} {dx dy d : Dense (Exact I)} {name : String}

theorem adds_add (hT : ∀ u, src.wants u = false → T u = 0) (hx : src.Holds w₀ x (.floats dx))
    (hy : src.Holds w₀ y (.floats dy)) (hg : src.Holds w g (.floats d))
    (hnode : ∃ i r, g = .node i r) (hdx : d.shape = dx.shape) (hdy : d.shape = dy.shape) :
    Adds src w₀ T w (src.contribute x g >>= fun _ => src.contribute y g) [x, y]
      (d.pair fun i => T x i + T y i) :=
  ((adds_contribute hx hg hnode hdx (hT x)).seq (adds_contribute hy hg hnode hdy (hT y))).congr
    (d.pair_add _ _).symm

/-- `0 - g`, after a constant 0. -/
theorem makes_negation {label label' : String} (hg : src.Holds w g (.floats d)) :
    Makes src w (src.constant label g 0 >>= fun zero =>
      src.emit label' (.binary .sub) [zero, g]) fun z => z.Is d.shape fun i => -d.entry i := by
  refine (makes_constant hg 0).bind fun w₁ v zero hw hv hzero => ?_
  refine (makes_binary hv (hg.mono hw)).imp fun z hz => ?_
  refine hz.congr hzero.shape_eq fun i hi => ?_
  rw [hzero.entry_eq i hi, Exact.ofSingle_zero]
  exact zero_sub _

theorem adds_sub (hT : ∀ u, src.wants u = false → T u = 0) (hx : src.Holds w₀ x (.floats dx))
    (hy : src.Holds w₀ y (.floats dy)) (hg : src.Holds w g (.floats d))
    (hnode : ∃ i r, g = .node i r) (hdx : d.shape = dx.shape) (hdy : d.shape = dy.shape)
    {label label' : String} :
    Adds src w₀ T w (src.contribute x g >>= fun _ => src.contributeFrom y
      (src.constant label g 0 >>= fun zero => src.emit label' (.binary .sub) [zero, g])) [x, y]
      (d.pair fun i => T x i - T y i) := by
  refine ((adds_contribute hx hg hnode hdx (hT x)).seq
    (adds_is (hT y) hy (hdy ▸ makes_negation hg))).congr ?_
  rw [Shaped.pair, Shaped.pair, ← hdy, ← Finset.sum_add_distrib]
  exact Finset.sum_congr rfl fun i _ => by ring

theorem adds_mul (hT : ∀ u, src.wants u = false → T u = 0) (hw : Extends w₀ w)
    (hx : src.Holds w₀ x (.floats dx)) (hy : src.Holds w₀ y (.floats dy))
    (hg : src.Holds w g (.floats d)) (hdx : d.shape = dx.shape) (hdy : d.shape = dy.shape)
    {label label' : String} :
    Adds src w₀ T w (src.contributeFrom x (src.emit label (.binary .mul) [g, y]) >>= fun _ =>
      src.contributeFrom y (src.emit label' (.binary .mul) [g, x])) [x, y]
      (d.pair fun i => T x i * dy.entry i + dx.entry i * T y i) := by
  refine ((adds_is (hT x) hx (hdx ▸ makes_binary hg (hy.mono hw))).seq
    (adds_is (hT y) hy (hdy ▸ makes_binary hg (hx.mono hw)))).congr ?_
  rw [Shaped.pair, ← hdx, ← hdy, ← Finset.sum_add_distrib]
  refine Finset.sum_congr rfl fun i _ => ?_
  simp only [BinaryOp.apply]
  ring

/-- A gradient that is made element by element from the operand's own. -/
theorem adds_pointwise (hT : ∀ u, src.wants u = false → T u = 0) (hx : src.Holds w₀ x (.floats dx))
    (hdx : d.shape = dx.shape) {p : Pass Value} {slope : Nat → Exact I} {tangent : Tangent I}
    (hp : Makes src w p fun z => z.Is d.shape fun i => d.entry i * slope i)
    (htangent : ∀ i, tangent i = slope i * T x i) :
    Adds src w₀ T w (src.contributeFrom x p) [x] (d.pair tangent) := by
  refine (adds_is (hT x) hx (hdx ▸ hp)).congr ?_
  rw [Shaped.pair, hdx]
  exact Finset.sum_congr rfl fun i _ => by rw [htangent, mul_assoc]

theorem makes_reluGrad {out : Value} {dout : Dense (Exact I)} (hout : src.Holds w out (.floats dout))
    (hg : src.Holds w g (.floats d)) : Makes src w (src.emit name .reluGrad [out, g]) fun z =>
      z.Is d.shape fun i => d.entry i * if 0 < dout.entry i then 1 else 0 := by
  refine (makes_emit (.cons hout (.cons hg .nil)) rfl reluGrad_gives).imp fun z hz => ?_
  exact hz.congr rfl fun i _ => by split <;> simp

theorem makes_sigmoidGradient {out : Value} {dout : Dense (Exact I)}
    (hout : src.Holds w out (.floats dout)) (hg : src.Holds w g (.floats d))
    (hshape : d.shape = dout.shape) : Makes src w (src.sigmoidGradient name out g) fun z =>
      z.Is d.shape fun i => d.entry i * (dout.entry i * (1 - dout.entry i)) := by
  refine (makes_constant hout 1).bind fun w₁ one d₁ hw₁ hone h₁ => ?_
  refine (makes_binary hone (hout.mono hw₁)).bind fun w₂ rest d₂ hw₂ hrest h₂ => ?_
  refine (makes_binary (hout.mono (hw₁.trans hw₂)) hrest).bind fun w₃ slope d₃ hw₃ hslope h₃ => ?_
  refine (makes_binary (hg.mono ((hw₁.trans hw₂).trans hw₃)) hslope).imp fun z hz => ?_
  refine hz.congr rfl fun i hi => ?_
  have hi' : i < dout.shape.volume := hshape ▸ hi
  rw [h₃.entry_eq i hi', h₂.entry_eq i (h₁.shape_eq ▸ hi'), h₁.entry_eq i hi', Exact.ofSingle_one]
  rfl

theorem makes_tanhGradient {out : Value} {dout : Dense (Exact I)}
    (hout : src.Holds w out (.floats dout)) (hg : src.Holds w g (.floats d))
    (hshape : d.shape = dout.shape) : Makes src w (src.tanhGradient name out g) fun z =>
      z.Is d.shape fun i => d.entry i * (1 - dout.entry i * dout.entry i) := by
  refine (makes_constant hout 1).bind fun w₁ one d₁ hw₁ hone h₁ => ?_
  refine (makes_binary (hout.mono hw₁) (hout.mono hw₁)).bind fun w₂ square d₂ hw₂ hsquare h₂ => ?_
  refine (makes_binary (hone.mono hw₂) hsquare).bind fun w₃ slope d₃ hw₃ hslope h₃ => ?_
  refine (makes_binary (hg.mono ((hw₁.trans hw₂).trans hw₃)) hslope).imp fun z hz => ?_
  refine hz.congr rfl fun i hi => ?_
  have hi' : i < dout.shape.volume := hshape ▸ hi
  rw [h₃.entry_eq i (h₁.shape_eq ▸ hi'), h₂.entry_eq i hi', h₁.entry_eq i hi', Exact.ofSingle_one]
  rfl

end Elementwise

section Layouts

variable {x y g : Value} {dx dy d : Dense (Exact I)} {name : String}

theorem adds_reshape (hT : ∀ u, src.wants u = false → T u = 0) (hw : Extends w₀ w)
    (hx : src.Holds w₀ x (.floats dx)) (hg : src.Holds w g (.floats d)) :
    Adds src w₀ T w (src.contributeFrom x (src.typeOf x >>= fun type =>
      src.emit name (.reshape type.shape) [g])) [x] (d.pair (T x)) := by
  refine adds_contributeFrom (fun _ => ⟨dx, hx, makes_typeOf (hx.mono hw) ?_⟩) fun hwants => ?_
  · refine makes_emit (.cons hg .nil) rfl fun {results} htyped => ?_
    obtain ⟨z, hgives, hz, hvolume⟩ := reshape_gives htyped
    refine ⟨z, hgives, hz.shape_eq, ?_⟩
    rw [hz.pair_eq, Shaped.pair, hvolume]
  · rw [hT x hwants]
    exact d.pair_zero

theorem adds_transpose (hT : ∀ u, src.wants u = false → T u = 0)
    (hx : src.Holds w₀ x (.floats dx)) (hg : src.Holds w g (.floats d)) {perm : List Nat}
    (hperm : Permutes perm dx.shape.length) (hshape : d.shape = permuted perm dx.shape) :
    Adds src w₀ T w (src.contributeFrom x
      (src.emit name (.transpose (Source.inversePermutation perm)) [g])) [x]
      (d.pair fun i => T x (source perm dx.shape i)) := by
  have hmakes : Makes src w (src.emit name (.transpose (Source.inversePermutation perm)) [g])
      fun z => z.Is dx.shape fun i =>
        d.entry (source (Source.inversePermutation perm) (permuted perm dx.shape) i) := by
    refine makes_emit (.cons hg .nil) rfl fun {results} htyped => ?_
    obtain ⟨z, hgives, hz, -⟩ := transpose_gives htyped
    refine ⟨z, hgives, hz.congr ?_ fun i _ => by rw [hshape]⟩
    rw [hshape, permuted_inverse hperm]
  refine (adds_is (hT x) hx hmakes).congr ?_
  rw [Shaped.pair, hshape, volume_permuted hperm]
  exact (source_adjoint hperm _ _).symm

theorem adds_batchedReduce (name label : String) (hT : ∀ u, src.wants u = false → T u = 0)
    (hw : Extends w₀ w) (hx : src.Holds w₀ x (.floats dx)) (hg : src.Holds w g (.floats d))
    {n : Nat} {ds : Shape} (hdx : dx.shape = n :: ds) (hd : d.shape = ds) (hpos : 0 < ds.volume) :
    Adds src w₀ T w (src.contributeFrom x (src.constant label x 0 >>= fun zero =>
      src.emit name (.batched .add) [zero, g])) [x]
      (d.pair fun i => ∑ k ∈ Finset.range n, T x (k * ds.volume + i)) := by
  have hmakes : Makes src w (src.constant label x 0 >>= fun zero =>
      src.emit name (.batched .add) [zero, g])
      fun z => z.Is dx.shape fun i => d.entry (i % ds.volume) := by
    refine (makes_constant (hx.mono hw) 0).bind fun w₁ v zero hw₁ hv hzero => ?_
    refine makes_emit (.cons hv (.cons (hg.mono hw₁) .nil)) rfl fun {results} htyped => ?_
    obtain ⟨z, hgives, hz, -⟩ := batched_gives (hzero.shape_eq.trans hdx) hpos htyped
    refine ⟨z, hgives, hz.congr hzero.shape_eq fun i hi => ?_⟩
    rw [hzero.entry_eq i hi, Exact.ofSingle_zero]
    exact zero_add _
  refine (adds_is (hT x) hx hmakes).congr ?_
  rw [Shaped.pair, hdx, hd, Shape.volume, sum_grid]
  simp only [Finset.mul_sum]
  rw [Finset.sum_comm]
  refine Finset.sum_congr rfl fun i hi => Finset.sum_congr rfl fun k _ => ?_
  rw [Nat.mul_add_mod_of_lt (Finset.mem_range.1 hi)]

/-- A sum over a batch, slice by slice. -/
theorem pair_slices {n : Nat} {ds : Shape} (hd : d.shape = n :: ds) (value tangent : Nat → Exact I) :
    d.pair (fun i => value i * tangent (i % ds.volume)) =
      ∑ i ∈ Finset.range ds.volume, (∑ k ∈ Finset.range n,
        d.entry (k * ds.volume + i) * value (k * ds.volume + i)) * tangent i := by
  rw [Shaped.pair, hd, Shape.volume, sum_grid]
  simp only [Finset.sum_mul]
  rw [Finset.sum_comm]
  refine Finset.sum_congr rfl fun i hi => Finset.sum_congr rfl fun k _ => ?_
  rw [Nat.mul_add_mod_of_lt (Finset.mem_range.1 hi), mul_assoc]

theorem adds_batchedAdd (hT : ∀ u, src.wants u = false → T u = 0)
    (hx : src.Holds w₀ x (.floats dx)) (hy : src.Holds w₀ y (.floats dy))
    (hg : src.Holds w g (.floats d)) (hnode : ∃ i r, g = .node i r) {n : Nat}
    (hdx : dx.shape = n :: dy.shape) (hd : d.shape = n :: dy.shape) :
    Adds src w₀ T w (src.batchedRule name .add x y g) [x, y]
      (d.pair fun i => T x i + T y (i % dy.shape.volume)) := by
  have hmakes : Makes src w (src.emit (name ++ "_slice_grad") .batchedReduce [g]) fun z =>
      z.Is dy.shape fun i => ∑ k ∈ Finset.range n, d.entry (k * dy.shape.volume + i) :=
    makes_emit (.cons hg .nil) rfl (batchedReduce_gives hd)
  refine ((adds_contribute hx hg hnode (hd.trans hdx.symm) (hT x)).seq
    (adds_is (hT y) hy hmakes)).congr ?_
  have hslices := pair_slices hd (fun _ => 1) (T y)
  simp only [one_mul, mul_one] at hslices
  rw [d.pair_add, hslices]

theorem batchedRule_mul (name : String) (x y g : Value) : src.batchedRule name .mul x y g =
    (if src.wants x then src.emit (name ++ "_batch_grad") (.batched .mul) [g, y] else pure g) >>=
      fun gradient =>
    (if src.wants y then src.emit (name ++ "_scaled") (.binary .mul) [g, x] else pure g) >>=
      fun scaled =>
    src.contribute x gradient >>= fun _ =>
      src.contributeFrom y (src.emit (name ++ "_slice_grad") .batchedReduce [scaled]) := by
  unfold Source.batchedRule
  by_cases hx : src.wants x = true <;> by_cases hy : src.wants y = true <;> simp [hx, hy]

theorem adds_batchedMul (hT : ∀ u, src.wants u = false → T u = 0) (hw : Extends w₀ w)
    (hx : src.Holds w₀ x (.floats dx)) (hy : src.Holds w₀ y (.floats dy))
    (hg : src.Holds w g (.floats d)) (hnode : ∃ i r, g = .node i r) {n : Nat}
    (hdx : dx.shape = n :: dy.shape) (hd : d.shape = n :: dy.shape) (hpos : 0 < dy.shape.volume) :
    Adds src w₀ T w (src.batchedRule name .mul x y g) [x, y]
      (d.pair fun i => T x i * dy.entry (i % dy.shape.volume) +
        dx.entry i * T y (i % dy.shape.volume)) := by
  have hbatch : Makes src w (if src.wants x then
        src.emit (name ++ "_batch_grad") (.batched .mul) [g, y] else pure g) fun z =>
      z.shape = dx.shape ∧
        z.pair (T x) = d.pair fun i => T x i * dy.entry (i % dy.shape.volume) := by
    split
    · refine makes_emit (.cons hg (.cons (hy.mono hw) .nil)) rfl fun {results} htyped => ?_
      obtain ⟨z, hgives, hz, -⟩ := batched_gives hd hpos htyped
      refine ⟨z, hgives, (hz.shape_eq.trans hd).trans hdx.symm, ?_⟩
      rw [hz.pair_eq]
      refine Finset.sum_congr rfl fun i _ => ?_
      simp only [BatchOp.apply]
      ring
    · next hwants =>
      refine makes_pure hg hnode ⟨hd.trans hdx.symm, ?_⟩
      rw [hT x (by simpa using hwants)]
      simp [Shaped.pair]
  have hscaled (w₁ : World (Exact I)) (hw₁ : Extends w w₁) : Makes src w₁ (if src.wants y then
        src.emit (name ++ "_scaled") (.binary .mul) [g, x] else pure g) fun z =>
      src.wants y = true → z.Is d.shape fun i => d.entry i * dx.entry i := by
    split
    · exact (makes_binary (hg.mono hw₁) (hx.mono (hw.trans hw₁))).imp fun z hz _ => hz
    · next hwants => exact makes_pure (hg.mono hw₁) hnode fun hw => absurd hw hwants
  rw [batchedRule_mul]
  refine hbatch.adds fun w₁ v z hw₁ hv hvnode hz => ?_
  refine (hscaled w₁ hw₁).adds fun w₂ v' z' hw₂ hv' _ hz' => ?_
  refine ((adds_contribute hx (hv.mono hw₂) hvnode hz.1 (hT x)).seq (adds_contributeFrom
    (c := d.pair fun i => dx.entry i * T y (i % dy.shape.volume))
    (fun hwants => ⟨dy, hy, makes_emit (.cons hv' .nil) rfl fun {results} htyped => ?_⟩)
    fun hwants => ?_)).congr ?_
  · have hIs := hz' hwants
    obtain ⟨r, hgives, hr⟩ := batchedReduce_gives (hIs.shape_eq.trans hd) htyped
    refine ⟨r, hgives, hr.shape_eq, ?_⟩
    rw [hr.pair_eq, pair_slices hd]
    refine Finset.sum_congr rfl fun i hi => ?_
    congr 1
    refine Finset.sum_congr rfl fun k hk => hIs.entry_eq _ ?_
    rw [hd]
    exact grid_lt (Finset.mem_range.1 hk) (Finset.mem_range.1 hi)
  · rw [hT y hwants]
    simp [Shaped.pair]
  · rw [hz.2, d.pair_add]

end Layouts

section Layers

variable {x f b g : Value} {dx df db d : Dense (Exact I)} {name : String}

theorem adds_maxPool (name : String) (hT : ∀ u, src.wants u = false → T u = 0) (hw : Extends w₀ w)
    (hx : src.Holds w₀ x (.floats dx)) (hg : src.Holds w g (.floats d)) (p : Window) :
    Adds src w₀ T w (src.contributeFrom x (src.emit name (.maxPoolGrad p) [x, g])) [x]
      (d.pair (poolTangent p dx d.shape (T x))) := by
  refine adds_contributeFrom (fun _ => ⟨dx, hx, ?_⟩) fun hwants => ?_
  · refine makes_emit (.cons (hx.mono hw) (.cons hg .nil)) rfl fun {results} htyped => ?_
    obtain ⟨z, hgives, hshape, hpair⟩ := maxPoolGrad_gives htyped
    exact ⟨z, hgives, hshape, (hpair _).symm⟩
  · rw [hT x hwants, poolTangent_zero]
    exact d.pair_zero

/-- The three gradients of a layer are the results of one node. -/
theorem adds_layer (name : String) (hT : ∀ u, src.wants u = false → T u = 0) (hw : Extends w₀ w)
    (hx : src.Holds w₀ x (.floats dx)) (hf : src.Holds w₀ f (.floats df))
    (hb : src.Holds w₀ b (.floats db)) (hg : src.Holds w g (.floats d)) (op : Operator)
    (hsink : op.isSink = false) (hweight : Function.hasWeight op [x, f, g] = true)
    (tangent : Tangent I) (hgives : ∀ {results : List TensorType}, Typing.Typed src.storage op
      [.float dx.shape, .float df.shape, .float d.shape] results →
        ∃ gx gf gb : Dense (Exact I), op.Gives results
          [.floats dx.toShaped, .floats df, .floats d] [.floats gx.toShaped, .floats gf, .floats gb] ∧
          gx.shape = dx.shape ∧ gf.shape = df.shape ∧ gb.shape = db.shape ∧
          d.pair tangent = gx.pair (T x) + gf.pair (T f) + gb.pair (T b)) :
    Adds src w₀ T w (src.contributeLayer name op [x, f, b] g) [x, f, b] (d.pair tangent) := by
  intro w₁ pending st' hw₁ hsolved hpending hrun
  obtain ⟨v, st, hemit, hrun⟩ := run_bind_ok_iff.1 hrun
  have hts : List.Forall₂ (src.Holds w₁) [x, f, g] [.floats dx, .floats df, .floats d] :=
    .cons (hx.mono (hw.trans hw₁)) (.cons (hf.mono (hw.trans hw₁)) (.cons (hg.mono hw₁) .nil))
  obtain ⟨n, rfl, hin, -, htyped, rfl, rfl⟩ := emit_ok hts hemit
  obtain ⟨gx, gf, gb, ⟨hcompute, htypes⟩, hgx, hgf, hgb, hpair⟩ := hgives htyped
  rw [← hin] at hts hweight
  obtain ⟨hsolved', hnode⟩ := hsolved.push hts hweight htyped htypes
    (by simp [gx.filled_floats, gf.filled_floats, gb.filled_floats]) fun _ => hcompute
  have hgrows := Grows.push w₁ hsink [.floats gx.toShaped, .floats gf, .floats gb]
  have hn : (w₁.push n [.floats gx.toShaped, .floats gf, .floats gb]).function.nodes[w₁.function.size]? =
      some n := by
    simp [World.push, Function.size]
  have hadds := (adds_contribute hx (hnode.holds (r := 0) hn rfl) ⟨_, _, rfl⟩ hgx (hT x)).seq
    ((adds_contribute hf (hnode.holds (r := 1) hn rfl) ⟨_, _, rfl⟩ hgf (hT f)).seq
      ((adds_contribute hb (hnode.holds (r := 2) hn rfl) ⟨_, _, rfl⟩ hgb (hT b)).seq adds_nothing))
  obtain ⟨w₂, pending₂, hw₂, hsolved₂, hst, hpending₂, howed₂, hnew₂⟩ :=
    hadds (Extends.refl _) hsolved' (fun p hp => (hpending p hp).mono hgrows.toExtends) hrun
  refine ⟨w₂, pending₂, hgrows.trans hw₂, hsolved₂, hst, hpending₂, ?_, hnew₂⟩
  rw [howed₂, owed_mono hpending hgrows.toExtends, hpair]
  ring

end Layers

section Products

variable {x y g : Value} {dx dy d : Dense (Exact I)} {name name' : String}
  {batch rows inner cols step : Nat}

/-- The gradient of a left factor: `g` times the right factor transposed. -/
theorem makes_leftFactor (hshapes : ProductShapes batch rows inner cols step dx.shape dy.shape)
    (hd : d.shape = [batch, rows, cols]) (hy : src.Holds w y (.floats dy))
    (hg : src.Holds w g (.floats d)) :
    Makes src w (src.emit name (.transpose (if (Tensor.floats dy.toShaped).type.rank = 2 then [1, 0]
        else [0, 2, 1])) [y] >>= fun t => src.emit name' .batchedMatMul [g, t])
      fun z => z.shape = dx.shape ∧ ∀ {n i k : Nat}, n < batch → i < rows → k < inner →
        z.entry (n * (rows * inner) + (i * inner + k)) = ∑ j ∈ Finset.range cols,
          d.entry (n * (rows * cols) + (i * cols + j)) * dy.entry (n * step + (k * cols + j)) := by
  obtain ⟨hdx, hdy⟩ := hshapes
  refine (makes_emit (.cons hy .nil) rfl fun htyped =>
    (transpose_gives htyped).imp fun z hz => ⟨hz.1, hz.2.1⟩).bind fun w₁ v t hw₁ ht hIs => ?_
  -- the right factor transposed has the same step from sample to sample
  obtain ⟨step', hproduct, hentry⟩ : ∃ step', ProductShapes batch rows cols inner step' d.shape
      t.shape ∧ ∀ {n k j : Nat}, n < batch → k < inner → j < cols →
        t.entry (n * step' + (j * inner + k)) = dy.entry (n * step + (k * cols + j)) := by
    rcases hdy with ⟨hdy, rfl⟩ | ⟨hdy, rfl⟩
    · have hrank : (Tensor.floats dy.toShaped).type.rank = 2 := congrArg List.length hdy
      rw [if_pos hrank, hdy] at hIs
      refine ⟨0, ⟨hd, .inl ⟨hIs.shape_eq, rfl⟩⟩, fun {n k j} _ hk hj => ?_⟩
      have hlt : j * inner + k < Shape.volume (permuted [1, 0] [inner, cols]) := by
        simpa [permuted, Shape.volume] using grid_lt hj hk
      rw [Nat.mul_zero, Nat.zero_add, Nat.zero_add, hIs.entry_eq _ hlt, source_matrix hk hj]
    · have hrank : ¬ (Tensor.floats dy.toShaped).type.rank = 2 := by
        rw [show (Tensor.floats dy.toShaped).type.rank = 3 from congrArg List.length hdy]
        decide
      rw [if_neg hrank, hdy] at hIs
      refine ⟨cols * inner, ⟨hd, .inr ⟨hIs.shape_eq, rfl⟩⟩, fun {n k j} hn hk hj => ?_⟩
      have hlt : n * (cols * inner) + (j * inner + k) <
          Shape.volume (permuted [0, 2, 1] [batch, inner, cols]) := by
        simpa [permuted, Shape.volume] using grid_lt hn (grid_lt hj hk)
      rw [hIs.entry_eq _ hlt, source_batch hn hk hj]
  refine makes_emit (.cons (hg.mono hw₁) (.cons ht .nil)) rfl fun htyped => ?_
  obtain ⟨z, hgives, hshape, hz⟩ := batchedMatMul_gives hproduct htyped
  refine ⟨z, hgives, hshape.trans hdx.symm, fun {n i k} hn hi hk => ?_⟩
  rw [hz hn hi hk]
  exact Finset.sum_congr rfl fun j hj => by rw [hentry hn hk (Finset.mem_range.1 hj)]

/-- The gradient of a right factor, before it is summed over the batch: the left factor transposed
times `g`. -/
theorem makes_rightFactor (name name' : String) (hdx : dx.shape = [batch, rows, inner])
    (hd : d.shape = [batch, rows, cols]) (hx : src.Holds w x (.floats dx)) (hg : src.Holds w g (.floats d)) :
    Makes src w (src.emit name (.transpose [0, 2, 1]) [x] >>= fun t =>
        src.emit name' .batchedMatMul [t, g])
      fun z => z.shape = [batch, inner, cols] ∧ ∀ {n k j : Nat}, n < batch → k < inner → j < cols →
        z.entry (n * (inner * cols) + (k * cols + j)) = ∑ i ∈ Finset.range rows,
          dx.entry (n * (rows * inner) + (i * inner + k)) *
            d.entry (n * (rows * cols) + (i * cols + j)) := by
  refine (makes_emit (.cons hx .nil) rfl fun htyped =>
    (transpose_gives htyped).imp fun z hz => ⟨hz.1, hz.2.1⟩).bind fun w₁ v t hw₁ ht hIs => ?_
  rw [hdx] at hIs
  have hproduct : ProductShapes batch inner rows cols (rows * cols) t.shape d.shape :=
    ⟨hIs.shape_eq, .inr ⟨hd, rfl⟩⟩
  refine makes_emit (.cons ht (.cons (hg.mono hw₁) .nil)) rfl fun htyped => ?_
  obtain ⟨z, hgives, hshape, hz⟩ := batchedMatMul_gives hproduct htyped
  refine ⟨z, hgives, hshape, fun {n k j} hn hk hj => ?_⟩
  rw [hz hn hk hj]
  refine Finset.sum_congr rfl fun i hi => ?_
  have hlt : n * (inner * rows) + (k * rows + i) <
      Shape.volume (permuted [0, 2, 1] [batch, rows, inner]) := by
    simpa [permuted, Shape.volume] using grid_lt hn (grid_lt hk (Finset.mem_range.1 hi))
  rw [hIs.entry_eq _ hlt, source_batch hn (Finset.mem_range.1 hi) hk]

theorem adds_leftFactor (hT : ∀ u, src.wants u = false → T u = 0) (hw : Extends w₀ w)
    (hx : src.Holds w₀ x (.floats dx)) (hy : src.Holds w₀ y (.floats dy))
    (hg : src.Holds w g (.floats d))
    (hshapes : ProductShapes batch rows inner cols step dx.shape dy.shape)
    (hd : d.shape = [batch, rows, cols]) :
    Adds src w₀ T w (src.contributeFrom x (src.emit name (.transpose
        (if (Tensor.floats dy.toShaped).type.rank = 2 then [1, 0] else [0, 2, 1])) [y] >>= fun t =>
      src.emit name' .batchedMatMul [g, t])) [x]
      (∑ n ∈ Finset.range batch, ∑ i ∈ Finset.range rows, ∑ k ∈ Finset.range inner,
        (∑ j ∈ Finset.range cols, d.entry (n * (rows * cols) + (i * cols + j)) *
          dy.entry (n * step + (k * cols + j))) * T x (n * (rows * inner) + (i * inner + k))) := by
  refine adds_contributeFrom (fun _ => ⟨dx, hx,
    (makes_leftFactor hshapes hd (hy.mono hw) hg).imp fun z hz => ⟨hz.1, ?_⟩⟩)
    fun hwants => by simp [hT x hwants]
  rw [pair_grid (hz.1.trans hshapes.1)]
  refine Finset.sum_congr rfl fun n hn => Finset.sum_congr rfl fun i hi =>
    Finset.sum_congr rfl fun k hk => ?_
  rw [hz.2 (Finset.mem_range.1 hn) (Finset.mem_range.1 hi) (Finset.mem_range.1 hk)]

theorem adds_rightFactor (hT : ∀ u, src.wants u = false → T u = 0) (hw : Extends w₀ w)
    (hx : src.Holds w₀ x (.floats dx)) (hy : src.Holds w₀ y (.floats dy))
    (hg : src.Holds w g (.floats d))
    (hshapes : ProductShapes batch rows inner cols step dx.shape dy.shape)
    (hd : d.shape = [batch, rows, cols]) {name'' : String} :
    Adds src w₀ T w (src.contributeFrom y (src.emit name (.transpose [0, 2, 1]) [x] >>= fun t =>
      src.emit name' .batchedMatMul [t, g] >>= fun product =>
        if (Tensor.floats dy.toShaped).type.rank = 2 then src.emit name'' .batchedReduce [product]
        else pure product)) [y]
      (∑ n ∈ Finset.range batch, ∑ k ∈ Finset.range inner, ∑ j ∈ Finset.range cols,
        (∑ i ∈ Finset.range rows, dx.entry (n * (rows * inner) + (i * inner + k)) *
          d.entry (n * (rows * cols) + (i * cols + j))) * T y (n * step + (k * cols + j))) := by
  obtain ⟨hdx, hdy⟩ := hshapes
  have hmakes := makes_rightFactor name name' hdx hd (hx.mono hw) hg
  refine adds_contributeFrom (fun _ => ⟨dy, hy, ?_⟩) fun hwants => by simp [hT y hwants]
  rcases hdy with ⟨hdy, rfl⟩ | ⟨hdy, rfl⟩
  · have hrank : (Tensor.floats dy.toShaped).type.rank = 2 := congrArg List.length hdy
    simp only [if_pos hrank]
    rw [← bind_assoc]
    refine hmakes.bind fun w₁ v product _ hv hproduct => ?_
    refine makes_emit (.cons hv .nil) rfl fun {results} htyped => ?_
    obtain ⟨z, hgives, hz⟩ := batchedReduce_gives hproduct.1 htyped
    refine ⟨z, hgives, hz.shape_eq.trans hdy.symm, ?_⟩
    have hvolume : Shape.volume [inner, cols] = inner * cols := by simp [Shape.volume]
    rw [hz.pair_eq, hvolume, sum_grid]
    simp only [Finset.sum_mul]
    calc _ = ∑ k ∈ Finset.range inner, ∑ n ∈ Finset.range batch, ∑ j ∈ Finset.range cols,
          product.entry (n * (inner * cols) + (k * cols + j)) * T y (k * cols + j) :=
        Finset.sum_congr rfl fun k _ => Finset.sum_comm
      _ = ∑ n ∈ Finset.range batch, ∑ k ∈ Finset.range inner, ∑ j ∈ Finset.range cols,
          product.entry (n * (inner * cols) + (k * cols + j)) * T y (k * cols + j) :=
        Finset.sum_comm
      _ = _ := by
        refine Finset.sum_congr rfl fun n hn => Finset.sum_congr rfl fun k hk =>
          Finset.sum_congr rfl fun j hj => ?_
        rw [hproduct.2 (Finset.mem_range.1 hn) (Finset.mem_range.1 hk) (Finset.mem_range.1 hj),
          Finset.sum_mul, Nat.mul_zero, Nat.zero_add]
  · have hrank : ¬ (Tensor.floats dy.toShaped).type.rank = 2 := by
      rw [show (Tensor.floats dy.toShaped).type.rank = 3 from congrArg List.length hdy]
      decide
    simp only [if_neg hrank, bind_pure]
    refine hmakes.imp fun z hz => ⟨hz.1.trans hdy.symm, ?_⟩
    rw [pair_grid hz.1]
    refine Finset.sum_congr rfl fun n hn => Finset.sum_congr rfl fun k hk =>
      Finset.sum_congr rfl fun j hj => ?_
    rw [hz.2 (Finset.mem_range.1 hn) (Finset.mem_range.1 hk) (Finset.mem_range.1 hj)]

theorem adds_matmul (hT : ∀ u, src.wants u = false → T u = 0) (hw : Extends w₀ w)
    (hx : src.Holds w₀ x (.floats dx)) (hy : src.Holds w₀ y (.floats dy))
    (hg : src.Holds w g (.floats d))
    (hshapes : ProductShapes batch rows inner cols step dx.shape dy.shape)
    (hd : d.shape = [batch, rows, cols]) :
    Adds src w₀ T w (src.matmulRule name x y g) [x, y]
      (d.pair (productTangent dx dy (T x) (T y))) :=
  (adds_typeOf (hy.mono hw) ((adds_leftFactor hT hw hx hy hg hshapes hd).seq
    (adds_rightFactor hT hw hx hy hg hshapes hd))).congr
      (pair_productTangent hshapes hd _ _).symm

end Products

/-! ## Every rule -/

theorem adds_noRule (n : Node) (values : List Value) (c : Exact I) :
    Adds src w₀ T w (src.noRule n) values c := by
  intro w₁ pending st' _ _ _ hrun
  cases hrun

/-- What a rule contributes to the operands of a node is what the gradient of its output owes. -/
theorem adds_rule {i : Nat} {n : Node} {operands results : List (Tensor (Exact I))}
    {out d : Dense (Exact I)} {g : Value} (hT : ∀ u, src.wants u = false → T u = 0)
    (hnode : SolvedNode src.storage src.function.Reads w₀ i n operands results)
    (hresult : results[0]? = some (.floats out)) (hout : src.Holds w₀ (.node i 0) (.floats out))
    (htangent : T (.node i 0) = n.op.tangent operands out (n.inputs.map T))
    (hnorm : ∀ p, n.op ≠ .normalization p)
    (hpos : ∀ {v : Value} {t : Tensor (Exact I)}, src.Holds w₀ v t → 0 ∉ t.shape)
    (hw : Extends w₀ w) (hg : src.Holds w g (.floats d)) (hgnode : ∃ i r, g = .node i r)
    (hd : d.shape = out.shape) :
    Adds src w₀ T w (src.rule n (.node i 0) g) n.inputs (d.pair (T (.node i 0))) := by
  have hhead : n.results.head? = some (.float out.shape) := by
    have htypes := hnode.types
    generalize n.results = types at htypes ⊢
    cases htypes with
    | nil => cases hresult
    | cons htype _ =>
      obtain rfl := Option.some.inj hresult
      rw [← htype]
      rfl
  rw [htangent]
  have htyped := hnode.typed
  have hinputs := hnode.inputs
  have hcomputes := hnode.computes
  have hfilled := hnode.operands_filled
  obtain ⟨name, op, inputs, types⟩ := n
  dsimp only at htyped hinputs hhead hnorm hcomputes ⊢
  generalize hts : operands.map Tensor.type = ts at htyped
  cases htyped with
  | binary op x =>
    obtain ⟨dx, dy, rfl, hdx, hdy⟩ := floats_two hts hfilled
    obtain ⟨a, b, rfl, ha, hb⟩ := inputs_two hinputs
    have hx : d.shape = x := by simpa [TensorType.float, hd, eq_comm] using hhead
    cases op with
    | add => exact adds_add hT ha hb hg hgnode (hx.trans hdx.symm) (hx.trans hdy.symm)
    | sub => exact adds_sub hT ha hb hg hgnode (hx.trans hdx.symm) (hx.trans hdy.symm)
    | mul => exact adds_mul hT hw ha hb hg (hx.trans hdx.symm) (hx.trans hdy.symm)
  | unary op x =>
    obtain ⟨dx, rfl, hdx⟩ := floats_one hts hfilled
    obtain ⟨a, rfl, ha⟩ := inputs_one hinputs
    have hx : d.shape = dx.shape := by simpa [TensorType.float, hd, hdx, eq_comm] using hhead
    have hout := hout.mono hw
    cases op with
    | relu =>
      refine adds_pointwise hT ha hx (makes_reluGrad hout hg) fun i => ?_
      show (if 0 < out.entry i then T a i else 0) = _
      split <;> simp
    | sigmoid => exact adds_pointwise hT ha hx (makes_sigmoidGradient hout hg hd) fun _ => rfl
    | tanh => exact adds_pointwise hT ha hx (makes_tanhGradient hout hg hd) fun _ => rfl
  | splat value type =>
    cases hinputs with
    | nil => exact adds_nothing.congr d.pair_zero.symm
    | cons _ _ => cases hts
  | reshape x shape hvolume =>
    obtain ⟨kind, s⟩ := x
    obtain rfl : kind = .float := by
      simp only [List.head?_cons, Option.some.injEq, TensorType.float, TensorType.mk.injEq] at hhead
      exact hhead.1
    obtain ⟨dx, rfl, hdx⟩ := floats_one hts hfilled
    obtain ⟨a, rfl, ha⟩ := inputs_one hinputs
    exact adds_reshape hT hw ha hg
  | transpose x perm hperm =>
    obtain ⟨kind, s⟩ := x
    obtain rfl : kind = .float := by
      simp only [List.head?_cons, Option.some.injEq, TensorType.float, TensorType.mk.injEq] at hhead
      exact hhead.1
    obtain ⟨dx, rfl, rfl⟩ := floats_one hts hfilled
    obtain ⟨a, rfl, ha⟩ := inputs_one hinputs
    have hx : d.shape = permuted perm dx.shape := by
      simp only [List.head?_cons, Option.some.injEq, TensorType.float, TensorType.mk.injEq] at hhead
      exact hd.trans hhead.2.symm
    exact adds_transpose hT ha hg (permutes_of_isPermutation hperm) hx
  | conv p n h w c oh ow hoh how =>
    obtain ⟨dx, df, t, rfl, hdx, hdf, ht, hbias⟩ := floats_three hts hfilled
    obtain ⟨db, rfl, hdb⟩ := exists_filled_floats ht hbias
    obtain ⟨a, b, e, rfl, ha, hb, he⟩ := inputs_three hinputs
    have hadds := adds_layer (name ++ "_grad") hT hw ha hb he hg (.convGrad p) rfl rfl
      (convolutionTangent p dx df d.shape (T a) (T b) (T e)) fun htyped => by
        obtain ⟨gx, gf, gb, hgives, hgx, hgf, hgb, hpair⟩ := convGrad_gives htyped
        exact ⟨gx, gf, gb, hgives, hgx, hgf, hgb.trans hdb.symm, hpair _ _ _⟩
    rw [hd] at hadds
    exact hadds
  | maxPool p n h w c oh ow hoh how =>
    obtain ⟨dx, rfl, hdx⟩ := floats_one hts hfilled
    obtain ⟨a, rfl, ha⟩ := inputs_one hinputs
    have hadds := adds_maxPool (name ++ "_grad") hT hw ha hg p
    rw [hd] at hadds
    exact hadds
  | fullyConnected m e depth ds bias =>
    obtain ⟨dx, dw, t, rfl, hdx, hdw, ht, hbias⟩ := floats_three hts hfilled
    obtain ⟨a, b, e, rfl, ha, hb, he⟩ := inputs_three hinputs
    -- a bias of indices has made the layer fail
    cases t with
    | indices t => cases hcomputes rfl
    | floats b =>
      obtain ⟨db, rfl, hdb⟩ : ∃ db : Dense (Exact I), b = db.toShaped ∧ db.shape = [depth] :=
        ⟨⟨b, hbias⟩, rfl, congrArg TensorType.shape ht⟩
      have hx : d.shape = [m, depth] := by simpa [TensorType.float, hd, eq_comm] using hhead
      exact adds_layer _ hT hw ha hb he hg .fullyConnectedGrad rfl rfl _ fun htyped => by
        obtain ⟨gx, gw, gb, hgives, hgx, hgw, ⟨_, _, hshape, hgb⟩, hpair⟩ :=
          fullyConnectedGrad_gives htyped
        obtain ⟨-, hrest⟩ := List.cons.inj (hshape.symm.trans hx)
        exact ⟨gx, gw, gb, hgives, hgx, hgw, (hgb.trans hrest).trans hdb.symm, hpair _ _ _⟩
  | softMax n w => exact adds_noRule _ _ _
  | normalization p => exact absurd rfl (hnorm p)
  | regression x => exact adds_noRule _ _ _
  | sharedMatMul n a b c =>
    obtain ⟨dx, dy, rfl, hdx, hdy⟩ := floats_two hts hfilled
    obtain ⟨u, v, rfl, hu, hv⟩ := inputs_two hinputs
    have hx : d.shape = [n, a, c] := by simpa [TensorType.float, hd, eq_comm] using hhead
    exact adds_matmul hT hw hu hv hg ⟨hdx, .inl ⟨hdy, rfl⟩⟩ hx
  | batchedMatMul n a b c =>
    obtain ⟨dx, dy, rfl, hdx, hdy⟩ := floats_two hts hfilled
    obtain ⟨u, v, rfl, hu, hv⟩ := inputs_two hinputs
    have hx : d.shape = [n, a, c] := by simpa [TensorType.float, hd, eq_comm] using hhead
    exact adds_matmul hT hw hu hv hg ⟨hdx, .inr ⟨hdy, rfl⟩⟩ hx
  | batchedReduce n ds =>
    obtain ⟨dx, rfl, hdx⟩ := floats_one hts hfilled
    obtain ⟨a, rfl, ha⟩ := inputs_one hinputs
    have hx : out.shape = ds := by simpa [TensorType.float, eq_comm] using hhead
    have hadds := adds_batchedReduce (name ++ "_grad") (name ++ "_zero") hT hw ha hg
      hdx (hd.trans hx) (hx ▸ Shape.volume_pos (hpos hout))
    refine hadds.congr ?_
    show _ = d.pair fun i => ∑ k ∈ Finset.range (dx.shape.headD 0), T a (k * out.shape.volume + i)
    rw [hdx, hx]
    rfl
  | batched op n ds =>
    obtain ⟨dx, dy, rfl, hdx, rfl⟩ := floats_two hts hfilled
    obtain ⟨a, b, rfl, ha, hb⟩ := inputs_two hinputs
    have hx : d.shape = n :: dy.shape := by simpa [TensorType.float, hd, eq_comm] using hhead
    cases op with
    | add => exact adds_batchedAdd hT ha hb hg hgnode hdx hx
    | mul => exact adds_batchedMul hT hw ha hb hg hgnode hdx hx (Shape.volume_pos (hpos hb))
  | save ref x => exact adds_noRule _ _ _
  | sgd p x => exact adds_noRule _ _ _
  | reluGrad x => exact adds_noRule _ _ _
  | convGrad p => exact adds_noRule _ _ _
  | maxPoolGrad p => exact adds_noRule _ _ _
  | fullyConnectedGrad n d depth ds => exact adds_noRule _ _ _
  | softMaxGrad n w => exact adds_noRule _ _ _
  | normalizationGrad p => exact adds_noRule _ _ _

end Training

end TensorCompiler
