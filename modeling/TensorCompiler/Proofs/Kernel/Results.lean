import TensorCompiler.Proofs.Graph.Evaluation
import TensorCompiler.Proofs.Graph.Typing
import TensorCompiler.Proofs.Kernel.Exact
import TensorCompiler.Proofs.Kernel.Products
import TensorCompiler.Proofs.Kernel.Rows
import TensorCompiler.Proofs.Kernel.Windows

/-!
What the operators of a gradient compute over exact rationals, when the typing rules accept their
operands: each succeeds (`Operator.Gives`), and the elements of its result are given position by
position (`Dense.Is`).
-/

namespace TensorCompiler

open Kernel Typing

/-- On the operands, the operator has results of the given types. -/
def Operator.Gives {α : Type} [Scalar α] (op : Operator) (results : List TensorType)
    (ts rs : List (Tensor α)) : Prop :=
  op.compute results ts = some (rs.map Tensor.payload) ∧
    List.Forall₂ (fun r type => r.type = type) rs results

/-- The shape of an array, and its elements by flat position. -/
structure Dense.Is {α : Type} [Zero α] (d : Dense α) (shape : Shape) (value : Nat → α) : Prop where
  shape_eq : d.shape = shape
  entry_eq : ∀ i < shape.volume, d.entry i = value i

variable {I : Interpretation} {s : Storage} {results : List TensorType}

theorem Dense.Is.pair_eq {d : Dense (Exact I)} {shape : Shape} {value : Nat → Exact I}
    (h : d.Is shape value) (tangent : Nat → Exact I) :
    d.pair tangent = ∑ i ∈ Finset.range shape.volume, value i * tangent i :=
  Shaped.pair_of_entry h.shape_eq h.entry_eq tangent

/-- An array with given elements. -/
theorem exists_dense {α : Type} [Zero α] {values : Array α} {shape : Shape}
    (h : values.size = shape.volume) : ∃ d : Dense α, d.values = values ∧ d.shape = shape :=
  ⟨.ofValues shape values h, rfl, rfl⟩

theorem gives_float {op : Operator} {ts : List (Tensor (Exact I))} {z : Dense (Exact I)}
    (h : op.compute [.float z.shape] ts = some [.floats z.values]) :
    op.Gives [.float z.shape] ts [.floats z] :=
  ⟨h, .cons rfl .nil⟩

/-! ## Elementwise operators -/

theorem binary_gives {op : BinaryOp} {x y : Dense (Exact I)}
    (h : Typed s (.binary op) [.float x.shape, .float y.shape] results) :
    ∃ z : Dense (Exact I),
      Operator.Gives (.binary op) results [.floats x.toShaped, .floats y.toShaped]
        [.floats z.toShaped] ∧
      z.Is x.shape fun i => op.apply (x.entry i) (y.entry i) := by
  generalize htypes : [TensorType.float x.shape, .float y.shape] = types at h
  cases h
  simp only [TensorType.float, List.cons.injEq, TensorType.mk.injEq, true_and, and_true] at htypes
  obtain ⟨rfl, hy⟩ := htypes
  have hsize : x.values.size = y.values.size := by rw [x.size_eq, y.size_eq, hy]
  have hzip : (Array.zipWith op.apply x.values y.values).size = x.shape.volume := by
    rw [Array.size_zipWith, ← hsize, Nat.min_self, x.size_eq]
  obtain ⟨z, hz, hshape⟩ := exists_dense hzip
  refine ⟨z, hshape ▸ gives_float ?_, hshape, fun i hi => ?_⟩
  · simp [Operator.compute, Tensor.floats?, Kernel.binary, hsize, single, hz]
  · have hi' : i < x.values.size := x.size_eq ▸ hi
    simp [Shaped.entry, hz, hi', hsize ▸ hi']

theorem splat_gives {value : Single} {shape : Shape}
    (h : Typed s (.splat value (.float shape)) [] results) :
    ∃ z : Dense (Exact I),
      Operator.Gives (.splat value (.float shape)) results [] [.floats z.toShaped] ∧
      z.Is shape fun _ => Scalar.ofSingle value := by
  cases h
  refine ⟨.replicate shape (Scalar.ofSingle value), ⟨rfl, .cons rfl .nil⟩, rfl, fun i hi => ?_⟩
  simp [Shaped.entry, Dense.replicate, hi]

theorem reluGrad_gives {y g : Dense (Exact I)}
    (h : Typed s .reluGrad [.float y.shape, .float g.shape] results) :
    ∃ z : Dense (Exact I),
      Operator.Gives .reluGrad results [.floats y.toShaped, .floats g.toShaped] [.floats z.toShaped] ∧
      z.Is g.shape fun i => if 0 < y.entry i then g.entry i else 0 := by
  generalize htypes : [TensorType.float y.shape, .float g.shape] = types at h
  cases h
  simp only [TensorType.float, List.cons.injEq, TensorType.mk.injEq, true_and, and_true] at htypes
  obtain ⟨hy, rfl⟩ := htypes
  have hsize : y.values.size = g.values.size := by rw [y.size_eq, g.size_eq, hy]
  have hzip : (Kernel.reluGrad (y : Shaped (Exact I)) g).size = g.shape.volume := by
    rw [Kernel.reluGrad, Array.size_zipWith, hsize, Nat.min_self, g.size_eq]
  obtain ⟨z, hz, hshape⟩ := exists_dense hzip
  refine ⟨z, hshape ▸ gives_float ?_, hshape, fun i hi => ?_⟩
  · simp [Operator.compute, Tensor.floats?, single, hz]
  · have hi' : i < g.values.size := g.size_eq ▸ hi
    simp [Shaped.entry, hz, Kernel.reluGrad, hi', hsize ▸ hi']

/-! ## Layouts -/

theorem reshape_gives {shape : Shape} {x : Dense (Exact I)}
    (h : Typed s (.reshape shape) [.float x.shape] results) :
    ∃ z : Dense (Exact I),
      Operator.Gives (.reshape shape) results [.floats x.toShaped] [.floats z.toShaped] ∧
      z.Is shape x.entry ∧ shape.volume = x.shape.volume := by
  generalize htypes : [TensorType.float x.shape] = types at h
  cases h with
  | reshape type _ hvolume =>
    simp only [List.cons.injEq, and_true] at htypes
    obtain rfl := htypes
    obtain ⟨z, hz, hshape⟩ := exists_dense (x.size_eq.trans hvolume.symm)
    refine ⟨z, ?_, ⟨hshape, fun i _ => by rw [Shaped.entry, hz]⟩, hvolume⟩
    subst hshape
    exact gives_float (by rw [hz]; rfl)

theorem transpose_gives {perm : List Nat} {x : Dense (Exact I)}
    (h : Typed s (.transpose perm) [.float x.shape] results) :
    ∃ z : Dense (Exact I),
      Operator.Gives (.transpose perm) results [.floats x.toShaped] [.floats z.toShaped] ∧
      z.Is (permuted perm x.shape) (fun i => x.entry (source perm x.shape i)) ∧
      Permutes perm x.shape.length := by
  generalize htypes : [TensorType.float x.shape] = types at h
  cases h with
  | transpose type _ hperm =>
    simp only [List.cons.injEq, and_true] at htypes
    obtain rfl := htypes
    have hpermutes : Permutes perm x.shape.length := permutes_of_isPermutation hperm
    have hvolume := volume_permuted hpermutes
    obtain ⟨values, hvalues, hsize, hentry⟩ := transpose_ok hpermutes
    obtain ⟨z, hz, hshape⟩ := exists_dense (hsize.trans hvolume.symm)
    refine ⟨z, ?_, ⟨hshape, fun i hi => ?_⟩, hpermutes⟩
    · refine ⟨?_, .cons (congrArg TensorType.float hshape) .nil⟩
      simp only [Operator.compute, transposePayload]
      rw [show (TensorType.float x.shape).shape = x.shape from rfl, ← permuted, hvalues]
      simp [Except.map, Except.toOption, hz, Tensor.payload]
    · rw [Shaped.entry, hz, hentry i (hvolume ▸ hi)]

/-! ## Batches -/

theorem batchedReduce_gives {x : Dense (Exact I)} {n : Nat} {ds : Shape} (hx : x.shape = n :: ds)
    (h : Typed s .batchedReduce [.float x.shape] results) :
    ∃ z : Dense (Exact I),
      Operator.Gives .batchedReduce results [.floats x.toShaped] [.floats z.toShaped] ∧
      z.Is ds fun i => ∑ k ∈ Finset.range n, x.entry (k * ds.volume + i) := by
  rw [hx] at h
  cases h
  have hsize : ((List.range ds.volume).map fun i =>
      (List.range n).foldl (fun acc k => acc + x.values.getD (k * ds.volume + i) 0) 0).toArray.size =
        ds.volume := by simp
  obtain ⟨z, hz, rfl⟩ := exists_dense hsize
  refine ⟨z, gives_float ?_, rfl, fun i hi => ?_⟩
  · simp [Operator.compute, Tensor.floats?, batchedReduce_eq hx, single, hz]
  · have hfold (m : Nat) : (List.range m).foldl (fun acc k =>
        acc + x.values.getD (k * z.shape.volume + i) 0) 0 =
          ∑ k ∈ Finset.range m, x.entry (k * z.shape.volume + i) := by
      induction m with
      | zero => rfl
      | succ m ih =>
        rw [List.range_succ, List.foldl_append, ih, Finset.sum_range_succ]
        rfl
    rw [Shaped.entry, hz, Array.getD_eq_getD_getElem?, List.getElem?_toArray, List.getElem?_map,
      List.getElem?_range hi]
    exact hfold n

theorem batched_gives {op : BatchOp} {x y : Dense (Exact I)} {n : Nat} {ds : Shape}
    (hx : x.shape = n :: ds) (hpos : 0 < ds.volume)
    (h : Typed s (.batched op) [.float x.shape, .float y.shape] results) :
    ∃ z : Dense (Exact I),
      Operator.Gives (.batched op) results [.floats x.toShaped, .floats y.toShaped]
        [.floats z.toShaped] ∧
      z.Is x.shape (fun i => op.apply (x.entry i) (y.entry (i % ds.volume))) ∧ y.shape = ds := by
  generalize htypes : [TensorType.float x.shape, .float y.shape] = types at h
  cases h
  simp only [TensorType.float, List.cons.injEq, TensorType.mk.injEq, true_and, and_true] at htypes
  obtain ⟨hx', rfl⟩ := htypes
  obtain ⟨rfl, rfl⟩ := List.cons.inj (hx'.symm.trans hx)
  have hysize : y.values.size ≠ 0 := by rw [y.size_eq]; omega
  have htiles : x.values.size % y.values.size = 0 := by
    rw [x.size_eq, y.size_eq, hx, Shape.volume, Nat.mul_mod_left]
  have hsize : (x.values.mapIdx fun i v =>
      op.apply v (y.values.getD (i % y.values.size) 0)).size = x.shape.volume := by
    rw [Array.size_mapIdx, x.size_eq]
  obtain ⟨z, hz, hshape⟩ := exists_dense hsize
  refine ⟨z, ?_, ⟨hshape, fun i hi => ?_⟩, rfl⟩
  · rw [← hx, ← hshape]
    have hkernel : Kernel.batched op x y = .ok z.values := by
      rw [Kernel.batched, if_neg (not_or.2 ⟨hysize, not_not.2 htiles⟩), hz]
    exact gives_float (by simp [Operator.compute, Tensor.floats?, hkernel, single])
  · have hi' : i < x.values.size := x.size_eq ▸ hi
    simp [Shaped.entry, hz, hi', y.size_eq]

/-! ## Products -/

theorem batchedMatMul_gives {x y : Dense (Exact I)} {batch rows inner cols step : Nat}
    (hshapes : ProductShapes batch rows inner cols step x.shape y.shape)
    (h : Typed s .batchedMatMul [.float x.shape, .float y.shape] results) :
    ∃ z : Dense (Exact I),
      Operator.Gives .batchedMatMul results [.floats x.toShaped, .floats y.toShaped]
        [.floats z.toShaped] ∧
      z.shape = [batch, rows, cols] ∧
      ∀ {n i j : Nat}, n < batch → i < rows → j < cols →
        z.entry (n * (rows * cols) + (i * cols + j)) = ∑ k ∈ Finset.range inner,
          x.entry (n * (rows * inner) + (i * inner + k)) *
            y.entry (n * step + (k * cols + j)) := by
  obtain ⟨values, hvalues, hsize, hentry⟩ := batchedMatMul_ok hshapes
  obtain ⟨z, rfl, hshape⟩ := exists_dense (hsize.trans (by simp [Shape.volume]) :
    _ = Shape.volume [batch, rows, cols])
  have hresults : results = [.float z.shape] := by
    obtain ⟨hx, hy⟩ := hshapes
    rw [hshape]
    rcases hy with ⟨hy, -⟩ | ⟨hy, -⟩ <;> rw [hx, hy] at h <;> cases h <;> rfl
  subst hresults
  refine ⟨z, gives_float ?_, hshape, hentry⟩
  simp [Operator.compute, Tensor.floats?, hvalues, single]

/-! ## Layers -/

/-- The gradients of a layer as tensors. -/
theorem exists_layer {l : LayerGradients (Exact I)} {x f g : Dense (Exact I)} {depth : Nat}
    {tangent : (Nat → Exact I) → (Nat → Exact I) → (Nat → Exact I) → Nat → Exact I}
    (h : l.AdjointTo x f g depth tangent) : ∃ dx df db : Dense (Exact I),
      l = ⟨dx.values, df.values, db.values⟩ ∧ dx.shape = x.shape ∧ df.shape = f.shape ∧
      db.shape = [depth] ∧ ∀ a b c, g.pair (tangent a b c) = dx.pair a + df.pair b + db.pair c := by
  obtain ⟨dx, hdx, hxshape⟩ := exists_dense h.input
  obtain ⟨df, hdf, hfshape⟩ := exists_dense h.filter
  obtain ⟨db, hdb, hbshape⟩ := exists_dense (h.bias.trans (by simp [Shape.volume]) :
    _ = Shape.volume [depth])
  refine ⟨dx, df, db, by rw [hdx, hdf, hdb], hxshape, hfshape, hbshape, fun a b c => ?_⟩
  rw [h.adjoint, ← hdx, ← hdf, ← hdb, Shaped.pair, Shaped.pair, Shaped.pair, hxshape, hfshape, hbshape]
  simp [Shape.volume]

theorem convGrad_gives {p : Convolution} {x f g : Dense (Exact I)}
    (h : Typed s (.convGrad p) [.float x.shape, .float f.shape, .float g.shape] results) :
    ∃ dx df db : Dense (Exact I),
      Operator.Gives (.convGrad p) results [.floats x.toShaped, .floats f.toShaped, .floats g.toShaped]
        [.floats dx.toShaped, .floats df.toShaped, .floats db.toShaped] ∧
      dx.shape = x.shape ∧ df.shape = f.shape ∧ db.shape = [p.depth] ∧
      ∀ a b c, g.pair (convolutionTangent p x f g.shape a b c) =
        dx.pair a + df.pair b + db.pair c := by
  generalize htypes : [TensorType.float x.shape, .float f.shape, .float g.shape] = types at h
  cases h
  simp only [TensorType.float, List.cons.injEq, TensorType.mk.injEq, true_and, and_true] at htypes
  obtain ⟨hx, hf, hg⟩ := htypes
  obtain ⟨l, hl, hadjoint⟩ := convolutionGrad_ok hx hf hg
  obtain ⟨dx, df, db, rfl, hdx, hdf, hdb, hpair⟩ := exists_layer hadjoint
  refine ⟨dx, df, db, ⟨?_, ?_⟩, hdx, hdf, hdb, hpair⟩
  · simp [Operator.compute, Tensor.floats?, hl, layer, Tensor.payload]
  · rw [← hx, ← hf]
    exact .cons (congrArg _ hdx) (.cons (congrArg _ hdf) (.cons (congrArg _ hdb) .nil))

theorem fullyConnectedGrad_gives {x w g : Dense (Exact I)}
    (h : Typed s .fullyConnectedGrad [.float x.shape, .float w.shape, .float g.shape] results) :
    ∃ dx dw db : Dense (Exact I),
      Operator.Gives .fullyConnectedGrad results
        [.floats x.toShaped, .floats w.toShaped, .floats g.toShaped]
        [.floats dx.toShaped, .floats dw.toShaped, .floats db.toShaped] ∧
      dx.shape = x.shape ∧ dw.shape = w.shape ∧ (∃ n depth, g.shape = [n, depth] ∧
        db.shape = [depth]) ∧
      ∀ a b c, g.pair (denseTangent x w a b c) = dx.pair a + dw.pair b + db.pair c := by
  generalize htypes : [TensorType.float x.shape, .float w.shape, .float g.shape] = types at h
  cases h
  simp only [TensorType.float, List.cons.injEq, TensorType.mk.injEq, true_and, and_true] at htypes
  obtain ⟨hx, hw, hg⟩ := htypes
  obtain ⟨l, hl, hadjoint⟩ := fullyConnectedGrad_ok hx hw hg
  obtain ⟨dx, dw, db, rfl, hdx, hdw, hdb, hpair⟩ := exists_layer hadjoint
  refine ⟨dx, dw, db, ⟨?_, ?_⟩, hdx, hdw, ⟨_, _, hg, hdb⟩, hpair⟩
  · simp [Operator.compute, Tensor.floats?, hl, layer, Tensor.payload]
  · rw [← hx, ← hw]
    exact .cons (congrArg _ hdx) (.cons (congrArg _ hdw) (.cons (congrArg _ hdb) .nil))

theorem maxPoolGrad_gives {w : Window} {x g : Dense (Exact I)}
    (h : Typed s (.maxPoolGrad w) [.float x.shape, .float g.shape] results) :
    ∃ z : Dense (Exact I),
      Operator.Gives (.maxPoolGrad w) results [.floats x.toShaped, .floats g.toShaped]
        [.floats z.toShaped] ∧
      z.shape = x.shape ∧ ∀ dx, g.pair (poolTangent w x g.shape dx) = z.pair dx := by
  generalize htypes : [TensorType.float x.shape, .float g.shape] = types at h
  cases h
  simp only [TensorType.float, List.cons.injEq, TensorType.mk.injEq, true_and, and_true] at htypes
  obtain ⟨hx, hg⟩ := htypes
  obtain ⟨values, hvalues, hsize, hpair⟩ := maxPoolGrad_ok (p := w) hx hg
  obtain ⟨z, rfl, hshape⟩ := exists_dense hsize
  refine ⟨z, ⟨?_, ?_⟩, hshape, fun dx => ?_⟩
  · simp [Operator.compute, Tensor.floats?, hvalues, single, Tensor.payload]
  · rw [← hx]
    exact .cons (congrArg _ hshape) .nil
  · rw [hpair dx, Shaped.pair, hshape]

/-! ## Labels -/

/-- 1 at the label of each row, and 0 elsewhere. -/
def oneHot (width : Nat) (labels : List Int64) (i : Nat) : Exact I :=
  if (labels[i / width]?).bind (labelIndex? width) = some (i % width) then 1 else 0

theorem getD_lessLabel (width : Nat) (row : List (Exact I)) (label : Int64) {c : Nat}
    (hc : c < row.length) : (lessLabel width row label).getD c 0 =
      row.getD c 0 - if labelIndex? width label = some c then 1 else 0 := by
  rw [List.getD_eq_getElem?_getD, List.getD_eq_getElem?_getD]
  unfold lessLabel
  split
  · next h => simp [h]
  · next j h =>
    by_cases hj : j = c
    · simp [h, hj, hc]
    · simp [h, hj]

/-- The gradient of the probabilities takes 1 off at the label of each row. -/
theorem softMaxGrad_ok {y : Dense (Exact I)} {n width : Nat} {labels : List Int64}
    (hy : y.shape = [n, width]) (hn : labels.length = n)
    (hrange : ∀ l ∈ labels, (labelIndex? width l).isSome) :
    ∃ values, softMaxGrad y labels = .ok values ∧ values.size = y.values.size ∧
      ∀ i < n * width, values.getD i 0 = y.entry i - oneHot width labels i := by
  have hrow (r : Nat) : (y.sample r).values.toList.length = width := by
    simp [y.length_sample hy, Shape.volume]
  have hlen (r : Nat) :
      (lessLabel width (y.sample r).values.toList (labels.getD r 0)).length = width := by
    rw [length_lessLabel, hrow]
  refine ⟨_, softMaxGrad_samples hy hn hrange, ?_, fun i hi => ?_⟩
  · rw [List.size_toArray, length_grid hlen, y.size_eq, hy]
    simp [Shape.volume]
  · obtain ⟨hr, hc⟩ := div_mod_lt hi
    have hvolume : Shape.volume [width] = width := Nat.mul_one width
    have hentry := y.entry_sample hy (i / width) (hvolume ▸ hc)
    rw [hvolume, Nat.div_add_mod'] at hentry
    have hlabel : labels[i / width]? = some (labels.getD (i / width) 0) := by
      rw [List.getD_eq_getElem?_getD, List.getElem?_eq_getElem (hn.symm ▸ hr), Option.getD_some]
    have hcrow : i % width < (y.sample (i / width)).values.toList.length := by
      rw [hrow]
      exact hc
    rw [Array.getD_eq_getD_getElem?, List.getElem?_toArray, getElem?_grid_of_lt hlen hi,
      ← List.getD_eq_getElem?_getD, getD_lessLabel _ _ _ hcrow, oneHot, hlabel, ← hentry, Option.bind_some,
      List.getD_eq_getElem?_getD, Array.getElem?_toList, Shaped.entry, Array.getD_eq_getD_getElem?]

theorem softMaxGrad_gives {y : Dense (Exact I)} {labels : Dense Int64} {n width : Nat}
    (hy : y.shape = [n, width])
    (hrange : ∀ l ∈ labels.values.toList, (labelIndex? width l).isSome)
    (h : Typed s .softMaxGrad [.float y.shape, .index labels.shape] results) :
    ∃ z : Dense (Exact I),
      Operator.Gives .softMaxGrad results [.floats y.toShaped, .indices labels.toShaped]
        [.floats z.toShaped] ∧
      z.Is y.shape fun i => y.entry i - oneHot width labels.values.toList i := by
  generalize htypes : [TensorType.float y.shape, .index labels.shape] = types at h
  cases h with
  | softMaxGrad rows cols =>
    simp only [TensorType.float, TensorType.index, List.cons.injEq, TensorType.mk.injEq, true_and,
      and_true] at htypes
    obtain ⟨hy', hlabels⟩ := htypes
    have hlen : labels.values.toList.length = rows := by
      rw [Array.length_toList, labels.size_eq, hlabels]
      simp [Shape.volume]
    obtain ⟨rfl, -⟩ := List.cons.inj (hy.symm.trans hy')
    obtain ⟨values, hvalues, hsize, hentry⟩ := softMaxGrad_ok hy hlen hrange
    obtain ⟨z, rfl, hshape⟩ := exists_dense (hsize.trans y.size_eq)
    refine ⟨z, ⟨?_, ?_⟩, hshape, fun i hi => hentry i (by simpa [hy, Shape.volume] using hi)⟩
    · simp [Operator.compute, Tensor.floats?, Tensor.indices?, hvalues, single, Tensor.payload]
    · rw [← hy']
      exact .cons (congrArg _ hshape) .nil

end TensorCompiler
