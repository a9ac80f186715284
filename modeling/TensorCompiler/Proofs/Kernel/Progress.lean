import TensorCompiler.Proofs.Graph.Evaluation
import TensorCompiler.Proofs.Graph.Typing
import TensorCompiler.Proofs.Kernel.Products
import TensorCompiler.Proofs.Kernel.Rows
import TensorCompiler.Proofs.Kernel.Windows
import TensorCompiler.Proofs.Run.Stores

/-!
Kernels on operands that the typing rules accept: each reads inside its operands and gives as many
elements as the type of its result asks for, empty axes included (`Operator.compute_total`). The
exceptions are operands that the rules let pass and no kernel takes (`Operator.supports`), and labels
outside their rows, which types do not exclude (`softMaxGrad_spec`).
-/

namespace TensorCompiler

open Kernel Typing

/-- A row has as many probabilities as elements. -/
class Scalar.Rowwise (α : Type) [Scalar α] : Prop where
  length_softmax : ∀ row : List α, (Scalar.softmax row).length = row.length

instance : Scalar.Rowwise Single where
  length_softmax row := by simp [Scalar.softmax, Single.softmaxRow]

namespace Kernel

variable {α : Type} [Scalar α]

/-! ## Elements and slices -/

theorem binary_total (op : BinaryOp) {x y : Dense α} (h : y.shape = x.shape) :
    ∃ z : Array α, binary op x y = .ok z ∧ z.size = x.shape.volume := by
  have hsize : x.values.size = y.values.size := by rw [x.size_eq, y.size_eq, h]
  refine ⟨_, if_pos hsize, ?_⟩
  rw [Array.size_zipWith, ← hsize, Nat.min_self, x.size_eq]

theorem size_reluGrad {y g : Dense α} (h : g.shape = y.shape) :
    (reluGrad (y : Shaped α) g).size = y.shape.volume := by
  rw [reluGrad, Array.size_zipWith, y.size_eq, g.size_eq, h, Nat.min_self]

theorem batched_total (op : BatchOp) {x y : Dense α} {n : Nat} (hx : x.shape = n :: y.shape)
    (hslice : y.shape.volume ≠ 0) : ∃ z : Array α, batched op x y = .ok z ∧ z.size = x.shape.volume := by
  have hysize : y.values.size ≠ 0 := y.size_eq ▸ hslice
  have htiles : x.values.size % y.values.size = 0 := by
    rw [x.size_eq, y.size_eq, hx, Shape.volume, Nat.mul_mod_left]
  refine ⟨_, if_neg (not_or.2 ⟨hysize, not_not.2 htiles⟩), ?_⟩
  rw [Array.size_mapIdx, x.size_eq]

theorem batchedReduce_total {x : Dense α} {n : Nat} {ds : Shape} (hx : x.shape = n :: ds) :
    ∃ z, batchedReduce (x : Shaped α) = .ok z ∧ z.size = ds.volume := by
  refine ⟨_, batchedReduce_eq hx, ?_⟩
  rw [List.size_toArray, List.length_map, List.length_range]

/-! ## Layers -/

theorem convolution_total (p : Convolution) {x f b : Dense α} {n h w c : Nat} (oh ow : Nat)
    (hx : x.shape = [n, h, w, c]) (hf : f.shape = [p.depth, p.kernel, p.kernel, c])
    (hb : b.shape = [p.depth]) : ∃ z : Array α, convolution p x f b [n, oh, ow, p.depth] = .ok z ∧
      z.size = Shape.volume [n, oh, ow, p.depth] := by
  obtain ⟨cells, -, hlen, hz⟩ := convolution_eq oh ow hx hf hb
  exact ⟨_, hz, (Contraction.size_apply cells x.values f.values b.values).trans hlen⟩

theorem maxPool_total (p : Window) {x : Dense α} {n h w c : Nat} (oh ow : Nat)
    (hx : x.shape = [n, h, w, c]) : ∃ z : Array α, maxPool p x [n, oh, ow, c] = .ok z ∧
      z.size = Shape.volume [n, oh, ow, c] := by
  obtain ⟨bests, hbests, hlen, -⟩ := poolWindows_ok p oh ow hx
  exact ⟨_, by rw [maxPool, hbests]; rfl, by simpa using hlen⟩

theorem maxPoolGrad_total (p : Window) {x g : Dense α} {n h w c oh ow : Nat}
    (hx : x.shape = [n, h, w, c]) (hg : g.shape = [n, oh, ow, c]) :
    ∃ z : Array α, maxPoolGrad p x g = .ok z ∧ z.size = x.shape.volume := by
  obtain ⟨bests, hbests, -, -⟩ := poolWindows_ok p oh ow hx
  rw [← hg] at hbests
  exact ⟨_, by rw [maxPoolGrad, hbests]; rfl, (size_scatter _ _).trans x.size_eq⟩

theorem fullyConnected_total {x w b : Dense α} {n depth : Nat} {ds : Shape}
    (hx : x.shape = n :: ds) (hw : w.shape = [ds.volume, depth]) (hb : b.shape = [depth]) :
    ∃ z : Array α, fullyConnected x w b = .ok z ∧ z.size = Shape.volume [n, depth] := by
  refine ⟨_, fullyConnected_eq hx hw hb, (Contraction.size_apply (denseCells n ds.volume depth)
    x.values w.values b.values).trans ?_⟩
  rw [length_denseCells]
  simp [Shape.volume]

/-! ## Rows -/

theorem softMax_total [Scalar.Rowwise α] {x : Dense α} {n width : Nat}
    (hx : x.shape = [n, width]) : ∃ z : Array α, softMax x = .ok z ∧ z.size = x.shape.volume := by
  refine ⟨((rows width x.values.toList).flatMap Scalar.softmax).toArray,
    by simp only [softMax, hx], ?_⟩
  rw [List.size_toArray, length_flatMap_rows (fun row hrow => ?_) (by simp [hx])]
  rw [Scalar.Rowwise.length_softmax, hrow]

theorem normalization_total (p : Normalization) {x : Dense α} {n h w c : Nat}
    (hx : x.shape = [n, h, w, c]) :
    ∃ z : Array α, normalization p x = .ok z ∧ z.size = x.shape.volume := by
  obtain ⟨f, hf, heq⟩ := normalization_eq (α := α) p c
  refine ⟨_, heq hx, ?_⟩
  rw [List.size_toArray, length_flatMap_rows hf (by simp [hx])]

theorem normalizationGrad_total (p : Normalization) {x g : Dense α} {n h w c : Nat}
    (hx : x.shape = [n, h, w, c]) (hg : g.shape = x.shape) :
    ∃ z : Array α, normalizationGrad p x g = .ok z ∧ z.size = x.shape.volume := by
  obtain ⟨f, hf, heq⟩ := normalizationGrad_eq (α := α) p c
  have hmem : c ∈ x.shape := by simp [hx]
  have hrows : (rows c x.values.toList).length = (rows c g.values.toList).length :=
    length_rows_congr (by rw [Array.length_toList, Array.length_toList, x.size_eq, g.size_eq, hg])
  have hlen : ((rows c x.values.toList).zip (rows c g.values.toList)).map (fun r => (f r).length) =
      ((rows c x.values.toList).zip (rows c g.values.toList)).map (List.length ∘ Prod.fst) := by
    refine List.map_congr_left fun r hr => ?_
    have hleft := length_of_mem_rows (dvd_length hmem) (List.of_mem_zip hr).1
    have hright := length_of_mem_rows (dvd_length (hg ▸ hmem)) (List.of_mem_zip hr).2
    exact (hf r hleft hright).trans hleft.symm
  refine ⟨_, heq hx hg, ?_⟩
  rw [List.size_toArray, List.length_flatMap, hlen, ← List.map_map, List.map_fst_zip (Nat.le_of_eq hrows),
    ← List.length_flatten, flatten_rows hmem, Array.length_toList, x.size_eq]

/-! ## Labels -/

/-- The labels from row `row` on: the first that names no class of its row is a fault. -/
theorem foldlM_labels (width : Nat) (ls : List Int64) : ∀ (row : Nat) (acc : Array α),
    (row + ls.length) * width ≤ acc.size →
    let result : Except KernelFault (Array α) := (ls.zipIdx row).foldlM (fun acc (label, row) =>
      match labelIndex? width label with
      | none => .error (.label label width)
      | some i => guarded (row * width + i < acc.size) (acc.modify (row * width + i) (· - 1))) acc
    match ls.find? fun l => (labelIndex? width l).isNone with
    | some l => result = .error (.label l width)
    | none => ∃ values, result = .ok values ∧ values.size = acc.size := by
  induction ls with
  | nil => exact fun row acc _ => ⟨acc, rfl, rfl⟩
  | cons l ls ih =>
    intro row acc hrow
    rw [List.zipIdx_cons, List.foldlM_cons]
    cases hl : labelIndex? width l with
    | none => simp [hl, bind, Except.bind]
    | some i =>
      have hlt := labelIndex?_lt hl
      have hinside : row * width + i < acc.size := by
        refine Nat.lt_of_lt_of_le ?_ hrow
        rw [List.length_cons, ← Nat.add_assoc, Nat.add_right_comm, Nat.add_mul, Nat.succ_mul]
        omega
      have ih := ih (row + 1) (acc.modify (row * width + i) (· - 1))
        (by rw [Array.size_modify, Nat.add_right_comm]; exact hrow)
      simpa [List.find?_cons, hl, guarded, hinside, bind, Except.bind] using ih

/-- The gradient of the probabilities refuses the first label that names no class of its row. -/
theorem softMaxGrad_spec {y : Dense α} {n width : Nat} {labels : List Int64}
    (hy : y.shape = [n, width]) (hn : labels.length = n) :
    match labels.find? fun l => (labelIndex? width l).isNone with
    | some l => softMaxGrad (y : Shaped α) labels = .error (.label l width)
    | none => ∃ values : Array α, softMaxGrad y labels = .ok values ∧ values.size = y.shape.volume := by
  have hsize : y.values.size = n * width := by simp [y.size_eq, hy, Shape.volume]
  have hfold := foldlM_labels width labels 0 y.values (by rw [Nat.zero_add, hn, hsize])
  rw [y.size_eq] at hfold
  simp only [softMaxGrad, hy] at hfold ⊢
  exact hfold

theorem softMaxGrad_total {y : Dense α} {n width : Nat} {labels : List Int64}
    (hy : y.shape = [n, width]) (hn : labels.length = n)
    (hlabels : ∀ l ∈ labels, (labelIndex? width l).isSome) :
    ∃ z : Array α, softMaxGrad y labels = .ok z ∧ z.size = y.shape.volume := by
  have hnone : (labels.find? fun l => (labelIndex? width l).isNone) = none := by
    refine List.find?_eq_none.2 fun l hl => ?_
    rw [← Option.not_isSome, hlabels l hl]
    decide
  have hspec := softMaxGrad_spec hy hn
  rwa [hnone] at hspec

end Kernel

/-! ## Operators -/

variable {α : Type}

theorem single_fills {result : Except KernelFault (Array α)} {shape : Shape}
    (h : ∃ z, result = .ok z ∧ z.size = shape.volume) :
    ∃ ps, single result = some ps ∧ List.Forall₂ Payload.Fills [.float shape] ps := by
  obtain ⟨z, rfl, hsize⟩ := h
  exact ⟨_, rfl, .cons ⟨rfl, hsize⟩ .nil⟩

/-- The gradients of a layer have the shapes of its operands. -/
theorem layer_fills [Zero α] [Add α] [Mul α] {result : Except KernelFault (LayerGradients α)}
    {cells : Contraction} {x f : Dense α} {g : Array α} {depth : Nat}
    (h : result = .ok ⟨cells.leftGradient x.values.size f.values g,
      cells.rightGradient f.values.size x.values g, cells.biasGradient depth g⟩) :
    ∃ ps, layer result = some ps ∧
      List.Forall₂ Payload.Fills [.float x.shape, .float f.shape, .float [depth]] ps := by
  have hinput : (cells.leftGradient x.values.size f.values g).size = x.shape.volume :=
    (size_scatter _ _).trans x.size_eq
  have hfilter : (cells.rightGradient f.values.size x.values g).size = f.shape.volume :=
    (size_scatter _ _).trans f.size_eq
  have hbias : (cells.biasGradient depth g).size = Shape.volume [depth] :=
    (size_scatter _ _).trans (by simp [Shape.volume])
  rw [h]
  exact ⟨_, rfl, .cons ⟨rfl, hinput⟩ (.cons ⟨rfl, hfilter⟩ (.cons ⟨rfl, hbias⟩ .nil))⟩

variable [Scalar α]

theorem splatPayload_fills (type : TensorType) (value : Single) :
    (splatPayload type value : Payload α).Fills type := by
  obtain ⟨_ | _, shape⟩ := type
  · exact ⟨rfl, Array.size_replicate ..⟩
  · exact ⟨rfl, Array.size_replicate ..⟩

theorem transposePayload_total {perm : List Nat} {t : Tensor α} (hfilled : t.Filled)
    (hperm : isPermutation perm t.type.rank = true) :
    ∃ p, transposePayload perm t (permuted perm t.type.shape) = .ok p ∧
      p.Fills ⟨t.type.kind, permuted perm t.type.shape⟩ := by
  have hpermutes : Permutes perm t.type.shape.length := permutes_of_isPermutation hperm
  have hvolume := volume_permuted hpermutes
  cases t with
  | floats d =>
    obtain ⟨z, hz, hsize, -⟩ := transpose_ok (x := ⟨d, hfilled⟩) hpermutes
    exact ⟨.floats z, congrArg (Except.map Payload.floats) hz, rfl, hsize.trans hvolume.symm⟩
  | indices d =>
    obtain ⟨z, hz, hsize, -⟩ := transpose_ok (x := ⟨d, hfilled⟩) hpermutes
    exact ⟨.indices z, congrArg (Except.map Payload.indices) hz, rfl, hsize.trans hvolume.symm⟩

/-- Kernels take the operands. The typing rules ask neither for a bias of floats in a dense layer nor
for elements in the slice of a batched operator. -/
def Operator.supports : Operator → List TensorType → Bool
  | .fullyConnected, [_, _, bias] => bias.isFloat
  | .batched _, [_, slice] => slice.volume ≠ 0
  | _, _ => true

/-- The padded height and width of an image are words. -/
def Window.fits (w : Window) (image : TensorType) : Bool :=
  image.shape.getD 1 0 + 2 * w.pad < Word.size && image.shape.getD 2 0 + 2 * w.pad < Word.size

/-- The width of a full neighbourhood and the end of the last channel's are words. -/
def Normalization.fits (p : Normalization) (image : TensorType) : Bool :=
  2 * p.halfWindow + 1 < Word.size && image.shape.getD 3 0 + p.halfWindow < Word.size

/-- The arithmetic of the operator stays within words: sizes and steps of operands and results, and what
places its windows and neighbourhoods. -/
def Operator.fits (op : Operator) (types results : List TensorType) : Bool :=
  (types ++ results).all (fun type => decide type.shape.Fits) &&
    match op, types with
    | .conv p, image :: _ | .convGrad p, image :: _ => p.fits image
    | .maxPool w, image :: _ | .maxPoolGrad w, image :: _ => w.fits image
    | .normalization p, image :: _ | .normalizationGrad p, image :: _ => p.fits image
    | _, _ => true

omit [Scalar α] in
theorem Operator.volume_lt_of_fits {op : Operator} {types results : List TensorType}
    (h : op.fits types results = true) {type : TensorType} (htype : type ∈ types ++ results) :
    type.volume < Word.size := by
  have hall := (Bool.and_eq_true_iff.1 h).1
  exact (of_decide_eq_true (List.all_eq_true.1 hall type htype)).1

/-- An operator that has results computes them on operands that it takes, of the kinds and sizes that
its results ask for, if kernels take the operands and labels are in their rows. -/
theorem Operator.compute_total [Scalar.Rowwise α] {s : Storage} {op : Operator}
    {types results : List TensorType} {ts : List (Tensor α)} (htyped : Typed s op types results)
    (hts : ts.map Tensor.type = types) (hfilled : ∀ t ∈ ts, t.Filled) (hsink : op.isSink = false)
    (hsupports : op.supports types = true)
    (hlabels : ∀ (y : Shaped α) (labels : Shaped Int64), op = .softMaxGrad →
      ts = [.floats y, .indices labels] →
      ∀ l ∈ labels.values.toList, (labelIndex? (y.shape.getD 1 0) l).isSome) :
    ∃ ps, op.compute results ts = some ps ∧ List.Forall₂ Payload.Fills results ps := by
  cases htyped with
  | binary op shape =>
    obtain ⟨x, y, rfl, rfl, hy⟩ := floats_two hts hfilled
    exact single_fills (binary_total op hy)
  | unary op shape =>
    obtain ⟨x, rfl, rfl⟩ := floats_one hts hfilled
    exact single_fills ⟨_, rfl, (Array.size_map ..).trans x.size_eq⟩
  | splat value type =>
    obtain rfl := List.map_eq_nil_iff.1 hts
    exact ⟨_, rfl, .cons (splatPayload_fills type value) .nil⟩
  | reshape x target hvolume =>
    obtain ⟨t, rfl, rfl⟩ := List.map_eq_singleton_iff.1 hts
    have hfill := (hfilled t (List.mem_singleton_self t)).fills
    exact ⟨_, rfl, .cons ⟨hfill.1, hfill.2.trans hvolume.symm⟩ .nil⟩
  | transpose x perm hperm =>
    obtain ⟨t, rfl, rfl⟩ := List.map_eq_singleton_iff.1 hts
    obtain ⟨p, hp, hfills⟩ := transposePayload_total (hfilled t (List.mem_singleton_self t)) hperm
    refine ⟨[p], ?_, .cons hfills .nil⟩
    show (transposePayload perm t (permuted perm t.type.shape)).toOption.map _ = _
    rw [hp]
    rfl
  | conv p n h w c oh ow =>
    obtain ⟨x, f, t, rfl, hx, hf, ht, hfill⟩ := floats_three hts hfilled
    obtain ⟨b, rfl, hb⟩ := exists_filled_floats ht hfill
    exact single_fills (convolution_total p oh ow hx hf hb)
  | maxPool p n h w c oh ow =>
    obtain ⟨x, rfl, hx⟩ := floats_one hts hfilled
    exact single_fills (maxPool_total p oh ow hx)
  | fullyConnected n d depth ds bias =>
    obtain ⟨x, w, t, rfl, hx, hw, ht, hfill⟩ := floats_three hts hfilled
    obtain rfl : bias = .float := by
      simpa [Operator.supports, TensorType.isFloat] using hsupports
    obtain ⟨b, rfl, hb⟩ := exists_filled_floats ht hfill
    exact single_fills (fullyConnected_total hx hw hb)
  | softMax n w =>
    obtain ⟨t, rest, rfl, ht, hrest⟩ := List.map_eq_cons_iff.1 hts
    obtain ⟨u, rfl, -⟩ := List.map_eq_singleton_iff.1 hrest
    obtain ⟨x, rfl, hx⟩ := exists_filled_floats ht (hfilled t List.mem_cons_self)
    obtain ⟨z, hz, hsize⟩ := softMax_total hx
    exact single_fills ⟨z, hz, hx ▸ hsize⟩
  | normalization p n h w c =>
    obtain ⟨x, rfl, hx⟩ := floats_one hts hfilled
    obtain ⟨z, hz, hsize⟩ := normalization_total p hx
    exact single_fills ⟨z, hz, hx ▸ hsize⟩
  | regression shape =>
    obtain ⟨x, y, rfl, rfl, -⟩ := floats_two hts hfilled
    exact ⟨_, rfl, .cons x.filled_floats.fills .nil⟩
  | sharedMatMul n a b c =>
    obtain ⟨x, y, rfl, hx, hy⟩ := floats_two hts hfilled
    exact single_fills ⟨_, batchedMatMul_eq ⟨hx, .inl ⟨hy, rfl⟩⟩,
      by simp [length_productTaps, Shape.volume]⟩
  | batchedMatMul n a b c =>
    obtain ⟨x, y, rfl, hx, hy⟩ := floats_two hts hfilled
    exact single_fills ⟨_, batchedMatMul_eq ⟨hx, .inr ⟨hy, rfl⟩⟩,
      by simp [length_productTaps, Shape.volume]⟩
  | batchedReduce n ds =>
    obtain ⟨x, rfl, hx⟩ := floats_one hts hfilled
    exact single_fills (batchedReduce_total hx)
  | batched op n ds =>
    obtain ⟨x, y, rfl, hx, rfl⟩ := floats_two hts hfilled
    obtain ⟨z, hz, hsize⟩ := batched_total op hx (of_decide_eq_true hsupports)
    exact single_fills ⟨z, hz, hx ▸ hsize⟩
  | save => cases hsink
  | sgd => cases hsink
  | reluGrad shape =>
    obtain ⟨y, g, rfl, rfl, hg⟩ := floats_two hts hfilled
    exact single_fills ⟨_, rfl, size_reluGrad hg⟩
  | convGrad p n h w c oh ow =>
    obtain ⟨x, f, t, rfl, hx, hf, ht, hfill⟩ := floats_three hts hfilled
    obtain ⟨g, rfl, hg⟩ := exists_filled_floats ht hfill
    obtain ⟨cells, -, -, -, hgrad⟩ := convolutionGrad_eq hx hf hg
    rw [← hx, ← hf]
    exact layer_fills hgrad
  | maxPoolGrad p n h w c oh ow =>
    obtain ⟨x, g, rfl, hx, hg⟩ := floats_two hts hfilled
    obtain ⟨z, hz, hsize⟩ := maxPoolGrad_total p hx hg
    exact single_fills ⟨z, hz, hx ▸ hsize⟩
  | fullyConnectedGrad n d depth ds =>
    obtain ⟨x, w, t, rfl, hx, hw, ht, hfill⟩ := floats_three hts hfilled
    obtain ⟨g, rfl, hg⟩ := exists_filled_floats ht hfill
    obtain ⟨cells, -, -, -, hgrad⟩ := fullyConnectedGrad_eq hx hw hg
    rw [← hx, ← hw]
    exact layer_fills hgrad
  | softMaxGrad n w =>
    obtain ⟨t, rest, rfl, ht, hrest⟩ := List.map_eq_cons_iff.1 hts
    obtain ⟨u, rfl, hu⟩ := List.map_eq_singleton_iff.1 hrest
    obtain ⟨y, rfl, hy⟩ := exists_filled_floats ht (hfilled t List.mem_cons_self)
    obtain ⟨labels, rfl, hshape⟩ := exists_filled_indices hu
      (hfilled u (List.mem_cons_of_mem _ (List.mem_singleton_self u)))
    have hn : labels.values.toList.length = n := by simp [labels.size_eq, hshape, Shape.volume]
    have hin := hlabels y labels rfl rfl
    rw [hy] at hin
    obtain ⟨z, hz, hsize⟩ := softMaxGrad_total hy hn hin
    exact single_fills ⟨z, hz, hy ▸ hsize⟩
  | normalizationGrad p n h w c =>
    obtain ⟨x, g, rfl, hx, hg⟩ := floats_two hts hfilled
    obtain ⟨z, hz, hsize⟩ := normalizationGrad_total p hx (hg.trans hx.symm)
    exact single_fills ⟨z, hz, hx ▸ hsize⟩

section

variable {s : Storage} {op : Operator} {types results : List TensorType} {ts : List (Tensor α)}
  {ps : List (Payload α)}

/-- An operator that computes something takes its operands. -/
theorem Operator.supports_of_compute (htyped : Typed s op types results)
    (hts : ts.map Tensor.type = types) (hfilled : ∀ t ∈ ts, t.Filled)
    (hcompute : op.compute results ts = some ps) : op.supports types = true := by
  cases htyped with
  | fullyConnected n d depth ds bias =>
    obtain ⟨x, w, t, rfl, -, -, ht, -⟩ := floats_three hts hfilled
    cases t with
    | floats b => exact congrArg TensorType.isFloat ht.symm
    | indices b => cases hcompute
  | batched op n ds =>
    obtain ⟨x, y, rfl, -, rfl⟩ := floats_two hts hfilled
    refine decide_eq_true fun hslice => ?_
    have hfault : Kernel.batched op (x : Shaped α) y = .error .sliceTiling :=
      if_pos (.inl (y.size_eq.trans hslice))
    simp [Operator.compute, Tensor.floats?, hfault, single] at hcompute
  | _ => rfl

/-- Labels are in their rows where the gradient of the probabilities is computed. -/
theorem labels_of_compute {y : Shaped α} {labels : Shaped Int64}
    (htyped : Typed s .softMaxGrad types results)
    (hts : [Tensor.floats y, .indices labels].map Tensor.type = types)
    (hfilled : ∀ t ∈ [Tensor.floats y, .indices labels], t.Filled)
    (hcompute : Operator.softMaxGrad.compute results [.floats y, .indices labels] = some ps) :
    ∀ l ∈ labels.values.toList, (labelIndex? (y.shape.getD 1 0) l).isSome := by
  cases htyped with
  | softMaxGrad n width =>
    obtain ⟨hy, hshape⟩ : y.shape = [n, width] ∧ labels.shape = [n, 1] := by
      simpa [Tensor.type, TensorType.float, TensorType.index] using hts
    have hsize : labels.values.size = labels.shape.volume :=
      hfilled _ (List.mem_cons_of_mem _ List.mem_cons_self)
    have hn : labels.values.toList.length = n := by simp [hsize, hshape, Shape.volume]
    have hspec := softMaxGrad_spec (y := ⟨y, hfilled _ List.mem_cons_self⟩) hy hn
    rw [hy]
    split at hspec
    · simp [Operator.compute, Tensor.floats?, Tensor.indices?, hspec, single] at hcompute
    · next hnone =>
      intro l hl
      simpa [Option.isSome_iff_ne_none] using List.find?_eq_none.1 hnone l hl

/-- What an operator computes fills its results. -/
theorem Operator.compute_fills [Scalar.Rowwise α] (htyped : Typed s op types results)
    (hts : ts.map Tensor.type = types) (hfilled : ∀ t ∈ ts, t.Filled)
    (hcompute : op.compute results ts = some ps) : List.Forall₂ Payload.Fills results ps := by
  have hsink : op.isSink = false := by
    cases op
    case save => cases hcompute
    case sgd => cases hcompute
    all_goals rfl
  obtain ⟨ps', hps', hfills⟩ := compute_total htyped hts hfilled hsink
    (supports_of_compute htyped hts hfilled hcompute) fun y labels hop hin => by
      subst hop hin
      exact labels_of_compute htyped hts hfilled hcompute
  rwa [Option.some.inj (hcompute.symm.trans hps')]

end

end TensorCompiler
