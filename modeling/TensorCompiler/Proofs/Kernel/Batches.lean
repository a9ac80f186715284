import TensorCompiler.Proofs.Graph.Typing
import TensorCompiler.Proofs.Kernel.Adjoints
import TensorCompiler.Proofs.Kernel.Rows

/-!
The samples of a batch do not influence each other: every kernel with a batch axis gives for a batch
what it gives for the samples alone (`batch_samplewise`). Layers are contractions whose cells repeat
from sample to sample (`Contraction.batch`), windows choose the same taps in every sample, and row
kernels see one row at a time.
-/

namespace TensorCompiler.Kernel

open Typing

variable {α : Type}

/-! ## Layers -/

section

variable [Zero α] [Add α] [Mul α]

/-- Results position by position, where those of each block are those of the first one in other
places. -/
theorem mapM_blocks {β γ : Type} {f : Nat → Option β} {g : Nat → Option γ} {place : Nat → γ → β}
    {m n : Nat} {l : List β} {l₁ : List γ} (hl : (List.range (m * n)).mapM f = some l)
    (hlen : l.length = m * n) (hl₁ : (List.range n).mapM g = some l₁) (hlen₁ : l₁.length = n)
    (h : ∀ a < m, ∀ b < n, f (a * n + b) = (g b).map (place a)) :
    l = (List.range m).flatMap fun a => l₁.map (place a) := by
  refine eq_blocks hlen (fun a => by rw [List.length_map, hlen₁]) fun a ha b hb => ?_
  rw [mapM_getElem? hl (List.getElem?_range (grid_lt ha hb)), h a ha b hb, List.getElem?_map,
    mapM_getElem? hl₁ (List.getElem?_range hb)]

/-- A position of sample `n` has the coordinates that it has in the sample alone, behind `n`. -/
theorem unravel_sample {m a b c n i : Nat} (hn : n < m) (hi : i < Shape.volume [a, b, c]) :
    ∃ y x k, Shape.unravel [m, a, b, c] (n * Shape.volume [a, b, c] + i) = [n, y, x, k] ∧
      Shape.unravel [1, a, b, c] i = [0, y, x, k] := by
  have hone := Shape.unravel_block Nat.one_pos hi
  rw [Nat.zero_mul, Nat.zero_add] at hone
  exact ⟨_, _, _, Shape.unravel_block hn hi, hone⟩

/-- The cell of an output of sample `n` is that of the output of one sample, further on in the
image. -/
theorem convolutionCell_block (p : Convolution) (filter : Shape) {m h w c oh ow depth n i : Nat}
    (hn : n < m) (hi : i < Shape.volume [oh, ow, depth]) :
    convolutionCell 0 0 p [m, h, w, c] filter [m, oh, ow, depth] (n * Shape.volume [oh, ow, depth] + i) =
      (convolutionCell 0 0 p [1, h, w, c] filter [1, oh, ow, depth] i).map
        (Cell.shift (n * Shape.volume [h, w, c])) := by
  obtain ⟨oy, ox, d, hblock, hone⟩ := unravel_sample hn hi
  simp only [convolutionCell_eq, hblock, hone, Nat.mod_zero, Option.map_some, Cell.shift, List.map_flatMap,
    List.map_map, Function.comp_def, Shape.offset, Nat.zero_mul, Nat.zero_add, Nat.add_assoc]

/-- The cells of a convolution of any batch are those of one sample, repeated. -/
theorem convolutionCells_batch (p : Convolution) (h w c oh ow : Nat) :
    ∃ cells : Contraction, cells.length = Shape.volume [oh, ow, p.depth] ∧
      cells.inside (Shape.volume [h, w, c]) (Shape.volume [p.depth, p.kernel, p.kernel, c]) p.depth =
        true ∧
      convolutionCells 0 0 p [1, h, w, c] [p.depth, p.kernel, p.kernel, c] [1, oh, ow, p.depth] =
        some cells ∧
      ∀ m, convolutionCells 0 0 p [m, h, w, c] [p.depth, p.kernel, p.kernel, c] [m, oh, ow, p.depth] =
        some (cells.batch m (Shape.volume [h, w, c])) := by
  obtain ⟨cells, hcells, hlen, hinside⟩ := convolutionCells_ok p 1 h w c oh ow
  rw [Shape.volume, Nat.one_mul] at hlen hinside
  refine ⟨cells, hlen, hinside, hcells, fun m => ?_⟩
  obtain ⟨all, hall, hlenAll, -⟩ := convolutionCells_ok p m h w c oh ow
  unfold convolutionCells at hcells
  rw [Shape.volume, Nat.one_mul] at hcells
  rw [hall, mapM_blocks hall hlenAll hcells hlen fun n hn i hi => convolutionCell_block p _ hn hi]
  rfl

variable {m : Nat} {ds : Shape} {x f b g : Dense α}

theorem convolution_samplewise {p : Convolution} {h w c : Nat} (oh ow : Nat)
    (hx : x.shape = [m, h, w, c]) (hf : f.shape = [p.depth, p.kernel, p.kernel, c])
    (hb : b.shape = [p.depth]) : Samplewise m (convolution p x.toShaped f b [m, oh, ow, p.depth])
      fun n => convolution p (x.sample n) f b [1, oh, ow, p.depth] := by
  obtain ⟨cells, -, hinside, hone, hbatch⟩ := convolutionCells_batch p h w c oh ow
  refine ⟨fun n => cells.apply (x.sample n).values f.values b.values, fun n _ => ?_, _, ?_,
    Contraction.apply_batch hx hinside f.values b.values⟩
  · obtain ⟨cells', hcells', -, hz⟩ := convolution_eq oh ow (x.shape_sample hx n) hf hb
    rw [x.shape_sample hx, hf, hone] at hcells'
    obtain rfl := Option.some.inj hcells'
    exact hz
  · obtain ⟨cells', hcells', -, hz⟩ := convolution_eq oh ow hx hf hb
    rw [hx, hf, hbatch] at hcells'
    obtain rfl := Option.some.inj hcells'
    exact hz

theorem convolutionGrad_samplewise {p : Convolution} {h w c oh ow : Nat}
    (hx : x.shape = [m, h, w, c]) (hf : f.shape = [p.depth, p.kernel, p.kernel, c])
    (hg : g.shape = [m, oh, ow, p.depth]) :
    Samplewise m ((convolutionGrad p x.toShaped f g).map LayerGradients.input)
      fun n => (convolutionGrad p (x.sample n) f (g.sample n)).map LayerGradients.input := by
  obtain ⟨cells, hlen, hinside, hone, hbatch⟩ := convolutionCells_batch p h w c oh ow
  refine ⟨fun n => cells.leftGradient (Shape.volume [h, w, c]) f.values (g.sample n).values,
    fun n _ => ?_, _, ?_, Contraction.leftGradient_batch hinside hg hlen f.values⟩
  · obtain ⟨cells', hcells', -, -, hz⟩ :=
      convolutionGrad_eq (x.shape_sample hx n) hf (g.shape_sample hg n)
    rw [x.shape_sample hx, hf, g.shape_sample hg, hone] at hcells'
    obtain rfl := Option.some.inj hcells'
    rw [x.size_sample hx] at hz
    exact congrArg (Except.map LayerGradients.input) hz
  · obtain ⟨cells', hcells', -, -, hz⟩ := convolutionGrad_eq hx hf hg
    rw [hx, hf, hg, hbatch] at hcells'
    obtain rfl := Option.some.inj hcells'
    rw [x.size_eq, hx, Shape.volume] at hz
    exact congrArg (Except.map LayerGradients.input) hz

/-- The cells of a dense layer are those of one sample, repeated. -/
theorem denseCells_batch (m rows depth : Nat) :
    denseCells m rows depth = (denseCells 1 rows depth).batch m rows := by
  simp [denseCells, Contraction.batch, Cell.shift, List.map_map, Function.comp_def]

theorem denseCells_one_inside (rows depth : Nat) :
    (denseCells 1 rows depth).inside rows (Shape.volume [rows, depth]) depth = true := by
  simpa [Shape.volume] using denseCells_inside 1 rows depth

theorem fullyConnected_samplewise {depth : Nat} (hx : x.shape = m :: ds)
    (hf : f.shape = [ds.volume, depth]) (hb : b.shape = [depth]) :
    Samplewise m (fullyConnected x.toShaped f b) fun n => fullyConnected (x.sample n) f b := by
  refine ⟨fun n => (denseCells 1 ds.volume depth).apply (x.sample n).values f.values b.values,
    fun n _ => fullyConnected_eq (x.shape_sample hx n) hf hb, _, fullyConnected_eq hx hf hb, ?_⟩
  rw [denseCells_batch]
  exact Contraction.apply_batch hx (denseCells_one_inside ..) f.values b.values

theorem fullyConnectedGrad_samplewise {depth : Nat} (hx : x.shape = m :: ds)
    (hf : f.shape = [ds.volume, depth]) (hg : g.shape = [m, depth]) :
    Samplewise m ((fullyConnectedGrad x.toShaped f g).map LayerGradients.input)
      fun n => (fullyConnectedGrad (x.sample n) f (g.sample n)).map LayerGradients.input := by
  have hlen : (denseCells 1 ds.volume depth).length = Shape.volume [depth] := by
    simp [length_denseCells, Shape.volume]
  refine ⟨fun n => (denseCells 1 ds.volume depth).leftGradient ds.volume f.values
    (g.sample n).values, fun n _ => ?_, _, ?_, Contraction.leftGradient_batch
      (denseCells_one_inside ..) hg hlen f.values⟩
  · obtain ⟨cells, rfl, -, -, hz⟩ :=
      fullyConnectedGrad_eq (x.shape_sample hx n) hf (g.shape_sample hg n)
    rw [x.size_sample hx] at hz
    exact congrArg (Except.map LayerGradients.input) hz
  · obtain ⟨cells, rfl, -, -, hz⟩ := fullyConnectedGrad_eq hx hf hg
    rw [x.size_eq, hx, Shape.volume, denseCells_batch] at hz
    exact congrArg (Except.map LayerGradients.input) hz

/-! ## Products -/

/-- The taps of a batched product are those of one sample, further on in the operands. -/
theorem productTaps_blocks (m rows inner cols step : Nat) :
    productTaps m rows inner cols step = (List.range m).flatMap fun n =>
      (productTaps 1 rows inner cols 0).map fun taps =>
        taps.map fun t => (n * (rows * inner) + t.1, n * step + t.2) := by
  simp [productTaps, List.map_flatMap, Function.comp_def, Nat.mul_assoc, Nat.add_assoc]

/-- A batched product is that of the samples, whose right operands hold what the whole one holds for
them. -/
theorem batchedMatMul_samplewise {rows inner cols step : Nat} {y : Dense α} {right : Nat → Dense α}
    (h : ProductShapes m rows inner cols step x.shape y.shape)
    (hright : ∀ n, ∃ one, ProductShapes 1 rows inner cols one (x.sample n).shape (right n).shape)
    (hread : ∀ n < m, ∀ k < inner * cols, (right n).entry k = y.entry (n * step + k)) :
    Samplewise m (batchedMatMul x.toShaped y) fun n => batchedMatMul (x.sample n) (right n) := by
  have hvolume : Shape.volume [rows, inner] = rows * inner := by simp [Shape.volume]
  have hone (step : Nat) : productTaps 1 rows inner cols step = productTaps 1 rows inner cols 0 := by
    rw [productTaps_blocks]
    simp
  refine ⟨fun n => ((productTaps 1 rows inner cols 0).map
    (dot (x.sample n).values (right n).values 0)).toArray, fun n _ => ?_, _, batchedMatMul_eq h, ?_⟩
  · obtain ⟨one, hshapes⟩ := hright n
    rw [← hone one]
    exact batchedMatMul_eq hshapes
  · rw [productTaps_blocks, List.map_flatMap]
    refine List.flatMap_congr fun n hn => ?_
    rw [List.map_map]
    refine List.map_congr_left fun taps htaps => dot_map (fun t ht => ?_) 0
    obtain ⟨n', i, j, k, hn', hi, hj, hk, rfl⟩ := mem_productTaps htaps ht
    obtain rfl : n' = 0 := by omega
    have hleft := x.entry_sample h.1 n (by rw [hvolume]; exact grid_lt hi hk)
    have hrightEntry := hread n (List.mem_range.1 hn) _ (grid_lt hk hj)
    rw [hvolume] at hleft
    simp only [Nat.zero_mul, Nat.zero_add]
    exact ⟨hleft.symm, hrightEntry.symm⟩

end

/-! ## Slices and rows -/

section

variable [Scalar α] {m : Nat} {ds : Shape} {x y g : Dense α}

theorem batched_samplewise (op : BatchOp) (hx : x.shape = m :: y.shape)
    (hslice : y.shape.volume ≠ 0) :
    Samplewise m (batched op x.toShaped y) fun n => batched op (x.sample n) y := by
  have hok {z : Dense α} {k : Nat} (hz : z.shape = k :: y.shape) : batched op z y =
      .ok (z.values.mapIdx fun i v => op.apply v (y.values.getD (i % y.values.size) 0)) := by
    refine if_neg (not_or.2 ⟨y.size_eq ▸ hslice, not_not.2 ?_⟩)
    rw [z.size_eq, y.size_eq, hz, Shape.volume, Nat.mul_mod_left]
  refine ⟨_, fun n _ => hok (x.shape_sample hx n), _, hok hx, ?_⟩
  refine eq_blocks (n := y.shape.volume) ?_ (fun n => ?_) fun n hn i hi => ?_
  · rw [Array.length_toList, Array.size_mapIdx, x.size_eq, hx, Shape.volume]
  · rw [Array.length_toList, Array.size_mapIdx, x.size_sample hx]
  · have hcell := x.getElem?_sample hx hn hi
    simp only [Array.getElem?_toList] at hcell
    simp only [Array.getElem?_toList, Array.getElem?_mapIdx, hcell, y.size_eq, Nat.add_comm _ i,
      Nat.add_mul_mod_self_right]

/-- A kernel that replaces rows one by one, where rows do not run over the end of a sample. -/
theorem rows_samplewise (kernel : Dense α → Except KernelFault (Array α)) (f : List α → List α)
    (width : Nat) (hx : x.shape = m :: ds) (hwidth : width ∣ ds.volume)
    (hkernel : ∀ {z : Dense α} {k : Nat}, z.shape = k :: ds →
      kernel z = .ok ((rows width z.values.toList).flatMap f).toArray) :
    Samplewise m (kernel x) fun n => kernel (x.sample n) := by
  refine ⟨_, fun n _ => hkernel (x.shape_sample hx n), _, hkernel hx, ?_⟩
  rw [List.toList_toArray, x.toList_eq_samples hx,
    rows_flatMap (fun n => (x.length_sample hx n).symm ▸ hwidth), List.flatMap_assoc]

theorem softMax_samplewise {width : Nat} (hx : x.shape = [m, width]) :
    Samplewise m (softMax x.toShaped) fun n => softMax (x.sample n) :=
  rows_samplewise (fun z => softMax z.toShaped) Scalar.softmax width hx ⟨1, rfl⟩
    fun hz => by simp only [softMax, hz]

theorem channels_dvd_volume (h w c : Nat) : c ∣ Shape.volume [h, w, c] :=
  ⟨h * w, by simp [Shape.volume, Nat.mul_comm, Nat.mul_left_comm]⟩

theorem normalization_samplewise (p : Normalization) {h w c : Nat} (hx : x.shape = [m, h, w, c]) :
    Samplewise m (normalization p x.toShaped) fun n => normalization p (x.sample n) := by
  obtain ⟨f, -, hf⟩ := normalization_eq (α := α) p c
  exact rows_samplewise (fun z => normalization p z.toShaped) f c hx (channels_dvd_volume h w c) hf

theorem normalizationGrad_samplewise (p : Normalization) {h w c : Nat} (hx : x.shape = [m, h, w, c])
    (hg : g.shape = x.shape) : Samplewise m (normalizationGrad p x.toShaped g)
      fun n => normalizationGrad p (x.sample n) (g.sample n) := by
  obtain ⟨f, -, hok⟩ := normalizationGrad_eq (α := α) p c
  have hgshape := hg.trans hx
  have hrows {z : Dense α} (hz : z.shape = [m, h, w, c]) (n : Nat) :
      c ∣ (z.sample n).values.toList.length := by
    rw [z.length_sample hz]
    exact channels_dvd_volume h w c
  refine ⟨_, fun n _ => hok (x.shape_sample hx n) ((g.shape_sample hgshape n).trans
    (x.shape_sample hx n).symm), _, hok hx hg, ?_⟩
  rw [List.toList_toArray, x.toList_eq_samples hx, g.toList_eq_samples hgshape, rows_flatMap (hrows hx),
    rows_flatMap (hrows hgshape), zip_blocks, List.flatMap_assoc]
  exact fun n => length_rows_congr (by rw [x.length_sample hx, g.length_sample hgshape])

end

/-! ## Windows -/

/-- The taps of an output of sample `n` are those of the output of one sample, further on in the
image. -/
theorem poolTaps_block (p : Window) {m h w c oh ow depth n i : Nat} (hn : n < m)
    (hi : i < Shape.volume [oh, ow, depth]) :
    poolTaps 0 p [m, h, w, c] [m, oh, ow, depth] (n * Shape.volume [oh, ow, depth] + i) =
      (poolTaps 0 p [1, h, w, c] [1, oh, ow, depth] i).map
        (List.map (n * Shape.volume [h, w, c] + ·)) := by
  obtain ⟨oy, ox, ch, hblock, hone⟩ := unravel_sample hn hi
  simp only [poolTaps_eq, hblock, hone, Nat.mod_zero, Option.map_some, List.map_map,
    Function.comp_def, Shape.offset, Nat.zero_mul, Nat.zero_add, Nat.add_assoc]

section

variable [Zero α] [LT α] [DecidableLT α]

/-- What a window chooses, read at other places that hold the same elements. -/
theorem firstLargest_map {x x' : Array α} {k : Nat} {taps : List Nat}
    (h : ∀ i ∈ taps, x.getD (k + i) 0 = x'.getD i 0) : firstLargest x (taps.map (k + ·)) =
      (firstLargest x' taps).map fun best => (k + best.1, best.2) := by
  unfold firstLargest
  conv_lhs => rw [← Option.map_none (f := fun best : Nat × α => (k + best.1, best.2))]
  generalize (none : Option (Nat × α)) = best
  induction taps generalizing best with
  | nil => rfl
  | cons i taps ih =>
    rw [List.map_cons, List.foldl_cons, List.foldl_cons,
      ← ih fun i hi => h i (List.mem_cons_of_mem _ hi)]
    congr 1
    cases best with
    | none => simp only [Option.map_none, Option.map_some, h i List.mem_cons_self]
    | some best =>
      simp only [Option.map_some, h i List.mem_cons_self]
      split <;> rfl

variable {m : Nat} {x g : Dense α}

/-- Windows choose in a batch what they choose in the samples, further on in the image. -/
theorem poolWindows_blocks (p : Window) {h w c : Nat} (oh ow : Nat) (hx : x.shape = [m, h, w, c]) :
    ∃ chosen : Nat → List (Option (Nat × α)),
      (∀ n, poolWindows p (x.sample n) [1, oh, ow, c] = .ok (chosen n) ∧
        (chosen n).length = Shape.volume [oh, ow, c] ∧
        ∀ best ∈ chosen n, ∀ i v, best = some (i, v) → i < Shape.volume [h, w, c]) ∧
      poolWindows p x [m, oh, ow, c] = .ok ((List.range m).flatMap fun n =>
        (chosen n).map (Option.map fun best => (n * Shape.volume [h, w, c] + best.1, best.2))) := by
  obtain ⟨all, hall, hlenAll, -, hbatch⟩ := poolWindows_eq p oh ow hx
  obtain ⟨windows, hwindows, hlen, hinside⟩ := poolTaps_ok p 1 h w c oh ow
  rw [Shape.volume, Nat.one_mul] at hwindows hlen hinside
  have hblocks := mapM_blocks hall hlenAll hwindows hlen fun n hn i hi => poolTaps_block p hn hi
  refine ⟨fun n => windows.map (firstLargest (x.sample n).values), fun n => ⟨?_, ?_, ?_⟩, ?_⟩
  · obtain ⟨windows', hwindows', -, -, hone⟩ := poolWindows_eq p oh ow (x.shape_sample hx n)
    rw [Shape.volume, Nat.one_mul, hwindows] at hwindows'
    obtain rfl := Option.some.inj hwindows'
    exact hone
  · rw [List.length_map, hlen]
  · intro best hbest i v hchosen
    obtain ⟨taps, htaps, rfl⟩ := List.mem_map.1 hbest
    exact hinside taps htaps i (mem_of_firstLargest hchosen)
  · rw [hbatch, hblocks, List.map_flatMap]
    refine congrArg Except.ok (List.flatMap_congr fun n _ => ?_)
    rw [List.map_map, List.map_map]
    refine List.map_congr_left fun taps htaps => firstLargest_map fun i hi => ?_
    exact (x.entry_sample hx n (hinside taps htaps i hi)).symm

theorem maxPool_samplewise (p : Window) {h w c : Nat} (oh ow : Nat) (hx : x.shape = [m, h, w, c]) :
    Samplewise m (maxPool p x.toShaped [m, oh, ow, c]) fun n => maxPool p (x.sample n) [1, oh, ow, c] := by
  obtain ⟨chosen, hone, hbatch⟩ := poolWindows_blocks p oh ow hx
  have hok {z : Dense α} {out : Shape} {bests : List (Option (Nat × α))}
      (h : poolWindows p z out = .ok bests) :
      maxPool p z out = .ok (bests.map fun best => (best.map (·.2)).getD 0).toArray := by
    rw [maxPool, h]
    rfl
  refine ⟨_, fun n _ => hok (hone n).1, _, hok hbatch, ?_⟩
  rw [List.toList_toArray, List.map_flatMap]
  simp only [List.map_map, Function.comp_def, Option.map_map]

theorem maxPoolGrad_samplewise [Add α] (p : Window) {h w c oh ow : Nat} (hx : x.shape = [m, h, w, c])
    (hg : g.shape = [m, oh, ow, c]) :
    Samplewise m (maxPoolGrad p x.toShaped g) fun n => maxPoolGrad p (x.sample n) (g.sample n) := by
  obtain ⟨chosen, hone, hbatch⟩ := poolWindows_blocks p oh ow hx
  have hok {z u : Dense α} {bests : List (Option (Nat × α))}
      (h : poolWindows p z u.shape = .ok bests) : maxPoolGrad p z u =
        .ok (scatter z.values.size ((bests.zip u.values.toList).filterMap fun pair =>
          pair.1.map fun best => (best.1, pair.2))) := by
    rw [maxPoolGrad, h]
    rfl
  refine ⟨_, fun n _ => hok (g.shape_sample hg n ▸ (hone n).1), _, hok (hg ▸ hbatch), ?_⟩
  simp only [x.size_sample hx]
  rw [x.size_eq, hx, Shape.volume, g.toList_eq_samples hg, zip_blocks, List.filterMap_flatMap,
    ← scatter_blocks]
  · simp only [List.zip_map_left, List.filterMap_map, List.map_filterMap, Function.comp_def,
      Option.map_map, Prod.map]
    rfl
  · intro n e he
    obtain ⟨⟨best, u⟩, hmem, hbest⟩ := List.mem_filterMap.1 he
    obtain ⟨⟨i, v⟩, rfl, rfl⟩ := Option.map_eq_some_iff.1 hbest
    exact (hone n).2.2 _ (List.of_mem_zip hmem).1 i v rfl
  · intro n
    rw [List.length_map, (hone n).2.1, g.length_sample hg]

end

/-! ## Labels -/

theorem softMaxGrad_samplewise [Scalar α] {width : Nat} {y : Dense α} {labels : Dense Int64} {m : Nat}
    (hy : y.shape = [m, width]) (hlabels : labels.shape = [m, 1])
    (hrange : ∀ l ∈ labels.values.toList, (labelIndex? width l).isSome) :
    Samplewise m (softMaxGrad y.toShaped labels.values.toList)
      fun n => softMaxGrad (y.sample n) (labels.sample n).values.toList := by
  have hlength : labels.values.toList.length = m := by
    simp [labels.size_eq, hlabels, Shape.volume]
  have hlabel (n : Nat) : (labels.sample n).values.toList = [labels.values.toList.getD n 0] := by
    simp [Dense.sample, hlabels, Shape.volume]
  refine ⟨fun n => (lessLabel width (y.sample n).values.toList
    (labels.values.toList.getD n 0)).toArray, fun n hn => ?_, _,
    softMaxGrad_samples hy hlength hrange, by rw [List.toList_toArray]⟩
  have hrow : ∀ p ∈ [((y.sample n).values.toList, labels.values.toList.getD n 0)],
      p.1.length = width ∧ (labelIndex? width p.2).isSome := by
    intro p hp
    obtain rfl := List.mem_singleton.1 hp
    exact ⟨by simp [y.length_sample hy, Shape.volume], isSome_label hrange (hlength.symm ▸ hn)⟩
  have hone := softMaxGrad_rows (y.shape_sample hy n) _ hrow (List.flatMap_singleton ..).symm
  rw [List.flatMap_singleton, List.map_singleton, ← hlabel n] at hone
  exact hone

/-! ## The kernels -/

/-- Samples of a batch do not influence each other, whatever the arithmetic: on shapes that the typing
rules take, every kernel with a batch axis gives for a batch what it gives for its samples alone, one
after the other. Operands with the batch axis are cut into samples, the others are shared. Where an
output shape is an operand of the kernel, that of a sample is what the rules ask for. -/
theorem batch_samplewise [Scalar α] (s : Storage) :
    (∀ (p : Convolution) (x f b : Dense α) (out : Shape),
      resultTypes s (.conv p) [.float x.shape, .float f.shape, .float b.shape] = .ok [.float out] →
      resultTypes s (.conv p) [.float x.shape.sample, .float f.shape, .float b.shape] =
          .ok [.float out.sample] ∧
        Samplewise (x.shape.headD 0) (convolution p x.toShaped f b out)
          fun n => convolution p (x.sample n) f b out.sample) ∧
    (∀ (p : Window) (x : Dense α) (out : Shape),
      resultTypes s (.maxPool p) [.float x.shape] = .ok [.float out] →
      resultTypes s (.maxPool p) [.float x.shape.sample] = .ok [.float out.sample] ∧
        Samplewise (x.shape.headD 0) (maxPool p x.toShaped out) fun n => maxPool p (x.sample n) out.sample) ∧
    (∀ (x w b : Dense α) (results : List TensorType),
      resultTypes s .fullyConnected [.float x.shape, .float w.shape, .float b.shape] = .ok results →
      Samplewise (x.shape.headD 0) (fullyConnected x.toShaped w b)
        fun n => fullyConnected (x.sample n) w b) ∧
    (∀ (x : Dense α) (labels : Shape) (results : List TensorType),
      resultTypes s .softMax [.float x.shape, .index labels] = .ok results →
      Samplewise (x.shape.headD 0) (softMax x.toShaped) fun n => softMax (x.sample n)) ∧
    (∀ (p : Normalization) (x : Dense α) (results : List TensorType),
      resultTypes s (.normalization p) [.float x.shape] = .ok results →
      Samplewise (x.shape.headD 0) (normalization p x.toShaped) fun n => normalization p (x.sample n)) ∧
    (∀ (x y : Dense α) (results : List TensorType),
      resultTypes s .batchedMatMul [.float x.shape, .float y.shape] = .ok results →
      Samplewise (x.shape.headD 0) (batchedMatMul x.toShaped y)
        fun n => batchedMatMul (x.sample n) (if y.shape.length = 2 then y else y.sample n)) ∧
    (∀ (op : BatchOp) (x y : Dense α) (results : List TensorType),
      resultTypes s (.batched op) [.float x.shape, .float y.shape] = .ok results →
      y.shape.volume ≠ 0 →
      Samplewise (x.shape.headD 0) (batched op x.toShaped y) fun n => batched op (x.sample n) y) ∧
    (∀ (p : Convolution) (x f g : Dense α) (results : List TensorType),
      resultTypes s (.convGrad p) [.float x.shape, .float f.shape, .float g.shape] = .ok results →
      Samplewise (x.shape.headD 0) ((convolutionGrad p x.toShaped f g).map LayerGradients.input)
        fun n => (convolutionGrad p (x.sample n) f (g.sample n)).map LayerGradients.input) ∧
    (∀ (x w g : Dense α) (results : List TensorType),
      resultTypes s .fullyConnectedGrad [.float x.shape, .float w.shape, .float g.shape] =
        .ok results →
      Samplewise (x.shape.headD 0) ((fullyConnectedGrad x.toShaped w g).map LayerGradients.input)
        fun n => (fullyConnectedGrad (x.sample n) w (g.sample n)).map LayerGradients.input) ∧
    (∀ (p : Window) (x g : Dense α) (results : List TensorType),
      resultTypes s (.maxPoolGrad p) [.float x.shape, .float g.shape] = .ok results →
      Samplewise (x.shape.headD 0) (maxPoolGrad p x.toShaped g)
        fun n => maxPoolGrad p (x.sample n) (g.sample n)) ∧
    (∀ (p : Normalization) (x g : Dense α) (results : List TensorType),
      resultTypes s (.normalizationGrad p) [.float x.shape, .float g.shape] = .ok results →
      Samplewise (x.shape.headD 0) (normalizationGrad p x.toShaped g)
        fun n => normalizationGrad p (x.sample n) (g.sample n)) ∧
    (∀ (y : Dense α) (labels : Dense Int64) (results : List TensorType),
      resultTypes s .softMaxGrad [.float y.shape, .index labels.shape] = .ok results →
      (∀ l ∈ labels.values.toList, 0 ≤ l.toInt ∧ l.toInt < y.shape.getD 1 0) →
      Samplewise (y.shape.headD 0) (softMaxGrad y.toShaped labels.values.toList)
        fun n => softMaxGrad (y.sample n) (labels.sample n).values.toList) := by
  refine ⟨fun p x f b out h => ?_, fun p x out h => ?_, fun x w b results h => ?_,
    fun x labels results h => ?_, fun p x results h => ?_, fun x y results h => ?_,
    fun op x y results h hslice => ?_, fun p x f g results h => ?_, fun x w g results h => ?_,
    fun p x g results h => ?_, fun p x g results h => ?_, fun y labels results h hrange => ?_⟩
  · generalize hx : x.shape = xs, hf : f.shape = fs, hb : b.shape = bs at h ⊢
    cases typed_of_resultTypes h with
    | conv _ m _ w c oh ow hoh how =>
      exact ⟨resultTypes_of_typed (.conv p 1 _ w c oh ow hoh how),
        convolution_samplewise oh ow hx hf hb⟩
  · generalize hx : x.shape = xs at h ⊢
    cases typed_of_resultTypes h with
    | maxPool _ m _ w c oh ow hoh how =>
      exact ⟨resultTypes_of_typed (.maxPool p 1 _ w c oh ow hoh how), maxPool_samplewise p oh ow hx⟩
  · generalize hx : x.shape = xs, hw : w.shape = ws, hb : b.shape = bs at h ⊢
    cases typed_of_resultTypes h
    exact fullyConnected_samplewise hx hw hb
  · generalize hx : x.shape = xs at h ⊢
    cases typed_of_resultTypes h
    exact softMax_samplewise hx
  · generalize hx : x.shape = xs at h ⊢
    cases typed_of_resultTypes h
    exact normalization_samplewise p hx
  · generalize hx : x.shape = xs, hy : y.shape = ys at h ⊢
    cases typed_of_resultTypes h with
    | sharedMatMul m rows inner cols =>
      exact batchedMatMul_samplewise ⟨hx, .inl ⟨hy, rfl⟩⟩
        (fun n => ⟨0, x.shape_sample hx n, .inl ⟨hy, rfl⟩⟩) (by simp)
    | batchedMatMul m rows inner cols =>
      refine batchedMatMul_samplewise ⟨hx, .inr ⟨hy, rfl⟩⟩
        (fun n => ⟨inner * cols, x.shape_sample hx n, .inr ⟨y.shape_sample hy n, rfl⟩⟩)
        fun n hn k hk => ?_
      have hvolume : Shape.volume [inner, cols] = inner * cols := by simp [Shape.volume]
      exact hvolume ▸ y.entry_sample hy n (hvolume ▸ hk)
  · generalize hx : x.shape = xs, hy : y.shape = ys at h hslice ⊢
    cases typed_of_resultTypes h
    exact batched_samplewise op (hx.trans (congrArg _ hy.symm)) (hy ▸ hslice)
  · generalize hx : x.shape = xs, hf : f.shape = fs, hg : g.shape = gs at h ⊢
    cases typed_of_resultTypes h
    exact convolutionGrad_samplewise hx hf hg
  · generalize hx : x.shape = xs, hw : w.shape = ws, hg : g.shape = gs at h ⊢
    cases typed_of_resultTypes h
    exact fullyConnectedGrad_samplewise hx hw hg
  · generalize hx : x.shape = xs, hg : g.shape = gs at h ⊢
    cases typed_of_resultTypes h
    exact maxPoolGrad_samplewise p hx hg
  · generalize hx : x.shape = xs, hg : g.shape = gs at h ⊢
    cases typed_of_resultTypes h
    exact normalizationGrad_samplewise p hx (hg.trans hx.symm)
  · generalize hy : y.shape = ys, hlabels : labels.shape = ls at h hrange ⊢
    cases typed_of_resultTypes h
    exact softMaxGrad_samplewise hy hlabels fun l hl =>
      labelIndex?_isSome (hrange l hl).1 (hrange l hl).2

/-- Two samples in single precision, one with a negative zero and the other with a not-a-number, which
stays in its sample. -/
theorem batch_samplewise_pair :
    let window : Window := ⟨2, 2, 1⟩
    let norm := Normalization.standard
    let image : Dense Single := .ofValues [2, 2, 2, 1] #[⟨0x80000000⟩, 1, 0, 1, 1, ⟨0x7fc00000⟩, 0, 1] rfl
    let filter : Dense Single := .ofValues [1, 2, 2, 1] #[1, 0, 1, 1] rfl
    let weights : Dense Single := .ofValues [4, 1] #[1, 0, 1, 1] rfl
    let bias : Dense Single := .ofValues [1] #[1] rfl
    let cells : Dense Single := .ofValues [2, 1] #[1, 1] rfl
    let scores : Dense Single := .ofValues [2, 2] #[⟨0x80000000⟩, 1, ⟨0x7fc00000⟩, 1] rfl
    let labels : Dense Int64 := .ofValues [2, 1] #[1, 0] rfl
    let left : Dense Single := .ofValues [2, 1, 2] #[⟨0x80000000⟩, 1, ⟨0x7fc00000⟩, 1] rfl
    let shared : Dense Single := .ofValues [2, 1] #[1, 1] rfl
    let own : Dense Single := .ofValues [2, 2, 1] #[1, 0, 0, 1] rfl
    let slice : Dense Single := .ofValues [1, 2] #[1, 0] rfl
    Samplewise 2 (convolution ⟨window, 1⟩ image.toShaped filter bias [2, 2, 2, 1])
        (fun n => convolution ⟨window, 1⟩ (image.sample n) filter bias [1, 2, 2, 1]) ∧
      Samplewise 2 (maxPool window image.toShaped [2, 2, 2, 1])
        (fun n => maxPool window (image.sample n) [1, 2, 2, 1]) ∧
      Samplewise 2 (fullyConnected image.toShaped weights bias)
        (fun n => fullyConnected (image.sample n) weights bias) ∧
      Samplewise 2 (softMax scores.toShaped) (fun n => softMax (scores.sample n)) ∧
      Samplewise 2 (normalization norm image.toShaped) (fun n => normalization norm (image.sample n)) ∧
      Samplewise 2 (batchedMatMul left.toShaped shared) (fun n => batchedMatMul (left.sample n) shared) ∧
      Samplewise 2 (batchedMatMul left.toShaped own)
        (fun n => batchedMatMul (left.sample n) (own.sample n)) ∧
      Samplewise 2 (batched .mul left.toShaped slice) (fun n => batched .mul (left.sample n) slice) ∧
      Samplewise 2 ((convolutionGrad ⟨window, 1⟩ image.toShaped filter image).map LayerGradients.input)
        (fun n => (convolutionGrad ⟨window, 1⟩ (image.sample n) filter (image.sample n)).map
          LayerGradients.input) ∧
      Samplewise 2 ((fullyConnectedGrad image.toShaped weights cells).map LayerGradients.input)
        (fun n => (fullyConnectedGrad (image.sample n) weights (cells.sample n)).map
          LayerGradients.input) ∧
      Samplewise 2 (maxPoolGrad window image.toShaped image)
        (fun n => maxPoolGrad window (image.sample n) (image.sample n)) ∧
      Samplewise 2 (normalizationGrad norm image.toShaped image)
        (fun n => normalizationGrad norm (image.sample n) (image.sample n)) ∧
      Samplewise 2 (softMaxGrad scores.toShaped labels.values.toList)
        (fun n => softMaxGrad (scores.sample n) (labels.sample n).values.toList) := by
  intro window norm image filter weights bias cells scores labels left shared own slice
  have houtputs : Window.outputs? ⟨2, 2, 1⟩ 2 = some 2 := by decide
  obtain ⟨hconv, hpool, hdense, hsoft, hnorm, hproduct, hbatched, hconvGrad, hdenseGrad, hpoolGrad,
    hnormGrad, hsoftGrad⟩ := batch_samplewise (α := Single) Storage.empty
  exact ⟨(hconv ⟨window, 1⟩ image filter bias _
      (resultTypes_of_typed (.conv ⟨window, 1⟩ 2 2 2 1 2 2 houtputs houtputs))).2,
    (hpool window image _ (resultTypes_of_typed (.maxPool window 2 2 2 1 2 2 houtputs houtputs))).2,
    hdense image weights bias _ (resultTypes_of_typed (.fullyConnected 2 2 1 [2, 1] .float)),
    hsoft scores [2, 1] _ (resultTypes_of_typed (.softMax 2 2)),
    hnorm norm image _ (resultTypes_of_typed (.normalization norm 2 2 2 1)),
    hproduct left shared _ (resultTypes_of_typed (.sharedMatMul 2 1 2 1)),
    hproduct left own _ (resultTypes_of_typed (.batchedMatMul 2 1 2 1)),
    hbatched .mul left slice _ (resultTypes_of_typed (.batched .mul 2 [1, 2])) (by decide),
    hconvGrad ⟨window, 1⟩ image filter image _
      (resultTypes_of_typed (.convGrad ⟨window, 1⟩ 2 2 2 1 2 2 houtputs houtputs)),
    hdenseGrad image weights cells _ (resultTypes_of_typed (.fullyConnectedGrad 2 2 1 [2, 1])),
    hpoolGrad window image image _
      (resultTypes_of_typed (.maxPoolGrad window 2 2 2 1 2 2 houtputs houtputs)),
    hnormGrad norm image image _ (resultTypes_of_typed (.normalizationGrad norm 2 2 2 1)),
    hsoftGrad scores labels _ (resultTypes_of_typed (.softMaxGrad 2 2))
      (List.forall_mem_cons.2 ⟨by decide, List.forall_mem_singleton.2 (by decide)⟩)⟩

end TensorCompiler.Kernel
