import TensorCompiler.Graph.Typing
import TensorCompiler.Proofs.Graph.Typing
import TensorCompiler.Proofs.Kernel.Products
import TensorCompiler.Proofs.Kernel.Windows
import Mathlib.Algebra.Field.Rat
import Mathlib.Algebra.Order.Ring.Rat

/-!
The gradient kernels are adjoint to the forward kernels, stated on the kernels alone. A layer is
linear in its input, in its filter and in its bias; the sum of the three changes of its output is the
tangent of the layer (`Contraction.tangent_eq_apply`), to which the gradients are adjoint. The bias
under an output is found by its position along the last axis (`bias_of_convolutionCells`,
`bias_of_denseCells`).
-/

namespace TensorCompiler.Kernel

section

variable {α : Type} [CommRing α]

/-! ## Layers -/

theorem getD_replicate_zero (n i : Nat) : (Array.replicate n (0 : α)).getD i 0 = 0 := by
  rw [Array.getD_eq_getD_getElem?, Array.getElem?_replicate]
  split <;> rfl

theorem Contraction.getD_apply (cells : Contraction) (x y bias : Array α) (i : Nat) :
    (cells.apply x y bias).getD i 0 = ((cells[i]?).map fun cell => bias.getD cell.bias 0 +
      (cell.taps.map fun t => x.getD t.1 0 * y.getD t.2 0).sum).getD 0 := by
  rw [apply, Array.getD_eq_getD_getElem?, List.getElem?_toArray, List.getElem?_map]
  simp only [dot_eq]

/-- The tangent of a contraction: a change of the left operand and one of the right, each contracted
with the other operand and no bias, and the change of the bias. -/
theorem Contraction.tangent_eq_apply (cells : Contraction) {x y dx dy zero : Array α}
    (hzero : ∀ k, zero.getD k 0 = 0) (db : Nat → α) (i : Nat) :
    cells.tangent (x.getD · 0) (y.getD · 0) (dx.getD · 0) (dy.getD · 0) db i =
      (cells.apply dx y zero).getD i 0 + (cells.apply x dy zero).getD i 0 +
        ((cells[i]?).map fun cell => db cell.bias).getD 0 := by
  rw [getD_apply, getD_apply, tangent]
  cases cells[i]? with
  | none => simp
  | some cell =>
    simp only [Option.map_some, Option.getD_some, hzero, zero_add, tapsTangent, List.sum_map_add]
    ring

/-- A bias under every output of a layer, whose last axis it runs along. -/
def broadcast (bias : Dense α) (i : Nat) : α := bias.entry (i % bias.shape.volume)

/-- The output gradient `g` comes against the change of a layer's output, for the changes `dx`, `df`
and `db` of its operands, to what the gradients come to against these changes. `forward` is the layer
without its bias. -/
def GradientsAdjoint (forward : Dense α → Dense α → Except KernelFault (Array α))
    (backward : Except KernelFault (LayerGradients α)) (x f g dx df db : Dense α) : Prop :=
  ∃ y z l, forward dx f = .ok y ∧ forward x df = .ok z ∧ backward = .ok l ∧
    y.size = g.values.size ∧ z.size = g.values.size ∧ l.input.size = x.values.size ∧
    l.filter.size = f.values.size ∧ l.bias.size = db.values.size ∧
    g.pair (fun i => y.getD i 0 + z.getD i 0 + broadcast db i) =
      dx.pair (l.input.getD · 0) + df.pair (l.filter.getD · 0) + db.pair (l.bias.getD · 0)

/-- Layers that are contractions, whose outputs take their bias by the last axis. -/
theorem gradientsAdjoint_of_cells {cells : Contraction} {x f g dx df db : Dense α}
    {forward : Dense α → Dense α → Except KernelFault (Array α)}
    {backward : Except KernelFault (LayerGradients α)} {depth : Nat}
    (hdx : dx.shape = x.shape) (hdf : df.shape = f.shape) (hdb : db.shape = [depth])
    (hinside : cells.inside x.values.size f.values.size depth = true)
    (hlen : g.shape.volume = cells.length)
    (hbias : ∀ i < g.shape.volume, (cells[i]?).map Cell.bias = some (i % depth))
    (hforward : ∀ u v : Dense α, u.shape = x.shape → v.shape = f.shape →
      forward u v = guarded (cells.inside u.values.size v.values.size db.shape.volume)
        (cells.apply u.values v.values (Array.replicate db.shape.volume 0)))
    (hbackward : backward = .ok ⟨cells.leftGradient x.values.size f.values g.values,
      cells.rightGradient f.values.size x.values g.values, cells.biasGradient depth g.values⟩) :
    GradientsAdjoint forward backward x f g dx df db := by
  have hvolume : db.shape.volume = depth := by simp [hdb, Shape.volume]
  have happly (u v : Dense α) (hu : u.shape = x.shape) (hv : v.shape = f.shape) :
      forward u v = .ok (cells.apply u.values v.values (Array.replicate depth 0)) := by
    rw [hforward u v hu hv, hvolume, u.size_eq, v.size_eq, hu, hv, ← x.size_eq, ← f.size_eq,
      guarded, if_pos hinside]
  have hsize (a b c : Array α) : (cells.apply a b c).size = g.values.size := by
    rw [Contraction.size_apply, g.size_eq, hlen]
  have hadjoint := Contraction.adjointTo hinside hlen
  refine ⟨_, _, _, happly dx f hdx rfl, happly x df rfl hdf, hbackward, hsize .., hsize ..,
    hadjoint.input.trans x.size_eq.symm, hadjoint.filter.trans f.size_eq.symm,
    hadjoint.bias.trans (hvolume.symm.trans db.size_eq.symm), ?_⟩
  have hpair : g.pair (fun i => (cells.apply dx.values f.values (Array.replicate depth 0)).getD i 0 +
      (cells.apply x.values df.values (Array.replicate depth 0)).getD i 0 + broadcast db i) =
      g.pair (cells.tangent x.entry f.entry dx.entry df.entry db.entry) := by
    refine Finset.sum_congr rfl fun i hi => ?_
    have hi := Finset.mem_range.1 hi
    have hcell := hbias i hi
    rw [hlen] at hi
    rw [List.getElem?_eq_getElem hi, Option.map_some, Option.some.injEq] at hcell
    rw [cells.tangent_eq_apply (getD_replicate_zero depth), List.getElem?_eq_getElem hi,
      Option.map_some, Option.getD_some, hcell]
    simp only [broadcast, hvolume]
  rw [hpair, hadjoint.adjoint]
  simp only [Shaped.pair, hdx, hdf, hvolume, mul_comm]

/-! ## Convolution -/

theorem mapM_getElem? {β γ : Type} {f : β → Option γ} {l : List β} {cs : List γ}
    (h : l.mapM f = some cs) {i : Nat} {b : β} (hb : l[i]? = some b) : cs[i]? = f b := by
  induction l generalizing cs i with
  | nil => cases hb
  | cons a l ih =>
    rw [List.mapM_cons, Option.bind_eq_bind, Option.bind_eq_some_iff] at h
    obtain ⟨c, hc, h⟩ := h
    obtain ⟨cs', hcs', h⟩ := Option.bind_eq_some_iff.1 h
    obtain rfl := Option.some.inj h
    cases i with
    | zero => rw [← Option.some.inj hb, hc]; rfl
    | succ i => exact ih hcs' hb

/-- An output of a convolution starts at the bias of its filter, its position along the last axis. -/
theorem bias_of_convolutionCells {p : Convolution} {n h w c m oh ow depth : Nat} {filter : Shape}
    {cells : Contraction}
    (hcells : convolutionCells 0 0 p [n, h, w, c] filter [m, oh, ow, depth] = some cells) {i : Nat}
    (hi : i < Shape.volume [m, oh, ow, depth]) : (cells[i]?).map Cell.bias = some (i % depth) := by
  rw [mapM_getElem? hcells (List.getElem?_range hi)]
  simp only [convolutionCell_eq, Shape.unravel, Shape.volume, Nat.div_one, Option.map_some]

theorem convolution_gradientsAdjoint {p : Convolution} {x f g dx df db : Dense α}
    {n h w c oh ow : Nat} (hx : x.shape = [n, h, w, c])
    (hf : f.shape = [p.depth, p.kernel, p.kernel, c]) (hg : g.shape = [n, oh, ow, p.depth])
    (hdx : dx.shape = x.shape) (hdf : df.shape = f.shape) (hdb : db.shape = [p.depth]) :
    GradientsAdjoint (fun u v => convolution p u v (Dense.replicate db.shape (0 : α)) g.shape)
      (convolutionGrad p x f g) x f g dx df db := by
  obtain ⟨cells, hcells, hinside, hlen, hgrad⟩ := convolutionGrad_eq hx hf hg
  refine gradientsAdjoint_of_cells hdx hdf hdb hinside hlen (fun i hi => ?_) (fun u v hu hv => ?_)
    hgrad
  · rw [hx, hg] at hcells
    exact bias_of_convolutionCells hcells (hg ▸ hi)
  · have hexact := convolutionCells_filled oh ow (hu.trans hx) (hv.trans hf)
    rw [hu, hv, ← hg] at hexact
    simp only [convolution, hu, hv, hexact, hcells, Dense.replicate,
      Dense.values_ofValues, Array.size_replicate]

/-! ## Dense layers -/

/-- Output `(n, d)` of a dense layer starts at bias `d`. -/
theorem bias_of_denseCells {batch rows depth i : Nat} (hi : i < batch * depth) :
    ((denseCells batch rows depth)[i]?).map Cell.bias = some (i % depth) := by
  rw [denseCells, getElem?_grid_of_lt (fun _ => by simp) hi, List.getElem?_map,
    List.getElem?_range (div_mod_lt hi).2]
  rfl

theorem fullyConnected_gradientsAdjoint {x f g dx df db : Dense α} {n depth : Nat} {ds : Shape}
    (hx : x.shape = n :: ds) (hf : f.shape = [ds.volume, depth]) (hg : g.shape = [n, depth])
    (hdx : dx.shape = x.shape) (hdf : df.shape = f.shape) (hdb : db.shape = [depth]) :
    GradientsAdjoint (fun u v => fullyConnected u v (Dense.replicate db.shape (0 : α)))
      (fullyConnectedGrad x f g) x f g dx df db := by
  obtain ⟨cells, rfl, hinside, hlen, hgrad⟩ := fullyConnectedGrad_eq hx hf hg
  refine gradientsAdjoint_of_cells hdx hdf hdb hinside hlen (fun i hi => ?_) (fun u v hu hv => ?_)
    hgrad
  · exact bias_of_denseCells (by rwa [hlen, length_denseCells] at hi)
  · simp only [fullyConnected, hu, hv, hx, hf, Dense.replicate,
      Dense.values_ofValues, Array.size_replicate]

/-! ## Pooling -/

/-- Reading a change of the input at the elements that the windows chose is adjoint to sending the
output gradient back. -/
theorem pooling_adjoint [LT α] [DecidableLT α] {w : Window} {x g dx : Dense α}
    {n height width c oh ow : Nat} (hx : x.shape = [n, height, width, c])
    (hg : g.shape = [n, oh, ow, c]) (hdx : dx.shape = x.shape) :
    ∃ chosen z, poolWindows w x.toShaped g.shape = .ok chosen ∧ chosen.length = g.values.size ∧
      maxPoolGrad w x g = .ok z ∧ z.size = x.values.size ∧
      g.pair (chosenTangent chosen dx.entry) = dx.pair (z.getD · 0) := by
  obtain ⟨chosen, hchosen, hlen, -⟩ := poolWindows_ok w oh ow hx
  obtain ⟨z, hz, hsize, hpair⟩ := maxPoolGrad_ok (p := w) hx hg
  rw [← hg] at hchosen hlen
  refine ⟨chosen, z, hchosen, hlen.trans g.size_eq.symm, hz, hsize.trans x.size_eq.symm, ?_⟩
  have htangent : poolTangent w x g.shape dx.entry = chosenTangent chosen dx.entry := by
    simp only [poolTangent, hchosen]
  rw [← htangent, hpair, Shaped.pair, hdx]
  exact Finset.sum_congr rfl fun i _ => mul_comm _ _

end

/-! ## The kernels -/

/-- The gradient kernels are the exact adjoints of the forward kernels, over the rationals and for all
shapes that the typing rules take: `GradientsAdjoint` for convolutions and dense layers; and for
pooling, reading a change of the input at the elements that the windows chose, and 0 for a window
without taps, is adjoint to sending the output gradient back. -/
theorem gradients_adjoint (s : Storage) :
    (∀ (p : Convolution) (x f g dx df db : Dense ℚ), dx.shape = x.shape → df.shape = f.shape →
      Typing.resultTypes s (.conv p) [.float x.shape, .float f.shape, .float db.shape] =
        .ok [.float g.shape] →
      GradientsAdjoint (fun u v => convolution p u v (Dense.replicate db.shape (0 : ℚ)) g.shape)
        (convolutionGrad p x f g) x f g dx df db) ∧
    (∀ x f g dx df db : Dense ℚ, dx.shape = x.shape → df.shape = f.shape →
      Typing.resultTypes s .fullyConnected [.float x.shape, .float f.shape, .float db.shape] =
        .ok [.float g.shape] →
      GradientsAdjoint (fun u v => fullyConnected u v (Dense.replicate db.shape (0 : ℚ)))
        (fullyConnectedGrad x f g) x f g dx df db) ∧
    (∀ (w : Window) (x g dx : Dense ℚ), dx.shape = x.shape →
      Typing.resultTypes s (.maxPool w) [.float x.shape] = .ok [.float g.shape] →
      ∃ chosen z, poolWindows w x.toShaped g.shape = .ok chosen ∧ chosen.length = g.values.size ∧
        maxPoolGrad w x g = .ok z ∧ z.size = x.values.size ∧
        g.pair (chosenTangent chosen dx.entry) = dx.pair (z.getD · 0)) := by
  refine ⟨fun p x f g dx df db hdx hdf h => ?_, fun x f g dx df db hdx hdf h => ?_,
    fun w x g dx hdx h => ?_⟩
  · generalize htypes : [TensorType.float x.shape, .float f.shape, .float db.shape] = types at h
    generalize hresults : [TensorType.float g.shape] = results at h
    cases Typing.typed_of_resultTypes h
    simp only [TensorType.float, List.cons.injEq, TensorType.mk.injEq, true_and, and_true]
      at htypes hresults
    obtain ⟨hx, hf, hdb⟩ := htypes
    exact convolution_gradientsAdjoint hx hf hresults hdx hdf hdb
  · generalize htypes : [TensorType.float x.shape, .float f.shape, .float db.shape] = types at h
    generalize hresults : [TensorType.float g.shape] = results at h
    cases Typing.typed_of_resultTypes h
    simp only [TensorType.float, List.cons.injEq, TensorType.mk.injEq, true_and, and_true]
      at htypes hresults
    obtain ⟨hx, hf, -, hdb⟩ := htypes
    exact fullyConnected_gradientsAdjoint hx hf hresults hdx hdf hdb
  · generalize htypes : [TensorType.float x.shape] = types at h
    generalize hresults : [TensorType.float g.shape] = results at h
    cases Typing.typed_of_resultTypes h
    simp only [TensorType.float, List.cons.injEq, TensorType.mk.injEq, true_and, and_true]
      at htypes hresults
    exact pooling_adjoint htypes hresults hdx

/-- A convolution with windows that reach over every edge, a dense layer, and a pooling with windows
of which some lie in the padding as a whole. -/
theorem gradients_adjoint_padded :
    let conv : Convolution := ⟨⟨2, 2, 1⟩, 1⟩
    let image : Dense ℚ := .ofValues [1, 3, 3, 1] #[1, 2, 3, 4, 5, 6, 7, 8, 9] rfl
    let filter : Dense ℚ := .ofValues [1, 2, 2, 1] #[1, -1, 2, 1 / 2] rfl
    let grad : Dense ℚ := .ofValues [1, 2, 2, 1] #[1, 0, -3, 1 / 3] rfl
    let bias : Dense ℚ := .ofValues [1] #[7] rfl
    let row : Dense ℚ := .ofValues [1, 2] #[3, -2] rfl
    let weights : Dense ℚ := .ofValues [2, 1] #[5, 1 / 7] rfl
    let cell : Dense ℚ := .ofValues [1, 1] #[4] rfl
    let pixel : Dense ℚ := .ofValues [1, 1, 1, 1] #[4] rfl
    let pooled : Dense ℚ := .ofValues [1, 3, 3, 1] #[1, 2, 3, 4, 5, 6, 7, 8, 9] rfl
    GradientsAdjoint (fun u v => convolution conv u v (Dense.replicate bias.shape (0 : ℚ)) grad.shape)
        (convolutionGrad conv image filter grad) image filter grad image filter bias ∧
      GradientsAdjoint (fun u v => fullyConnected u v (Dense.replicate bias.shape (0 : ℚ)))
        (fullyConnectedGrad row weights cell) row weights cell row weights bias ∧
      ∃ chosen z, poolWindows ⟨1, 1, 1⟩ pixel.toShaped pooled.shape = .ok chosen ∧
        chosen.length = pooled.values.size ∧ maxPoolGrad ⟨1, 1, 1⟩ pixel pooled = .ok z ∧
        z.size = pixel.values.size ∧
        pooled.pair (chosenTangent chosen pixel.entry) = pixel.pair (z.getD · 0) := by
  intro conv image filter grad bias row weights cell pixel pooled
  have hfit : Window.outputs? ⟨2, 2, 1⟩ 3 = some 2 := rfl
  obtain ⟨hconv, hdense, hpool⟩ := gradients_adjoint Storage.empty
  exact ⟨hconv conv image filter grad image filter bias rfl rfl
      (Typing.resultTypes_of_typed (.conv conv 1 3 3 1 2 2 hfit hfit)),
    hdense row weights cell row weights bias rfl rfl
      (Typing.resultTypes_of_typed (.fullyConnected 1 2 1 [] .float)),
    hpool ⟨1, 1, 1⟩ pixel pooled pixel rfl
      (Typing.resultTypes_of_typed (.maxPool ⟨1, 1, 1⟩ 1 1 1 1 3 3 rfl rfl))⟩

end TensorCompiler.Kernel
