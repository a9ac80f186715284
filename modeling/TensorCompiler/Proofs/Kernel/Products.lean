import TensorCompiler.Kernel.Matrix
import TensorCompiler.Proofs.Kernel.Sums

/-!
The products of matrices. A list built row by row is addressed by rows (`getElem?_grid`), so an
element of a batched product is the sum over the inner axis (`batchedMatMul_ok`), and a dense layer
reads inside its operands (`denseCells_inside`).
-/

namespace TensorCompiler.Kernel

/-! ## Grids -/

theorem grid_lt {m n a b : Nat} (ha : a < m) (hb : b < n) : a * n + b < m * n := by
  rw [Nat.mul_comm a]
  exact Nat.mul_add_lt_mul_of_lt_of_lt ha hb

theorem length_grid {β : Type} {F : Nat → List β} {n : Nat} (hF : ∀ a, (F a).length = n) (m : Nat) :
    ((List.range m).flatMap F).length = m * n := by
  induction m with
  | zero => simp
  | succ m ih =>
    rw [List.range_succ, List.flatMap_append, List.length_append, ih, Nat.succ_mul,
      List.flatMap_singleton, hF]

/-- Row `a` of a list that is built row by row. -/
theorem getElem?_grid {β : Type} {F : Nat → List β} {m n a b : Nat} (hF : ∀ a, (F a).length = n)
    (ha : a < m) (hb : b < n) : ((List.range m).flatMap F)[a * n + b]? = (F a)[b]? := by
  induction m with
  | zero => omega
  | succ m ih =>
    rw [List.range_succ, List.flatMap_append, List.flatMap_singleton]
    rcases Nat.lt_succ_iff_lt_or_eq.1 ha with ha | rfl
    · rw [List.getElem?_append_left (by rw [length_grid hF]; exact grid_lt ha hb), ih ha]
    · rw [List.getElem?_append_right (by rw [length_grid hF]; omega), length_grid hF,
        Nat.add_sub_cancel_left]

/-- The row and the column of a position. -/
theorem div_mod_lt {m n i : Nat} (hi : i < m * n) : i / n < m ∧ i % n < n :=
  ⟨Nat.div_lt_of_lt_mul (by rwa [Nat.mul_comm]),
    Nat.mod_lt i (Nat.pos_of_mul_pos_left (Nat.zero_lt_of_lt hi))⟩

theorem getElem?_grid_of_lt {β : Type} {F : Nat → List β} {m n i : Nat}
    (hF : ∀ a, (F a).length = n) (hi : i < m * n) :
    ((List.range m).flatMap F)[i]? = (F (i / n))[i % n]? := by
  obtain ⟨ha, hb⟩ := div_mod_lt hi
  have hcell := getElem?_grid hF ha hb
  rwa [Nat.div_add_mod'] at hcell

theorem sum_grid {M : Type} [AddCommMonoid M] (m n : Nat) (f : Nat → M) :
    ∑ i ∈ Finset.range (m * n), f i =
      ∑ a ∈ Finset.range m, ∑ b ∈ Finset.range n, f (a * n + b) := by
  induction m with
  | zero => simp
  | succ m ih => rw [Nat.succ_mul, Finset.sum_range_add, ih, Finset.sum_range_succ]

/-! ## Dense layers -/

theorem length_denseCells (batch rows depth : Nat) :
    (denseCells batch rows depth).length = batch * depth :=
  length_grid (fun _ => by simp) _

theorem denseCells_inside (batch rows depth : Nat) :
    (denseCells batch rows depth).inside (batch * rows) (rows * depth) depth = true := by
  rw [Contraction.inside_iff]
  intro cell hcell
  simp only [denseCells, List.mem_flatMap, List.mem_map, List.mem_range] at hcell
  obtain ⟨n, hn, d, hd, rfl⟩ := hcell
  refine ⟨hd, fun t ht => ?_⟩
  obtain ⟨k, hk, rfl⟩ := List.mem_map.1 ht
  exact ⟨grid_lt hn (List.mem_range.1 hk), grid_lt (List.mem_range.1 hk) hd⟩

/-- The tangent of a dense layer. -/
def denseTangent {α : Type} [CommRing α] (x w : Shaped α) (dx dw db : Nat → α) : Nat → α :=
  match x.shape, w.shape with
  | batch :: _, rows :: depth :: _ =>
    (denseCells batch rows depth).tangent x.entry w.entry dx dw db
  | _, _ => fun _ => 0

theorem denseTangent_zero {α : Type} [CommRing α] (x w : Shaped α) : denseTangent x w 0 0 0 = 0 := by
  unfold denseTangent
  split
  · exact Contraction.tangent_zero ..
  · rfl

/-- A dense layer, over its cells. -/
theorem fullyConnected_eq {α : Type} [Zero α] [Add α] [Mul α] {x w b : Dense α} {n depth : Nat}
    {ds : Shape} (hx : x.shape = n :: ds) (hw : w.shape = [ds.volume, depth])
    (hb : b.shape = [depth]) : fullyConnected x w b =
      .ok ((denseCells n ds.volume depth).apply x.values w.values b.values) := by
  have hbsize : b.values.size = depth := by simp [b.size_eq, hb, Shape.volume]
  have hinside : Contraction.inside (denseCells n ds.volume depth) x.values.size w.values.size
      b.values.size = true := by
    rw [x.size_eq, w.size_eq, hbsize, hx, hw]
    simpa [Shape.volume] using denseCells_inside n ds.volume depth
  simp only [fullyConnected, hx, hw, hinside, guarded, if_true]

/-- The gradients of a dense layer, over the cells of the layer. -/
theorem fullyConnectedGrad_eq {α : Type} [Zero α] [Add α] [Mul α] {x w g : Dense α} {n depth : Nat}
    {ds : Shape} (hx : x.shape = n :: ds) (hw : w.shape = [ds.volume, depth])
    (hg : g.shape = [n, depth]) : ∃ cells, denseCells n ds.volume depth = cells ∧
      cells.inside x.values.size w.values.size depth = true ∧ g.shape.volume = cells.length ∧
      fullyConnectedGrad x w g = .ok ⟨cells.leftGradient x.values.size w.values g.values,
        cells.rightGradient w.values.size x.values g.values, cells.biasGradient depth g.values⟩ := by
  have hinside : Contraction.inside (denseCells n ds.volume depth) x.values.size w.values.size
      depth = true := by
    rw [x.size_eq, w.size_eq, hx, hw]
    simpa [Shape.volume] using denseCells_inside n ds.volume depth
  have hgsize : n * depth ≤ g.values.size := by
    rw [g.size_eq, hg]
    simp [Shape.volume]
  refine ⟨_, rfl, hinside, ?_, ?_⟩
  · rw [hg, length_denseCells]
    simp [Shape.volume]
  · simp only [fullyConnectedGrad, hx, hw, hinside, hgsize, guarded, decide_true, Bool.and_self,
      if_true]

theorem fullyConnectedGrad_ok {α : Type} [CommRing α] {x w g : Dense α} {n depth : Nat}
    {ds : Shape} (hx : x.shape = n :: ds) (hw : w.shape = [ds.volume, depth])
    (hg : g.shape = [n, depth]) :
    ∃ l, fullyConnectedGrad x w g = .ok l ∧ l.AdjointTo x w g depth (denseTangent x w) := by
  obtain ⟨cells, rfl, hinside, hlen, hgrad⟩ := fullyConnectedGrad_eq hx hw hg
  have htangent : denseTangent x w = fun dx dw db =>
      (denseCells n ds.volume depth).tangent x.entry w.entry dx dw db := by
    funext dx dw db
    simp only [denseTangent, hx, hw]
  exact ⟨_, hgrad, htangent ▸ Contraction.adjointTo hinside hlen⟩

/-! ## Batched products -/

theorem length_productTaps (batch rows inner cols step : Nat) :
    (productTaps batch rows inner cols step).length = batch * (rows * cols) := by
  unfold productTaps
  exact length_grid (fun _ => length_grid (fun _ => by simp) _) _

theorem getElem?_productTaps {batch rows inner cols step n i j : Nat} (hn : n < batch)
    (hi : i < rows) (hj : j < cols) :
    (productTaps batch rows inner cols step)[n * (rows * cols) + (i * cols + j)]? =
      some ((List.range inner).map fun k =>
        (n * rows * inner + i * inner + k, n * step + k * cols + j)) := by
  unfold productTaps
  rw [getElem?_grid (fun _ => length_grid (fun _ => by simp) _) hn (grid_lt hi hj),
    getElem?_grid (fun _ => by simp) hi hj]
  simp [hj]

theorem mem_productTaps {batch rows inner cols step : Nat} {taps : List Tap}
    (h : taps ∈ productTaps batch rows inner cols step) {t : Tap} (ht : t ∈ taps) :
    ∃ n i j k, n < batch ∧ i < rows ∧ j < cols ∧ k < inner ∧
      t = (n * rows * inner + i * inner + k, n * step + k * cols + j) := by
  simp only [productTaps, List.mem_flatMap, List.mem_map, List.mem_range] at h
  obtain ⟨n, hn, i, hi, j, hj, rfl⟩ := h
  obtain ⟨k, hk, rfl⟩ := List.mem_map.1 ht
  exact ⟨n, i, j, k, hn, hi, hj, List.mem_range.1 hk, rfl⟩

/-- The shapes of a batched product: the right operand has one matrix for all samples, or a matrix
for each, `step` apart. -/
def ProductShapes (batch rows inner cols step : Nat) (left right : Shape) : Prop :=
  left = [batch, rows, inner] ∧
    (right = [inner, cols] ∧ step = 0 ∨ right = [batch, inner, cols] ∧ step = inner * cols)

/-- A batched product reads inside its operands. -/
theorem batchedMatMul_eq {α : Type} [Zero α] [Add α] [Mul α] {batch rows inner cols step : Nat}
    {x y : Dense α} (h : ProductShapes batch rows inner cols step x.shape y.shape) :
    batchedMatMul x y =
      .ok ((productTaps batch rows inner cols step).map (dot x.values y.values 0)).toArray := by
  obtain ⟨hx, hy⟩ := h
  have hxsize : x.values.size = batch * (rows * inner) := by
    rw [x.size_eq, hx]
    simp [Shape.volume]
  have hysize {n : Nat} (hn : n < batch) {b : Nat} (hb : b < inner * cols) :
      n * step + b < y.values.size := by
    rw [y.size_eq]
    rcases hy with ⟨hy, rfl⟩ | ⟨hy, rfl⟩
    · simpa [hy, Shape.volume] using hb
    · simpa [hy, Shape.volume] using grid_lt hn hb
  have hinside : (productTaps batch rows inner cols step).all
      (inside x.values.size y.values.size) = true := by
    simp only [List.all_eq_true, inside, Bool.and_eq_true, decide_eq_true_eq]
    intro taps htaps t ht
    obtain ⟨n, i, j, k, hn, hi, hj, hk, rfl⟩ := mem_productTaps htaps ht
    constructor
    · rw [hxsize, Nat.mul_assoc, Nat.add_assoc]
      exact grid_lt hn (grid_lt hi hk)
    · show n * step + k * cols + j < y.values.size
      rw [Nat.add_assoc]
      exact hysize hn (grid_lt hk hj)
  unfold batchedMatMul
  rcases hy with ⟨hy, rfl⟩ | ⟨hy, rfl⟩ <;> simp [hx, hy, hinside, guarded]

section

variable {α : Type} [CommRing α]

theorem batchedMatMul_ok {batch rows inner cols step : Nat} {x y : Dense α}
    (h : ProductShapes batch rows inner cols step x.shape y.shape) :
    ∃ z, batchedMatMul x y = .ok z ∧ z.size = batch * (rows * cols) ∧
      ∀ {n i j : Nat}, n < batch → i < rows → j < cols →
        z.getD (n * (rows * cols) + (i * cols + j)) 0 = ∑ k ∈ Finset.range inner,
          x.values.getD (n * (rows * inner) + (i * inner + k)) 0 *
            y.values.getD (n * step + (k * cols + j)) 0 := by
  refine ⟨_, batchedMatMul_eq h, by simp [length_productTaps], fun {n i j} hn hi hj => ?_⟩
  rw [Array.getD_eq_getD_getElem?, List.getElem?_toArray, List.getElem?_map,
    getElem?_productTaps hn hi hj, Option.map_some, Option.getD_some, dot_eq, zero_add,
    List.map_map, sum_map_range]
  simp only [Function.comp_apply, Nat.mul_assoc, Nat.add_assoc]

/-- The inner product of an array of rank 3, axis by axis. -/
theorem pair_grid {z : Dense α} {a b c : Nat} (hz : z.shape = [a, b, c]) (tangent : Nat → α) :
    z.pair tangent = ∑ n ∈ Finset.range a, ∑ i ∈ Finset.range b, ∑ j ∈ Finset.range c,
      z.entry (n * (b * c) + (i * c + j)) * tangent (n * (b * c) + (i * c + j)) := by
  have hvolume : z.shape.volume = a * (b * c) := by simp [hz, Shape.volume]
  rw [Shaped.pair, hvolume, sum_grid]
  exact Finset.sum_congr rfl fun n _ => sum_grid ..

/-- The tangent of a batched product. -/
def productTangent (x y : Shaped α) (dx dy : Nat → α) (i : Nat) : α :=
  let tangent (taps : List (List Tap)) : α :=
    (taps[i]?.map (tapsTangent x.entry y.entry dx dy)).getD 0
  match x.shape, y.shape with
  | [batch, rows, inner], [_, cols] => tangent (productTaps batch rows inner cols 0)
  | [batch, rows, inner], [_, _, cols] => tangent (productTaps batch rows inner cols (inner * cols))
  | _, _ => 0

theorem productTangent_zero (x y : Shaped α) : productTangent x y 0 0 = 0 := by
  funext i
  unfold productTangent
  split
  · exact getD_tapsTangent_zero ..
  · exact getD_tapsTangent_zero ..
  · rfl

theorem productTangent_eq {batch rows inner cols step : Nat} {x y : Dense α}
    (h : ProductShapes batch rows inner cols step x.shape y.shape) (dx dy : Nat → α) {n i j : Nat}
    (hn : n < batch) (hi : i < rows) (hj : j < cols) :
    productTangent x y dx dy (n * (rows * cols) + (i * cols + j)) = ∑ k ∈ Finset.range inner,
      (dx (n * (rows * inner) + (i * inner + k)) * y.entry (n * step + (k * cols + j)) +
        x.entry (n * (rows * inner) + (i * inner + k)) * dy (n * step + (k * cols + j))) := by
  have htaps : productTangent x y dx dy (n * (rows * cols) + (i * cols + j)) =
      ((productTaps batch rows inner cols step)[n * (rows * cols) + (i * cols + j)]?.map
        (tapsTangent x.entry y.entry dx dy)).getD 0 := by
    obtain ⟨hx, ⟨hy, rfl⟩ | ⟨hy, rfl⟩⟩ := h <;> simp only [productTangent, hx, hy]
  rw [htaps, getElem?_productTaps hn hi hj, Option.map_some, Option.getD_some, tapsTangent,
    List.map_map, sum_map_range]
  simp only [Function.comp_apply, Nat.mul_assoc, Nat.add_assoc]

/-- The product rule for a matrix product, sorted by the operand that varies. -/
theorem sum_product_rule (rows inner cols : Nat) (g x y dx dy : Nat → Nat → α) :
    ∑ i ∈ Finset.range rows, ∑ j ∈ Finset.range cols, g i j *
        ∑ k ∈ Finset.range inner, (dx i k * y k j + x i k * dy k j) =
      ∑ i ∈ Finset.range rows, ∑ k ∈ Finset.range inner,
          (∑ j ∈ Finset.range cols, g i j * y k j) * dx i k +
        ∑ k ∈ Finset.range inner, ∑ j ∈ Finset.range cols,
          (∑ i ∈ Finset.range rows, x i k * g i j) * dy k j := by
  have hleft : ∑ i ∈ Finset.range rows, ∑ j ∈ Finset.range cols, ∑ k ∈ Finset.range inner,
        g i j * (dx i k * y k j) =
      ∑ i ∈ Finset.range rows, ∑ k ∈ Finset.range inner,
        (∑ j ∈ Finset.range cols, g i j * y k j) * dx i k := by
    refine Finset.sum_congr rfl fun i _ => ?_
    rw [Finset.sum_comm]
    refine Finset.sum_congr rfl fun k _ => ?_
    rw [Finset.sum_mul]
    exact Finset.sum_congr rfl fun j _ => by ring
  have hright : ∑ i ∈ Finset.range rows, ∑ j ∈ Finset.range cols, ∑ k ∈ Finset.range inner,
        g i j * (x i k * dy k j) =
      ∑ k ∈ Finset.range inner, ∑ j ∈ Finset.range cols,
        (∑ i ∈ Finset.range rows, x i k * g i j) * dy k j := by
    calc _ = ∑ i ∈ Finset.range rows, ∑ k ∈ Finset.range inner, ∑ j ∈ Finset.range cols,
          x i k * g i j * dy k j := by
            refine Finset.sum_congr rfl fun i _ => ?_
            rw [Finset.sum_comm]
            exact Finset.sum_congr rfl fun k _ => Finset.sum_congr rfl fun j _ => by ring
      _ = ∑ k ∈ Finset.range inner, ∑ i ∈ Finset.range rows, ∑ j ∈ Finset.range cols,
          x i k * g i j * dy k j := Finset.sum_comm
      _ = _ := by
            refine Finset.sum_congr rfl fun k _ => ?_
            rw [Finset.sum_comm]
            exact Finset.sum_congr rfl fun j _ => (Finset.sum_mul ..).symm
  rw [← hleft, ← hright]
  simp only [Finset.mul_sum, mul_add, Finset.sum_add_distrib]

/-- A gradient against the tangent of a batched product, sorted by the operand that varies. -/
theorem pair_productTangent {batch rows inner cols step : Nat} {x y g : Dense α}
    (h : ProductShapes batch rows inner cols step x.shape y.shape)
    (hg : g.shape = [batch, rows, cols]) (dx dy : Nat → α) :
    g.pair (productTangent x y dx dy) =
      ∑ n ∈ Finset.range batch, ∑ i ∈ Finset.range rows, ∑ k ∈ Finset.range inner,
          (∑ j ∈ Finset.range cols, g.entry (n * (rows * cols) + (i * cols + j)) *
            y.entry (n * step + (k * cols + j))) * dx (n * (rows * inner) + (i * inner + k)) +
        ∑ n ∈ Finset.range batch, ∑ k ∈ Finset.range inner, ∑ j ∈ Finset.range cols,
          (∑ i ∈ Finset.range rows, x.entry (n * (rows * inner) + (i * inner + k)) *
            g.entry (n * (rows * cols) + (i * cols + j))) * dy (n * step + (k * cols + j)) := by
  rw [pair_grid hg, ← Finset.sum_add_distrib]
  refine Finset.sum_congr rfl fun n hn => ?_
  rw [← sum_product_rule]
  refine Finset.sum_congr rfl fun i hi => Finset.sum_congr rfl fun j hj => ?_
  rw [productTangent_eq h dx dy (Finset.mem_range.1 hn) (Finset.mem_range.1 hi)
    (Finset.mem_range.1 hj)]

end

end TensorCompiler.Kernel
