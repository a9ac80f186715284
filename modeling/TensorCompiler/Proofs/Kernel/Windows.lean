import TensorCompiler.Kernel.Spatial
import TensorCompiler.Proofs.Kernel.Sums
import TensorCompiler.Proofs.Lists

/-!
Sliding windows read inside their operands: every output of a convolution or a pooling over shapes
that the typing rules accept has its taps in the image (`convolutionCells_ok`, `poolTaps_ok`). Kernels,
which find the taps modulo the sizes of the payloads, find the exact ones (`convolutionCells_exact`,
`poolTaps_exact`).
-/

namespace TensorCompiler.Kernel

theorem mapM_some {β γ : Type} {l : List β} {f : β → Option γ} {P : γ → Prop}
    (h : ∀ b ∈ l, ∃ c, f b = some c ∧ P c) :
    ∃ cs, l.mapM f = some cs ∧ cs.length = l.length ∧ ∀ c ∈ cs, P c := by
  induction l with
  | nil => exact ⟨[], rfl, rfl, by simp⟩
  | cons b l ih =>
    obtain ⟨c, hc, hP⟩ := h b List.mem_cons_self
    obtain ⟨cs, hcs, hlen, hall⟩ := ih fun b hb => h b (List.mem_cons_of_mem _ hb)
    refine ⟨c :: cs, by simp [List.mapM_cons, hc, hcs], by simp [hlen], fun d hd => ?_⟩
    rcases List.mem_cons.1 hd with rfl | hd
    · exact hP
    · exact hall d hd

/-- The last coordinate is added to the offset of the others. -/
theorem offset_pixel {n h w c i y x ch : Nat} (hi : i < n) (hy : y < h) (hx : x < w) (hc : ch < c) :
    Shape.offset [n, h, w, c] [i, y, x] + ch < Shape.volume [n, h, w, c] := by
  have hcontains : Shape.Contains [n, h, w, c] [i, y, x, ch] := ⟨hi, hy, hx, hc, trivial⟩
  have hlt := Shape.offset_lt hcontains
  simp only [Shape.offset, Shape.volume] at hlt ⊢
  omega

theorem unravel_four {a b c d i : Nat} (hi : i < Shape.volume [a, b, c, d]) :
    ∃ n y x k, Shape.unravel [a, b, c, d] i = [n, y, x, k] ∧ n < a ∧ y < b ∧ x < c ∧ k < d := by
  have hcontains := Shape.contains_unravel hi
  exact ⟨_, _, _, _, rfl, hcontains.1, hcontains.2.1, hcontains.2.2.1, hcontains.2.2.2.1⟩

theorem mem_windowTaps {w : Window} {height width oy ox ky kx iy ix : Nat}
    (h : (ky, kx, iy, ix) ∈ windowTaps w height width oy ox) :
    ky < w.kernel ∧ kx < w.kernel ∧ iy < height ∧ ix < width := by
  simp only [windowTaps, List.mem_flatMap, List.mem_map, Prod.mk.injEq, Prod.exists] at h
  obtain ⟨_, _, hy, _, _, hx, rfl, rfl, rfl, rfl⟩ := h
  rw [Window.mem_positions] at hy hx
  exact ⟨hy.1, hx.1, hy.2.1, hx.2.1⟩

/-- A convolution reads inside its operands. -/
theorem convolutionCells_ok (p : Convolution) (n h w c oh ow : Nat) :
    ∃ cells, convolutionCells 0 0 p [n, h, w, c] [p.depth, p.kernel, p.kernel, c] [n, oh, ow, p.depth] =
        some cells ∧ cells.length = Shape.volume [n, oh, ow, p.depth] ∧
      Contraction.inside cells (Shape.volume [n, h, w, c])
        (Shape.volume [p.depth, p.kernel, p.kernel, c]) p.depth = true := by
  have hcell : ∀ i ∈ List.range (Shape.volume [n, oh, ow, p.depth]), ∃ cell,
      convolutionCell 0 0 p [n, h, w, c] [p.depth, p.kernel, p.kernel, c] [n, oh, ow, p.depth] i =
        some cell ∧ cell.bias < p.depth ∧ ∀ t ∈ cell.taps, t.1 < Shape.volume [n, h, w, c] ∧
          t.2 < Shape.volume [p.depth, p.kernel, p.kernel, c] := by
    intro i hi
    obtain ⟨m, oy, ox, d, hunravel, hm, -, -, hd⟩ := unravel_four (List.mem_range.1 hi)
    rw [convolutionCell_eq]
    simp only [hunravel, Nat.mod_zero]
    refine ⟨_, rfl, hd, fun t ht => ?_⟩
    obtain ⟨⟨ky, kx, iy, ix⟩, htap, ht⟩ := List.mem_flatMap.1 ht
    obtain ⟨ch, hch, rfl⟩ := List.mem_map.1 ht
    obtain ⟨hky, hkx, hiy, hix⟩ := mem_windowTaps htap
    rw [List.mem_range] at hch
    exact ⟨offset_pixel hm hiy hix hch, offset_pixel hd hky hkx hch⟩
  obtain ⟨cells, hcells, hlen, hall⟩ := mapM_some hcell
  exact ⟨cells, hcells, by simpa using hlen, Contraction.inside_iff.2 hall⟩

/-- In payloads that are not smaller than the shapes the cells are exact. -/
theorem convolutionCells_exact (p : Convolution) (n h w c oh ow : Nat) {left right : Nat}
    (hleft : Shape.volume [n, h, w, c] ≤ left)
    (hright : Shape.volume [p.depth, p.kernel, p.kernel, c] ≤ right) :
    convolutionCells left right p [n, h, w, c] [p.depth, p.kernel, p.kernel, c]
        [n, oh, ow, p.depth] =
      convolutionCells 0 0 p [n, h, w, c] [p.depth, p.kernel, p.kernel, c] [n, oh, ow, p.depth] := by
  refine mapM_congr fun i hi => ?_
  obtain ⟨m, oy, ox, d, hunravel, hm, -, -, hd⟩ := unravel_four (List.mem_range.1 hi)
  rw [convolutionCell_eq, convolutionCell_eq]
  simp only [hunravel, Nat.mod_zero, Option.some.injEq, Cell.mk.injEq, true_and]
  refine List.flatMap_congr fun tap htap => List.map_congr_left fun ch hch => ?_
  obtain ⟨hky, hkx, hiy, hix⟩ := mem_windowTaps htap
  rw [List.mem_range] at hch
  rw [Nat.mod_eq_of_lt (Nat.lt_of_lt_of_le (offset_pixel hm hiy hix hch) hleft),
    Nat.mod_eq_of_lt (Nat.lt_of_lt_of_le (offset_pixel hd hky hkx hch) hright)]

/-- The tangent of a convolution. -/
def convolutionTangent {α : Type} [CommRing α] (p : Convolution) (x f : Shaped α) (out : Shape)
    (dx df db : Nat → α) : Nat → α :=
  match convolutionCells 0 0 p x.shape f.shape out with
  | some cells => cells.tangent x.entry f.entry dx df db
  | none => fun _ => 0

theorem convolutionTangent_zero {α : Type} [CommRing α] (p : Convolution) (x f : Shaped α)
    (out : Shape) : convolutionTangent p x f out 0 0 0 = 0 := by
  unfold convolutionTangent
  split
  · exact Contraction.tangent_zero ..
  · rfl

/-- Kernels find the cells of arrays that fill their shapes exactly. -/
theorem convolutionCells_filled {α : Type} {p : Convolution} {x f : Dense α} {n h w c : Nat}
    (oh ow : Nat) (hx : x.shape = [n, h, w, c]) (hf : f.shape = [p.depth, p.kernel, p.kernel, c]) :
    convolutionCells (Word.modulus x.values.size) (Word.modulus f.values.size) p x.shape f.shape
        [n, oh, ow, p.depth] =
      convolutionCells 0 0 p x.shape f.shape [n, oh, ow, p.depth] := by
  rw [x.size_eq, f.size_eq, hx, hf]
  exact convolutionCells_exact p n h w c oh ow (Word.le_modulus _) (Word.le_modulus _)

/-- A convolution, over its cells. -/
theorem convolution_eq {α : Type} [Zero α] [Add α] [Mul α] {p : Convolution} {x f b : Dense α}
    {n h w c : Nat} (oh ow : Nat) (hx : x.shape = [n, h, w, c])
    (hf : f.shape = [p.depth, p.kernel, p.kernel, c]) (hb : b.shape = [p.depth]) :
    ∃ cells, convolutionCells 0 0 p x.shape f.shape [n, oh, ow, p.depth] = some cells ∧
      cells.length = Shape.volume [n, oh, ow, p.depth] ∧
      convolution p x f b [n, oh, ow, p.depth] =
        .ok (Contraction.apply cells x.values f.values b.values) := by
  obtain ⟨cells, hcells, hlen, hinside⟩ := convolutionCells_ok p n h w c oh ow
  have hbsize : b.values.size = p.depth := by simp [b.size_eq, hb, Shape.volume]
  rw [← hx, ← hf] at hcells
  rw [← hx, ← hf, ← x.size_eq, ← f.size_eq, ← hbsize] at hinside
  refine ⟨cells, hcells, hlen, ?_⟩
  simp only [convolution, convolutionCells_filled oh ow hx hf, hcells, hinside, guarded, if_true]

/-- The gradients of a convolution, over the cells of the convolution. -/
theorem convolutionGrad_eq {α : Type} [Zero α] [Add α] [Mul α] {p : Convolution}
    {x f g : Dense α} {n h w c oh ow : Nat} (hx : x.shape = [n, h, w, c])
    (hf : f.shape = [p.depth, p.kernel, p.kernel, c]) (hg : g.shape = [n, oh, ow, p.depth]) :
    ∃ cells, convolutionCells 0 0 p x.shape f.shape g.shape = some cells ∧
      Contraction.inside cells x.values.size f.values.size p.depth = true ∧
      g.shape.volume = cells.length ∧
      convolutionGrad p x f g = .ok ⟨Contraction.leftGradient cells x.values.size f.values g.values,
        Contraction.rightGradient cells f.values.size x.values g.values,
        Contraction.biasGradient cells p.depth g.values⟩ := by
  obtain ⟨cells, hcells, hlen, hinside⟩ := convolutionCells_ok p n h w c oh ow
  have hexact := convolutionCells_filled oh ow hx hf
  rw [← hx, ← hf, ← hg] at hcells
  rw [← hx, ← hf, ← x.size_eq, ← f.size_eq] at hinside
  rw [← hg] at hexact hlen
  refine ⟨cells, hcells, hinside, hlen.symm, ?_⟩
  simp only [convolutionGrad, hexact, hcells, hinside, guarded, if_true]

theorem convolutionGrad_ok {α : Type} [CommRing α] {p : Convolution} {x f g : Dense α}
    {n h w c oh ow : Nat} (hx : x.shape = [n, h, w, c])
    (hf : f.shape = [p.depth, p.kernel, p.kernel, c]) (hg : g.shape = [n, oh, ow, p.depth]) :
    ∃ l, convolutionGrad p x f g = .ok l ∧
      l.AdjointTo x f g p.depth (convolutionTangent p x f g.shape) := by
  obtain ⟨cells, hcells, hinside, hlen, hgrad⟩ := convolutionGrad_eq hx hf hg
  have htangent : convolutionTangent p x f g.shape = fun dx df db =>
      cells.tangent x.entry f.entry dx df db := by
    funext dx df db
    simp only [convolutionTangent, hcells]
  exact ⟨_, hgrad, htangent ▸ Contraction.adjointTo hinside hlen⟩

/-- A pooling reads inside its operand. -/
theorem poolTaps_ok (p : Window) (n h w c oh ow : Nat) :
    ∃ windows, (List.range (Shape.volume [n, oh, ow, c])).mapM
        (poolTaps 0 p [n, h, w, c] [n, oh, ow, c]) = some windows ∧
      windows.length = Shape.volume [n, oh, ow, c] ∧
      ∀ taps ∈ windows, ∀ i ∈ taps, i < Shape.volume [n, h, w, c] := by
  have hwindow : ∀ i ∈ List.range (Shape.volume [n, oh, ow, c]), ∃ taps,
      poolTaps 0 p [n, h, w, c] [n, oh, ow, c] i = some taps ∧
        ∀ i ∈ taps, i < Shape.volume [n, h, w, c] := by
    intro i hi
    obtain ⟨m, oy, ox, ch, hunravel, hm, -, -, hch⟩ := unravel_four (List.mem_range.1 hi)
    rw [poolTaps_eq]
    simp only [hunravel, Nat.mod_zero]
    refine ⟨_, rfl, fun t ht => ?_⟩
    obtain ⟨⟨ky, kx, iy, ix⟩, htap, rfl⟩ := List.mem_map.1 ht
    obtain ⟨-, -, hiy, hix⟩ := mem_windowTaps htap
    exact offset_pixel hm hiy hix hch
  obtain ⟨windows, hwindows, hlen, hall⟩ := mapM_some hwindow
  exact ⟨windows, hwindows, by simpa using hlen, hall⟩

theorem poolTaps_exact (p : Window) (n h w c oh ow : Nat) {modulus : Nat}
    (hmodulus : Shape.volume [n, h, w, c] ≤ modulus) :
    (List.range (Shape.volume [n, oh, ow, c])).mapM
        (poolTaps modulus p [n, h, w, c] [n, oh, ow, c]) =
      (List.range (Shape.volume [n, oh, ow, c])).mapM
        (poolTaps 0 p [n, h, w, c] [n, oh, ow, c]) := by
  refine mapM_congr fun i hi => ?_
  obtain ⟨m, oy, ox, ch, hunravel, hm, -, -, hch⟩ := unravel_four (List.mem_range.1 hi)
  rw [poolTaps_eq, poolTaps_eq]
  simp only [hunravel, Nat.mod_zero, Option.some.injEq]
  refine List.map_congr_left fun tap htap => ?_
  obtain ⟨-, -, hiy, hix⟩ := mem_windowTaps htap
  rw [Nat.mod_eq_of_lt (Nat.lt_of_lt_of_le (offset_pixel hm hiy hix hch) hmodulus)]

/-! ## Pooling -/

section

variable {α : Type} [Zero α] [LT α] [DecidableLT α]

theorem mem_of_foldl_some {β γ : Type} {f : Option (β × γ) → β → Option (β × γ)}
    (hf : ∀ best t, f best t = best ∨ ∃ v, f best t = some (t, v)) {taps : List β}
    {best : Option (β × γ)} {i : β} {v : γ} (h : taps.foldl f best = some (i, v)) :
    i ∈ taps ∨ best = some (i, v) := by
  induction taps generalizing best with
  | nil => exact .inr h
  | cons t taps ih =>
    rcases ih h with hmem | hbest
    · exact .inl (List.mem_cons_of_mem _ hmem)
    · rcases hf best t with hkept | ⟨u, htaken⟩
      · exact .inr (hkept.symm.trans hbest)
      · obtain ⟨rfl, -⟩ := Prod.mk.inj (Option.some.inj (htaken.symm.trans hbest))
        exact .inl List.mem_cons_self

/-- What a window chooses is one of its taps. -/
theorem mem_of_firstLargest {x : Array α} {taps : List Nat} {i : Nat} {v : α}
    (h : firstLargest x taps = some (i, v)) : i ∈ taps := by
  refine (mem_of_foldl_some (fun best t => ?_) h).resolve_right (by simp)
  cases best with
  | none => exact .inr ⟨_, rfl⟩
  | some b =>
    simp only
    split
    · exact .inr ⟨_, rfl⟩
    · exact .inl rfl

/-- A pooling, over the taps of its windows. -/
theorem poolWindows_eq (p : Window) {n h w c : Nat} (oh ow : Nat) {x : Dense α}
    (hx : x.shape = [n, h, w, c]) : ∃ windows, (List.range (Shape.volume [n, oh, ow, c])).mapM
        (poolTaps 0 p [n, h, w, c] [n, oh, ow, c]) = some windows ∧
      windows.length = Shape.volume [n, oh, ow, c] ∧
      (∀ taps ∈ windows, ∀ i ∈ taps, i < Shape.volume [n, h, w, c]) ∧
      poolWindows p x [n, oh, ow, c] = .ok (windows.map (firstLargest x.values)) := by
  obtain ⟨windows, hwindows, hlen, hinside⟩ := poolTaps_ok p n h w c oh ow
  have hguard : (windows.all fun taps => taps.all (· < x.values.size)) = true := by
    simp only [List.all_eq_true, decide_eq_true_eq, x.size_eq, hx]
    exact hinside
  refine ⟨windows, hwindows, hlen, hinside, ?_⟩
  unfold poolWindows
  rw [x.size_eq, hx, poolTaps_exact p n h w c oh ow (Word.le_modulus _), hwindows, ← hx, ← x.size_eq]
  simp only [hguard, guarded, if_true]

/-- The windows of a pooling over shapes that the typing rules accept. -/
theorem poolWindows_ok (p : Window) {n h w c : Nat} (oh ow : Nat) {x : Dense α}
    (hx : x.shape = [n, h, w, c]) : ∃ bests, poolWindows p x.toShaped [n, oh, ow, c] = .ok bests ∧
      bests.length = Shape.volume [n, oh, ow, c] ∧
      ∀ best ∈ bests, ∀ i v, best = some (i, v) → i < Shape.volume [n, h, w, c] := by
  obtain ⟨windows, -, hlen, hinside, hbests⟩ := poolWindows_eq p oh ow hx
  refine ⟨_, hbests, by simpa using hlen, fun best hbest i v hchosen => ?_⟩
  obtain ⟨taps, htaps, rfl⟩ := List.mem_map.1 hbest
  exact hinside taps htaps i (mem_of_firstLargest hchosen)

end

section

variable {α : Type} [CommRing α]

/-- The tangent of a pooling: that of the element each window has chosen. -/
def chosenTangent (bests : List (Option (Nat × α))) (dx : Nat → α) (i : Nat) : α :=
  (bests[i]?.map fun best => (best.map fun b => dx b.1).getD 0).getD 0

/-- Sending gradients back to the chosen elements is adjoint to it. -/
theorem chosen_adjoint {bests : List (Option (Nat × α))} {size : Nat}
    (h : ∀ best ∈ bests, ∀ i v, best = some (i, v) → i < size) {g : Array α}
    (hg : g.size = bests.length) (dx : Nat → α) :
    ∑ i ∈ Finset.range bests.length, g.getD i 0 * chosenTangent bests dx i =
      ∑ j ∈ Finset.range size, (scatter size ((bests.zip g.toList).filterMap fun (best, g) =>
        best.map fun (i, _) => (i, g))).getD j 0 * dx j := by
  unfold chosenTangent
  rw [sum_zip bests hg, sum_scatter]
  · generalize bests.zip g.toList = pairs
    induction pairs with
    | nil => simp
    | cons p pairs ih =>
      obtain ⟨best, v⟩ := p
      rw [List.map_cons, List.sum_cons, ih]
      cases best <;> simp
  · intro c hc
    obtain ⟨⟨best, v⟩, hmem, hbest⟩ := List.mem_filterMap.1 hc
    obtain ⟨⟨i, u⟩, rfl, rfl⟩ := Option.map_eq_some_iff.1 hbest
    exact h _ (List.of_mem_zip hmem).1 i u rfl

variable [LT α] [DecidableLT α]

/-- The tangent of a pooling, for an output of the given shape. -/
def poolTangent (w : Window) (x : Shaped α) (out : Shape) (dx : Nat → α) : Nat → α :=
  match poolWindows w x out with
  | .ok bests => chosenTangent bests dx
  | .error _ => fun _ => 0

theorem poolTangent_zero (w : Window) (x : Shaped α) (out : Shape) : poolTangent w x out 0 = 0 := by
  unfold poolTangent
  split
  · next bests _ =>
    funext i
    unfold chosenTangent
    rcases bests[i]? with _ | _ | _ <;> rfl
  · rfl

theorem maxPoolGrad_ok {p : Window} {x g : Dense α} {n h w c oh ow : Nat}
    (hx : x.shape = [n, h, w, c]) (hg : g.shape = [n, oh, ow, c]) :
    ∃ z, maxPoolGrad p x g = .ok z ∧ z.size = x.shape.volume ∧
      ∀ dx : Nat → α, g.pair (poolTangent p x g.shape dx) =
        ∑ i ∈ Finset.range x.shape.volume, z.getD i 0 * dx i := by
  obtain ⟨bests, hbests, hlen, hinside⟩ := poolWindows_ok p oh ow hx
  rw [← hg] at hbests hlen
  rw [← hx] at hinside
  refine ⟨_, by rw [maxPoolGrad, hbests]; rfl, (size_scatter _ _).trans x.size_eq, fun dx => ?_⟩
  simp only [poolTangent, hbests, Shaped.pair, x.size_eq, ← hlen]
  exact chosen_adjoint hinside (g.size_eq.trans hlen.symm) dx

end

end TensorCompiler.Kernel
