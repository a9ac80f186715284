import TensorCompiler.Kernel.Spatial
import Mathlib.Algebra.BigOperators.Ring.Finset
import Mathlib.Algebra.BigOperators.Intervals
import Mathlib.Tactic.LinearCombination
import Mathlib.Tactic.Ring

/-!
Sums in kernels, over a commutative ring. `Shaped.pair` is the inner product of an array with a
tangent. A scatter is the adjoint of a gather (`sum_scatter`), so the three gradients of a
contraction are adjoint to it in each of its operands (`Contraction.adjointTo`).
-/

namespace TensorCompiler

/-! ## Arrays and tangents -/

namespace Shaped

/-- The element at a flat position; 0 outside the array. -/
abbrev entry {β : Type} [Zero β] (d : Shaped β) (i : Nat) : β := d.values.getD i 0

variable {α : Type} [CommRing α]

/-- The inner product with a tangent of the same shape. -/
def pair (d : Shaped α) (tangent : Nat → α) : α :=
  ∑ i ∈ Finset.range d.shape.volume, d.entry i * tangent i

theorem pair_zero (d : Shaped α) : d.pair (fun _ => 0) = 0 := by
  simp [pair]

theorem pair_add (d : Shaped α) (a b : Nat → α) :
    d.pair (fun i => a i + b i) = d.pair a + d.pair b := by
  simp only [pair, mul_add, Finset.sum_add_distrib]

/-- The inner product with an array whose elements are known. -/
theorem pair_of_entry {d : Shaped α} {shape : Shape} {value : Nat → α} (hshape : d.shape = shape)
    (h : ∀ i < shape.volume, d.entry i = value i) (tangent : Nat → α) :
    d.pair tangent = ∑ i ∈ Finset.range shape.volume, value i * tangent i := by
  rw [pair, hshape]
  exact Finset.sum_congr rfl fun i hi => by rw [h i (Finset.mem_range.1 hi)]

end Shaped

namespace Dense

/-- The element at coordinates inside the shape is the entry at their offset. -/
theorem get?_of_contains {β : Type} [Zero β] {d : Dense β} {coords : List Nat}
    (h : d.shape.Contains coords) : d.get? coords = some (d.entry (d.shape.offset coords)) := by
  have hlt := Shape.offset_lt h
  rw [← d.size_eq] at hlt
  simp [get?, h, Shaped.entry, hlt]

/-- Arrays of one shape with the same entries. -/
theorem eq_of_entry {β : Type} [Zero β] {d e : Dense β} (hshape : d.shape = e.shape)
    (h : ∀ i < d.shape.volume, d.entry i = e.entry i) : d = e := by
  have hvalues : d.values = e.values := by
    refine Array.ext (by rw [d.size_eq, e.size_eq, hshape]) fun i hi hi' => ?_
    have hentry := h i (d.size_eq ▸ hi)
    rwa [Shaped.entry, Shaped.entry, Array.getD_eq_getD_getElem?, Array.getD_eq_getD_getElem?,
      Array.getElem?_eq_getElem hi, Array.getElem?_eq_getElem hi'] at hentry
  obtain ⟨⟨_, _, _⟩, _⟩ := d
  obtain ⟨⟨_, _, _⟩, _⟩ := e
  cases hshape
  cases hvalues
  rfl

end Dense

namespace Kernel

/-! ## Sums -/

theorem sum_map_range {M : Type} [AddCommMonoid M] (n : Nat) (f : Nat → M) :
    ((List.range n).map f).sum = ∑ k ∈ Finset.range n, f k := by
  induction n with
  | zero => simp
  | succ n ih => simp [List.range_succ, ih, Finset.sum_range_succ]

variable {α : Type} [CommRing α]

theorem dot_eq (x y : Array α) (start : α) (taps : List Tap) : dot x y start taps =
    start + (taps.map fun t => x.getD t.1 0 * y.getD t.2 0).sum := by
  unfold dot
  induction taps generalizing start with
  | nil => simp
  | cons t taps ih => rw [List.foldl_cons, ih, List.map_cons, List.sum_cons, add_assoc]

theorem getD_modify (a : Array α) (i j : Nat) (f : α → α) (hi : i < a.size) :
    (a.modify i f).getD j 0 = if i = j then f (a.getD j 0) else a.getD j 0 := by
  simp only [Array.getD_eq_getD_getElem?, Array.getElem?_modify]
  split
  · next h =>
    subst h
    simp [hi]
  · rfl

/-- Adding one element of a payload to another sum. -/
theorem sum_modify (a : Array α) {i : Nat} (hi : i < a.size) (v : α) (d : Nat → α) :
    ∑ j ∈ Finset.range a.size, (a.modify i (· + v)).getD j 0 * d j =
      ∑ j ∈ Finset.range a.size, a.getD j 0 * d j + v * d i := by
  have hsplit (j : Nat) : (a.modify i (· + v)).getD j 0 * d j =
      a.getD j 0 * d j + if j = i then v * d j else 0 := by
    rw [getD_modify a i j _ hi]
    by_cases h : i = j
    · rw [if_pos h, if_pos h.symm]
      ring
    · rw [if_neg h, if_neg (Ne.symm h), add_zero]
  rw [Finset.sum_congr rfl fun j _ => hsplit j, Finset.sum_add_distrib, Finset.sum_ite_eq',
    if_pos (Finset.mem_range.2 hi)]

/-- A scatter against `d` is the sum of its contributions, each against `d` at its place. -/
theorem sum_scatter {size : Nat} {contributions : List (Nat × α)}
    (h : ∀ c ∈ contributions, c.1 < size) (d : Nat → α) :
    ∑ j ∈ Finset.range size, (scatter size contributions).getD j 0 * d j =
      (contributions.map fun c => c.2 * d c.1).sum := by
  have hfold (cs : List (Nat × α)) (hcs : ∀ c ∈ cs, c.1 < size) (acc : Array α)
      (hacc : acc.size = size) :
      ∑ j ∈ Finset.range size,
          (cs.foldl (fun acc c => acc.modify c.1 (· + c.2)) acc).getD j 0 * d j =
        ∑ j ∈ Finset.range size, acc.getD j 0 * d j + (cs.map fun c => c.2 * d c.1).sum := by
    induction cs generalizing acc with
    | nil => simp
    | cons c cs ih =>
      have hc : c.1 < acc.size := hacc ▸ hcs c List.mem_cons_self
      rw [List.foldl_cons, ih (fun c hc => hcs c (List.mem_cons_of_mem _ hc)) _
        (by rw [Array.size_modify, hacc]), List.map_cons, List.sum_cons, ← hacc,
        sum_modify acc hc, add_assoc]
  rw [scatter, hfold contributions h _ (Array.size_replicate ..), Finset.sum_eq_zero, zero_add]
  intro j hj
  simp [Finset.mem_range.1 hj]

/-- A sum over the outputs of a list, as a sum over the list. -/
theorem sum_zip {β : Type} (l : List β) {g : Array α} (hg : g.size = l.length) (f : β → α) :
    ∑ i ∈ Finset.range l.length, g.getD i 0 * (l[i]?.map f).getD 0 =
      ((l.zip g.toList).map fun p => p.2 * f p.1).sum := by
  obtain ⟨g⟩ := g
  simp only [List.size_toArray] at hg
  simp only [Array.getD_eq_getD_getElem?, List.getElem?_toArray]
  induction l generalizing g with
  | nil => simp
  | cons b l ih =>
    match g, hg with
    | v :: g, hg =>
      rw [List.length_cons, Finset.sum_range_succ']
      simp only [List.getElem?_cons_succ, List.getElem?_cons_zero, Option.map_some,
        Option.getD_some, List.zip_cons_cons, List.map_cons, List.sum_cons]
      rw [ih g (Nat.succ.inj hg), add_comm]

/-- The tangent of a sum of products: the product rule for every tap. -/
def tapsTangent (x y dx dy : Nat → α) (taps : List Tap) : α :=
  (taps.map fun t => dx t.1 * y t.2 + x t.1 * dy t.2).sum

theorem getD_tapsTangent_zero (x y : Nat → α) (taps : Option (List Tap)) :
    (taps.map (tapsTangent x y 0 0)).getD 0 = 0 := by
  unfold tapsTangent
  cases taps <;> simp

/-! ## Contractions -/

namespace Contraction

/-- The tangent of a contraction: the bias's own, and that of every sum of products. -/
def tangent (cells : Contraction) (x y dx dy db : Nat → α) (i : Nat) : α :=
  (cells[i]?.map fun cell => db cell.bias + tapsTangent x y dx dy cell.taps).getD 0

theorem tangent_zero (cells : Contraction) (x y : Nat → α) : cells.tangent x y 0 0 0 = 0 := by
  funext i
  unfold tangent tapsTangent
  cases cells[i]? <;> simp

variable {c : Contraction} {left right bias : Nat}

theorem inside_iff : c.inside left right bias = true ↔
    ∀ cell ∈ c, cell.bias < bias ∧ ∀ t ∈ cell.taps, t.1 < left ∧ t.2 < right := by
  simp [inside, Kernel.inside]

/-- The gradients are adjoint to the tangent in each operand. -/
theorem adjoint (h : c.inside left right bias = true) {g : Array α} (hg : g.size = c.length)
    (x y : Array α) (dx dy db : Nat → α) :
    ∑ i ∈ Finset.range c.length, g.getD i 0 *
        c.tangent (x.getD · 0) (y.getD · 0) dx dy db i =
      ∑ j ∈ Finset.range left, (c.leftGradient left y g).getD j 0 * dx j +
        ∑ j ∈ Finset.range right, (c.rightGradient right x g).getD j 0 * dy j +
        ∑ j ∈ Finset.range bias, (c.biasGradient bias g).getD j 0 * db j := by
  rw [inside_iff] at h
  have hcell {p : Cell × α} (hp : p ∈ c.paired g) : p.1 ∈ c := (List.of_mem_zip hp).1
  unfold tangent leftGradient rightGradient biasGradient
  rw [sum_zip c hg, sum_scatter, sum_scatter, sum_scatter]
  · unfold paired
    generalize c.zip g.toList = pairs
    induction pairs with
    | nil => simp
    | cons p pairs ih =>
      have htaps : p.2 * (db p.1.bias +
            tapsTangent (x.getD · 0) (y.getD · 0) dx dy p.1.taps) =
          (p.1.taps.map fun t => y.getD t.2 0 * p.2 * dx t.1).sum +
            (p.1.taps.map fun t => x.getD t.1 0 * p.2 * dy t.2).sum + p.2 * db p.1.bias := by
        unfold tapsTangent
        induction p.1.taps with
        | nil => simp
        | cons t taps ih =>
          simp only [List.map_cons, List.sum_cons] at ih ⊢
          linear_combination ih
      simp only [List.map_cons, List.sum_cons, List.flatMap_cons, List.map_append, List.sum_append,
        List.map_map, Function.comp_def] at ih ⊢
      rw [ih, htaps]
      ring
  · intro b hb
    obtain ⟨p, hp, rfl⟩ := List.mem_map.1 hb
    exact (h p.1 (hcell hp)).1
  · intro b hb
    obtain ⟨p, hp, hb⟩ := List.mem_flatMap.1 hb
    obtain ⟨t, ht, rfl⟩ := List.mem_map.1 hb
    exact ((h p.1 (hcell hp)).2 t ht).2
  · intro b hb
    obtain ⟨p, hp, hb⟩ := List.mem_flatMap.1 hb
    obtain ⟨t, ht, rfl⟩ := List.mem_map.1 hb
    exact ((h p.1 (hcell hp)).2 t ht).1

end Contraction

/-- The gradients of a layer have the sizes of its operands, and against any tangents of these they
give what the gradient of its output gives against the tangent of the layer. -/
structure LayerGradients.AdjointTo (l : LayerGradients α) (x f g : Dense α) (depth : Nat)
    (tangent : (Nat → α) → (Nat → α) → (Nat → α) → Nat → α) : Prop where
  input : l.input.size = x.shape.volume
  filter : l.filter.size = f.shape.volume
  bias : l.bias.size = depth
  adjoint : ∀ dx df db : Nat → α, g.pair (tangent dx df db) =
    ∑ i ∈ Finset.range x.shape.volume, l.input.getD i 0 * dx i +
      ∑ i ∈ Finset.range f.shape.volume, l.filter.getD i 0 * df i +
      ∑ i ∈ Finset.range depth, l.bias.getD i 0 * db i

theorem Contraction.adjointTo {c : Contraction} {x f g : Dense α} {depth : Nat}
    (h : c.inside x.values.size f.values.size depth = true) (hg : g.shape.volume = c.length) :
    LayerGradients.AdjointTo
      ⟨c.leftGradient x.values.size f.values g.values, c.rightGradient f.values.size x.values g.values,
        c.biasGradient depth g.values⟩ x f g depth
      fun dx df db => c.tangent x.entry f.entry dx df db where
  input := (size_scatter _ _).trans x.size_eq
  filter := (size_scatter _ _).trans f.size_eq
  bias := size_scatter _ _
  adjoint dx df db := by
    rw [Shaped.pair, hg, ← x.size_eq, ← f.size_eq]
    exact adjoint h (g.size_eq.trans hg) x.values f.values dx df db

end Kernel

end TensorCompiler
