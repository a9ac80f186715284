import TensorCompiler.Graph.Typing
import TensorCompiler.Kernel.Transpose
import TensorCompiler.Training.Adjoint
import TensorCompiler.Proofs.Kernel.Sums
import Mathlib.Data.List.GetD
import Mathlib.Data.List.Perm.Subperm

/-!
Transposition by a permutation of the axes. The source of an output position is the position of the
permuted coordinates (`source_eq_offset`), so the sources of a permutation and of its inverse undo
each other (`source_source`).
-/

namespace TensorCompiler

/-! ## Shapes -/

namespace Shape

theorem volume_eq_prod (s : Shape) : s.volume = s.prod := by
  induction s with
  | nil => rfl
  | cons d ds ih => rw [volume, ih, List.prod_cons]

theorem volume_eq_zero_iff {s : Shape} : s.volume = 0 ↔ 0 ∈ s := by
  rw [volume_eq_prod, List.prod_eq_zero_iff]

theorem volume_pos {s : Shape} (h : 0 ∉ s) : 0 < s.volume :=
  Nat.pos_of_ne_zero fun hs => h (volume_eq_zero_iff.1 hs)

theorem length_steps (s : Shape) : s.steps.length = s.length := by
  induction s with
  | nil => rfl
  | cons d ds ih => rw [steps, List.length_cons, ih, List.length_cons]

theorem length_unravel (s : Shape) (i : Nat) : (s.unravel i).length = s.length := by
  induction s with
  | nil => rfl
  | cons d ds ih => rw [unravel, List.length_cons, ih, List.length_cons]

theorem contains_iff {s : Shape} {cs : List Nat} : s.Contains cs ↔
    cs.length = s.length ∧ ∀ a < s.length, cs.getD a 0 < s.getD a 0 := by
  induction s generalizing cs with
  | nil => cases cs <;> simp [Contains]
  | cons d ds ih =>
    cases cs with
    | nil => simp [Contains]
    | cons c cs =>
      simp only [Contains, ih, List.length_cons, Nat.succ.injEq]
      constructor
      · rintro ⟨hc, hlen, hall⟩
        refine ⟨hlen, fun a ha => ?_⟩
        cases a with
        | zero => exact hc
        | succ a => exact hall a (Nat.lt_of_succ_lt_succ ha)
      · rintro ⟨hlen, hall⟩
        exact ⟨hall 0 (Nat.succ_pos _), hlen, fun a ha => hall (a + 1) (Nat.succ_lt_succ ha)⟩

theorem offset_eq_sum {s : Shape} {cs : List Nat} (h : cs.length = s.length) :
    s.offset cs = ∑ a ∈ Finset.range s.length, cs.getD a 0 * s.steps.getD a 0 := by
  induction s generalizing cs with
  | nil => simp [offset]
  | cons d ds ih =>
    cases cs with
    | nil => cases h
    | cons c cs =>
      rw [offset, ih (Nat.succ.inj h), steps, List.length_cons, Finset.sum_range_succ',
        Nat.add_comm]
      rfl

end Shape

namespace Kernel

open Training.Source

variable {perm : List Nat}

/-! ## Permutations -/

/-- A list of distinct axes, all of them. -/
structure Permutes (perm : List Nat) (rank : Nat) : Prop where
  length : perm.length = rank
  lt : ∀ a ∈ perm, a < rank
  nodup : perm.Nodup

theorem permutes_of_isPermutation {rank : Nat} (h : Typing.isPermutation perm rank = true) :
    Permutes perm rank := by
  simp only [Typing.isPermutation, Bool.and_eq_true, decide_eq_true_eq, List.all_eq_true] at h
  exact ⟨h.1.1, h.1.2, h.2⟩

theorem isPermutation_of_permutes {rank : Nat} (h : Permutes perm rank) :
    Typing.isPermutation perm rank = true := by
  simp only [Typing.isPermutation, Bool.and_eq_true, decide_eq_true_eq, List.all_eq_true]
  exact ⟨⟨h.length, h.lt⟩, h.nodup⟩

namespace Permutes

variable {rank : Nat}

theorem perm_range (h : Permutes perm rank) : perm.Perm (List.range rank) :=
  (List.subperm_of_subset h.nodup fun _ ha => List.mem_range.2 (h.lt _ ha)).perm_of_length_le
    (by rw [List.length_range, h.length])

theorem mem_iff (h : Permutes perm rank) {a : Nat} : a ∈ perm ↔ a < rank := by
  rw [h.perm_range.mem_iff, List.mem_range]

theorem idxOf_lt (h : Permutes perm rank) {a : Nat} (ha : a < rank) : perm.idxOf a < rank :=
  h.length ▸ List.idxOf_lt_length_iff.2 (h.mem_iff.2 ha)

theorem getD_idxOf (h : Permutes perm rank) {a : Nat} (ha : a < rank) :
    perm.getD (perm.idxOf a) 0 = a := by
  have hlt := List.idxOf_lt_length_iff.2 (h.mem_iff.2 ha)
  rw [List.getD_eq_getElem _ _ hlt, List.getElem_idxOf]

theorem idxOf_getD (h : Permutes perm rank) {k : Nat} (hk : k < rank) :
    perm.idxOf (perm.getD k 0) = k := by
  have hlt : k < perm.length := h.length.symm ▸ hk
  rw [List.getD_eq_getElem _ _ hlt, h.nodup.idxOf_getElem]

theorem getD_lt (h : Permutes perm rank) {k : Nat} (hk : k < rank) : perm.getD k 0 < rank := by
  have hlt : k < perm.length := h.length.symm ▸ hk
  rw [List.getD_eq_getElem _ _ hlt]
  exact h.lt _ (List.getElem_mem _)

theorem getD_inverse (h : Permutes perm rank) {a : Nat} (ha : a < rank) :
    (inversePermutation perm).getD a 0 = perm.idxOf a := by
  rw [inversePermutation, List.getD_eq_getElem _ _ (by simpa [h.length] using ha)]
  simp

/-- The inverse is a permutation. -/
theorem inverse (h : Permutes perm rank) : Permutes (inversePermutation perm) rank := by
  refine ⟨by simp [inversePermutation, h.length], fun a ha => ?_, ?_⟩
  · obtain ⟨b, hb, rfl⟩ := List.mem_map.1 ha
    exact h.idxOf_lt (by simpa [h.length] using hb)
  · refine (List.nodup_map_iff_inj_on List.nodup_range).2 fun a ha b hb heq => ?_
    rw [List.mem_range, h.length] at ha hb
    rw [← h.getD_idxOf ha, heq, h.getD_idxOf hb]

theorem idxOf_inverse (h : Permutes perm rank) {k : Nat} (hk : k < rank) :
    (inversePermutation perm).idxOf k = perm.getD k 0 := by
  have heq : (inversePermutation perm).getD (perm.getD k 0) 0 = k := by
    rw [h.getD_inverse (h.getD_lt hk), h.idxOf_getD hk]
  have hidx := h.inverse.idxOf_getD (h.getD_lt hk)
  rwa [heq] at hidx

theorem inverse_inverse (h : Permutes perm rank) :
    inversePermutation (inversePermutation perm) = perm := by
  refine List.ext_getElem (by simp [inversePermutation]) fun k hk hk' => ?_
  have hlt : k < rank := h.length ▸ hk'
  have hget := h.inverse.getD_inverse hlt
  rw [h.idxOf_inverse hlt, List.getD_eq_getElem _ _ hk, List.getD_eq_getElem _ _ hk'] at hget
  exact hget

end Permutes

/-! ## Sources -/

/-- The shape of a transposed tensor. -/
def permuted (perm : List Nat) (s : Shape) : Shape := perm.map fun axis => s.getD axis 0

/-- The coordinates in the operand of given coordinates in the result. -/
def permuteCoords (perm coords : List Nat) : List Nat :=
  (List.range perm.length).map fun a => coords.getD (perm.idxOf a) 0

/-- The position in the operand of an element of the result. -/
def source (perm : List Nat) (s : Shape) (i : Nat) : Nat :=
  sourceIndex 0 s.steps perm ((permuted perm s).unravel i)

variable {s : Shape}

theorem length_permuted (perm : List Nat) (s : Shape) : (permuted perm s).length = perm.length := by
  simp [permuted]

theorem getD_permuted (h : Permutes perm s.length) {k : Nat} (hk : k < s.length) :
    (permuted perm s).getD k 0 = s.getD (perm.getD k 0) 0 := by
  have hlt : k < perm.length := h.length.symm ▸ hk
  rw [permuted, List.getD_eq_getElem _ _ (by simpa using hlt), List.getElem_map,
    List.getD_eq_getElem _ _ hlt]

theorem getD_permuteCoords (h : Permutes perm s.length) (coords : List Nat) {a : Nat}
    (ha : a < s.length) : (permuteCoords perm coords).getD a 0 = coords.getD (perm.idxOf a) 0 := by
  rw [permuteCoords, List.getD_eq_getElem _ _ (by simpa [h.length] using ha)]
  simp

theorem volume_permuted (h : Permutes perm s.length) : (permuted perm s).volume = s.volume := by
  have hperm : (permuted perm s).Perm s := by
    have hmap := h.perm_range.map fun axis => s.getD axis 0
    have hrange : ((List.range s.length).map fun axis => s.getD axis 0) = s :=
      List.ext_getElem (by simp) fun i hi hi' => by simp [hi']
    rwa [hrange] at hmap
  rw [Shape.volume_eq_prod, Shape.volume_eq_prod, hperm.prod_eq]

theorem permuted_inverse (h : Permutes perm s.length) :
    permuted (inversePermutation perm) (permuted perm s) = s := by
  refine List.ext_getElem (by simp [permuted, inversePermutation, h.length]) fun a ha ha' => ?_
  have hlen : (permuted perm s).length = s.length := (length_permuted perm s).trans h.length
  have hinv : Permutes (inversePermutation perm) (permuted perm s).length := hlen ▸ h.inverse
  have hget := getD_permuted hinv (hlen ▸ ha')
  rw [h.getD_inverse ha', getD_permuted h (h.idxOf_lt ha'), h.getD_idxOf ha',
    List.getD_eq_getElem _ _ ha, List.getD_eq_getElem _ _ ha'] at hget
  exact hget

theorem sourceIndex_eq_sum (modulus : Nat) (steps perm coords : List Nat) :
    sourceIndex modulus steps perm coords =
      ((coords.zip perm).map fun p => p.1 * steps.getD p.2 0).sum % modulus := by
  have hfold (l : List (Nat × Nat)) (acc : Nat) :
      l.foldl (fun position p => (position + p.1 * steps.getD p.2 0) % modulus) (acc % modulus) =
        (acc + (l.map fun p => p.1 * steps.getD p.2 0).sum) % modulus := by
    induction l generalizing acc with
    | nil => rfl
    | cons p l ih =>
      rw [List.foldl_cons, Nat.mod_add_mod, ih, List.map_cons, List.sum_cons, Nat.add_assoc]
  have hstart := hfold (coords.zip perm) 0
  rwa [Nat.zero_mod, Nat.zero_add] at hstart

/-- Positions computed from the steps of a kernel are the exact ones, up to the modulus. -/
theorem sourceIndex_axisSteps (modulus : Nat) (s : Shape) (perm coords : List Nat) :
    sourceIndex modulus (axisSteps modulus s) perm coords =
      sourceIndex 0 s.steps perm coords % modulus := by
  have hstep (a : Nat) : (axisSteps modulus s).getD a 0 = s.steps.getD a 0 % modulus := by
    have hmap := List.getD_map (l := s.steps) (d := 0) (n := a) (· % modulus)
    rwa [Nat.zero_mod, ← axisSteps_eq] at hmap
  rw [sourceIndex_eq_sum, sourceIndex_eq_sum, Nat.mod_zero]
  induction coords.zip perm with
  | nil => rfl
  | cons p l ih =>
    rw [List.map_cons, List.sum_cons, hstep, Nat.add_mod, ih, List.map_cons, List.sum_cons,
      Nat.mul_mod_mod, ← Nat.add_mod]

theorem contains_permuteCoords (h : Permutes perm s.length) {coords : List Nat}
    (hc : (permuted perm s).Contains coords) : s.Contains (permuteCoords perm coords) := by
  rw [Shape.contains_iff, length_permuted, h.length] at hc
  refine Shape.contains_iff.2 ⟨by simp [permuteCoords, h.length], fun a ha => ?_⟩
  have hlt := hc.2 _ (h.idxOf_lt ha)
  rwa [getD_permuted h (h.idxOf_lt ha), h.getD_idxOf ha, ← getD_permuteCoords h coords ha] at hlt

/-- The source of an output position is at the permuted coordinates. -/
theorem source_eq_offset (h : Permutes perm s.length) (i : Nat) :
    source perm s i = s.offset (permuteCoords perm ((permuted perm s).unravel i)) := by
  have hlen : ((permuted perm s).unravel i).length = perm.length :=
    (Shape.length_unravel _ i).trans (length_permuted perm s)
  generalize hc : (permuted perm s).unravel i = coords at hlen
  rw [source, hc, sourceIndex_eq_sum, Nat.mod_zero,
    Shape.offset_eq_sum (by simp [permuteCoords, h.length])]
  let term (a : Nat) : Nat := coords.getD (perm.idxOf a) 0 * s.steps.getD a 0
  have hzip : ((coords.zip perm).map fun p => p.1 * s.steps.getD p.2 0) = perm.map term := by
    refine List.ext_getElem (by simp [hlen]) fun k hk hk' => ?_
    have hlt : k < perm.length := by simpa using hk'
    have hidx : perm.idxOf perm[k] = k := h.nodup.idxOf_getElem k hlt
    simp only [List.getElem_map, List.getElem_zip, term, hidx]
    rw [List.getD_eq_getElem coords _ (hlen.symm ▸ hlt)]
  rw [hzip, (h.perm_range.map term).sum_eq, sum_map_range]
  exact Finset.sum_congr rfl fun a ha => by
    rw [getD_permuteCoords h coords (Finset.mem_range.1 ha)]

theorem source_lt (h : Permutes perm s.length) {i : Nat} (hi : i < s.volume) :
    source perm s i < s.volume := by
  rw [source_eq_offset h]
  rw [← volume_permuted h] at hi
  exact Shape.offset_lt (contains_permuteCoords h (Shape.contains_unravel hi))

theorem permuteCoords_inverse (h : Permutes perm s.length) {coords : List Nat}
    (hlen : coords.length = s.length) :
    permuteCoords (inversePermutation perm) (permuteCoords perm coords) = coords := by
  refine List.ext_getElem (by simp [permuteCoords, inversePermutation, h.length, hlen])
    fun a ha ha' => ?_
  have hlt : a < s.length := hlen ▸ ha'
  rw [← List.getD_eq_getElem _ 0 ha, ← List.getD_eq_getElem _ 0 ha',
    getD_permuteCoords h.inverse _ hlt, h.idxOf_inverse hlt,
    getD_permuteCoords h _ (h.getD_lt hlt), h.idxOf_getD hlt]

/-- The inverse permutation takes every element back to where it came from. -/
theorem source_source (h : Permutes perm s.length) {i : Nat} (hi : i < s.volume) :
    source (inversePermutation perm) (permuted perm s) (source perm s i) = i := by
  have hlen : (permuted perm s).length = s.length := (length_permuted perm s).trans h.length
  have hinverse : Permutes (inversePermutation perm) (permuted perm s).length := hlen ▸ h.inverse
  have hi' : i < (permuted perm s).volume := (volume_permuted h).symm ▸ hi
  have hcontains := contains_permuteCoords h (Shape.contains_unravel hi')
  rw [source_eq_offset hinverse, permuted_inverse h, source_eq_offset h,
    Shape.unravel_offset hcontains, permuteCoords_inverse h
      ((Shape.length_unravel _ i).trans hlen), Shape.offset_unravel hi']

/-- Transposing a matrix. -/
theorem source_matrix {a b i j : Nat} (hi : i < a) (hj : j < b) :
    source [1, 0] [a, b] (j * a + i) = i * b + j := by
  have hcontains : Shape.Contains [b, a] [j, i] := ⟨hj, hi, trivial⟩
  have hunravel := Shape.unravel_offset hcontains
  simp only [Shape.offset, Shape.volume, Nat.mul_one, Nat.add_zero] at hunravel
  have hsource : source [1, 0] [a, b] (j * a + i) =
      sourceIndex 0 [b * 1, 1] [1, 0] (Shape.unravel [b, a] (j * a + i)) :=
    rfl
  rw [hsource, hunravel]
  simp [sourceIndex, Nat.add_comm]

/-- Transposing every matrix of a batch. -/
theorem source_batch {n a b m i j : Nat} (hm : m < n) (hi : i < a) (hj : j < b) :
    source [0, 2, 1] [n, a, b] (m * (b * a) + (j * a + i)) = m * (a * b) + (i * b + j) := by
  have hcontains : Shape.Contains [n, b, a] [m, j, i] := ⟨hm, hj, hi, trivial⟩
  have hunravel := Shape.unravel_offset hcontains
  simp only [Shape.offset, Shape.volume, Nat.mul_one, Nat.add_zero] at hunravel
  have hsource : source [0, 2, 1] [n, a, b] (m * (b * a) + (j * a + i)) =
      sourceIndex 0 [a * (b * 1), b * 1, 1] [0, 2, 1]
        (Shape.unravel [n, b, a] (m * (b * a) + (j * a + i))) :=
    rfl
  rw [hsource, hunravel]
  simp [sourceIndex]
  omega

/-! ## The kernel -/

/-- In a payload that fills its shape the kernel finds the sources exactly. -/
theorem sourceIndex_eq_source {β : Type} {x : Dense β} (h : Permutes perm x.shape.length) {i : Nat}
    (hi : i < x.values.size) :
    sourceIndex (Word.modulus x.values.size) (axisSteps (Word.modulus x.values.size) x.shape) perm
      (coordinates (permuted perm x.shape) i) = source perm x.shape i := by
  have hlt : source perm x.shape i < x.values.size := by
    rw [x.size_eq] at hi ⊢
    exact source_lt h hi
  rw [coordinates_eq, sourceIndex_axisSteps]
  exact Nat.mod_eq_of_lt (Nat.lt_of_lt_of_le hlt (Word.le_modulus _))

/-- A transposition by a permutation succeeds, and takes every element from its source. -/
theorem transpose_ok {β : Type} [Zero β] {x : Dense β} (h : Permutes perm x.shape.length) :
    ∃ z, transpose perm x (permuted perm x.shape) = .ok z ∧ z.size = x.shape.volume ∧
      ∀ i < x.shape.volume, z.getD i 0 = x.values.getD (source perm x.shape i) 0 := by
  let modulus := Word.modulus x.values.size
  have hguard : x.values.size = 0 ∨ ((permuted perm x.shape).length ≤ perm.length ∧
      ((perm.take (permuted perm x.shape).length).all
        (· < (axisSteps modulus x.shape).length)) = true ∧
      0 ∉ permuted perm x.shape ∧ ((List.range x.values.size).all fun i =>
        sourceIndex modulus (axisSteps modulus x.shape) perm
          (coordinates (permuted perm x.shape) i) < x.values.size) = true) := by
    refine or_iff_not_imp_left.2 fun hsize => ⟨(length_permuted perm x.shape).le, ?_, ?_, ?_⟩
    · simp only [List.all_eq_true, decide_eq_true_eq, axisSteps_eq, List.length_map,
        Shape.length_steps]
      exact fun a ha => h.lt a (List.mem_of_mem_take ha)
    · rw [← Shape.volume_eq_zero_iff, volume_permuted h, ← x.size_eq]
      exact hsize
    · simp only [List.all_eq_true, List.mem_range, decide_eq_true_eq]
      intro i hi
      rw [sourceIndex_eq_source h hi]
      rw [x.size_eq] at hi ⊢
      exact source_lt h hi
  refine ⟨((List.range x.values.size).map fun i =>
    x.values.getD (source perm x.shape i) 0).toArray, ?_, by simp [x.size_eq], fun i hi => ?_⟩
  · rw [transpose, if_neg (by simp [h.length]), guarded, if_pos (decide_eq_true_iff.2 hguard)]
    refine congrArg (fun l => Except.ok l.toArray) (List.map_congr_left fun i hi => ?_)
    exact congrArg (x.values.getD · 0) (sourceIndex_eq_source h (List.mem_range.1 hi))
  · rw [Array.getD_eq_getD_getElem?, List.getElem?_toArray, List.getElem?_map,
      List.getElem?_range (x.size_eq ▸ hi)]
    rfl

/-- A gradient against a transposed tangent is the gradient transposed back against the tangent. -/
theorem source_adjoint {α : Type} [CommRing α] (h : Permutes perm s.length) (g dx : Nat → α) :
    ∑ i ∈ Finset.range s.volume, g i * dx (source perm s i) =
      ∑ i ∈ Finset.range s.volume,
        g (source (inversePermutation perm) (permuted perm s) i) * dx i := by
  have hlen : (permuted perm s).length = s.length := (length_permuted perm s).trans h.length
  have hinverse : Permutes (inversePermutation perm) (permuted perm s).length := hlen ▸ h.inverse
  have hback {i : Nat} (hi : i < s.volume) :
      source perm s (source (inversePermutation perm) (permuted perm s) i) = i := by
    have hi : i < (permuted perm s).volume := (volume_permuted h).symm ▸ hi
    have hsource := source_source hinverse hi
    rwa [h.inverse_inverse, permuted_inverse h] at hsource
  refine Finset.sum_nbij' (source perm s)
    (source (inversePermutation perm) (permuted perm s)) ?_ ?_ ?_ ?_ ?_
  · exact fun i hi => Finset.mem_range.2 (source_lt h (Finset.mem_range.1 hi))
  · intro i hi
    rw [Finset.mem_range, ← volume_permuted h] at hi ⊢
    exact source_lt hinverse hi
  · exact fun i hi => source_source h (Finset.mem_range.1 hi)
  · exact fun i hi => hback (Finset.mem_range.1 hi)
  · intro i hi
    rw [source_source h (Finset.mem_range.1 hi)]

end Kernel

end TensorCompiler
