import TensorCompiler.Word

/-!
Shapes and row-major addressing. A coordinate list inside a shape has an `offset`, and `unravel`
takes an offset apart again: `offset_lt`, `unravel_offset` and `offset_unravel` say that the two
are inverse on the coordinates inside the shape and the offsets below its volume.

Volumes and offsets are exact. The number of elements, the strides and the position of a coordinate
list are what words keep of them (`elements_eq`, `strides_eq`, `index?_eq`), which is everything in a
shape that `Fits`.
-/

namespace TensorCompiler

/-- The extents of a tensor, outermost axis first. -/
abbrev Shape := List Nat

namespace Shape

/-- How many coordinate lists a shape contains; 1 for rank 0. -/
def volume : Shape → Nat
  | [] => 1
  | d :: ds => d * volume ds

/-- How many elements a shape has: the product of its extents, in words. -/
def elements (s : Shape) : Nat := s.foldl (fun count d => Word.wrap (count * d)) 1

/-- The distance between neighbours on each axis: the volume of the axes after it. -/
def steps : Shape → List Nat
  | [] => []
  | _ :: ds => volume ds :: steps ds

/-- The step in the payload for each axis, in words, collected from the last axis to the first. -/
def strides (s : Shape) : List Nat :=
  (s.foldr (fun d (step, steps) => (Word.wrap (step * d), step :: steps)) (1, [])).2

/-- The number of elements and the strides are words. -/
def Fits (s : Shape) : Prop := s.volume < Word.size ∧ ∀ step ∈ s.steps, step < Word.size

instance (s : Shape) : Decidable s.Fits := inferInstanceAs (Decidable (_ ∧ _))

/-- A payload of `count` elements is taken for the shape: as many as words count. One that fills the
shape is taken as well; it has another number of elements only if no machine could hold it. -/
def Accepts (s : Shape) (count : Nat) : Prop := count = s.elements ∨ count = s.volume

instance (s : Shape) (count : Nat) : Decidable (s.Accepts count) :=
  inferInstanceAs (Decidable (_ ∨ _))

/-- One coordinate per axis, each below its extent. -/
def Contains : Shape → List Nat → Prop
  | [], [] => True
  | d :: ds, c :: cs => c < d ∧ Contains ds cs
  | _, _ => False

instance : (s : Shape) → (cs : List Nat) → Decidable (Contains s cs)
  | [], [] => isTrue trivial
  | [], _ :: _ => isFalse id
  | _ :: _, [] => isFalse id
  | d :: ds, c :: cs =>
    have := instDecidableContains ds cs
    inferInstanceAs (Decidable (c < d ∧ Contains ds cs))

/-- The position of a coordinate list in the payload; the last axis varies fastest. -/
def offset : Shape → List Nat → Nat
  | _ :: ds, c :: cs => c * volume ds + offset ds cs
  | _, _ => 0

/-- The position of a coordinate list: the coordinates times their steps, added up in words from the
first axis on. There is none for another number of coordinates, or once one is not below its
extent. -/
def index? (s : Shape) (coords : List Nat) : Option Nat :=
  if coords.length ≠ s.length then none
  else
    ((coords.zip s).zip (strides s)).foldlM (fun position ((c, d), step) =>
      if c < d then some (Word.wrap (position + c * step)) else none) 0

/-- The coordinates of a payload position. -/
def unravel : Shape → Nat → List Nat
  | [], _ => []
  | d :: ds, i => i / volume ds % d :: unravel ds i

def text (s : Shape) : String := "x".intercalate (s.map Nat.repr)

theorem offset_lt : {s : Shape} → {cs : List Nat} → Contains s cs → offset s cs < volume s
  | [], [], _ => Nat.one_pos
  | d :: ds, c :: cs, h => by
    have ih := offset_lt h.2
    have hm := Nat.mul_le_mul_right (volume ds) (Nat.succ_le_of_lt h.1)
    simp only [Nat.succ_mul] at hm
    simp only [offset, volume]
    omega

theorem elements_eq (s : Shape) : s.elements = Word.wrap s.volume := by
  have hfold (count : Nat) : s.foldl (fun count d => Word.wrap (count * d)) (Word.wrap count) =
      Word.wrap (count * s.volume) := by
    induction s generalizing count with
    | nil => rw [List.foldl_nil, volume, Nat.mul_one]
    | cons d ds ih => rw [List.foldl_cons, Word.wrap_mul_wrap, ih, volume, Nat.mul_assoc]
  have hone := hfold 1
  rwa [Nat.one_mul] at hone

theorem elements_of_lt {s : Shape} (h : s.volume < Word.size) : s.elements = s.volume := by
  rw [elements_eq, Word.wrap_of_lt h]

/-- For a volume that is a word, only payloads that fill the shape are taken. -/
theorem accepts_iff_of_lt {s : Shape} (h : s.volume < Word.size) {count : Nat} :
    s.Accepts count ↔ count = s.volume := by
  rw [Accepts, elements_of_lt h, or_self]

/-- Shapes of one volume take the same payloads. -/
theorem accepts_congr {s t : Shape} (h : s.volume = t.volume) {count : Nat} :
    s.Accepts count ↔ t.Accepts count := by
  rw [Accepts, Accepts, elements_eq, elements_eq, h]

theorem foldr_strides (s : Shape) :
    s.foldr (fun d (p : Nat × List Nat) => (Word.wrap (p.1 * d), p.1 :: p.2)) (1, []) =
      (Word.wrap s.volume, s.steps.map Word.wrap) := by
  induction s with
  | nil => rfl
  | cons d ds ih =>
    rw [List.foldr_cons, ih, Word.wrap_mul_wrap, volume, Nat.mul_comm, steps, List.map_cons]

theorem strides_eq (s : Shape) : s.strides = s.steps.map Word.wrap :=
  congrArg (·.2) (foldr_strides s)

/-- The strides of a shape that fits are its steps. -/
theorem strides_of_fits {s : Shape} (h : s.Fits) : s.strides = s.steps := by
  rw [strides_eq]
  exact (List.map_congr_left fun step hstep => Word.wrap_of_lt (h.2 step hstep)).trans
    (List.map_id ..)

theorem unravel_add_mul (ds : Shape) (c i : Nat) (hv : 0 < volume ds) :
    unravel ds (c * volume ds + i) = unravel ds i := by
  induction ds generalizing c with
  | nil => rfl
  | cons d ds ih =>
    rw [volume] at hv ⊢
    have hd : 0 < d := Nat.pos_of_mul_pos_right hv
    have hv' : 0 < volume ds := Nat.pos_of_mul_pos_left hv
    rw [← Nat.mul_assoc, unravel, unravel, ih _ hv', Nat.add_comm,
      Nat.add_mul_div_right _ _ hv', Nat.add_mul_mod_self_right]

theorem unravel_offset : {s : Shape} → {cs : List Nat} → Contains s cs →
    unravel s (offset s cs) = cs
  | [], [], _ => rfl
  | d :: ds, c :: cs, h => by
    have hlt := offset_lt h.2
    have hv : 0 < volume ds := Nat.lt_of_le_of_lt (Nat.zero_le _) hlt
    rw [offset, unravel, unravel_add_mul _ _ _ hv, unravel_offset h.2, Nat.add_comm,
      Nat.add_mul_div_right _ _ hv, Nat.div_eq_of_lt hlt, Nat.zero_add, Nat.mod_eq_of_lt h.1]

theorem unravel_mod (ds : Shape) (i : Nat) (hv : 0 < volume ds) :
    unravel ds (i % volume ds) = unravel ds i := by
  have h := unravel_add_mul ds (i / volume ds) (i % volume ds) hv
  rwa [Nat.div_add_mod', eq_comm] at h

theorem volume_pos_of_lt {d i : Nat} {ds : Shape} (h : i < volume (d :: ds)) : 0 < volume ds :=
  Nat.pos_of_mul_pos_left (Nat.lt_of_le_of_lt (Nat.zero_le _) h)

theorem contains_unravel : {s : Shape} → {i : Nat} → i < volume s → Contains s (unravel s i)
  | [], _, _ => trivial
  | d :: ds, i, h => by
    have hv := volume_pos_of_lt h
    refine ⟨?_, ?_⟩
    · exact Nat.mod_lt _ (Nat.pos_of_mul_pos_right (Nat.lt_of_le_of_lt (Nat.zero_le _) h))
    · rw [← unravel_mod ds i hv]
      exact contains_unravel (Nat.mod_lt _ hv)

theorem offset_unravel : {s : Shape} → {i : Nat} → i < volume s → offset s (unravel s i) = i
  | [], i, h => by
    have : i = 0 := by simpa [volume] using h
    simp [offset, this]
  | d :: ds, i, h => by
    have hv := volume_pos_of_lt h
    have hq : i / volume ds < d := Nat.div_lt_of_lt_mul (by rw [Nat.mul_comm]; exact h)
    rw [unravel, offset, ← unravel_mod ds i hv, offset_unravel (Nat.mod_lt _ hv),
      Nat.mod_eq_of_lt hq, Nat.div_add_mod']

end Shape

end TensorCompiler
