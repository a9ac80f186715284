import TensorCompiler.Proofs.Lowering.Lifetimes

/-!
The stream with markers: where each instruction and each marker stands. Blocks of markers around one
instruction follow each other, so positions compare first by block and then inside the block. The
stream brackets every activation (`bracketed_of_lives`), around all its accesses
(`covers_of_lives`).
-/

namespace TensorCompiler.Lowering

open TensorCompiler.Lowering.Stream TensorCompiler.Plan

/-- The activations that are allocated before instruction `j`. -/
def starting (lives : List Lifetime) (j : Nat) : List Lifetime := lives.filter (·.first = j)

/-- The activations that are deallocated after instruction `j`. -/
def ending (lives : List Lifetime) (j : Nat) : List Lifetime := lives.filter (·.last = j)

/-- Instruction `j` with the markers around it. -/
def block (lives : List Lifetime) (x : Instruction × Nat) : List Instruction :=
  (starting lives x.2).map (fun l => .ofBuffers .alloc [l.buffer] []) ++ x.1 ::
    (ending lives x.2).map fun l => .ofBuffers .dealloc [l.buffer] []

theorem withMarkers_eq (lives : List Lifetime) (body : List Instruction) :
    withMarkers lives body = body.zipIdx.flatMap (block lives) := rfl

/-- The position where the block of instruction `j` starts. -/
def blockStart (lives : List Lifetime) (body : List Instruction) (j : Nat) : Nat :=
  ((body.zipIdx.take j).flatMap (block lives)).length

/-- The position of instruction `j` in the stream with markers. -/
def position (lives : List Lifetime) (body : List Instruction) (j : Nat) : Nat :=
  blockStart lives body j + (starting lives j).length

variable {lives : List Lifetime} {body : List Instruction}

theorem blockStart_le (lives : List Lifetime) {i j : Nat} (hi : i < body.length) (hij : i < j) :
    position lives body i + 1 + (ending lives i).length ≤ blockStart lives body j := by
  have h := flatMap_take_le (g := block lives) (l := body.zipIdx)
    (by rw [List.getElem?_zipIdx, List.getElem?_eq_getElem hi]; rfl) hij
  simp only [block, List.length_append, List.length_map, List.length_cons, Nat.zero_add] at h
  unfold position blockStart
  omega

/-- An element of the stream is an allocation, an instruction of the body or a deallocation. -/
theorem withMarkers_cases {p : Nat} {y : Instruction}
    (h : (withMarkers lives body)[p]? = some y) : ∃ j < body.length,
      (∃ q l, (starting lives j)[q]? = some l ∧ y = .ofBuffers .alloc [l.buffer] [] ∧
        p = blockStart lives body j + q) ∨
      (body[j]? = some y ∧ p = position lives body j) ∨
      (∃ q l, (ending lives j)[q]? = some l ∧ y = .ofBuffers .dealloc [l.buffer] [] ∧
        p = position lives body j + 1 + q) := by
  rw [withMarkers_eq] at h
  obtain ⟨j, q, ⟨x, j'⟩, hx, hq, rfl⟩ := getElem?_flatMap_iff.1 h
  obtain ⟨hxj, rfl⟩ : body[j]? = some x ∧ j = j' := by
    simpa [List.getElem?_zipIdx, and_comm] using hx
  refine ⟨j, (List.getElem?_eq_some_iff.1 hxj).1, ?_⟩
  simp only [block] at hq
  rw [List.getElem?_append, List.length_map] at hq
  split at hq
  · obtain ⟨l, hl, rfl⟩ := by simpa using hq
    exact .inl ⟨q, l, hl, rfl, rfl⟩
  · next hle =>
    obtain ⟨q, rfl⟩ := Nat.exists_eq_add_of_le (Nat.le_of_not_lt hle)
    rw [Nat.add_sub_cancel_left] at hq
    cases q with
    | zero =>
      obtain rfl := Option.some.inj hq
      exact .inr (.inl ⟨hxj, rfl⟩)
    | succ q =>
      obtain ⟨l, hl, rfl⟩ := by simpa using hq
      exact .inr (.inr ⟨q, l, hl, rfl, by simp only [position, blockStart]; omega⟩)

theorem getElem?_alloc {j q : Nat} {l : Lifetime} (hj : j < body.length)
    (hl : (starting lives j)[q]? = some l) :
    (withMarkers lives body)[blockStart lives body j + q]? =
      some (.ofBuffers .alloc [l.buffer] []) := by
  rw [withMarkers_eq]
  refine getElem?_flatMap_iff.2 ⟨j, q, (body[j], j), by simp [hj], ?_, rfl⟩
  have hlt := (List.getElem?_eq_some_iff.1 hl).1
  simp only [block]
  rw [List.getElem?_append_left (by simpa using hlt)]
  simp [hl]

theorem getElem?_dealloc {j q : Nat} {l : Lifetime} (hj : j < body.length)
    (hl : (ending lives j)[q]? = some l) :
    (withMarkers lives body)[position lives body j + 1 + q]? =
      some (.ofBuffers .dealloc [l.buffer] []) := by
  rw [withMarkers_eq]
  refine getElem?_flatMap_iff.2 ⟨j, (starting lives j).length + (q + 1), (body[j], j), by simp [hj],
    ?_, by simp only [position, blockStart]; omega⟩
  simp only [block]
  rw [List.getElem?_append_right (by simp), List.length_map, Nat.add_sub_cancel_left]
  simp [hl]

theorem getElem?_position {j : Nat} {x : Instruction} (hx : body[j]? = some x) :
    (withMarkers lives body)[position lives body j]? = some x := by
  rw [withMarkers_eq]
  refine getElem?_flatMap_iff.2 ⟨j, (starting lives j).length, (x, j), ?_, ?_, rfl⟩
  · rw [List.getElem?_zipIdx, hx]
    simp
  · simp [block]

theorem position_mono {i j : Nat} (hij : i ≤ j) (hj : j < body.length) :
    position lives body i ≤ position lives body j := by
  rcases Nat.lt_or_eq_of_le hij with hlt | rfl
  · have hle := blockStart_le lives (Nat.lt_trans hlt hj) hlt
    unfold position at *
    omega
  · exact Nat.le_refl _

/-- Without its markers the stream is the body again. -/
theorem filter_withMarkers {lives : List Lifetime} {body : List Instruction}
    (hbody : ∀ x ∈ body, x.op.isMarker = false) :
    (withMarkers lives body).filter (fun x => !x.op.isMarker) = body := by
  have hnone {op : Opcode} (hop : op.isMarker = true) (ls : List Lifetime) :
      (ls.map fun l => Instruction.ofBuffers op [l.buffer] []).filter (fun x => !x.op.isMarker) =
        [] := by
    simp [List.filter_eq_nil_iff, Instruction.ofBuffers, hop]
  have hblock : ∀ x ∈ body.zipIdx, (block lives x).filter (fun x => !x.op.isMarker) = [x.1] := by
    rintro ⟨x, j⟩ hx
    have hmarker := hbody x (List.mem_of_getElem? (List.mem_zipIdx_iff_getElem?.1 hx))
    rw [block, List.filter_append, hnone rfl, List.nil_append,
      List.filter_cons_of_pos (by simp [hmarker]), hnone rfl]
  rw [withMarkers_eq, List.filter_flatMap, List.flatMap_congr hblock, ← List.map_eq_flatMap,
    List.zipIdx_map_fst]

/-! ## Where an activation is marked -/

section

variable (hbody : ∀ x ∈ body, x.op.isMarker = false)
include hbody

theorem marks_alloc {p b : Nat} (h : Marks (withMarkers lives body) .alloc p b) :
    ∃ j < body.length, ∃ q l, (starting lives j)[q]? = some l ∧ l.buffer = b ∧
      p = blockStart lives body j + q := by
  obtain ⟨y, o, hy, hop, ho, rfl⟩ := h
  obtain ⟨j, hj, ⟨q, l, hl, rfl, rfl⟩ | ⟨hyj, -⟩ | ⟨q, l, -, rfl, -⟩⟩ := withMarkers_cases hy
  · obtain rfl := Option.some.inj ho
    exact ⟨j, hj, q, l, hl, rfl, rfl⟩
  · have hmarker := hbody y (List.mem_of_getElem? hyj)
    simp [hop, Opcode.isMarker] at hmarker
  · cases hop

theorem marks_dealloc {p b : Nat} (h : Marks (withMarkers lives body) .dealloc p b) :
    ∃ j < body.length, ∃ q l, (ending lives j)[q]? = some l ∧ l.buffer = b ∧
      p = position lives body j + 1 + q := by
  obtain ⟨y, o, hy, hop, ho, rfl⟩ := h
  obtain ⟨j, hj, ⟨q, l, -, rfl, -⟩ | ⟨hyj, -⟩ | ⟨q, l, hl, rfl, rfl⟩⟩ := withMarkers_cases hy
  · cases hop
  · have hmarker := hbody y (List.mem_of_getElem? hyj)
    simp [hop, Opcode.isMarker] at hmarker
  · obtain rfl := Option.some.inj ho
    exact ⟨j, hj, q, l, hl, rfl, rfl⟩

end

/-- Lifetimes in a filtered list are told apart by their buffers, also by position. -/
theorem filter_unique (hlives : lives.Pairwise fun l l' => l.buffer ≠ l'.buffer)
    {p : Lifetime → Bool} {q q' : Nat} {l l' : Lifetime} (hl : (lives.filter p)[q]? = some l)
    (hl' : (lives.filter p)[q']? = some l') (heq : l.buffer = l'.buffer) : q = q' := by
  obtain ⟨hq, rfl⟩ := List.getElem?_eq_some_iff.1 hl
  obtain ⟨hq', rfl⟩ := List.getElem?_eq_some_iff.1 hl'
  have hpairwise := List.pairwise_iff_getElem.1 (hlives.filter p)
  rcases Nat.lt_trichotomy q q' with hlt | rfl | hlt
  · exact absurd heq (hpairwise q q' hq hq' hlt)
  · rfl
  · exact absurd heq.symm (hpairwise q' q hq' hq hlt)

theorem eq_of_buffer (hlives : lives.Pairwise fun l l' => l.buffer ≠ l'.buffer) {l l' : Lifetime}
    (hl : l ∈ lives) (hl' : l' ∈ lives) (heq : l.buffer = l'.buffer) : l = l' := by
  rcases pairwise_cases hlives hl hl' with rfl | hne | hne
  · rfl
  · exact absurd heq hne
  · exact absurd heq.symm hne

theorem mem_starting {l : Lifetime} {j : Nat} : l ∈ starting lives j ↔ l ∈ lives ∧ l.first = j := by
  simp [starting]

theorem mem_ending {l : Lifetime} {j : Nat} : l ∈ ending lives j ↔ l ∈ lives ∧ l.last = j := by
  simp [ending]

/-- The stream brackets the activations of its lifetimes. -/
theorem bracketed_of_lives {buffers : List Buffer} (hbody : ∀ x ∈ body, x.op.isMarker = false)
    (hlives : lives.Pairwise fun l l' => l.buffer ≠ l'.buffer)
    (hdeclared : ∀ l ∈ lives, ∃ d, buffers[l.buffer]? = some d ∧ d.isActivation = true)
    (hspan : ∀ l ∈ lives, l.first ≤ l.last ∧ l.last < body.length) :
    Bracketed buffers (withMarkers lives body) := by
  constructor
  · intro p b h
    obtain ⟨j, -, q, l, hl, rfl, -⟩ := marks_alloc hbody h
    exact hdeclared l (mem_starting.1 (List.mem_of_getElem? hl)).1
  · intro p p' b h h'
    obtain ⟨j, -, q, l, hl, rfl, rfl⟩ := marks_alloc hbody h
    obtain ⟨j', -, q', l', hl', heq, rfl⟩ := marks_alloc hbody h'
    obtain ⟨hmem, rfl⟩ := mem_starting.1 (List.mem_of_getElem? hl)
    obtain ⟨hmem', rfl⟩ := mem_starting.1 (List.mem_of_getElem? hl')
    obtain rfl := eq_of_buffer hlives hmem' hmem heq
    rw [filter_unique hlives hl hl' rfl]
  · intro p p' b h h'
    obtain ⟨j, -, q, l, hl, rfl, rfl⟩ := marks_dealloc hbody h
    obtain ⟨j', -, q', l', hl', heq, rfl⟩ := marks_dealloc hbody h'
    obtain ⟨hmem, rfl⟩ := mem_ending.1 (List.mem_of_getElem? hl)
    obtain ⟨hmem', rfl⟩ := mem_ending.1 (List.mem_of_getElem? hl')
    obtain rfl := eq_of_buffer hlives hmem' hmem heq
    rw [filter_unique hlives hl hl' rfl]
  · intro p b h
    obtain ⟨j, -, q, l, hl, rfl, -⟩ := marks_alloc hbody h
    obtain ⟨hmem, -⟩ := mem_starting.1 (List.mem_of_getElem? hl)
    obtain ⟨q', hq'⟩ := List.mem_iff_getElem?.1 (mem_ending.2 ⟨hmem, rfl⟩)
    exact ⟨_, _, _, getElem?_dealloc (hspan l hmem).2 hq', rfl, rfl, rfl⟩
  · intro p b h
    obtain ⟨j, hj, q, l, hl, rfl, rfl⟩ := marks_dealloc hbody h
    obtain ⟨hmem, rfl⟩ := mem_ending.1 (List.mem_of_getElem? hl)
    obtain ⟨q', hq'⟩ := List.mem_iff_getElem?.1 (mem_starting.2 ⟨hmem, rfl⟩)
    have hle := (hspan l hmem).1
    have hfirst : l.first < body.length := Nat.lt_of_le_of_lt hle hj
    refine ⟨_, ?_, _, _, getElem?_alloc hfirst hq', rfl, rfl, rfl⟩
    have hlt := (List.getElem?_eq_some_iff.1 hq').1
    rcases Nat.lt_or_eq_of_le hle with hle | heq
    · have hstart := blockStart_le lives hfirst hle
      unfold position at *
      omega
    · rw [← heq]
      unfold position
      omega

/-- The range between the markers of an activation covers the instructions of its lifetime. -/
theorem covers_of_lives (hbody : ∀ x ∈ body, x.op.isMarker = false)
    (hlives : lives.Pairwise fun l l' => l.buffer ≠ l'.buffer) {l : Lifetime} (hmem : l ∈ lives)
    {r : LiveRange} (hstart : Marks (withMarkers lives body) .alloc r.start l.buffer)
    (hstop : Marks (withMarkers lives body) .dealloc r.stop l.buffer) {j : Nat}
    (hfirst : l.first ≤ j) (hlast : j ≤ l.last) :
    r.covers (position lives body j) = true := by
  obtain ⟨i, hi, q, l₁, hl₁, heq₁, hp⟩ := marks_alloc hbody hstart
  obtain ⟨k, hk, q', l₂, hl₂, heq₂, hp'⟩ := marks_dealloc hbody hstop
  obtain ⟨hmem₁, rfl⟩ := mem_starting.1 (List.mem_of_getElem? hl₁)
  obtain ⟨hmem₂, rfl⟩ := mem_ending.1 (List.mem_of_getElem? hl₂)
  obtain rfl := eq_of_buffer hlives hmem₁ hmem heq₁
  obtain rfl := eq_of_buffer hlives hmem₂ hmem₁ heq₂
  have hq := (List.getElem?_eq_some_iff.1 hl₁).1
  have hcovers : r.start < position lives body j ∧ position lives body j < r.stop := by
    rw [hp, hp']
    constructor
    · rcases Nat.lt_or_eq_of_le hfirst with hlt | rfl
      · have hle := blockStart_le lives hi hlt
        unfold position at *
        omega
      · unfold position
        omega
    · rcases Nat.lt_or_eq_of_le hlast with hlt | rfl
      · have hle := blockStart_le lives (Nat.lt_trans hlt hk) hlt
        unfold position at *
        omega
      · omega
  simpa [LiveRange.covers] using hcovers

end TensorCompiler.Lowering
