import TensorCompiler.Proofs.Checks
import TensorCompiler.Proofs.Kernel.Samples
import TensorCompiler.Proofs.Kernel.Transpose

/-!
Kernels that go through a payload row by row. Rows along the last axis of an array that fills its shape
are all of one length (`length_of_mem_rows`), so a neighbourhood of channels lies inside its pixel
(`neighbourSum_ok`), and normalization and its gradient replace each pixel by one of the same length
(`normalization_eq`, `normalizationGrad_eq`). Along the batch axis the slices are added up element by
element (`batchedReduce_eq`).
-/

namespace TensorCompiler.Kernel

/-! ## Rows -/

section

variable {β γ ε : Type}

/-- A traversal of elements that all succeed replaces each one. -/
theorem mapM_ok_map {l : List β} {f : β → Except ε γ} {g : β → γ} (h : ∀ b ∈ l, f b = .ok (g b)) :
    l.mapM f = .ok (l.map g) :=
  mapM_ok_iff.2 (List.forall₂_map_right_iff.2 (List.forall₂_same.2 h))

theorem mapM_ok {l : List β} {f : β → Except ε γ} (h : ∀ b ∈ l, ∃ c, f b = .ok c) :
    ∃ cs, l.mapM f = .ok cs ∧ cs.length = l.length := by
  induction l with
  | nil => exact ⟨[], rfl, rfl⟩
  | cons b l ih =>
    obtain ⟨c, hc⟩ := h b List.mem_cons_self
    obtain ⟨cs, hcs, hlen⟩ := ih fun b hb => h b (List.mem_cons_of_mem _ hb)
    exact ⟨c :: cs, mapM_ok_iff.2 (.cons hc (mapM_ok_iff.1 hcs)), congrArg (· + 1) hlen⟩

theorem mapM_range_ok {n : Nat} {f : Nat → Except ε γ} (h : ∀ i < n, ∃ c, f i = .ok c) :
    ∃ cs, (List.range n).mapM f = .ok cs ∧ cs.length = n := by
  obtain ⟨cs, hcs, hlen⟩ := mapM_ok fun i hi => h i (List.mem_range.1 hi)
  exact ⟨cs, hcs, hlen.trans List.length_range⟩

/-- The rows of a list that is cut evenly are all of one length. -/
theorem length_of_mem_rows {len : Nat} {values row : List β} (h : len ∣ values.length)
    (hrow : row ∈ rows len values) : row.length = len := by
  fun_induction rows len values with
  | case1 values hs => cases hrow
  | case2 values hs ih =>
    have hvalues : values ≠ [] := fun hnil => hs (.inr hnil)
    have hle : len ≤ values.length := Nat.le_of_dvd (List.length_pos_iff.2 hvalues) h
    rcases List.mem_cons.1 hrow with rfl | hrow
    · rw [List.length_take, Nat.min_eq_left hle]
    · exact ih (by rw [List.length_drop]; exact Nat.dvd_sub h dvd_rfl) hrow

/-- The rows of a tensor along its last axis are all of its elements; there are none when the axis is
empty. -/
theorem flatten_rows {x : Dense β} {width : Nat} (h : width ∈ x.shape) :
    (rows width x.values.toList).flatten = x.values.toList := by
  rcases Nat.eq_zero_or_pos width with rfl | hwidth
  · have hsize : x.values.toList = [] := by
      rw [← List.length_eq_zero_iff, Array.length_toList, x.size_eq]
      exact Shape.volume_eq_zero_iff.2 h
    rw [hsize, rows, dif_pos (.inl rfl)]
    rfl
  · exact rows_flatten hwidth _

theorem dvd_length {x : Dense β} {width : Nat} (h : width ∈ x.shape) :
    width ∣ x.values.toList.length := by
  rw [Array.length_toList, x.size_eq, Shape.volume_eq_prod]
  exact List.dvd_prod h

/-- Rows along the last axis, each replaced by as many elements, come to as many in all. -/
theorem length_flatMap_rows {f : List β → List γ} {x : Dense β} {width : Nat}
    (hf : ∀ row : List β, row.length = width → (f row).length = width) (h : width ∈ x.shape) :
    ((rows width x.values.toList).flatMap f).length = x.shape.volume := by
  have hrows : (rows width x.values.toList).map (fun row => (f row).length) =
      (rows width x.values.toList).map List.length :=
    List.map_congr_left fun row hrow => by
      have hlen := length_of_mem_rows (dvd_length h) hrow
      rw [hf row hlen, hlen]
  rw [List.length_flatMap, hrows, ← List.length_flatten, flatten_rows h, Array.length_toList, x.size_eq]

/-- Lists of one length have the same number of rows. -/
theorem length_rows_congr {width : Nat} {values : List β} {others : List γ}
    (h : values.length = others.length) :
    (rows width values).length = (rows width others).length := by
  fun_induction rows width values generalizing others with
  | case1 values hs =>
    have hs' : width = 0 ∨ others = [] := by
      simpa only [← List.length_eq_zero_iff, h] using hs
    rw [rows, dif_pos hs']
    rfl
  | case2 values hs ih =>
    have hs' : ¬ (width = 0 ∨ others = []) := by
      simpa only [← List.length_eq_zero_iff, h] using hs
    rw [rows.eq_1 width others, dif_neg hs', List.length_cons, List.length_cons,
      @ih (others.drop width) (by simp [h])]

end

variable {α : Type} [Scalar α]

/-! ## Neighbouring channels -/

/-- The neighbourhood of a channel lies inside its row, also where the sum of its upper end has wrapped
around: then it begins at the first channel. -/
theorem neighbourSum_ok (half : Nat) (row : Array α) {c : Nat} (hc : c < row.size) :
    ∃ sum, neighbourSum half row.size row c = .ok sum := by
  have hmodulus : 2 * row.size ≤ Word.modulus (2 * row.size) := Word.le_modulus _
  have hlow : c - half ≤ min ((c + half) % Word.modulus (2 * row.size)) (row.size - 1) + 1 := by
    rcases Nat.lt_or_ge (c + half) (Word.modulus (2 * row.size)) with hlt | hge
    · rw [Nat.mod_eq_of_lt hlt]
      omega
    · have hzero : c - half = 0 := by omega
      rw [hzero]
      exact Nat.zero_le _
  have hhigh : min ((c + half) % Word.modulus (2 * row.size)) (row.size - 1) < row.size :=
    Nat.lt_of_le_of_lt (Nat.min_le_right ..) (by omega)
  unfold neighbourSum guarded
  rw [if_neg (by omega), if_pos]
  · exact ⟨_, rfl⟩
  · simp only [Bool.and_eq_true, decide_eq_true_eq]
    exact ⟨hlow, hhigh⟩

theorem normalizationScales_ok (p : Normalization) (pixel : Array α) :
    ∃ scales, normalizationScales p pixel.size pixel = .ok scales ∧ scales.length = pixel.size := by
  refine mapM_range_ok fun c hc => ?_
  obtain ⟨sum, hsum⟩ := neighbourSum_ok p.halfWindow (pixel.map fun x => x * x)
    (show c < _ by rwa [Array.size_map])
  rw [Array.size_map] at hsum
  exact ⟨_, by rw [hsum]; rfl⟩

theorem normalizePixel_ok (p : Normalization) (pixel : List α) :
    ∃ out, normalizePixel p pixel.length pixel = .ok out ∧ out.length = pixel.length := by
  obtain ⟨scales, hscales, hlen⟩ := normalizationScales_ok p pixel.toArray
  rw [List.size_toArray] at hscales hlen
  refine ⟨_, by rw [normalizePixel, hscales]; rfl, ?_⟩
  rw [List.length_zipWith, hlen, Nat.min_self]

theorem normalizePixelGrad_ok (p : Normalization) (pixel grad : List α)
    (hgrad : grad.length = pixel.length) :
    ∃ out, normalizePixelGrad p pixel.length pixel grad = .ok out ∧ out.length = pixel.length := by
  obtain ⟨scales, hscales, hlen⟩ := normalizationScales_ok p pixel.toArray
  rw [List.size_toArray] at hscales hlen
  rw [normalizePixelGrad, hscales]
  simp only [bind, Except.bind, hlen, hgrad, Nat.lt_irrefl, or_self, if_false]
  refine mapM_range_ok fun c hc => ?_
  generalize hratios : (Array.range pixel.length).map _ = ratios
  have hsize : ratios.size = pixel.length := by rw [← hratios, Array.size_map, Array.size_range]
  obtain ⟨sum, hsum⟩ := neighbourSum_ok p.halfWindow ratios (hsize ▸ hc)
  rw [hsize] at hsum
  exact ⟨_, by rw [hsum]; rfl⟩

/-- Normalization replaces every pixel by one of the same length. -/
theorem normalization_eq (p : Normalization) (channels : Nat) : ∃ f : List α → List α,
    (∀ pixel : List α, pixel.length = channels → (f pixel).length = channels) ∧
      ∀ {x : Dense α} {n h w : Nat}, x.shape = [n, h, w, channels] →
        normalization p x = .ok ((rows channels x.values.toList).flatMap f).toArray := by
  have hpixel (pixel : List α) : ∃ out : List α, pixel.length = channels →
      normalizePixel p channels pixel = .ok out ∧ out.length = channels := by
    obtain ⟨out, hout, hlen⟩ := normalizePixel_ok p pixel
    exact ⟨out, fun h => h ▸ ⟨hout, hlen⟩⟩
  choose f hf using hpixel
  refine ⟨f, fun pixel hlen => (hf pixel hlen).2, fun {x n h w} hx => ?_⟩
  have hrows := mapM_ok_map (l := rows channels x.values.toList) fun pixel hmem =>
    (hf pixel (length_of_mem_rows (dvd_length (by simp [hx])) hmem)).1
  simp only [normalization, hx, hrows]
  rfl

/-- The gradient of normalization replaces every pixel, with its gradient, by one of the same length. -/
theorem normalizationGrad_eq (p : Normalization) (channels : Nat) :
    ∃ f : List α × List α → List α,
      (∀ r : List α × List α, r.1.length = channels → r.2.length = channels →
        (f r).length = channels) ∧
      ∀ {x g : Dense α} {n h w : Nat}, x.shape = [n, h, w, channels] → g.shape = x.shape →
        normalizationGrad p x g = .ok
          (((rows channels x.values.toList).zip (rows channels g.values.toList)).flatMap f).toArray := by
  have hpixel (r : List α × List α) : ∃ out : List α, r.1.length = channels → r.2.length = channels →
      normalizePixelGrad p channels r.1 r.2 = .ok out ∧ out.length = channels := by
    by_cases hlen : r.2.length = r.1.length
    · obtain ⟨out, hout, houtlen⟩ := normalizePixelGrad_ok p r.1 r.2 hlen
      exact ⟨out, fun h _ => h ▸ ⟨hout, houtlen⟩⟩
    · exact ⟨[], fun h h' => absurd (h'.trans h.symm) hlen⟩
  choose f hf using hpixel
  refine ⟨f, fun r h h' => (hf r h h').2, fun {x g n h w} hx hg => ?_⟩
  have hsize : g.values.size = x.values.size := by rw [g.size_eq, x.size_eq, hg]
  have hpixels := mapM_ok_map
    (l := (rows channels x.values.toList).zip (rows channels g.values.toList)) fun r hmem =>
      (hf r (length_of_mem_rows (dvd_length (by simp [hx])) (List.of_mem_zip hmem).1)
        (length_of_mem_rows (dvd_length (by simp [hg, hx])) (List.of_mem_zip hmem).2)).1
  simp only [normalizationGrad, hx, hsize, Nat.lt_irrefl, if_false, hpixels]
  rfl

/-! ## Slices -/

theorem length_addSlice (sums slice : List α) : (addSlice sums slice).length = sums.length := by
  fun_induction addSlice sums slice with
  | case1 sum sums x slice ih => rw [List.length_cons, ih, List.length_cons]
  | case2 sums _ => rfl

theorem getD_addSlice {sums slice : List α} (h : slice.length = sums.length) {i : Nat}
    (hi : i < sums.length) : (addSlice sums slice).getD i 0 = sums.getD i 0 + slice.getD i 0 := by
  induction sums generalizing slice i with
  | nil => cases hi
  | cons sum sums ih =>
    cases slice with
    | nil => cases h
    | cons x slice =>
      cases i with
      | zero => rfl
      | succ i =>
        rw [addSlice, List.getD_cons_succ, ih (Nat.succ.inj h) (Nat.lt_of_succ_lt_succ hi),
          List.getD_cons_succ, List.getD_cons_succ]

/-- Slices add up element by element, in order. -/
theorem foldl_addSlice (len : Nat) {slices : List (List α)} (h : ∀ slice ∈ slices, slice.length = len)
    {sums : List α} (hsums : sums.length = len) : slices.foldl addSlice sums =
      (List.range len).map fun i =>
        slices.foldl (fun acc slice => acc + slice.getD i 0) (sums.getD i 0) := by
  induction slices generalizing sums with
  | nil =>
    refine List.ext_getElem (by simp [hsums]) fun i hi _ => ?_
    have hi : i < sums.length := hi
    simp [hi]
  | cons slice slices ih =>
    obtain ⟨hslice, hslices⟩ := List.forall_mem_cons.1 h
    rw [List.foldl_cons, ih hslices ((length_addSlice sums slice).trans hsums)]
    refine List.map_congr_left fun i hi => ?_
    rw [List.foldl_cons, getD_addSlice (hslice.trans hsums.symm) (hsums ▸ List.mem_range.1 hi)]

/-- The rows of a batch that are as long as a sample are its samples. -/
theorem rows_eq_samples {x : Dense α} {n : Nat} {ds : Shape} (hx : x.shape = n :: ds)
    (hpos : 0 < ds.volume) : rows ds.volume x.values.toList =
      (List.range n).map fun k => (x.sample k).values.toList := by
  have hlen := x.length_sample hx
  have hone (k : Nat) : rows ds.volume (x.sample k).values.toList = [(x.sample k).values.toList] := by
    have hne : (x.sample k).values.toList ≠ [] := List.ne_nil_of_length_pos (hlen k ▸ hpos)
    rw [rows, dif_neg (by simp only [hne, or_false]; omega), ← hlen k, List.take_length,
      List.drop_length, rows, dif_pos (.inr rfl)]
  rw [x.toList_eq_samples hx, rows_flatMap fun k => (hlen k).symm ▸ dvd_rfl, List.map_eq_flatMap]
  exact List.flatMap_congr fun k _ => hone k

/-- The sum along the batch axis adds up the elements at one place of all samples. -/
theorem batchedReduce_eq {x : Dense α} {n : Nat} {ds : Shape} (hx : x.shape = n :: ds) :
    batchedReduce (x : Shaped α) = .ok ((List.range ds.volume).map fun i =>
      (List.range n).foldl (fun acc k => acc + x.values.getD (k * ds.volume + i) 0) 0).toArray := by
  simp only [batchedReduce, hx]
  refine congrArg (fun l => Except.ok (List.toArray l)) ?_
  rcases Nat.eq_zero_or_pos ds.volume with hzero | hpos
  · have hempty : x.values.toList = [] := by
      rw [← List.length_eq_zero_iff, Array.length_toList, x.size_eq, hx, Shape.volume, hzero,
        Nat.mul_zero]
    rw [hempty, hzero, rows, dif_pos (.inr rfl)]
    rfl
  · rw [Nat.max_eq_left hpos, rows_eq_samples hx hpos, foldl_addSlice ds.volume]
    · refine List.map_congr_left fun i hi => ?_
      have hentry (k : Nat) : (x.sample k).values.toList.getD i 0 =
          x.values.getD (k * ds.volume + i) 0 := by
        have hsample := x.entry_sample hx k (List.mem_range.1 hi)
        rwa [Shaped.entry, Shaped.entry, Array.getD_eq_getD_getElem?, ← Array.getElem?_toList,
          ← List.getD_eq_getElem?_getD] at hsample
      have hstart : (List.replicate ds.volume (0 : α)).getD i 0 = 0 := by
        rw [List.getD_replicate 0 (List.mem_range.1 hi)]
      simp only [List.foldl_map, hentry, hstart]
    · intro slice hslice
      obtain ⟨k, -, rfl⟩ := List.mem_map.1 hslice
      exact x.length_sample hx k
    · exact List.length_replicate

end TensorCompiler.Kernel
