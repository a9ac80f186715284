import TensorCompiler.Kernel.Rows
import TensorCompiler.Proofs.Kernel.Products

/-!
Batches and their samples. A batch is its samples one after the other (`Dense.toList_eq_samples`), so
a kernel treats samples apart (`Kernel.Samplewise`) when what it lists per output comes in blocks, one
for each sample. The blocks go through rows (`rows_flatMap`), sums of products (`apply_batch`), scatters
(`scatter_blocks`) and steps at labels (`softMaxGrad_samples`). No step uses a law of the arithmetic, so
the results are the same to the bit.
-/

namespace TensorCompiler

/-! ## Blocks -/

namespace Kernel

section

variable {β γ : Type}

/-- A list is its blocks when it has their elements, block by block. -/
theorem eq_blocks {l : List β} {F : Nat → List β} {m n : Nat} (hl : l.length = m * n)
    (hF : ∀ a, (F a).length = n) (h : ∀ a < m, ∀ b < n, l[a * n + b]? = (F a)[b]?) :
    l = (List.range m).flatMap F := by
  refine List.ext_getElem? fun i => ?_
  by_cases hi : i < m * n
  · obtain ⟨ha, hb⟩ := div_mod_lt hi
    rw [getElem?_grid_of_lt hF hi, ← h _ ha _ hb, Nat.div_add_mod']
  · rw [List.getElem?_eq_none (by omega), List.getElem?_eq_none (by rw [length_grid hF]; omega)]

theorem zip_blocks {ι : Type} {F : ι → List β} {G : ι → List γ}
    (h : ∀ a, (F a).length = (G a).length) (l : List ι) :
    (l.flatMap F).zip (l.flatMap G) = l.flatMap fun a => (F a).zip (G a) := by
  induction l with
  | nil => rfl
  | cons a l ih => simp only [List.flatMap_cons, List.zip_append (h a), ih]

/-- Rows do not run over the end of a list that is cut evenly. -/
theorem rows_append {len : Nat} {values : List β} (h : len ∣ values.length) (others : List β) :
    rows len (values ++ others) = rows len values ++ rows len others := by
  fun_induction rows len values with
  | case1 values hs =>
    rcases hs with rfl | rfl
    · rw [rows, dif_pos (.inl rfl), rows, dif_pos (.inl rfl)]
      rfl
    · rfl
  | case2 values hs ih =>
    have hlen : len ≠ 0 := fun hzero => hs (.inl hzero)
    have hvalues : values ≠ [] := fun hnil => hs (.inr hnil)
    have hle : len ≤ values.length := Nat.le_of_dvd (List.length_pos_iff.2 hvalues) h
    rw [rows, dif_neg (by simp [hlen, hvalues]), List.take_append_of_le_length hle,
      List.drop_append_of_le_length hle, ih (by rw [List.length_drop]; exact Nat.dvd_sub h dvd_rfl)]
    rfl

theorem rows_flatMap {ι : Type} {len : Nat} {F : ι → List β} (h : ∀ a, len ∣ (F a).length)
    (l : List ι) : rows len (l.flatMap F) = l.flatMap fun a => rows len (F a) := by
  induction l with
  | nil => rw [List.flatMap_nil, rows, dif_pos (.inr rfl), List.flatMap_nil]
  | cons a l ih => rw [List.flatMap_cons, rows_append (h a), ih, List.flatMap_cons]

end

end Kernel

/-! ## Samples -/

/-- The shape of one sample of a batch, as a batch of one. -/
def Shape.sample (s : Shape) : Shape := 1 :: s.tail

/-- Position `i` of sample `n`, in a batch and on its own. -/
theorem Shape.unravel_block {m n i : Nat} {ds : Shape} (hn : n < m) (hi : i < volume ds) :
    unravel (m :: ds) (n * volume ds + i) = n :: unravel ds i := by
  have hcontains : Contains (m :: ds) (n :: unravel ds i) := ⟨hn, contains_unravel hi⟩
  have hoffset : offset (m :: ds) (n :: unravel ds i) = n * volume ds + i := by
    rw [offset, offset_unravel hi]
  rw [← hoffset, unravel_offset hcontains]

namespace Dense

variable {β : Type} [Zero β]

/-- Sample `n` of a batch, as a batch of one. -/
def sample (d : Dense β) (n : Nat) : Dense β :=
  .ofValues d.shape.sample ((List.range (Shape.volume d.shape.tail)).map fun i =>
    d.entry (n * Shape.volume d.shape.tail + i)).toArray (by simp [Shape.sample, Shape.volume])

variable {d : Dense β} {m n i : Nat} {ds : Shape}

theorem shape_sample (h : d.shape = m :: ds) (n : Nat) : (d.sample n).shape = 1 :: ds := by
  show d.shape.sample = 1 :: ds
  rw [h]
  rfl

theorem size_sample (h : d.shape = m :: ds) (n : Nat) : (d.sample n).values.size = ds.volume := by
  rw [size_eq, shape_sample h, Shape.volume, Nat.one_mul]

theorem length_sample (h : d.shape = m :: ds) (n : Nat) :
    (d.sample n).values.toList.length = ds.volume := by
  rw [Array.length_toList, size_sample h]

theorem entry_sample (h : d.shape = m :: ds) (n : Nat) (hi : i < ds.volume) :
    (d.sample n).entry i = d.entry (n * ds.volume + i) := by
  simp [sample, Shaped.entry, h, hi]

theorem getElem?_sample (h : d.shape = m :: ds) (hn : n < m) (hi : i < ds.volume) :
    (d.sample n).values.toList[i]? = d.values.toList[n * ds.volume + i]? := by
  have hin : n * ds.volume + i < d.values.size := by
    rw [d.size_eq, h]
    exact Kernel.grid_lt hn hi
  simp [sample, Shaped.entry, h, hi, hin]

/-- A batch is its samples one after the other. -/
theorem toList_eq_samples (h : d.shape = m :: ds) :
    d.values.toList = (List.range m).flatMap fun n => (d.sample n).values.toList := by
  refine Kernel.eq_blocks (n := ds.volume) ?_ (length_sample h) fun n hn i hi => ?_
  · rw [Array.length_toList, d.size_eq, h, Shape.volume]
  · exact (getElem?_sample h hn hi).symm

end Dense

namespace Kernel

/-- A kernel gives for a batch what it gives for the samples alone, one after the other. -/
def Samplewise {β : Type} (batch : Nat) (whole : Except KernelFault (Array β))
    (alone : Nat → Except KernelFault (Array β)) : Prop :=
  ∃ parts : Nat → Array β, (∀ n < batch, alone n = .ok (parts n)) ∧
    ∃ all, whole = .ok all ∧ all.toList = (List.range batch).flatMap fun n => (parts n).toList

/-! ## Scatters -/

section

variable {α : Type}

theorem modify_append_left (a b : Array α) {i : Nat} (hi : i < a.size) (f : α → α) :
    (a ++ b).modify i f = a.modify i f ++ b := by
  ext j hj hj'
  · simp
  · simp only [Array.getElem_modify, Array.getElem_append, Array.size_modify]
    grind

theorem modify_append_right (a b : Array α) (i : Nat) (f : α → α) :
    (a ++ b).modify (a.size + i) f = a ++ b.modify i f := by
  ext j hj hj'
  · simp
  · simp only [Array.getElem_modify, Array.getElem_append]
    grind

variable [Zero α] [Add α]

/-- Contributions to the two parts of a payload, those to the first one coming first. -/
theorem scatter_append {k v : Nat} {first second : List (Nat × α)} (h : ∀ c ∈ first, c.1 < k) :
    scatter (k + v) (first ++ second.map fun c => (k + c.1, c.2)) =
      scatter k first ++ scatter v second := by
  have hleft (cs : List (Nat × α)) (a b : Array α) (hcs : ∀ c ∈ cs, c.1 < a.size) :
      cs.foldl (fun acc c => acc.modify c.1 (· + c.2)) (a ++ b) =
        cs.foldl (fun acc c => acc.modify c.1 (· + c.2)) a ++ b := by
    induction cs generalizing a with
    | nil => rfl
    | cons c cs ih =>
      rw [List.foldl_cons, modify_append_left a b (hcs c List.mem_cons_self), ih]
      · rfl
      · exact fun c' hc' => (Array.size_modify ..).symm ▸ hcs c' (List.mem_cons_of_mem _ hc')
  have hright (cs : List (Nat × α)) (a b : Array α) :
      (cs.map fun c => (a.size + c.1, c.2)).foldl (fun acc c => acc.modify c.1 (· + c.2)) (a ++ b) =
        a ++ cs.foldl (fun acc c => acc.modify c.1 (· + c.2)) b := by
    induction cs generalizing b with
    | nil => rfl
    | cons c cs ih => rw [List.map_cons, List.foldl_cons, modify_append_right, ih, List.foldl_cons]
  have hzeros : Array.replicate (k + v) (0 : α) = Array.replicate k 0 ++ Array.replicate v 0 :=
    Array.replicate_append_replicate.symm
  have hsize : (first.foldl (fun acc c => acc.modify c.1 (· + c.2))
      (Array.replicate k (0 : α))).size = k := size_scatter k first
  have hsecond := hright second (scatter k first) (Array.replicate v 0)
  rw [size_scatter] at hsecond
  rw [scatter, List.foldl_append, hzeros, hleft _ _ _ (by simpa using h)]
  exact hsecond

/-- Contributions that come block by block, each to its own part of a payload. -/
theorem scatter_blocks {v : Nat} {C : Nat → List (Nat × α)} (h : ∀ n, ∀ c ∈ C n, c.1 < v) (m : Nat) :
    (scatter (m * v) ((List.range m).flatMap fun n => (C n).map fun c => (n * v + c.1, c.2))).toList =
      (List.range m).flatMap fun n => (scatter v (C n)).toList := by
  induction m with
  | zero => simp [scatter]
  | succ m ih =>
    rw [List.range_succ, List.flatMap_append, List.flatMap_append, List.flatMap_singleton,
      List.flatMap_singleton, Nat.succ_mul, scatter_append, Array.toList_append, ih]
    intro e he
    obtain ⟨n, hn, he⟩ := List.mem_flatMap.1 he
    obtain ⟨c, hc, rfl⟩ := List.mem_map.1 he
    exact grid_lt (List.mem_range.1 hn) (h n c hc)

end

/-! ## Contractions -/

section

variable {α : Type} [Zero α] [Add α] [Mul α]

/-- A sum of products, read at other places that hold the same elements. -/
theorem dot_map {x x' y y' : Array α} {f : Tap → Tap} {taps : List Tap}
    (h : ∀ t ∈ taps, x.getD (f t).1 0 = x'.getD t.1 0 ∧ y.getD (f t).2 0 = y'.getD t.2 0)
    (start : α) : dot x y start (taps.map f) = dot x' y' start taps := by
  unfold dot
  induction taps generalizing start with
  | nil => rfl
  | cons t taps ih =>
    obtain ⟨hx, hy⟩ := h t List.mem_cons_self
    rw [List.map_cons, List.foldl_cons, List.foldl_cons, hx, hy,
      ih fun t ht => h t (List.mem_cons_of_mem _ ht)]

end

/-- The cell with its left indices `k` further on. -/
def Cell.shift (k : Nat) (cell : Cell) : Cell :=
  ⟨cell.bias, cell.taps.map fun t => (k + t.1, t.2)⟩

namespace Contraction

/-- The cells of `m` samples, `step` apart in the left operand. -/
def batch (c : Contraction) (m step : Nat) : Contraction :=
  (List.range m).flatMap fun n => c.map (Cell.shift (n * step))

variable {α : Type} [Zero α] [Add α] [Mul α] {c : Contraction} {x : Dense α} {m right bias : Nat}
  {ds : Shape}

/-- A contraction of a batch is that of its samples. -/
theorem apply_batch (hx : x.shape = m :: ds) (h : c.inside ds.volume right bias = true)
    (y b : Array α) : ((c.batch m ds.volume).apply x.values y b).toList =
      (List.range m).flatMap fun n => (c.apply (x.sample n).values y b).toList := by
  unfold apply batch
  rw [List.map_flatMap]
  refine List.flatMap_congr fun n _ => ?_
  rw [List.map_map]
  refine List.map_congr_left fun cell hcell => ?_
  exact dot_map (f := fun t => (n * ds.volume + t.1, t.2))
    (fun t ht => ⟨(x.entry_sample hx n ((inside_iff.1 h cell hcell).2 t ht).1).symm, rfl⟩) _

/-- The gradient of a batch is that of its samples. -/
theorem leftGradient_batch {g : Dense α} {es : Shape} (h : c.inside ds.volume right bias = true)
    (hg : g.shape = m :: es) (hlen : c.length = es.volume) (y : Array α) :
    ((c.batch m ds.volume).leftGradient (m * ds.volume) y g.values).toList =
      (List.range m).flatMap fun n => (c.leftGradient ds.volume y (g.sample n).values).toList := by
  have hpaired : (c.batch m ds.volume).paired g.values = (List.range m).flatMap fun n =>
      (c.paired (g.sample n).values).map fun p => (p.1.shift (n * ds.volume), p.2) := by
    rw [paired, batch, g.toList_eq_samples hg, zip_blocks]
    · exact List.flatMap_congr fun n _ => List.zip_map_left ..
    · exact fun n => by rw [List.length_map, hlen, g.length_sample hg]
  unfold leftGradient
  rw [hpaired, List.flatMap_assoc, ← scatter_blocks]
  · simp only [List.flatMap_map, List.map_flatMap, Cell.shift, List.map_map, Function.comp_def]
  · intro n e he
    obtain ⟨p, hp, he⟩ := List.mem_flatMap.1 he
    obtain ⟨t, ht, rfl⟩ := List.mem_map.1 he
    exact ((inside_iff.1 h p.1 (List.of_mem_zip hp).1).2 t ht).1

end Contraction

/-! ## Labels -/

section

variable {α : Type} [Scalar α] {width : Nat}

/-- A row less 1 at its label; unchanged when the label names none of its classes. -/
def lessLabel (width : Nat) (row : List α) (label : Int64) : List α :=
  match labelIndex? width label with
  | none => row
  | some i => row.modify i (· - 1)

theorem length_lessLabel (width : Nat) (row : List α) (label : Int64) :
    (lessLabel width row label).length = row.length := by
  unfold lessLabel
  split
  · rfl
  · exact List.length_modify ..

/-- A step that takes 1 off at the label of its row, over the rows from row `row` on, each with its
label. -/
theorem foldlM_rows {step : Array α → Int64 × Nat → Except KernelFault (Array α)}
    (hstep : ∀ {acc : Array α} {l : Int64} {row j : Nat}, labelIndex? width l = some j →
      row * width + j < acc.size → step acc (l, row) = .ok (acc.modify (row * width + j) (· - 1)))
    {pairs : List (List α × Int64)}
    (h : ∀ p ∈ pairs, p.1.length = width ∧ (labelIndex? width p.2).isSome) (row : Nat)
    (done : Array α) (hdone : done.size = row * width) :
    ((pairs.map Prod.snd).zipIdx row).foldlM step (done ++ (pairs.flatMap Prod.fst).toArray) =
      .ok (done ++ (pairs.flatMap fun p => lessLabel width p.1 p.2).toArray) := by
  induction pairs generalizing row done with
  | nil => rfl
  | cons p pairs ih =>
    obtain ⟨hlen, hlabel⟩ := h p List.mem_cons_self
    obtain ⟨j, hj⟩ := Option.isSome_iff_exists.1 hlabel
    have hjlen : j < p.1.toArray.size := by
      rw [List.size_toArray, hlen]
      exact labelIndex?_lt hj
    have hless : lessLabel width p.1 p.2 = p.1.modify j (· - 1) := by
      rw [lessLabel, hj]
    have hmodified : (done ++ (p.1 ++ pairs.flatMap Prod.fst).toArray).modify (row * width + j)
        (· - 1) = done ++ (lessLabel width p.1 p.2).toArray ++ (pairs.flatMap Prod.fst).toArray := by
      rw [← hdone, modify_append_right, ← List.append_toArray, modify_append_left _ _ hjlen,
        List.modify_toArray, hless, Array.append_assoc]
    rw [List.map_cons, List.zipIdx_cons, List.foldlM_cons, List.flatMap_cons, hstep hj, hmodified]
    · refine (ih (fun p hp => h p (List.mem_cons_of_mem _ hp)) (row + 1)
        (done ++ (lessLabel width p.1 p.2).toArray) ?_).trans ?_
      · simp [hless, hlen, hdone, Nat.succ_mul]
      · simp
    · rw [List.size_toArray] at hjlen
      simp only [Array.size_append, List.size_toArray, List.length_append, hdone]
      omega

/-- The gradient of the probabilities, row by row. -/
theorem softMaxGrad_rows {y : Dense α} {n : Nat} (hy : y.shape = [n, width])
    (pairs : List (List α × Int64))
    (h : ∀ p ∈ pairs, p.1.length = width ∧ (labelIndex? width p.2).isSome)
    (hvalues : y.values.toList = pairs.flatMap Prod.fst) :
    softMaxGrad y (pairs.map Prod.snd) =
      .ok (pairs.flatMap fun p => lessLabel width p.1 p.2).toArray := by
  have hstart : y.values = #[] ++ (pairs.flatMap Prod.fst).toArray := by
    rw [← hvalues, Array.empty_append, Array.toArray_toList]
  simp only [softMaxGrad, hy, hstart]
  rw [foldlM_rows ?_ h 0 #[] (by simp), Array.empty_append]
  intro acc l row j hj hinside
  simp only [hj, guarded, hinside, decide_true, if_true]

theorem isSome_label {labels : List Int64} (h : ∀ l ∈ labels, (labelIndex? width l).isSome) {n : Nat}
    (hn : n < labels.length) : (labelIndex? width (labels.getD n 0)).isSome := by
  rw [List.getD_eq_getElem?_getD, List.getElem?_eq_getElem hn]
  exact h _ (List.getElem_mem hn)

/-- The gradient of the probabilities, sample by sample. -/
theorem softMaxGrad_samples {y : Dense α} {m : Nat} (hy : y.shape = [m, width])
    {labels : List Int64} (hlength : labels.length = m)
    (hrange : ∀ l ∈ labels, (labelIndex? width l).isSome) :
    softMaxGrad y labels = .ok ((List.range m).flatMap fun n =>
      lessLabel width (y.sample n).values.toList (labels.getD n 0)).toArray := by
  have hlabels : labels = ((List.range m).map fun n =>
      ((y.sample n).values.toList, labels.getD n 0)).map Prod.snd := by
    refine List.ext_getElem (by simp [hlength]) fun n hn hn' => ?_
    simp [hn]
  have hrows := softMaxGrad_rows hy
    ((List.range m).map fun n => ((y.sample n).values.toList, labels.getD n 0)) ?_ ?_
  · rw [← hlabels, List.flatMap_map] at hrows
    exact hrows
  · intro p hp
    obtain ⟨n, hn, rfl⟩ := List.mem_map.1 hp
    exact ⟨by simp [y.length_sample hy, Shape.volume],
      isSome_label hrange (hlength.symm ▸ List.mem_range.1 hn)⟩
  · rw [List.flatMap_map]
    exact y.toList_eq_samples hy

end

end Kernel

end TensorCompiler
