import TensorCompiler.Proofs.Graph.Progress
import TensorCompiler.Proofs.Run.Simulation
import TensorCompiler.Proofs.Run.Typed

/-!
Runs of lowered functions cannot go wrong. In a typed memory the instruction of a node that computes
its results succeeds and leaves the memory typed, except the gradient of probabilities at a label
outside its row. So a run of such instructions fails exactly where one refuses a label
(`Artifact.runFrom_progresses`).
-/

namespace TensorCompiler

variable {α : Type}

/-- The instruction takes the gradient of probabilities, and `label` is the first label it reads that
names none of the `width` classes of a row. -/
def Instruction.Refuses (a : Artifact) (m : Memory α) (x : Instruction) (label : Int64)
    (width : Nat) : Prop :=
  x.op = .softMaxGrad ∧ ∃ dst probabilities labels y d, x.buffers = [dst, probabilities, labels] ∧
    m.read a probabilities = .ok (.floats y) ∧ m.read a labels = .ok (.indices d) ∧
    y.shape.getD 1 0 = width ∧
    d.values.toList.find? (fun l : Int64 => ¬ (0 ≤ l.toInt ∧ l.toInt < width)) = some label

/-- Whether an instruction refuses a label is seen from what it reads. -/
theorem Instruction.refuses_iff {a : Artifact} {m : Memory α} {x : Instruction}
    {dst probabilities labels width : Nat} {y : Shaped α} {d : Shaped Int64} {label : Int64}
    (hop : x.op = .softMaxGrad) (hbuffers : x.buffers = [dst, probabilities, labels])
    (hy : m.read a probabilities = .ok (.floats y)) (hd : m.read a labels = .ok (.indices d)) :
    x.Refuses a m label width ↔ y.shape.getD 1 0 = width ∧
      d.values.toList.find? (fun l : Int64 => ¬ (0 ≤ l.toInt ∧ l.toInt < width)) = some label := by
  constructor
  · rintro ⟨-, dst', p, l, y', d', hbuffers', hy', hd', hwidth, hfind⟩
    obtain ⟨-, rfl, rfl⟩ : dst = dst' ∧ probabilities = p ∧ labels = l := by
      simpa using hbuffers.symm.trans hbuffers'
    obtain rfl : y = y' := by simpa using hy.symm.trans hy'
    obtain rfl : d = d' := by simpa using hd.symm.trans hd'
    exact ⟨hwidth, hfind⟩
  · rintro ⟨hwidth, hfind⟩
    exact ⟨hop, dst, probabilities, labels, y, d, hbuffers, hy, hd, hwidth, hfind⟩

theorem Instruction.Refuses.unique {a : Artifact} {m : Memory α} {x : Instruction}
    {label label' : Int64} {width width' : Nat} (h : x.Refuses a m label width)
    (h' : x.Refuses a m label' width') : label' = label ∧ width' = width := by
  obtain ⟨hop, dst, p, l, y, d, hbuffers, hy, hd, rfl, hfind⟩ := h
  obtain ⟨rfl, hfind'⟩ := (Instruction.refuses_iff hop hbuffers hy hd).1 h'
  exact ⟨Option.some.inj (hfind'.symm.trans hfind), rfl⟩

namespace Lowering

open TensorCompiler.Lowering.Stream TensorCompiler.Instruction

variable {s : Storage} {f : Function} {reuse : Bool} {st : Stream} {a : Artifact} {m : Memory α}

/-! ## Reads -/

theorem read_of_typeOf (hm : m.Typed a) {b : Nat} {type : TensorType} (h : a.typeOf b = .ok type) :
    ∃ t, m.read a b = .ok t ∧ t.type = type ∧ t.Filled := by
  obtain ⟨d, hd, rfl⟩ := Artifact.buffer_of_typeOf h
  exact hm.read hd

theorem reads_of_typeOf (hm : m.Typed a) {bs : List Nat} {types : List TensorType}
    (h : List.Forall₂ (fun b type => a.typeOf b = .ok type) bs types) :
    ∃ ts, List.Forall₂ (fun b t => m.read a b = .ok t) bs ts ∧ ts.map Tensor.type = types ∧
      ∀ t ∈ ts, t.Filled := by
  induction h with
  | nil => exact ⟨[], .nil, rfl, nofun⟩
  | cons hb _ ih =>
    obtain ⟨t, ht, htype, hfilled⟩ := read_of_typeOf hm hb
    obtain ⟨ts, hts, htypes, hothers⟩ := ih
    exact ⟨t :: ts, .cons ht hts, by rw [List.map_cons, htype, htypes],
      List.forall_mem_cons.2 ⟨hfilled, hothers⟩⟩

theorem readFloats_of_typeOf (hm : m.Typed a) {b : Nat} {shape : Shape}
    (h : a.typeOf b = .ok (.float shape)) :
    ∃ d : Dense α, m.readFloats a b = .ok d.toShaped ∧ d.shape = shape := by
  obtain ⟨t, ht, htype, hfilled⟩ := read_of_typeOf hm h
  obtain ⟨d, rfl, hd⟩ := exists_filled_floats htype hfilled
  exact ⟨d, by rw [Memory.readFloats, ht]; rfl, hd⟩

theorem effectsFill_zip {bs : List Nat} {types : List TensorType} {ps : List (Payload α)}
    (hbs : List.Forall₂ (fun b type => a.typeOf b = .ok type) bs types)
    (hps : List.Forall₂ Payload.Fills types ps) : EffectsFill a (bs.zip ps) := by
  have hpairs : List.Forall₂ (fun b (p : Payload α) => ∃ d, a.buffer? b = some d ∧ p.Fills d.type)
      bs ps := by
    refine forall₂_of_left (R := fun type b => a.typeOf b = .ok type) hbs.flip hps ?_
    intro type b p _ hb hp
    obtain ⟨d, hd, rfl⟩ := Artifact.buffer_of_typeOf hb
    exact ⟨d, hd, hp⟩
  exact fun ⟨b, p⟩ hw => List.forall₂_zip hpairs hw

/-! ## Effects -/

variable {j : Nat} {n : Node} {types : List TensorType} {x : Instruction}

theorem compute_reads (h : Lowered s f reuse st a) (hm : m.Typed a)
    (hwt : Function.WellTyped s f j n types) {srcs : List Nat}
    (hsrcs : List.Forall₂ (fun v b => st.bufferOf? v = some b) n.inputs srcs) :
    ∃ ts, List.Forall₂ (fun b t => m.read a b = .ok t) srcs ts ∧ ts.map Tensor.type = types ∧
      ∀ t ∈ ts, t.Filled :=
  reads_of_typeOf hm
    (forall₂_of_left hsrcs hwt.operands fun _ hb htype => typeOf_operand h hb htype)

variable [Scalar α]

/-- A node that computes its results stores them. -/
theorem effects_of_compute (h : Lowered s f reuse st a) (hn : f.nodes[j]? = some n)
    (hwt : Function.WellTyped s f j n types) {code : Opcode} {srcs dsts : List Nat}
    (hop : opcode? n.op = some code) (hlen : dsts.length = n.results.length)
    (hdsts : ∀ {r b : Nat}, dsts[r]? = some b → st.bufferOf? (.node j r) = some b)
    {ts : List (Tensor α)} (hreads : List.Forall₂ (fun b t => m.read a b = .ok t) srcs ts)
    (htypes : ts.map Tensor.type = types) {ps : List (Payload α)}
    (hcompute : n.op.compute n.results ts = some ps)
    (hfills : List.Forall₂ Payload.Fills n.results ps) :
    (Instruction.ofBuffers code dsts (read n.op srcs)).effects a m = .ok (dsts.zip ps) ∧
      EffectsFill a (dsts.zip ps) := by
  have hdtypes := (destinations h hn hop hlen hdsts).1
  have htyped : List.Forall₂ (fun (t : Tensor α) type => t.type = type) ts types := by
    rw [← htypes, List.forall₂_map_right_iff]
    exact List.forall₂_same.2 fun _ _ => rfl
  have hread : List.Forall₂ (fun b t => b ∈ read n.op srcs → m.read a b = .ok t) srcs ts :=
    hreads.imp fun b t ht (_ : b ∈ read n.op srcs) => ht
  have heffects := effects_compute hop hwt.typed htyped hread hdtypes
  rw [hcompute] at heffects
  exact ⟨toOption_eq_some.1 heffects, effectsFill_zip hdtypes hfills⟩

theorem labelIndex?_isNone (width : Nat) (label : Int64) :
    (Kernel.labelIndex? width label).isNone =
      decide (¬ (0 ≤ label.toInt ∧ label.toInt < (width : Int))) := by
  unfold Kernel.labelIndex?
  split
  · next h => simp [h]
  · next h => simp [h]

/-- The gradient of probabilities is stored, or a label is refused. -/
theorem effects_softMaxGrad (h : Lowered s f reuse st a) (hm : m.Typed a)
    (hn : f.nodes[j]? = some n) (hwt : Function.WellTyped s f j n types) {srcs dsts : List Nat}
    (hop : n.op = .softMaxGrad)
    (hsrcs : List.Forall₂ (fun v b => st.bufferOf? v = some b) n.inputs srcs)
    (hlen : dsts.length = n.results.length)
    (hdsts : ∀ {r b : Nat}, dsts[r]? = some b → st.bufferOf? (.node j r) = some b)
    (hx : x = .ofBuffers .softMaxGrad dsts (read n.op srcs)) :
    (∃ ws, x.effects a m = .ok ws ∧ EffectsFill a ws ∧ ∀ label width, ¬ x.Refuses a m label width) ∨
      ∃ label width, x.Refuses a m label width ∧
        x.effects a m = .error (.kernel (.label label width)) := by
  obtain ⟨ts, hreads, hts, hfilled⟩ := compute_reads h hm hwt hsrcs
  have hdtypes := (destinations h hn (by rw [hop]; rfl) hlen hdsts).1
  have htyped := hwt.typed
  rw [hop] at htyped
  generalize n.results = results at htyped hdtypes
  cases htyped with
  | softMaxGrad k w =>
    obtain ⟨t, rest, rfl, ht, hrest⟩ := List.map_eq_cons_iff.1 hts
    obtain ⟨u, rfl, hu⟩ := List.map_eq_singleton_iff.1 hrest
    obtain ⟨hfirst, hothers⟩ := List.forall_mem_cons.1 hfilled
    obtain ⟨y, rfl, hy⟩ := exists_filled_floats ht hfirst
    obtain ⟨d, rfl, hd⟩ := exists_filled_indices hu (hothers u (List.mem_singleton_self u))
    obtain ⟨probabilities, labels, rfl, hready, hreadd⟩ := inputs_two hreads
    obtain ⟨dst, rfl, hdst⟩ := inputs_one hdtypes
    have hwidth : y.shape.getD 1 0 = w := by rw [hy]; rfl
    have hrows : d.values.toList.length = k := by simp [d.size_eq, hd, Shape.volume]
    have hspec := Kernel.softMaxGrad_spec hy hrows
    have hbuffers : x.buffers = [dst, probabilities, labels] := by rw [hx, hop]; rfl
    have hrefuses (label : Int64) (width : Nat) : x.Refuses a m label width ↔ _ :=
      refuses_iff (by rw [hx]; rfl) hbuffers hready hreadd
    have heffects : x.effects a m =
        stored dst (Kernel.softMaxGrad y d.values.toList) := by
      rw [hx, hop]
      simp only [Instruction.effects, Instruction.ofBuffers, Instruction.buffers, read,
        List.map_cons, List.map_nil, List.cons_append, List.nil_append, Memory.readFloats,
        Memory.readIndices, hready, hreadd]
      rfl
    simp only [labelIndex?_isNone] at hspec
    split at hspec
    · next label hfind =>
      exact .inr ⟨label, w, (hrefuses label w).2 ⟨hwidth, hfind⟩, by rw [heffects, hspec]; rfl⟩
    · next hfind =>
      obtain ⟨values, hvalues, hsize⟩ := hspec
      obtain ⟨d', hd', htype⟩ := Artifact.buffer_of_typeOf hdst
      refine .inl ⟨[(dst, .floats values)], by rw [heffects, hvalues]; rfl, ?_, ?_⟩
      · intro e he
        obtain rfl := List.mem_singleton.1 he
        exact ⟨d', hd', htype ▸ ⟨rfl, hy ▸ hsize⟩⟩
      · intro label width hlabel
        obtain ⟨rfl, hfind'⟩ := (hrefuses label width).1 hlabel
        rw [hwidth, hfind] at hfind'
        cases hfind'

/-- A save copies what it reads. -/
theorem effects_save (h : Lowered s f reuse st a) (hm : m.Typed a)
    (hwt : Function.WellTyped s f j n types) {ref : StorageRef} {v : Value} {src dst : Nat}
    (hop : n.op = .save ref) (hin : n.inputs = [v]) (hsrc : st.bufferOf? v = some src)
    (hdst : st.bufferOf? (.storage ref) = some dst) :
    ∃ ws, (Instruction.ofBuffers .copy [dst] [src]).effects a m = .ok ws ∧ EffectsFill a ws := by
  have htyped := hwt.typed
  have hoperands := hwt.operands
  rw [hop] at htyped
  rw [hin] at hoperands
  generalize n.results = results at htyped
  cases htyped with
  | save _ type href =>
    have hv : Function.OperandType s f j v type := (List.forall₂_cons.1 hoperands).1
    have hstype := typeOf_operand h hsrc hv
    have hdtype := typeOf_operand h (v := .storage ref) (j := j) hdst href
    obtain ⟨t, ht, htype, hfilled⟩ := read_of_typeOf hm hstype
    obtain ⟨d, hd, hdt⟩ := Artifact.buffer_of_typeOf hdtype
    refine ⟨[(dst, t.payload)], ?_, fun w hw => ?_⟩
    · simp only [Instruction.effects, Instruction.ofBuffers, Instruction.buffers, List.map_cons,
        List.map_nil, List.cons_append, List.nil_append, hdtype, ht]
      rfl
    · obtain rfl := List.mem_singleton.1 hw
      exact ⟨d, hd, hdt ▸ htype ▸ hfilled.fills⟩

theorem descent_total {p : Descent} {w g t : Dense α} (hg : g.shape = w.shape)
    (ht : t.shape = w.shape) : ∃ ws ms, Kernel.descent p w.toShaped g t = .ok (ws, ms) := by
  have hgsize : w.values.size = g.values.size := by rw [w.size_eq, g.size_eq, hg]
  have htsize : w.values.size = t.values.size := by rw [w.size_eq, t.size_eq, ht]
  exact ⟨_, _, if_neg (by simp [← hgsize, ← htsize])⟩

/-- A step of descent moves the weight and its momentum. -/
theorem effects_sgd (h : Lowered s f reuse st a) (hm : m.Typed a)
    (hwt : Function.WellTyped s f j n types) {p : Descent} {v : Value} {ref : StorageRef}
    {gradient weight state : Nat} {name : String} {d : Buffer} (hop : n.op = .sgd p)
    (hin : n.inputs = [v, .storage ref]) (hgradient : st.bufferOf? v = some gradient)
    (hweight : st.bufferOf? (.storage ref) = some weight) (hd : st.buffers[weight]? = some d)
    (hstate : st.buffers[state]? = some ⟨state, name, d.type, .state⟩)
    (hx : x = ⟨.sgd p, [⟨weight, .readWrite⟩, ⟨gradient, .read⟩, ⟨state, .readWrite⟩]⟩) :
    ∃ w g t ws ms, m.readFloats a weight = .ok w ∧ m.readFloats a gradient = .ok g ∧
      m.readFloats a state = .ok t ∧ Kernel.descent p w g t = .ok (ws, ms) ∧
      x.effects a m = .ok [(weight, .floats ws), (state, .floats ms)] ∧
      EffectsFill a [(weight, .floats ws), (state, .floats ms)] := by
  have htyped := hwt.typed
  have hoperands := hwt.operands
  rw [hop] at htyped
  rw [hin] at hoperands
  generalize n.results = results at htyped
  cases htyped with
  | sgd _ shape =>
    obtain ⟨hv, hrest⟩ := List.forall₂_cons.1 hoperands
    have hwtype := typeOf_operand h hweight (List.forall₂_cons.1 hrest).1
    have hdtype : d.type = .float shape := by
      rw [h.typeOf_eq, hd] at hwtype
      exact Except.ok.inj hwtype
    have hstype : a.typeOf state = .ok (.float shape) := by rw [h.typeOf_eq, hstate, ← hdtype]
    obtain ⟨w, hw, hwshape⟩ := readFloats_of_typeOf hm hwtype
    obtain ⟨g, hg, hgshape⟩ := readFloats_of_typeOf hm (typeOf_operand h hgradient hv)
    obtain ⟨t, ht, htshape⟩ := readFloats_of_typeOf hm hstype
    obtain ⟨ws, ms, hkernel⟩ :=
      descent_total (p := p) (hgshape.trans hwshape.symm) (htshape.trans hwshape.symm)
    obtain ⟨hws, hms⟩ := descent_sizes hkernel
    refine ⟨w, g, t, ws, ms, hw, hg, ht, hkernel, ?_, fun e he => ?_⟩
    · rw [hx]
      simp only [Instruction.effects, Instruction.buffers, List.map_cons, List.map_nil, hw, hg, ht,
        hkernel, bind, Except.bind, Except.mapError]
      rfl
    · obtain ⟨dw, hdw, hdwtype⟩ := Artifact.buffer_of_typeOf hwtype
      obtain ⟨ds, hds, hdstype⟩ := Artifact.buffer_of_typeOf hstype
      rcases List.mem_pair.1 he with rfl | rfl
      · exact ⟨dw, hdw, hdwtype ▸ ⟨rfl, hws.trans (w.size_eq.trans (congrArg _ hwshape))⟩⟩
      · exact ⟨ds, hds, hdstype ▸ ⟨rfl, hms.trans (t.size_eq.trans (congrArg _ htshape))⟩⟩

/-- The node computes its results from any filled operands of its types, if it computes any and looks up
no labels. -/
def Computes (α : Type) [Scalar α] (n : Node) (types : List TensorType) : Prop :=
  n.op.isSink = false → n.op ≠ .softMaxGrad → ∀ ts : List (Tensor α), ts.map Tensor.type = types →
    (∀ t ∈ ts, t.Filled) →
    ∃ ps, n.op.compute n.results ts = some ps ∧ List.Forall₂ Payload.Fills n.results ps

/-- In a typed memory the instruction of a node has effects that fill its destinations, or refuses a
label. -/
theorem effects_total (h : Lowered s f reuse st a) (hm : m.Typed a) (hn : f.nodes[j]? = some n)
    (hwt : Function.WellTyped s f j n types) (hcomputes : Computes α n types) (he : st.Emits j n x) :
    (∃ ws, x.effects a m = .ok ws ∧ EffectsFill a ws ∧ ∀ label width, ¬ x.Refuses a m label width) ∨
      ∃ label width, x.Refuses a m label width ∧
        x.effects a m = .error (.kernel (.label label width)) := by
  have hno (hop : n.op ≠ .softMaxGrad) (label : Int64) (width : Nat) :
      ¬ x.Refuses a m label width := fun hrefuses => hop (he.softMaxGrad hrefuses.1)
  cases he with
  | view hop => exact .inl ⟨[], rfl, nofun, hno (by simp [hop])⟩
  | save hop hin hsrc hdst =>
    obtain ⟨ws, hws, hfit⟩ := effects_save h hm hwt hop hin hsrc hdst
    exact .inl ⟨ws, hws, hfit, hno (by simp [hop])⟩
  | descent hop hin hg hw hd hstate =>
    obtain ⟨_, _, _, ws, ms, -, -, -, -, heffects, hfit⟩ :=
      effects_sgd h hm hwt hop hin hg hw hd hstate rfl
    exact .inl ⟨_, heffects, hfit, hno (by simp [hop])⟩
  | @compute code srcs dsts hop hsrcs hlen hdsts =>
    by_cases hgrad : n.op = .softMaxGrad
    · obtain rfl : code = .softMaxGrad := by simpa [hgrad, opcode?] using hop.symm
      exact effects_softMaxGrad h hm hn hwt hgrad hsrcs hlen hdsts rfl
    · have hsink : n.op.isSink = false := by
        cases hn : n.op <;> simp [hn, opcode?, Operator.isSink] at hop ⊢
      obtain ⟨ts, hreads, hts, hfilled⟩ := compute_reads h hm hwt hsrcs
      obtain ⟨ps, hcompute, hfills⟩ := hcomputes hsink hgrad ts hts hfilled
      obtain ⟨heffects, hfill⟩ :=
        effects_of_compute h hn hwt hop hlen hdsts hreads hts hcompute hfills
      exact .inl ⟨_, heffects, hfill, hno hgrad⟩

/-- In a typed memory the effects of the instruction of a node fill its destinations. -/
theorem effects_fill [Scalar.Rowwise α] (h : Lowered s f reuse st a) (hm : m.Typed a)
    (hn : f.nodes[j]? = some n) (hwt : Function.WellTyped s f j n types) (he : st.Emits j n x)
    {ws : List (Nat × Payload α)} (heffects : x.effects a m = .ok ws) : EffectsFill a ws := by
  cases he with
  | view hop =>
    obtain rfl := Except.ok.inj heffects
    exact nofun
  | save hop hin hsrc hdst =>
    obtain ⟨ws', hws', hfill⟩ := effects_save h hm hwt hop hin hsrc hdst
    exact Except.ok.inj (hws'.symm.trans heffects) ▸ hfill
  | descent hop hin hg hw hd hstate =>
    obtain ⟨_, _, _, _, _, -, -, -, -, hws', hfill⟩ :=
      effects_sgd h hm hwt hop hin hg hw hd hstate rfl
    exact Except.ok.inj (hws'.symm.trans heffects) ▸ hfill
  | @compute code srcs dsts hop hsrcs hlen hdsts =>
    obtain ⟨ts, hreads, hts, hfilled⟩ := compute_reads h hm hwt hsrcs
    have hdtypes := (destinations h hn hop hlen hdsts).1
    have htyped : List.Forall₂ (fun (t : Tensor α) type => t.type = type) ts types := by
      rw [← hts, List.forall₂_map_right_iff]
      exact List.forall₂_same.2 fun _ _ => rfl
    have hcomputed := effects_compute hop hwt.typed htyped
      (hreads.imp fun b t ht (_ : b ∈ read n.op srcs) => ht) hdtypes
    rw [heffects] at hcomputed
    obtain ⟨ps, hcompute, rfl⟩ := Option.map_eq_some_iff.1 hcomputed.symm
    exact effectsFill_zip hdtypes (Operator.compute_fills hwt.typed hts hfilled hcompute)

end Lowering

/-! ## Runs -/

variable [Scalar α] {a : Artifact} {m : Memory α}

/-- In every typed memory the instruction succeeds and leaves a typed one, or refuses a label. -/
def Instruction.Progresses (α : Type) [Scalar α] (a : Artifact) (x : Instruction) : Prop :=
  ∀ m : Memory α, m.Typed a →
    (∃ m', x.execute a m = (.ok (), m') ∧ m'.Typed a ∧ ∀ label width, ¬ x.Refuses a m label width) ∨
      ∃ label width, x.Refuses a m label width ∧
        x.execute a m = (.error ⟨some x, .kernel (.label label width)⟩, m)

/-- Running the instructions comes to one that refuses a label, and `r` is its fault. -/
def Artifact.Refuses (a : Artifact) (m : Memory α) (xs : List Instruction) (r : RunFault) : Prop :=
  ∃ p x m' label width, xs[p]? = some x ∧ a.runFrom m (xs.take p) = (.ok (), m') ∧
    x.Refuses a m' label width ∧ r = ⟨some x, .kernel (.label label width)⟩

/-- The run of instructions that progress fails exactly where one refuses a label. -/
theorem Artifact.runFrom_progresses {xs : List Instruction} (hxs : ∀ x ∈ xs, x.Progresses α a)
    (hm : m.Typed a) (r : RunFault) : (a.runFrom m xs).1 = .error r ↔ a.Refuses m xs r := by
  induction xs generalizing m with
  | nil => exact ⟨nofun, fun ⟨_, _, _, _, _, hx, _⟩ => by cases hx⟩
  | cons x xs ih =>
    have hrest := fun y hy => hxs y (List.mem_cons_of_mem _ hy)
    rcases hxs x List.mem_cons_self m hm with ⟨m₁, hexecute, hm₁, hno⟩ | ⟨l, w, hrefuses, hexecute⟩
    · have hrun := runFrom_cons (a := a) hexecute
      rw [hrun, ih hrest hm₁]
      constructor
      · rintro ⟨p, y, m', l, w, hy, htaken, hrefuses, rfl⟩
        exact ⟨p + 1, y, m', l, w, hy, (hrun _).trans htaken, hrefuses, rfl⟩
      · rintro ⟨_ | p, y, m', l, w, hy, htaken, hrefuses, rfl⟩
        · obtain rfl := Option.some.inj hy
          obtain ⟨-, rfl⟩ := Prod.mk.inj htaken
          exact absurd hrefuses (hno l w)
        · exact ⟨p, y, m', l, w, hy, (hrun _).symm.trans htaken, hrefuses, rfl⟩
    · have hrun (ys : List Instruction) :
          a.runFrom m (x :: ys) = (.error ⟨some x, .kernel (.label l w)⟩, m) := by
        rw [runFrom, hexecute]
      rw [hrun]
      constructor
      · rintro ⟨⟩
        exact ⟨0, x, m, l, w, rfl, rfl, hrefuses, rfl⟩
      · rintro ⟨_ | p, y, m', l', w', hy, htaken, hrefuses', rfl⟩
        · obtain rfl := Option.some.inj hy
          obtain ⟨-, rfl⟩ := Prod.mk.inj htaken
          obtain ⟨rfl, rfl⟩ := hrefuses.unique hrefuses'
          rfl
        · rw [List.take_succ_cons, hrun] at htaken
          cases htaken

namespace Lowering

open TensorCompiler.Lowering.Stream TensorCompiler.Instruction

variable {s : Storage} {f : Function} {reuse : Bool} {st : Stream}

theorem progresses_of_effects {x : Instruction} (h : ∀ m : Memory α, m.Typed a →
    (∃ ws, x.effects a m = .ok ws ∧ EffectsFill a ws ∧ ∀ label width, ¬ x.Refuses a m label width) ∨
      ∃ label width, x.Refuses a m label width ∧
        x.effects a m = .error (.kernel (.label label width))) : x.Progresses α a := by
  intro m hm
  rcases h m hm with ⟨ws, hws, hfill, hno⟩ | ⟨l, w, hrefuses, heffects⟩
  · obtain ⟨m', hcommit, hm'⟩ := commit_total hm hfill
    exact .inl ⟨m', execute_ok_iff.2 ⟨ws, hws, hcommit⟩, hm', hno⟩
  · exact .inr ⟨l, w, hrefuses, by rw [execute, heffects]; rfl⟩

namespace Lowered

/-- Every instruction of the function progresses, if every node computes its results. -/
theorem progresses (h : Lowered s f reuse st a)
    (hcomputes : ∀ j n types, f.nodes[j]? = some n → Function.WellTyped s f j n types →
      Computes α n types) : ∀ x ∈ a.instructions, x.Progresses α a := by
  intro x hx
  rcases h.instruction_cases hx with ⟨hmarker, b, hb⟩ | ⟨j, hj⟩
  · refine fun m hm => .inl ⟨m, execute_marker a m hmarker hb, hm, ?_⟩
    rintro label width ⟨hop, -⟩
    simp [hop, Opcode.isMarker] at hmarker
  · obtain ⟨n, types, hn, hwt, he⟩ := h.emitted hj
    exact progresses_of_effects fun m hm =>
      effects_total h hm hn hwt (hcomputes j n types hn hwt) he

/-- Every instruction of the function leaves a typed memory typed, also when it fails. -/
theorem typed_execute [Scalar.Rowwise α] (h : Lowered s f reuse st a) (hm : m.Typed a)
    {x : Instruction} (hx : x ∈ a.instructions) : (x.execute a m).2.Typed a := by
  rcases h.instruction_cases hx with ⟨hmarker, hb⟩ | ⟨j, hj⟩
  · obtain ⟨b, hb⟩ := hb
    rwa [execute_marker a m hmarker hb]
  · obtain ⟨n, types, hn, hwt, he⟩ := h.emitted hj
    unfold execute
    cases heffects : x.effects a m with
    | error fault => exact hm
    | ok ws =>
      obtain ⟨m', hcommit, hm'⟩ := commit_total hm (effects_fill h hm hn hwt he heffects)
      simpa only [hcommit] using hm'

/-- So does a run of instructions of the function. -/
theorem typed_runFrom [Scalar.Rowwise α] (h : Lowered s f reuse st a) (hm : m.Typed a)
    {xs : List Instruction} (hxs : ∀ x ∈ xs, x ∈ a.instructions) : (a.runFrom m xs).2.Typed a := by
  induction xs generalizing m with
  | nil => exact hm
  | cons x xs ih =>
    obtain ⟨hx, hrest⟩ := List.forall_mem_cons.1 hxs
    have hm₁ := h.typed_execute hm hx
    rw [Artifact.runFrom]
    split
    · next m₁ hexecute =>
      rw [hexecute] at hm₁
      exact ih hm₁ hrest
    · next m₁ hexecute => rwa [hexecute] at hm₁

omit [Scalar α] in
/-- A view has a location with elements of the kind and number that it asks for, where its root has. -/
theorem located_of_roots (h : Lowered s f reuse st a)
    (hroots : ∀ {b : Nat} {d : Buffer}, st.buffers[b]? = some d → (∀ src, d.kind ≠ .view src) →
      ∃ location t, a.locate b = .ok location ∧ m.get? location = some t ∧
        t.type.kind = d.type.kind ∧ t.type.volume = d.type.volume) : m.Located a := by
  intro b
  induction b using Nat.strongRecOn with
  | ind b ih =>
    intro d hd
    rw [Artifact.buffer?, h.buffers] at hd
    by_cases hview : ∃ src, d.kind = .view src
    · obtain ⟨src, hkind⟩ := hview
      have horigin := h.describes.origin hd
      rw [hkind] at horigin
      obtain ⟨⟨i, r⟩, hvalue⟩ := horigin
      obtain ⟨rfl, n, shape, v, type, -, -, -, hsrc, hoperand, htype, hvolume⟩ :=
        reshape_of_view h.verified h.describes hvalue hd hkind
      obtain ⟨hlt, hroot⟩ := rootOf_view h.describes hd hkind
      obtain ⟨ds, hds, hdstype⟩ := Artifact.buffer_of_typeOf (typeOf_operand h hsrc hoperand)
      obtain ⟨location, t, hlocate, ht, hkind', hvolume'⟩ := ih src hlt hds
      refine ⟨location, t, ?_, ht, ?_⟩
      · rw [← hlocate, h.locate_eq, h.locate_eq, hroot]
      · rw [hdstype] at hkind' hvolume'
        rw [htype]
        exact ⟨hkind', hvolume'.trans hvolume.symm⟩
    · exact hroots hd fun src hkind => hview ⟨src, hkind⟩

/-- A run starts with a location for every buffer, when storage and optimizer state have their types. -/
theorem start_located (h : Lowered s f reuse st a) {vars : List (Tensor α)}
    {bindings state : IdMap (Tensor α)}
    (hsupplied : f.Supplied s ⟨vars, bindings, fun _ => none, []⟩)
    (hstate : ∀ d ∈ a.stateBuffers, ∃ t, state.get? d.id = some t ∧ t.type = d.type) :
    (Memory.start a vars bindings state).Located a := by
  refine h.located_of_roots fun {b d} hd hno => ?_
  have hroot := rootOf_eq_self h.describes hd hno
  have hlocate := h.locate_eq b
  have horigin := h.describes.origin hd
  rw [hroot, hd] at hlocate
  cases hkind : d.kind with
  | view src => exact absurd hkind (hno src)
  | state =>
    obtain ⟨t, ht, htype⟩ := hstate d (List.mem_filter.2
      ⟨h.buffers ▸ List.mem_of_getElem? hd, by simp [hkind]⟩)
    rw [h.describes.ids hd] at ht
    simp only [hkind] at hlocate
    exact ⟨_, t, hlocate, ht, htype ▸ ⟨rfl, rfl⟩⟩
  | activation =>
    obtain ⟨l, hl, rfl⟩ := exists_lifetime h.verified h.describes hd hkind
    obtain ⟨k, hk⟩ := h.exists_slot hl
    obtain ⟨slot, d', hslot, hd', hskind, hslen⟩ := hk.fits
    obtain rfl := Option.some.inj (hd.symm.trans hd')
    obtain ⟨t, ht, htype⟩ := Memory.start_slotsFit a vars bindings state k slot hslot
    refine ⟨_, t, hk.located hroot, ht, ?_⟩
    rw [htype, ← hskind, ← hslen]
    simp [TensorType.volume, Shape.volume]
  | weight ref =>
    rw [hkind] at horigin
    obtain ⟨name, type, -, htype, hd'⟩ := h.describes.weight horigin
    obtain rfl := Option.some.inj (hd.symm.trans hd')
    have href : ref ∈ f.storageRefs :=
      Function.mem_storageRefs.2 ((h.describes.seen_iff ref).1 ⟨b, horigin⟩)
    obtain ⟨t, ht, httype⟩ := hsupplied ref href
    obtain rfl := Option.some.inj (htype.symm.trans httype)
    cases ref with
    | var id => exact ⟨_, t, hlocate, ht, rfl, rfl⟩
    | placeholder id => exact ⟨_, t, hlocate, ht, rfl, rfl⟩

/-! ## Sizes -/

/-- Storage that a function names has the type of an operand. -/
theorem volume_lt_of_storage (h : Lowered s f reuse st a) (hfits : f.Fits s) {ref : StorageRef}
    (href : ref ∈ f.storageRefs) {type : TensorType} (htype : s.type? ref = some type) :
    type.volume < Word.size := by
  obtain ⟨n, hn, hmem⟩ := List.mem_flatMap.1 (Function.mem_storageRefs.1 href)
  obtain ⟨i, hi⟩ := List.mem_iff_getElem?.1 hn
  obtain ⟨types, hwt⟩ := Function.wellTyped_of_verify h.verified hi
  refine hwt.volume_lt hfits hn (List.mem_append_left _ ?_)
  rcases List.mem_append.1 hmem with hread | hsaved
  · obtain ⟨type', htypes, hoperand⟩ :=
      exists_right_of_forall₂ hwt.operands (Node.mem_storageReads.1 hread)
    exact Option.some.inj (htype.symm.trans hoperand) ▸ htypes
  · have hop : n.op = .save ref := by
      cases hop : n.op <;> simp_all [Node.destination?]
    have htyped := hwt.typed
    rw [hop] at htyped
    generalize n.results = results at htyped
    cases htyped with
    | save _ type' hsaved =>
      obtain rfl := Option.some.inj (htype.symm.trans hsaved)
      exact List.mem_cons_self

/-- A word counts the elements of every buffer of a function whose arithmetic stays within words. -/
theorem volume_lt (h : Lowered s f reuse st a) (hfits : f.Fits s) ⦃b : Nat⦄ ⦃d : Buffer⦄
    (hd : a.buffer? b = some d) : d.type.volume < Word.size := by
  rw [Artifact.buffer?, h.buffers] at hd
  have hresult (hvalue : ∃ v, st.values.lookup v = some b) : d.type.volume < Word.size := by
    obtain ⟨⟨i, r⟩, hvalue⟩ := hvalue
    obtain ⟨-, n, d', hn, htype, hd', -⟩ := h.describes.value hvalue
    obtain rfl := Option.some.inj (hd.symm.trans hd')
    obtain ⟨types, hwt⟩ := Function.wellTyped_of_verify h.verified hn
    exact hwt.volume_lt hfits (List.mem_of_getElem? hn)
      (List.mem_append_right _ (List.mem_of_getElem? htype))
  have hweight {ref : StorageRef} {w : Nat} {d' : Buffer} (hw : st.weights.lookup ref = some w)
      (hd' : st.buffers[w]? = some d') : d'.type.volume < Word.size := by
    obtain ⟨name, type, -, htype, hdw⟩ := h.describes.weight hw
    obtain rfl := Option.some.inj (hd'.symm.trans hdw)
    exact h.volume_lt_of_storage hfits
      (Function.mem_storageRefs.2 ((h.describes.seen_iff ref).1 ⟨w, hw⟩)) htype
  have horigin := h.describes.origin hd
  cases hkind : d.kind with
  | weight ref =>
    rw [hkind] at horigin
    exact hweight horigin hd
  | activation =>
    rw [hkind] at horigin
    exact hresult horigin
  | view src =>
    rw [hkind] at horigin
    exact hresult horigin
  | state =>
    rw [hkind] at horigin
    obtain ⟨j, p, o₁, o₂, hx⟩ := horigin
    obtain ⟨n, types, hn, -, he⟩ := h.emitted hx
    have hsgd : n.op = .sgd p := he.sgd rfl
    generalize hxe : (⟨.sgd p, [o₁, o₂, ⟨b, .readWrite⟩]⟩ : Instruction) = x at he
    cases he with
    | view hop => simp [hsgd] at hop
    | save hop => simp [hsgd] at hop
    | compute hop => simp [hsgd, opcode?] at hop
    | descent hop hin hg hw hdw hstate =>
      obtain ⟨-, -, -, rfl⟩ : _ ∧ _ ∧ _ ∧ b = _ := by simpa using hxe
      have hvolume := hweight hw hdw
      obtain rfl := Option.some.inj (hd.symm.trans hstate)
      exact hvolume

omit [Scalar α] in
/-- Where the arithmetic of a function stays within words, it is enough for a run that storage and
optimizer state have their types. -/
theorem typed_of_fits (h : Lowered s f reuse st a) (hfits : f.Fits s) (hm : m.Located a) :
    m.Typed a :=
  ⟨hm, hm.full (h.volume_lt hfits)⟩

end Lowered

end Lowering

end TensorCompiler
