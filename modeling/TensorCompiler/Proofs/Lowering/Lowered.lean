import TensorCompiler.Proofs.Lowering.Markers
import TensorCompiler.Proofs.Plan.Consistent

/-!
Lowering a verified function succeeds while a word counts the bytes of its arena (`exists_lower`).
`Lowered` is what is known of the artifact, and `Lowered.verify_ok` takes the checks of an artifact
one after the other.
-/

namespace TensorCompiler.Lowering

open TensorCompiler.Lowering.Stream TensorCompiler.Plan

/-- The artifact `a` of the verified function `f`, whose stream is `st`. -/
structure Lowered (s : Storage) (f : Function) (reuse : Bool) (st : Stream) (a : Artifact) :
    Prop where
  verified : f.verify s = .ok ()
  describes : Describes s f f.nodes.length (f.nodes.flatMap Node.storageRefs) st
  buffers : a.buffers = st.buffers
  instructions : a.instructions = withMarkers (lifetimes st) st.body
  planned : Planned reuse st.buffers st.roots a.instructions a.plan

variable {s : Storage} {f : Function} {reuse : Bool} {st : Stream} {a : Artifact}

/-! ## The body -/

theorem opcode?_not_marker {op : Operator} {code : Opcode} (h : opcode? op = some code) :
    code.isMarker = false := by
  cases op <;> simp only [opcode?, Option.some.injEq, reduceCtorEq] at h <;> subst h <;> rfl

theorem not_marker_of_emits {i : Nat} {n : Node} {x : Instruction} (h : st.Emits i n x) :
    x.op.isMarker = false := by
  cases h with
  | view => rfl
  | save => rfl
  | descent => rfl
  | compute hop => exact opcode?_not_marker hop

/-- The operation of an operator takes as many buffers as the operator has results and operands that
are read. -/
theorem signature_of_typed {op : Operator} {code : Opcode} {ts rs : List TensorType}
    {srcs : List Nat} (hop : opcode? op = some code) (htyped : Typing.Typed s op ts rs)
    (hlen : srcs.length = ts.length) : code.signature =
      List.replicate rs.length .write ++ List.replicate (read op srcs).length .read := by
  cases htyped <;> simp only [opcode?, Option.some.injEq, reduceCtorEq] at hop <;> subst hop <;>
    simp only [read, List.length_take, hlen] <;> rfl

theorem signature_of_emits {i : Nat} {n : Node} {x : Instruction} {types : List TensorType}
    (hwt : Function.WellTyped s f i n types) (h : st.Emits i n x) :
    x.operands.map (·.access) = x.op.signature := by
  cases h with
  | view => rfl
  | save => rfl
  | descent => rfl
  | compute hop hsrcs hlen _ =>
    have htyped := Typing.typed_of_resultTypes hwt.results
    have hlen' := hsrcs.length_eq.symm.trans hwt.operands.length_eq
    simp [Instruction.ofBuffers, signature_of_typed hop htyped hlen', hlen, Function.comp_def,
      List.map_const']

theorem declared_of_accesses {k : Nat} {seen : List StorageRef} (h : Describes s f k seen st)
    {i : Nat} {n : Node} {o : Operand} (ho : st.Accesses i n o) :
    o.buffer < st.buffers.length := by
  cases ho with
  | result hv => exact h.lt_of_bufferOf hv
  | destination _ hv => exact h.lt_of_bufferOf hv
  | operand _ hv _ => exact h.lt_of_bufferOf hv
  | momentum hm => exact h.lt_of_momentum hm

namespace Lowered

/-- Every instruction of the body is the instruction of its node. -/
theorem emitted (h : Lowered s f reuse st a) {j : Nat} {x : Instruction}
    (hx : st.body[j]? = some x) : ∃ n types, f.nodes[j]? = some n ∧
      Function.WellTyped s f j n types ∧ st.Emits j n x := by
  have hj : j < f.nodes.length := h.describes.length ▸ (List.getElem?_eq_some_iff.1 hx).1
  have hn := List.getElem?_eq_getElem hj
  obtain ⟨y, hy, he⟩ := h.describes.emits hj hn
  obtain rfl := Option.some.inj (hx.symm.trans hy)
  obtain ⟨types, hwt⟩ := Function.wellTyped_of_verify h.verified hn
  exact ⟨_, types, hn, hwt, he⟩

theorem not_marker (h : Lowered s f reuse st a) : ∀ x ∈ st.body, x.op.isMarker = false := by
  intro x hx
  obtain ⟨j, hj⟩ := List.mem_iff_getElem?.1 hx
  obtain ⟨n, types, -, -, he⟩ := h.emitted hj
  exact not_marker_of_emits he

theorem alive (h : Lowered s f reuse st a) : ∀ l ∈ lifetimes st, Alive st l :=
  fun _ hl => alive_of_mem h.verified h.describes hl

end Lowered

/-- The stream of a verified function brackets its activations. -/
theorem stream_bracketed (hverify : f.verify s = .ok ()) {seen : List StorageRef}
    (h : Describes s f f.nodes.length seen st) :
    Bracketed st.buffers (withMarkers (lifetimes st) st.body) := by
  refine bracketed_of_lives ?_ (lifetimes_nodup h) (fun l hl => ?_) fun l hl => ?_
  · intro x hx
    obtain ⟨j, hj⟩ := List.mem_iff_getElem?.1 hx
    have hlt : j < f.nodes.length := h.length ▸ (List.getElem?_eq_some_iff.1 hj).1
    obtain ⟨y, hy, he⟩ := h.emits hlt (List.getElem?_eq_getElem hlt)
    exact Option.some.inj (hj.symm.trans hy) ▸ not_marker_of_emits he
  · obtain ⟨d, hd, hkind⟩ := (alive_of_mem hverify h hl).declared
    exact ⟨d, hd, by simpa [Buffer.isActivation] using hkind⟩
  · exact ⟨(alive_of_mem hverify h hl).first_le, (alive_of_mem hverify h hl).last_lt⟩

/-! ## The checks of an artifact -/

namespace Lowered

theorem positions_ok (h : Lowered s f reuse st a) :
    Artifact.checkPositions a.buffers = .ok () := by
  refine (forM_ok_iff _ _).2 fun x hx => ?_
  rw [h.buffers] at hx
  simp [h.describes.ids (List.mem_zipIdx_iff_getElem?.1 hx)]

/-- The operands of markers and of instructions fit their operations. -/
theorem operands_fit (h : Lowered s f reuse st a) {p : Nat} {y : Instruction}
    (hy : a.instructions[p]? = some y) : y.operands.map (·.access) = y.op.signature ∧
      ∀ o ∈ y.operands, o.buffer < st.buffers.length := by
  rw [h.instructions] at hy
  have hlife {l : Lifetime} (hl : l ∈ lifetimes st) : l.buffer < st.buffers.length := by
    obtain ⟨d, hd, -⟩ := (h.alive l hl).declared
    exact (List.getElem?_eq_some_iff.1 hd).1
  obtain ⟨j, hj, ⟨q, l, hl, rfl, -⟩ | ⟨hyj, -⟩ | ⟨q, l, hl, rfl, -⟩⟩ := withMarkers_cases hy
  · have hmem := (mem_starting.1 (List.mem_of_getElem? hl)).1
    exact ⟨rfl, by simpa [Instruction.ofBuffers] using hlife hmem⟩
  · obtain ⟨n, types, -, hwt, he⟩ := h.emitted hyj
    exact ⟨signature_of_emits hwt he,
      fun o ho => declared_of_accesses h.describes (accesses_of_emits hyj he ho)⟩
  · have hmem := (mem_ending.1 (List.mem_of_getElem? hl)).1
    exact ⟨rfl, by simpa [Instruction.ofBuffers] using hlife hmem⟩

theorem operands_ok (h : Lowered s f reuse st a) :
    (a.instructions.zipIdx.forM fun (i, position) =>
      Artifact.checkOperands a.buffers position i) = .ok () := by
  refine (forM_ok_iff _ _).2 fun ⟨y, p⟩ hy => ?_
  obtain ⟨hsignature, hdeclared⟩ := h.operands_fit (List.mem_zipIdx_iff_getElem?.1 hy)
  show Artifact.checkOperands a.buffers p y = .ok ()
  unfold Artifact.checkOperands
  rw [← hsignature, if_neg (by simp)]
  refine (forM_ok_iff _ _).2 fun ⟨o, expected⟩ ho => ?_
  obtain ⟨k, hk⟩ := List.mem_iff_getElem?.1 ho
  simp only [List.getElem?_zip_eq_some, List.getElem?_map, Option.map_eq_some_iff] at hk
  obtain ⟨ho, o', ho', haccess⟩ := hk
  obtain rfl := Option.some.inj (ho.symm.trans ho')
  simp only [haccess, ne_eq, not_true_eq_false, if_false]
  rw [h.buffers, if_pos (hdeclared _ (List.mem_of_getElem? ho))]

/-- An instruction of the body is inside the ranges of all activations it accesses. -/
theorem covers (h : Lowered s f reuse st a) {j : Nat} {x : Instruction} {o : Operand}
    {r : LiveRange} (hx : st.body[j]? = some x) (ho : o ∈ x.operands)
    (hr : a.plan.liveRanges.get? (rootOf st.roots o.buffer) = some r) :
    r.covers (position (lifetimes st) st.body j) = true := by
  obtain ⟨hstart, hstop⟩ := h.planned.range_iff.1 hr
  rw [h.instructions] at hstart hstop
  obtain ⟨i, -, q, l, hl, hbuffer, -⟩ := marks_alloc h.not_marker hstart
  obtain ⟨hmem, -⟩ := mem_starting.1 (List.mem_of_getElem? hl)
  rw [← hbuffer] at hstart hstop
  obtain ⟨hfirst, hlast⟩ := (h.alive l hmem).within hx ho hbuffer.symm
  exact covers_of_lives h.not_marker (lifetimes_nodup h.describes) hmem hstart hstop hfirst hlast

theorem root_eq (h : Lowered s f reuse st a) (b : Nat) : a.plan.root b = rootOf st.roots b := by
  rw [Plan.root, h.planned.viewRoots, rootOf]

theorem accesses_ok (h : Lowered s f reuse st a) :
    (a.instructions.zipIdx.forM fun (i, position) =>
      a.checkAccesses a.plan.liveRanges position i) = .ok () := by
  refine (forM_ok_iff _ _).2 fun ⟨y, p⟩ hy => ?_
  have hy := List.mem_zipIdx_iff_getElem?.1 hy
  rw [h.instructions] at hy
  show a.checkAccesses a.plan.liveRanges p y = .ok ()
  unfold Artifact.checkAccesses
  obtain ⟨j, hj, ⟨q, l, hl, heq, -⟩ | ⟨hxj, hposition⟩ | ⟨q, l, hl, heq, -⟩⟩ :=
    withMarkers_cases hy
  · rw [show y = _ from heq]
    rfl
  · rw [if_neg (by simp [h.not_marker _ (List.mem_of_getElem? hxj)])]
    refine (forM_ok_iff _ _).2 fun o ho => ?_
    rw [h.root_eq]
    split
    · rfl
    · next r hr => rw [show p = _ from hposition, if_pos (h.covers hxj ho hr)]
  · rw [show y = _ from heq]
    rfl

/-- The markers of a lifetime stand in the blocks of its two positions. -/
theorem exists_markers (h : Lowered s f reuse st a) {l : Lifetime} (hl : l ∈ lifetimes st) :
    ∃ q < (starting (lifetimes st) l.first).length, ∃ q' < (ending (lifetimes st) l.last).length,
      Marks a.instructions .alloc (blockStart (lifetimes st) st.body l.first + q) l.buffer ∧
      Marks a.instructions .dealloc (position (lifetimes st) st.body l.last + 1 + q') l.buffer := by
  have halive := h.alive l hl
  have hfirst : l.first < st.body.length := Nat.lt_of_le_of_lt halive.first_le halive.last_lt
  obtain ⟨q, hq⟩ := List.mem_iff_getElem?.1 (mem_starting.2 ⟨hl, rfl⟩)
  obtain ⟨q', hq'⟩ := List.mem_iff_getElem?.1 (mem_ending.2 ⟨hl, rfl⟩)
  refine ⟨q, (List.getElem?_eq_some_iff.1 hq).1, q', (List.getElem?_eq_some_iff.1 hq').1, ?_, ?_⟩
  · exact ⟨_, _, h.instructions ▸ getElem?_alloc hfirst hq, rfl, rfl, rfl⟩
  · exact ⟨_, _, h.instructions ▸ getElem?_dealloc halive.last_lt hq', rfl, rfl, rfl⟩

/-- The live range of an activation. -/
theorem exists_range (h : Lowered s f reuse st a) {l : Lifetime} (hl : l ∈ lifetimes st) :
    ∃ r, a.plan.liveRanges.get? l.buffer = some r := by
  obtain ⟨q, -, q', -, hstart, hstop⟩ := h.exists_markers hl
  exact ⟨⟨_, _⟩, h.planned.range_iff.2 ⟨hstart, hstop⟩⟩

theorem allocated_ok (h : Lowered s f reuse st a) :
    Artifact.checkAllocated a.buffers a.plan.liveRanges = .ok () := by
  refine (forM_ok_iff _ _).2 fun d hd => ?_
  rw [h.buffers] at hd
  obtain ⟨b, hb⟩ := List.mem_iff_getElem?.1 hd
  by_cases hkind : d.kind = .activation
  · obtain ⟨l, hl, hbuffer⟩ := exists_lifetime h.verified h.describes hb hkind
    obtain ⟨r, hr⟩ := h.exists_range hl
    have hcontains : a.plan.liveRanges.contains d.id = true := by
      rw [h.describes.ids hb, ← hbuffer]
      exact IdMap.contains_iff.2 ⟨r, hr⟩
    simp [hcontains]
  · simp [Buffer.isActivation, hkind]

theorem plan_verify_ok (h : Lowered s f reuse st a) (hbytes : bytesOf a.plan.slots < Word.size) :
    a.plan.verify = .ok () := by
  refine h.planned.verify_ok ?_ hbytes
  rw [h.instructions]
  exact stream_bracketed h.verified h.describes

theorem verify_ok (h : Lowered s f reuse st a) (hbytes : bytesOf a.plan.slots < Word.size) :
    a.verify = .ok () := by
  have hranges : (liveRangesOf a.buffers a.instructions).mapError ArtifactFault.plan =
      .ok a.plan.liveRanges := mapError_ok_iff.2 (h.buffers ▸ h.planned.liveRanges)
  refine check_bind_ok_iff.2 ⟨h.positions_ok, check_bind_ok_iff.2 ⟨h.operands_ok,
    bind_ok_iff.2 ⟨_, hranges, ?_⟩⟩⟩
  rw [if_neg (by simp)]
  exact check_bind_ok_iff.2 ⟨h.allocated_ok, check_bind_ok_iff.2 ⟨h.accesses_ok,
    mapError_ok_iff.2 (h.plan_verify_ok hbytes)⟩⟩

/-- The plan of a lowered function roots the buffers as they are declared. -/
theorem roots_declared (h : Lowered s f reuse st a) : a.RootsDeclared := by
  intro b
  -- by induction on the buffer: a view is declared after its source
  induction b using Nat.strongRecOn with
  | ind b ih =>
    intro d hget
    have hd : st.buffers[b]? = some d := by rwa [Artifact.buffer?, h.buffers] at hget
    by_cases hview : ∃ src, d.kind = .view src
    · obtain ⟨src, hkind⟩ := hview
      obtain ⟨hlt, hroot⟩ := rootOf_view h.describes hd hkind
      obtain ⟨e, hsrc⟩ : ∃ e, a.buffer? src = some e := by
        rw [Artifact.buffer?, h.buffers]
        exact ⟨_, List.getElem?_eq_getElem (Nat.lt_trans hlt (List.getElem?_eq_some_iff.1 hd).1)⟩
      have heq : a.plan.root b = a.plan.root src := by rw [h.root_eq, h.root_eq, hroot]
      obtain ⟨hchain, hbase⟩ := ih src hlt e hsrc
      rw [heq]
      exact ⟨.view hget hkind hchain, hbase⟩
    · have hbase : a.Base b := by
        intro d' src hd' hkind
        obtain rfl := Option.some.inj (hget.symm.trans hd')
        exact hview ⟨src, hkind⟩
      rw [h.root_eq, rootOf_eq_self h.describes hd fun src hkind => hview ⟨src, hkind⟩]
      exact ⟨.self, hbase⟩

/-- The plan of a lowered function agrees with its buffers, if a word counts the bytes of its slots. -/
theorem consistent (h : Lowered s f reuse st a) (hbytes : bytesOf a.plan.slots < Word.size) :
    a.Consistent := by
  refine ⟨h.roots_declared, fun slot hslot => ?_, fun slot hslot => ?_⟩ <;>
    obtain ⟨i, hi⟩ := List.mem_iff_getElem?.1 hslot <;>
    obtain ⟨hoffset, hsize, hstop⟩ := h.planned.abutting.exact hbytes hi
  · exact hsize
  · exact Nat.lt_of_le_of_lt (hstop ▸ bytesOf_take_le ..) hbytes

/-! ## Storage -/

theorem mem_weights_iff (h : Lowered s f reuse st a) {b : Nat} {ref : StorageRef} :
    (b, ref) ∈ a.weights ↔ st.weights.lookup ref = some b := by
  rw [Artifact.weights, h.buffers, List.mem_filterMap]
  constructor
  · rintro ⟨d, hd, heq⟩
    obtain ⟨i, hi⟩ := List.mem_iff_getElem?.1 hd
    have hid := h.describes.ids hi
    have horigin := h.describes.origin hi
    cases hkind : d.kind with
    | weight ref' =>
      simp only [hkind, Option.some.injEq, Prod.mk.injEq] at heq
      obtain ⟨rfl, rfl⟩ := heq
      rw [hkind] at horigin
      rw [hid]
      exact horigin
    | activation => simp [hkind] at heq
    | view src => simp [hkind] at heq
    | state => simp [hkind] at heq
  · intro hb
    obtain ⟨name, type, -, -, hd⟩ := h.describes.weight hb
    exact ⟨_, List.mem_of_getElem? hd, rfl⟩

/-- The storage of the artifact is that of the function, once each. -/
theorem weights_perm (h : Lowered s f reuse st a) :
    (a.weights.map (·.2)).Perm f.storageRefs := by
  have hbuffers : a.buffers.Pairwise fun d d' => d.id ≠ d'.id := by
    refine List.pairwise_iff_getElem.2 fun i j hi hj hlt => ?_
    have hget {i : Nat} (hi : i < a.buffers.length) : st.buffers[i]? = some a.buffers[i] := by
      rw [← h.buffers, List.getElem?_eq_getElem hi]
    rw [h.describes.ids (hget hi), h.describes.ids (hget hj)]
    exact Nat.ne_of_lt hlt
  have hweights : a.weights.Pairwise fun x y => x.1 ≠ y.1 := by
    refine List.pairwise_filterMap.2 (hbuffers.imp fun {d d'} hne x hx y hy => ?_)
    split at hx <;> cases hx
    split at hy <;> cases hy
    exact hne
  have hnodup : (a.weights.map (·.2)).Nodup := by
    refine List.pairwise_map.2 (hweights.imp_of_mem fun {x y} hx hy hne heq => hne ?_)
    have hx' := h.mem_weights_iff.1 hx
    have hy' := h.mem_weights_iff.1 hy
    exact Option.some.inj (hx'.symm.trans (heq ▸ hy'))
  have hrefs : f.storageRefs.Nodup := (List.mergeSort_perm ..).nodup_iff.2 (nodup_eraseDups _)
  refine (List.perm_ext_iff_of_nodup hnodup hrefs).2 fun ref => ?_
  rw [Function.storageRefs, List.mem_mergeSort, List.mem_eraseDups, ← h.describes.seen_iff]
  constructor
  · intro hmem
    obtain ⟨⟨b, ref'⟩, hb, rfl⟩ := List.mem_map.1 hmem
    exact ⟨b, h.mem_weights_iff.1 hb⟩
  · rintro ⟨b, hb⟩
    exact List.mem_map.2 ⟨(b, ref), h.mem_weights_iff.2 hb, rfl⟩

end Lowered

/-! ## Lowering -/

/-- The bytes that the slots of a function take together, if it has a plan. -/
def arenaBytes (s : Storage) (f : Function) (reuse : Bool) : Nat :=
  match stream s f with
  | .error _ => 0
  | .ok st =>
    match Plan.make reuse st.buffers (withMarkers (lifetimes st) st.body) with
    | .error _ => 0
    | .ok p => bytesOf p.slots

/-- A verified function has a stream with a plan, and is lowered to the artifact of these if that
passes its checks. -/
theorem exists_lowered (hverify : f.verify s = .ok ()) (reuse : Bool) : ∃ st a,
    stream s f = .ok st ∧ Lowered s f reuse st a ∧ arenaBytes s f reuse = bytesOf a.plan.slots ∧
      ∀ a', f.lower s reuse = .ok a' ↔ a.verify = .ok () ∧ a = a' := by
  obtain ⟨st, hstream, h⟩ := stream_describes hverify
  obtain ⟨p, hmake, hplanned⟩ := make_planned reuse (stream_bracketed hverify h) h.plan_rooted
  refine ⟨st, ⟨f.name, st.buffers, withMarkers (lifetimes st) st.body, p⟩, hstream,
    ⟨hverify, h, rfl, rfl, hplanned⟩, ?_, fun a' => ?_⟩
  · simp only [arenaBytes, hstream, hmake]
  · rw [Function.lower, hverify, hstream]
    simp only [bind, Except.bind, hmake, Except.mapError]
    exact check_bind_ok_iff.trans (and_congr mapError_ok_iff pure_ok_iff)

/-- Lowering a verified function succeeds if a word counts the bytes of its slots. -/
theorem exists_lower (hverify : f.verify s = .ok ()) (hbytes : arenaBytes s f reuse < Word.size) :
    ∃ a, f.lower s reuse = .ok a := by
  obtain ⟨st, a, -, h, harena, hlower⟩ := exists_lowered hverify reuse
  exact ⟨a, (hlower a).2 ⟨h.verify_ok (harena ▸ hbytes), rfl⟩⟩

theorem lowered_of_lower (h : f.lower s reuse = .ok a) : ∃ st, stream s f = .ok st ∧
    Lowered s f reuse st a ∧ arenaBytes s f reuse = bytesOf a.plan.slots := by
  obtain ⟨st, a', hstream, hlowered, harena, hlower⟩ := exists_lowered (check_bind_ok_iff.1 h).1 reuse
  obtain ⟨-, rfl⟩ := (hlower a).1 h
  exact ⟨st, hstream, hlowered, harena⟩

/-- Lowering makes artifacts that pass their check, with plans that agree with their buffers while a
word counts the bytes of the slots. -/
theorem consistent_of_lower (h : f.lower s reuse = .ok a)
    (hbytes : arenaBytes s f reuse < Word.size) : a.verify = .ok () ∧ a.Consistent := by
  obtain ⟨st, -, hlowered, harena⟩ := lowered_of_lower h
  rw [harena] at hbytes
  exact ⟨hlowered.verify_ok hbytes, hlowered.consistent hbytes⟩

end TensorCompiler.Lowering
